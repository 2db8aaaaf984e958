import MiniLisp.Yaml.Token

/-!
# YAML documents

`Document.ofText?` reads a stream of one document into a tree of nodes. A node can be given a name by an anchor, and a reference
stands for a node by its name. A text that is malformed anywhere has no tree.
-/

namespace MiniLisp.Yaml

/-- A piece of data. -/
inductive Node where
  | scalar (style : Style) (tag : Option String) (text : String)
  | sequence (items : List Node)
  | mapping (entries : List (Node × Node))
  /-- The node whose anchor has a number. -/
  | reference (number : Nat)

/-- The missing node, which is a plain scalar without text. -/
def Node.missing : Node := .scalar .plain none ""

/-! ## Reading tokens -/

/-- The tokens that are left, the texts that the handles of tags stand for, the numbers of the anchors by their names, and the
nodes with an anchor by their numbers, in the order in which they begin. -/
structure Progress where
  tokens : List Token
  handles : List (String × String)
  numbers : List (String × Nat) := []
  anchored : Array (Nat × Node) := #[]

/-- A part of a document, read from its tokens; nothing, if it is malformed. -/
abbrev Reading := StateT Progress Option

namespace Reading

/-- The text is malformed. -/
def malformed {α : Type} : Reading α := fun _ => none

/-- Go on only if a condition holds. -/
def ensure (condition : Bool) : Reading Unit := if condition then pure () else malformed

/-- The next token. -/
def peek : Reading (Option Token) := fun p => some (p.tokens.head?, p)

/-- Whether the next token is one of these. -/
def isNext (ts : List Token) : Reading Bool := fun p => some (p.tokens.head?.any ts.contains, p)

/-- Go on behind the next token. -/
def pass : Reading Unit := fun p => some ((), { p with tokens := p.tokens.tail })

/-- Go on behind the next token if it is this one, and say whether it is. -/
def accept (t : Token) : Reading Bool := do
  if ← isNext [t] then
    pass
    return true
  else return false

/-- The reference to the last anchor with a name. -/
def refer (name : String) : Reading Node := fun p => (p.numbers.lookup name).map fun number => (.reference number, p)

/-- Begin the node of an anchor, and give its place among the nodes with one. The number of an anchor is how many names there
are, so that after a name that is used again the same number can come again. -/
def beginAnchored (name : String) : Reading Nat := fun p =>
  let number := p.numbers.length
  let others := p.numbers.filter (·.1 != name)
  some (p.anchored.size, { p with numbers := (name, number) :: others, anchored := p.anchored.push (number, .missing) })

/-- End the node of an anchor. -/
def endAnchored (place : Nat) (node : Node) : Reading Unit := fun p =>
  some ((), { p with anchored := p.anchored.modify place fun (number, _) => (number, node) })

/-- The whole text of a tag. -/
def resolve (t : Tag) : Reading String := fun p =>
  if t.handle.isEmpty then some (t.suffix, p)
  else (p.handles.lookup t.handle).map fun text => (text ++ t.suffix, p)

end Reading

open Reading

/-- What stands before a node: at most one anchor and one tag. -/
structure Properties where
  anchor : Option String := none
  tag : Option String := none

/-- The anchor and the tag that stand here, in either order. -/
def properties : (count : Nat) → Properties → Reading Properties
  | 0, props => pure props
  | count + 1, props => do
    match ← peek with
    | some (.anchor name) =>
      ensure props.anchor.isNone
      pass
      properties count { props with anchor := some name }
    | some (.tag t) =>
      ensure props.tag.isNone
      pass
      properties count { props with tag := some (← resolve t) }
    | _ => return props

/-- Whether the collection in brackets ends here; otherwise a comma is due, unless nothing came before it. -/
def flowCloses (first : Bool) (closer : Token) : Reading Bool := do
  if ← accept closer then return true
  else if first then return false
  else
    ensure (← accept .comma)
    accept closer

/-! ## Nodes -/

mutual

/-- A node. Block collections are nodes where `block`, and a sequence that is not indented is one where `underKey`. -/
def node (block underKey : Bool) : (fuel : Nat) → Reading Node
  | 0 => malformed
  | fuel + 1 => do
    match ← peek with
    | some (.reference name) =>
      pass
      refer name
    | _ =>
      let props ← properties 2 {}
      match props.anchor with
      | some name =>
        let place ← beginAnchored name
        let node ← content block underKey props fuel
        endAnchored place node
        return node
      | none => content block underKey props fuel
termination_by structural fuel => fuel

/-- A node behind its properties. If there are any, it may be missing. -/
def content (block underKey : Bool) (props : Properties) : (fuel : Nat) → Reading Node
  | 0 => malformed
  | fuel + 1 => do
    match ← peek with
    | some (.scalar style text) =>
      pass
      return .scalar style props.tag text
    | some .openSequence =>
      pass
      return .sequence (← flowItems true fuel)
    | some .openMapping =>
      pass
      return .mapping (← flowEntries true fuel)
    | t =>
      if underKey && t == some .item then return .sequence (← looseItems fuel)
      else if block && t == some .blockSequence then
        pass
        return .sequence (← blockItems fuel)
      else if block && t == some .blockMapping then
        pass
        return .mapping (← blockEntries fuel)
      else
        ensure (props.anchor.isSome || props.tag.isSome)
        return .scalar .plain props.tag ""
termination_by structural fuel => fuel

/-- A node, or the missing one before some tokens. -/
def nodeBefore (ends : List Token) (block underKey : Bool) : (fuel : Nat) → Reading Node
  | 0 => malformed
  | fuel + 1 => do
    if ← isNext ends then return .missing else node block underKey fuel
termination_by structural fuel => fuel

/-- The value behind a colon, if there is one. -/
def valueBefore (ends : List Token) (block : Bool) : (fuel : Nat) → Reading Node
  | 0 => malformed
  | fuel + 1 => do
    if ← accept .value then nodeBefore ends block block fuel else return .missing
termination_by structural fuel => fuel

/-- The rest of a block sequence. -/
def blockItems : (fuel : Nat) → Reading (List Node)
  | 0 => malformed
  | fuel + 1 => do
    if ← accept .blockEnd then return []
    ensure (← accept .item)
    let item ← nodeBefore [.item, .blockEnd] true false fuel
    return item :: (← blockItems fuel)
termination_by structural fuel => fuel

/-- The rest of a sequence under a key that is not indented further than the key: it ends where no item follows. -/
def looseItems : (fuel : Nat) → Reading (List Node)
  | 0 => malformed
  | fuel + 1 => do
    if ← accept .item then
      let item ← nodeBefore [.item, .key, .value, .blockEnd] true false fuel
      return item :: (← looseItems fuel)
    else return []
termination_by structural fuel => fuel

/-- The rest of a block mapping. -/
def blockEntries : (fuel : Nat) → Reading (List (Node × Node))
  | 0 => malformed
  | fuel + 1 => do
    if ← accept .blockEnd then return []
    ensure (← accept .key)
    let ends := [.key, .value, .blockEnd]
    let key ← nodeBefore ends true true fuel
    let value ← valueBefore ends true fuel
    return (key, value) :: (← blockEntries fuel)
termination_by structural fuel => fuel

/-- An entry of a sequence in brackets: a node, or a mapping of one key. Where the key is missing, the token behind it is passed
over whatever it is. -/
def flowItem : (fuel : Nat) → Reading Node
  | 0 => malformed
  | fuel + 1 => do
    if ← accept .key then
      let missing ← isNext [.value, .comma, .closeSequence]
      if missing then pass
      let key ← if missing then pure .missing else node false false fuel
      let value ← valueBefore [.comma, .closeSequence] false fuel
      return .mapping [(key, value)]
    else node false false fuel
termination_by structural fuel => fuel

/-- The rest of a sequence in brackets. -/
def flowItems (first : Bool) : (fuel : Nat) → Reading (List Node)
  | 0 => malformed
  | fuel + 1 => do
    if ← flowCloses first .closeSequence then return []
    let item ← flowItem fuel
    return item :: (← flowItems false fuel)
termination_by structural fuel => fuel

/-- The rest of a mapping in brackets. A node that is no key stands for one with the missing value. -/
def flowEntries (first : Bool) : (fuel : Nat) → Reading (List (Node × Node))
  | 0 => malformed
  | fuel + 1 => do
    if ← flowCloses first .closeMapping then return []
    let entry ← do
      if ← accept .key then
        let key ← nodeBefore [.value, .comma, .closeMapping] false false fuel
        pure (key, ← valueBefore [.comma, .closeMapping] false fuel)
      else pure (← node false false fuel, .missing)
    return entry :: (← flowEntries false fuel)
termination_by structural fuel => fuel

end

/-! ## Documents -/

/-- The texts that handles stand for where no directive says otherwise. -/
def standardHandles : List (String × String) := [("!", "!"), ("!!", "tag:yaml.org,2002:")]

/-- The texts that directives give to handles, each handle at most once. The version is given at most once, and is one of the two
that are known. -/
def handles? : (versioned : Bool) → List Directive → Option (List (String × String))
  | _, [] => some []
  | versioned, .version major minor :: ds =>
    if !versioned && major == 1 && (minor == 1 || minor == 2) then handles? true ds else none
  | versioned, .handle name text :: ds => do
    let others ← handles? versioned ds
    if (others.lookup name).isSome then none else some ((name, text) :: others)

/-- The directives that tokens begin with, and the tokens behind them. -/
def takeDirectives : List Token → List Directive × List Token
  | .directive d :: ts =>
    let (ds, rest) := takeDirectives ts
    (d :: ds, rest)
  | ts => ([], ts)

/-- The node of a document behind the mark for its start, if there is one. -/
def markedNode (fuel : Nat) : Reading Node := do
  match ← peek with
  | none | some (.directive _) | some .documentStart | some .documentEnd => return .missing
  | _ => node true false fuel

/-- The only node of a stream. Behind a mark for the start of a document it may be missing, but not behind directives alone. -/
def streamNode (directed : Bool) (fuel : Nat) : Reading Node := do
  if ← accept .documentStart then markedNode fuel
  else
    ensure !directed
    node true false fuel

/-- A document: its node, and the nodes with an anchor by their numbers. -/
structure Document where
  root : Node
  anchored : List (Nat × Node) := []

namespace Document

/-- The node that a node stands for: a reference stands for the last that begins among those with its number. -/
def resolve? (d : Document) : Node → Option Node
  | .reference number => d.anchored.reverse.lookup number
  | node => some node

/-- The document that tokens are. No tokens stand for the missing node, and only marks for the end may follow a document. -/
def ofTokens? (tokens : List Token) : Option Document := do
  if tokens.isEmpty then return { root := .missing }
  let (directives, rest) := takeDirectives tokens
  let handles := (← handles? false directives) ++ standardHandles
  let fuel := 4 * rest.length + 4
  let (root, p) ← streamNode (!directives.isEmpty) fuel { tokens := rest, handles }
  if p.tokens.all (· == .documentEnd) then some { root, anchored := p.anchored.toList } else none

/-- The document that a text is. -/
def ofText? (text : String) : Option Document := (tokens? text).bind ofTokens?

end Document

end MiniLisp.Yaml
