import MiniLisp.Yaml.Scalar
import MiniLisp.Yaml.Tag

/-!
# YAML tokens

`tokens?` cuts a text into tokens. Indentation becomes tokens for the begin and the end of block collections. That a node is a
key is seen only at the colon behind it: the node is a candidate until then, and the token that announces a key is put before it
afterwards.
-/

namespace MiniLisp.Yaml

/-- A token. Block collections begin and end where the indentation changes, the others with their brackets. -/
inductive Token where
  | directive (d : Directive)
  | documentStart | documentEnd
  | blockSequence | blockMapping | blockEnd
  | openSequence | closeSequence | openMapping | closeMapping
  | item | comma | key | value
  | reference (name : String)
  | anchor (name : String)
  | tag (t : Tag)
  | scalar (style : Style) (text : String)
  deriving DecidableEq, Repr

/-- A node that is a key if a colon follows: how many tokens come before it, where it begins, and whether it can be nothing else,
because it stands in the column of the keys of a mapping. -/
structure Candidate where
  index : Nat
  line : Nat
  column : Nat
  required : Bool

/-- The longest text that can be a key without an indicator before it. -/
def longestKey : Nat := 1024

/-- Whether a colon at this place comes too late to make a key: it stands on a later line, or too far behind. -/
def Candidate.isStale (k : Candidate) (here : Cursor) : Bool := k.line < here.line || k.column + longestKey < here.column

/-- What is left of a candidate when some are given up. One that must be a key cannot be. -/
def giveUp? (which : Candidate → Bool) : Option Candidate → Option (Option Candidate)
  | some k => if !which k then some (some k) else if k.required then none else some none
  | none => some none

/-- How far a text is cut into tokens. -/
structure Scan where
  cursor : Cursor
  /-- The tokens so far, the last first. -/
  tokens : List Token := []
  /-- The columns of the block collections that are open, the innermost first. -/
  columns : List Nat := []
  /-- The candidate for a key between the innermost brackets. -/
  candidate : Option Candidate := none
  /-- The candidates outside of each pair of brackets that is open. -/
  outerCandidates : List (Option Candidate) := []
  /-- Whether a key or block structure may begin here. -/
  keyAllowed : Bool := true

namespace Scan

/-- Whether brackets are open. -/
def inFlow (s : Scan) : Bool := !s.outerCandidates.isEmpty

/-- The least column that is inside the innermost block collection. -/
def least (s : Scan) : Nat :=
  match s.columns with
  | column :: _ => column + 1
  | [] => 0

/-- Add a token of `n` characters. -/
def take (s : Scan) (n : Nat) (t : Token) : Scan := { s with cursor := s.cursor.advance n, tokens := t :: s.tokens }

/-- Put a token behind the first `n`. -/
def insertAt (s : Scan) (n : Nat) (t : Token) : Scan :=
  let later := s.tokens.length - n
  { s with tokens := s.tokens.take later ++ t :: s.tokens.drop later }

/-- Begin a block collection behind the first `n` tokens, unless its column is that of the innermost one. -/
def openBlock (s : Scan) (column n : Nat) (t : Token) : Scan :=
  if !s.inFlow && s.least ≤ column then { s.insertAt n t with columns := column :: s.columns } else s

/-- End the innermost block collections up to the first whose column is kept. -/
def closeBlocks (s : Scan) (kept : Nat → Bool) : Scan :=
  if s.inFlow then s
  else
    let closed := (s.columns.takeWhile fun column => !kept column).length
    { s with columns := s.columns.drop closed, tokens := List.replicate closed .blockEnd ++ s.tokens }

/-- Give up the candidate here. -/
def dropKey? (s : Scan) : Option Scan := do
  return { s with candidate := ← giveUp? (fun _ => true) s.candidate }

/-- Give up the candidates that are stale. -/
def dropStale? (s : Scan) : Option Scan := do
  let stale := giveUp? (·.isStale s.cursor)
  return { s with candidate := ← stale s.candidate, outerCandidates := ← s.outerCandidates.mapM stale }

/-- Make the node that begins here a candidate, if a key may begin here. -/
def saveKey? (s : Scan) : Option Scan := do
  if !s.keyAllowed then return s
  let s ← s.dropKey?
  let required := !s.inFlow && s.least == s.cursor.column + 1
  return { s with candidate := some ⟨s.tokens.length, s.cursor.line, s.cursor.column, required⟩ }

/-- Go on behind blanks, comments and line ends. Block structure may begin on a new line. -/
def skip (s : Scan) : Scan :=
  let c := s.cursor.skip s.inFlow (s.inFlow || !s.keyAllowed)
  { s with cursor := c, keyAllowed := s.keyAllowed || (!s.inFlow && s.cursor.line < c.line) }

/-- End all block collections, before what stands between documents. -/
def endDocument? (s : Scan) : Option Scan := do
  return { ← (s.closeBlocks fun _ => false).dropKey? with keyAllowed := false }

/-- A directive. -/
def directive? (s : Scan) : Option Scan := do
  let s ← s.endDocument?
  let (d, c) ← Yaml.directive? s.cursor
  return { s with cursor := c, tokens := .directive d :: s.tokens }

/-- A mark between documents. -/
def mark? (s : Scan) (t : Token) : Option Scan := do
  return (← s.endDocument?).take 3 t

/-- An opening bracket. -/
def open? (s : Scan) (t : Token) : Option Scan := do
  let s ← s.saveKey?
  return { s.take 1 t with candidate := none, outerCandidates := s.candidate :: s.outerCandidates, keyAllowed := true }

/-- A closing bracket. One that closes nothing is no concern here. -/
def close? (s : Scan) (t : Token) : Option Scan := do
  let s := { (← s.dropKey?).take 1 t with keyAllowed := false }
  match s.outerCandidates with
  | candidate :: rest => return { s with candidate, outerCandidates := rest }
  | [] => return s

/-- A comma. -/
def comma? (s : Scan) : Option Scan := do
  return { (← s.dropKey?).take 1 .comma with keyAllowed := true }

/-- An indicator before an item or a key, which may begin a block collection. -/
def indicator? (s : Scan) (collection t : Token) : Option Scan := do
  if !s.inFlow && !s.keyAllowed then none
  (s.openBlock s.cursor.column s.tokens.length collection).dropKey?.map (·.take 1 t)

/-- The dash before an item. -/
def item? (s : Scan) : Option Scan := do
  return { ← s.indicator? .blockSequence .item with keyAllowed := true }

/-- The question mark before a key. -/
def key? (s : Scan) : Option Scan := do
  return { ← s.indicator? .blockMapping .key with keyAllowed := !s.inFlow }

/-- The colon before a value: it makes the candidate a key. -/
def value? (s : Scan) : Option Scan := do
  match s.candidate with
  | some k =>
    let s := (s.insertAt k.index .key).openBlock k.column k.index .blockMapping
    return { s.take 1 .value with candidate := none, keyAllowed := false }
  | none => return { ← s.indicator? .blockMapping .value with keyAllowed := !s.inFlow }

/-- A token that can begin a key, taken by a scanner. -/
def content? {α : Type} (s : Scan) (scanner : Cursor → Option (α × Cursor)) (t : α → Token) : Option Scan := do
  let s ← s.saveKey?
  let (a, c) ← scanner s.cursor
  return { s with cursor := c, tokens := t a :: s.tokens, keyAllowed := false }

/-- The name behind an `&` or `*`. -/
def name? (c : Cursor) : Option (String × Cursor) :=
  let (name, c) := (c.advance 1).takeWhile isNameChar
  let ended := gapStarts c.rest || c.head?.any fun x => "?:,]%@".toList.contains x || x == '\x7d' || x == '\x60'
  if !name.isEmpty && ended then some (String.ofList name, c) else none

/-- A block scalar. -/
def block? (s : Scan) (style : Style) : Option Scan := do
  let s ← s.dropKey?
  let (text, c) ← Yaml.block? (style == .folded) s.least s.cursor
  return { s with cursor := c, tokens := .scalar style (String.ofList text) :: s.tokens, keyAllowed := true }

/-- A plain scalar. Where a line ends behind it, a key may follow. -/
def plain? (s : Scan) : Option Scan := do
  let s ← s.saveKey?
  let (text, ended, c) ← Yaml.plain? s.inFlow s.least s.cursor
  return { s with cursor := c, tokens := .scalar .plain (String.ofList text) :: s.tokens, keyAllowed := ended }

/-- The token that begins here with a character. -/
def token? (s : Scan) (x : Char) : Option Scan :=
  let indicates := s.inFlow || gapStarts (s.cursor.rest.drop 1)
  if s.cursor.column == 0 && x == '%' then s.directive?
  else if s.cursor.isMark '-' then s.mark? .documentStart
  else if s.cursor.isMark '.' then s.mark? .documentEnd
  else if x == '[' then s.open? .openSequence
  else if x == '\x7b' then s.open? .openMapping
  else if x == ']' then s.close? .closeSequence
  else if x == '\x7d' then s.close? .closeMapping
  else if x == ',' then s.comma?
  else if s.cursor.isIndicator '-' then s.item?
  else if x == '?' && indicates then s.key?
  else if x == ':' && indicates then s.value?
  else if x == '*' then s.content? name? .reference
  else if x == '&' then s.content? name? .anchor
  else if x == '!' then s.content? (tag? s.inFlow) .tag
  else if x == '|' && !s.inFlow then s.block? .literal
  else if x == '>' && !s.inFlow then s.block? .folded
  else if x == '\x27' || x == '\x22' then s.content? quoted? fun text => .scalar .quoted (String.ofList text)
  else s.plain?

/-- The tokens of the whole text. -/
def run? : (fuel : Nat) → Scan → Option (List Token)
  | 0, _ => none
  | fuel + 1, s => do
    let s ← s.skip.dropStale?
    let s := s.closeBlocks (· ≤ s.cursor.column)
    match s.cursor.head? with
    | some x => run? fuel (← s.token? x)
    | none => return (← s.endDocument?).tokens.reverse

end Scan

/-- The tokens of a text. Every one of them takes up a character at least. -/
def tokens? (text : String) : Option (List Token) := do
  let cs ← lines? text
  Scan.run? (cs.length + 1) { cursor := ⟨cs, 0, 0⟩ }

end MiniLisp.Yaml
