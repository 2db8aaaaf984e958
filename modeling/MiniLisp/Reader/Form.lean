import MiniLisp.Reader.Lexeme
import MiniLisp.Reader.Literal

/-!
# Forms: from lexemes to a value

The lexemes of a form are read with a stack of what is still open: groups with the items found so far, and marks that wait for
the form behind them. An item is a value, or the first fault in what it was made of: a form that is built correctly from
brackets and marks, but holds a literal without a value, is reported for that literal. A form that is not built correctly is
reported for the first lexeme that cannot follow.
-/

namespace MiniLisp.Reader

/-- A cause of error and its place. -/
structure Fault where
  kind : ErrorKind
  span : Span
  deriving DecidableEq, Repr

/-- A value, or the first fault in it. -/
abbrev Item := Except Fault Value

/-- What is open while a form is read. -/
inductive Pending where
  /-- A group, the position of its bracket, and its items so far, last first. -/
  | group (bracket : Bracket) (start : Nat) (items : List Item)
  /-- A mark that waits for its form. -/
  | mark (m : Mark)

/-- The values of items, or the first fault among them. -/
def sequenceItems : List Item → Except Fault (List Value)
  | [] => .ok []
  | item :: items => do
    let v ← item
    let vs ← sequenceItems items
    return v :: vs

/-- The value of a group. -/
def groupItem (bracket : Bracket) (span : Span) (items : List Item) : Item := do
  let values ← sequenceItems items
  match bracket with
  | .list => return .list values
  | .vector | .hashVector => return .vector values
  | .set => return .setForm values
  | .map =>
    if values.length % 2 == 0 then return .mapForm (pairUp values)
    else throw ⟨.oddMapLiteral values.length, span⟩

/-- The value of a marked form. -/
def markItem (m : Mark) (item : Item) : Item := item.map (.wrap m.head)

/-- A literal as an item at its place. -/
def literalItem (span : Span) (read : Except ErrorKind Value) : Item := read.mapError fun kind => ⟨kind, span⟩

/-- Add a finished item to what is open: the marks before it take it, and then the innermost group, if there is one; without a
group the item is the whole form. -/
def complete (item : Item) : List Pending → List Pending × Option Item
  | [] => ([], some item)
  | .mark m :: stack => complete (markItem m item) stack
  | .group b start items :: stack => (.group b start (item :: items) :: stack, none)

/-- The stack at a closer. A splicing mark with nothing behind it is an unquoted at sign. -/
def settle : List Pending → List Pending
  | .mark .splice :: stack => (complete (.ok (.wrap "unquote" (.sym "@"))) stack).1
  | stack => stack

/-- Read the lexemes of one form that ends at `stop`; a form that is not built correctly gives the position of the first lexeme
that cannot follow. -/
def parse (stop : Nat) (stack : List Pending) (finished : Option Item) : List Lexeme → Except Nat Item
  | [] =>
    match finished with
    | some item => .ok item
    | none => .error stop
  | l :: ls =>
    match finished with
    | some _ => .error l.span.start
    | none =>
      match l.token with
      | .opener b => parse stop (.group b l.span.start [] :: stack) none ls
      | .mark m => parse stop (.mark m :: stack) none ls
      | .atom text =>
        let (stack, finished) := complete (literalItem l.span (readAtom text)) stack
        parse stop stack finished ls
      | .string raw =>
        let (stack, finished) := complete (literalItem l.span (readString raw)) stack
        parse stop stack finished ls
      | .closer c =>
        match settle stack with
        | .group b start items :: stack =>
          if c == b.closer then
            let (stack, finished) := complete (groupItem b ⟨start, l.span.stop⟩ items.reverse) stack
            parse stop stack finished ls
          else .error l.span.start
        | _ => .error l.span.start
      | .stray => .error l.span.start

/-- The fault of a form that cannot go on at `position`: the text from there up to the next white space is what was found. -/
def malformed (extent : List Char) (span : Span) (position : Nat) : Fault :=
  let before := takeBytes (position - span.start) extent
  let found := (extent.drop before.length).takeWhile fun c => !isUnicodeSpace c
  let text := if found.isEmpty then "end of form" else "'" ++ String.ofList found ++ "'"
  ⟨.unexpectedToken "a form" text, ⟨position, min (position + 1) span.stop⟩⟩

/-- The value of a form with this text and place. -/
def readExtent (extent : List Char) (span : Span) : Item :=
  match parse span.stop [] none (lex .code span.start extent) with
  | .ok item => item
  | .error position => .error (malformed extent span position)

end MiniLisp.Reader
