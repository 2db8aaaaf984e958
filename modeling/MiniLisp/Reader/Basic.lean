import MiniLisp.Reader.Extent
import MiniLisp.Reader.Form

/-!
# Reading: the forms of a source, one after another

`readForm` reads the form at a place and gives the place where the next one begins to be looked for, also when the form is
malformed: one bad form hides none of those that follow. `items` reads a whole text this way.
-/

namespace MiniLisp.Reader

/-- What was read at one place: a form with its span, or a fault. -/
inductive ReadItem where
  | form (value : Value) (span : Span)
  | fault (f : Fault)

/-- The characters from a place up to a position behind it. -/
def Cursor.textUntil (c : Cursor) (stop : Nat) : List Char := takeBytes (stop - c.offset) c.rest

/-- The next form at or behind a place, and the place behind it; nothing, if only blanks and comments are left. -/
def readForm (c : Cursor) : Option (ReadItem × Cursor) :=
  let start := skipTrivia false c.offset c.rest
  if start.rest.isEmpty then none
  else
    match scanForm start with
    | .error failure => some (.fault ⟨failure.kind, failure.span⟩, failure.resume)
    | .ok stop =>
      let span : Span := ⟨start.offset, stop.offset⟩
      match readExtent (start.textUntil stop.offset) span with
      | .ok value => some (.form value span, stop)
      | .error fault => some (.fault fault, stop)

/-- At most `limit` items from a place on, each with the position behind it. -/
def itemsFrom (c : Cursor) : (limit : Nat) → List (ReadItem × Nat)
  | 0 => []
  | limit + 1 =>
    match readForm c with
    | none => []
    | some (item, next) => (item, next.offset) :: itemsFrom next limit

/-- All items of a text. Every item takes at least one character, so there are no more items than characters. -/
def items (text : List Char) : List (ReadItem × Nat) := itemsFrom (.ofText text) text.length

/-- A fault as an error of a source. -/
def Fault.toError (f : Fault) (source : Source) : Error := (Error.ofKind f.kind).locatedAt source f.span

/-- The form or error that an item is in its source. -/
def ReadItem.result (item : ReadItem) (source : Source) : Except Error (Value × Span) :=
  match item with
  | .form value span => .ok (value, span)
  | .fault f => .error (f.toError source)

/-- The results of reading a source, in order. -/
def results (source : Source) : List (Except Error (Value × Span)) :=
  (items source.chars).map fun item => item.1.result source

/-- The forms of a source, or the first error in it. -/
def readAll (source : Source) : Except Error (List Value) :=
  (results source).mapM fun result => result.map (·.1)

/-- The forms of a text that is no file. -/
def readText (text : String) : Except Error (List Value) := readAll ⟨"<input>", text⟩

end MiniLisp.Reader
