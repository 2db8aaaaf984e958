import MiniLisp.Error

/-!
# Extents: where the next form of a source ends

Before a form is taken apart, its extent is found by balancing brackets alone, so that reading can go on behind a form that
turns out to be malformed. Outside brackets a symbol or number ends at a terminator; a group ends at the closer of its opener,
where brackets in strings and comments do not count. Each scanner walks over the characters once and counts their bytes.
-/

namespace MiniLisp.Reader

/-- A place in a source: the position in bytes, and the text from there on. -/
structure Cursor where
  offset : Nat
  rest : List Char
  deriving DecidableEq, Repr

/-- The start of a text. -/
def Cursor.ofText (text : List Char) : Cursor := ⟨0, text⟩

/-- Why a form has no extent: the cause, the place to show, and the place where reading goes on. -/
structure Failure where
  kind : ErrorKind
  span : Span
  resume : Cursor
  deriving DecidableEq, Repr

/-- The first place at or after `offset` that is neither blank nor in a comment. -/
def skipTrivia (inComment : Bool) (offset : Nat) : List Char → Cursor
  | [] => ⟨offset, []⟩
  | c :: cs =>
    if inComment then skipTrivia (c != '\n') (offset + c.utf8Size) cs
    else if isBlank c then skipTrivia false (offset + c.utf8Size) cs
    else if c == ';' then skipTrivia true (offset + c.utf8Size) cs
    else ⟨offset, c :: cs⟩

/-- The place behind the quoting marks (a quote, a backquote, a comma, a comma with an at sign) and the trivia between them; or
the position of the end, if the text ends there. -/
def skipMarks (inComment : Bool) (offset : Nat) : List Char → Except Nat Cursor
  | [] => .error offset
  | ',' :: '@' :: cs => skipMarks inComment (offset + 2) cs
  | c :: cs =>
    if inComment then skipMarks (c != '\n') (offset + c.utf8Size) cs
    else if isBlank c || c == '\x27' || c == '\x60' || c == ',' then skipMarks false (offset + c.utf8Size) cs
    else if c == ';' then skipMarks true (offset + c.utf8Size) cs
    else .ok ⟨offset, c :: cs⟩

/-- The complaint about a string that began at `opened` in a text that ends at `stop`. -/
def unterminated (opened stop : Nat) : Failure := ⟨.unterminatedString, ⟨opened, stop⟩, ⟨stop, []⟩⟩

/-- The place behind a string literal, from behind its opening quote. A backslash takes the next character with it. -/
def scanString (opened : Nat) (escaped : Bool) (offset : Nat) : List Char → Except Failure Cursor
  | [] => .error (unterminated opened offset)
  | c :: cs =>
    if escaped then scanString opened false (offset + c.utf8Size) cs
    else if c == '\x5c' then scanString opened true (offset + c.utf8Size) cs
    else if c == '\x22' then .ok ⟨offset + c.utf8Size, cs⟩
    else scanString opened false (offset + c.utf8Size) cs

/-- What the scanner of a group is inside of. -/
inductive Mode where
  | code
  | comment
  | string (opened : Nat)
  | escape (opened : Nat)
  deriving DecidableEq, Repr

/-- The outermost opener of a group and its place. -/
structure Opening where
  delimiter : Char
  span : Span
  deriving DecidableEq, Repr

/-- The complaint about a group that is still open where the text ends. -/
def unclosed (opening : Opening) (stop : Nat) : Failure :=
  ⟨.unmatchedDelimiter opening.delimiter, opening.span, ⟨stop, []⟩⟩

/-- A character in single quotes. -/
def quoted (c : Char) : String := "'" ++ c.toString ++ "'"

/-- The complaint about a closer that does not close the innermost open group. -/
def mismatched (expected found : Char) (offset : Nat) (rest : List Char) : Failure :=
  ⟨.unexpectedToken (quoted expected) (quoted found), ⟨offset, offset + 1⟩, ⟨offset + 1, rest⟩⟩

/-- The place behind a group, from behind its opener. The innermost group waits for `expected`, the groups around it for the
closers in `outer`. -/
def scanGroup (opening : Opening) (expected : Char) (outer : List Char) (mode : Mode) (offset : Nat) :
    List Char → Except Failure Cursor
  | [] =>
    match mode with
    | .string opened | .escape opened => .error (unterminated opened offset)
    | _ => .error (unclosed opening offset)
  | c :: cs =>
    match mode with
    | .comment => scanGroup opening expected outer (if c == '\n' then .code else .comment) (offset + c.utf8Size) cs
    | .escape opened => scanGroup opening expected outer (.string opened) (offset + c.utf8Size) cs
    | .string opened =>
      if c == '\x5c' then scanGroup opening expected outer (.escape opened) (offset + c.utf8Size) cs
      else if c == '\x22' then scanGroup opening expected outer .code (offset + c.utf8Size) cs
      else scanGroup opening expected outer (.string opened) (offset + c.utf8Size) cs
    | .code =>
      if c == ';' then scanGroup opening expected outer .comment (offset + c.utf8Size) cs
      else if c == '\x22' then scanGroup opening expected outer (.string offset) (offset + c.utf8Size) cs
      else if isOpener c then scanGroup opening (closerFor c) (expected :: outer) .code (offset + c.utf8Size) cs
      else if isCloser c then
        if c == expected then
          match outer with
          | [] => .ok ⟨offset + c.utf8Size, cs⟩
          | next :: outer => scanGroup opening next outer .code (offset + c.utf8Size) cs
        else .error (mismatched expected c offset cs)
      else scanGroup opening expected outer .code (offset + c.utf8Size) cs

/-- The place of the first terminator. -/
def scanAtom (offset : Nat) : List Char → Cursor
  | [] => ⟨offset, []⟩
  | c :: cs => if isTerminator c then ⟨offset, c :: cs⟩ else scanAtom (offset + c.utf8Size) cs

/-- The place behind the group whose opener of `width` bytes ends in `delimiter`. -/
def scanOpened (delimiter : Char) (width : Nat) (offset : Nat) (rest : List Char) : Except Failure Cursor :=
  scanGroup ⟨delimiter, ⟨offset, offset + width⟩⟩ (closerFor delimiter) [] .code (offset + width) rest

/-- The place behind what follows the quoting marks of a form: a string, a group, or a symbol or number. -/
def scanBody (c : Cursor) : Except Failure Cursor :=
  match c.rest with
  | '\x22' :: cs => scanString c.offset false (c.offset + 1) cs
  | '#' :: '[' :: cs => scanOpened '[' 2 c.offset cs
  | '#' :: '\x7b' :: cs => scanOpened '\x7b' 2 c.offset cs
  | d :: cs =>
    if isCloser d then
      .error ⟨.unmatchedDelimiter d, ⟨c.offset, c.offset + 1⟩, ⟨c.offset + 1, cs⟩⟩
    else if isOpener d then scanOpened d 1 c.offset cs
    else .ok (scanAtom c.offset (d :: cs))
  | [] => .ok c

/-- The place behind the form that starts at a place. -/
def scanForm (start : Cursor) : Except Failure Cursor :=
  match skipMarks false start.offset start.rest with
  | .ok body => scanBody body
  | .error stop => .error ⟨.unexpectedToken "a form" "end of input", ⟨start.offset, stop⟩, ⟨stop, []⟩⟩

end MiniLisp.Reader
