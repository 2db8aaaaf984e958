/-!
# Places in a YAML text

YAML is laid out in lines and columns: a cursor is the text that is left with the line and the column where it begins. Before
anything is read, the line ends that mean the same are made the same (`lines?`).
-/

namespace MiniLisp.Yaml

/-- The characters that may stand in a YAML text. -/
def isPrintable (c : Char) : Bool :=
  let n := c.toNat
  c == '\t' || c == '\n' || c == '\r' || (0x20 ≤ n && n ≤ 0x7e) || n == 0x85 || (0xa0 ≤ n && n ≤ 0xfffd) || 0x10000 ≤ n

/-- Carriage returns, with a line feed or without, and next-line characters as line feeds. -/
def unifyBreaks : List Char → List Char
  | [] => []
  | '\r' :: '\n' :: cs => '\n' :: unifyBreaks cs
  | c :: cs => (if c == '\r' || c == '\x85' then '\n' else c) :: unifyBreaks cs

/-- The characters of a text with their line ends unified, if they all may stand in it. -/
def lines? (text : String) : Option (List Char) :=
  if text.toList.all isPrintable then some (unifyBreaks text.toList) else none

/-- The characters that end a line: the line feed, and the line and paragraph separators, which are never folded. -/
def isBreak (c : Char) : Bool := c == '\n' || c == '\u2028' || c == '\u2029'

/-- The characters that separate words on a line. -/
def isGap (c : Char) : Bool := c == ' ' || c == '\t'

/-- Whether a word may end here: at a gap, or at the end of the line or of the text. -/
def gapStarts : List Char → Bool
  | [] => true
  | c :: _ => isGap c || isBreak c

/-- The characters of the names of anchors, tag handles and directives. -/
def isNameChar (c : Char) : Bool := c.isAlphanum || c == '_' || c == '-'

/-- The value of a digit, in bases up to sixteen. -/
def digitValue? (c : Char) : Option Nat :=
  if c.isDigit then some (c.toNat - '0'.toNat)
  else if 'a' ≤ c && c ≤ 'f' then some (c.toNat - 'a'.toNat + 10)
  else if 'A' ≤ c && c ≤ 'F' then some (c.toNat - 'A'.toNat + 10)
  else none

/-- The number that one or more digits of a base stand for. -/
def numeral? (base : Nat) (digits : List Char) : Option Nat :=
  if digits.isEmpty then none
  else digits.foldlM (fun n c => (digitValue? c).bind fun d => if d < base then some (base * n + d) else none) 0

/-- A place in a text: what is left, and the line and column of its first character. -/
structure Cursor where
  rest : List Char
  line : Nat := 0
  column : Nat := 0

namespace Cursor

/-- The character here. -/
def head? (c : Cursor) : Option Char := c.rest.head?

/-- The place `n` characters further on the same line. -/
def advance (c : Cursor) (n : Nat) : Cursor := { c with rest := c.rest.drop n, column := c.column + n }

/-- The place behind a line end that stands here, and the line end; nothing changes where there is none. -/
def passBreak (c : Cursor) : List Char × Cursor :=
  match c.rest with
  | x :: cs => if isBreak x then ([x], ⟨cs, c.line + 1, 0⟩) else ([], c)
  | [] => ([], c)

/-- The characters that stand here up to the first that is of another kind, and the place behind them. -/
def takeWhile (p : Char → Bool) (c : Cursor) : List Char × Cursor :=
  let cs := c.rest.takeWhile p
  (cs, c.advance cs.length)

/-- The place behind the gaps on this line. -/
def skipGaps (c : Cursor) : Cursor := (c.takeWhile isGap).2

/-- The place behind the gaps and the comment on this line. -/
def skipComment (c : Cursor) : Cursor :=
  let c := c.skipGaps
  if c.head? == some '#' then (c.takeWhile fun x => !isBreak x).2 else c

/-- Whether the line or the text ends here. -/
def atLineEnd (c : Cursor) : Bool :=
  match c.rest with
  | x :: _ => isBreak x
  | [] => true

/-- The place behind the end of a line on which nothing but gaps and a comment is left. -/
def finishLine? (c : Cursor) : Option Cursor :=
  let c := c.skipComment
  if c.atLineEnd then some c.passBreak.2 else none

/-- Whether three of these characters stand at the start of the line as a mark between documents. -/
def isMark (c : Cursor) (x : Char) : Bool :=
  c.column == 0 && c.rest.take 3 == [x, x, x] && gapStarts (c.rest.drop 3)

/-- Whether a mark between documents stands here. -/
def atMark (c : Cursor) : Bool := c.isMark '-' || c.isMark '.'

/-- Whether a character stands here as an indicator, with a gap behind it. -/
def isIndicator (c : Cursor) (indicator : Char) : Bool := c.head? == some indicator && gapStarts (c.rest.drop 1)

/-- The place behind blanks, comments and line ends. A tab is a blank when `tabs`; a line of block structure must not begin with
one, a line inside brackets may. A byte order mark may begin any line, and takes up a column. -/
def skipFrom (inFlow tabs comment : Bool) (line column : Nat) : List Char → Cursor
  | [] => ⟨[], line, column⟩
  | c :: cs =>
    if isBreak c then skipFrom inFlow inFlow false (line + 1) 0 cs
    else if comment || c == ' ' || (tabs && c == '\t') || (column == 0 && c == '\ufeff') then
      skipFrom inFlow tabs comment line (column + 1) cs
    else if c == '#' then skipFrom inFlow tabs true line (column + 1) cs
    else ⟨c :: cs, line, column⟩

@[inherit_doc skipFrom]
def skip (c : Cursor) (inFlow tabs : Bool) : Cursor := skipFrom inFlow tabs false c.line c.column c.rest

end Cursor

end MiniLisp.Yaml
