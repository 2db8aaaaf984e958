import MiniLisp.Yaml.Cursor

/-!
# YAML scalars: plain, quoted and block texts

A plain scalar is a run of words, and ends where an indicator follows; a quoted one ends at its quote; a block scalar is made of
the lines that are indented far enough. Plain and quoted ones may go on over several lines, and then a line end counts as a
space and every further one as itself.
-/

namespace MiniLisp.Yaml

/-- How a scalar is written. -/
inductive Style where
  | plain | quoted | literal | folded
  deriving DecidableEq, Repr

/-- The text of a scalar that follows some text, and the place behind it. -/
abbrev Scanned := Option (List Char × Cursor)

/-- What stands between two words of a scalar: gaps on a line, or line ends, with the gaps around them left out. The first of the
line ends may be none, if it was escaped. -/
inductive Separation where
  | gaps (cs : List Char)
  | breaks (first : Option Char) (further : List Char)

namespace Separation

/-- No separation. -/
def none : Separation := .gaps []

/-- The separation with one more gap. -/
def addGap : Separation → Char → Separation
  | .gaps cs, c => .gaps (cs ++ [c])
  | s, _ => s

/-- The separation with one more line end. -/
def addBreak : Separation → Char → Separation
  | .gaps _, c => .breaks (some c) []
  | .breaks first further, c => .breaks first (further ++ [c])

/-- The characters that a separation stands for. -/
def text : Separation → List Char
  | .gaps cs => cs
  | .breaks (some '\n') [] => [' ']
  | .breaks (some '\n') further => further
  | .breaks first further => first.toList ++ further

end Separation

/-! ## Plain scalars -/

/-- The characters that structure a collection in brackets. -/
def isFlowIndicator (c : Char) : Bool := c == ',' || c == '[' || c == ']' || c == '\x7b' || c == '\x7d'

/-- The characters that begin something else than a plain scalar. -/
def isIndicatorChar (c : Char) : Bool :=
  isFlowIndicator c || "-?:#&*!|>%@".toList.contains c || c == '\x27' || c == '\x22' || c == '\x60'

/-- Whether a plain scalar may begin here. -/
def plainStarts (inFlow : Bool) : List Char → Bool
  | [] => false
  | c :: cs =>
    if c == '-' then !gapStarts cs
    else if c == '?' || c == ':' then !inFlow && !gapStarts cs
    else !isGap c && !isBreak c && !isIndicatorChar c

/-- Whether a word of a plain scalar ends before this character. -/
def wordEnds (inFlow : Bool) (c : Char) (cs : List Char) : Bool :=
  isGap c || isBreak c || (c == ':' && gapStarts cs) || (inFlow && isFlowIndicator c)

/-- Whether a colon stands here right before an indicator of a collection in brackets, which is malformed. -/
def strayColon (inFlow : Bool) : List Char → Bool
  | ':' :: c :: _ => inFlow && (isFlowIndicator c || c == '?')
  | _ => false

/-- The length of the word of a plain scalar that begins here. -/
def wordLength? (inFlow : Bool) : List Char → Option Nat
  | [] => some 0
  | c :: cs =>
    if strayColon inFlow (c :: cs) then none
    else if wordEnds inFlow c cs then some 0
    else (wordLength? inFlow cs).map (· + 1)

/-- The separation that begins here and the place behind it. A tab must not stand for the indentation of a line. -/
def separation? (least : Nat) (before : Separation) (line column : Nat) : List Char → Option (Separation × Cursor)
  | [] => some (before, ⟨[], line, column⟩)
  | c :: cs =>
    if isBreak c then separation? least (before.addBreak c) (line + 1) 0 cs
    else if c == '\t' && column < least && before matches .breaks .. then none
    else if isGap c then separation? least (before.addGap c) line (column + 1) cs
    else some (before, ⟨c :: cs, line, column⟩)

/-- The rest of a plain scalar, after some of its text, whether line ends follow its last word, and the place behind them. Outside
brackets its lines are indented to the column `least` or more. -/
def plainFrom? (inFlow : Bool) (least : Nat) : (fuel : Nat) → List Char → Cursor → Option (List Char × Bool × Cursor)
  | 0, _, _ => none
  | fuel + 1, before, c => do
    let n ← wordLength? inFlow c.rest
    let text := before ++ c.rest.take n
    let word := c.advance n
    if !gapStarts word.rest then return (text, false, word)
    let (gap, next) ← separation? least .none word.line word.column word.rest
    let ends := next.rest.isEmpty || next.atMark || next.head? == some '#' || (!inFlow && next.column < least) ||
      wordLength? inFlow next.rest == some 0
    if ends then return (text, gap matches .breaks .., next) else plainFrom? inFlow least fuel (text ++ gap.text) next

/-- The plain scalar that begins here, whether line ends follow it, and the place behind them. -/
def plain? (inFlow : Bool) (least : Nat) (c : Cursor) : Option (List Char × Bool × Cursor) :=
  if plainStarts inFlow c.rest then plainFrom? inFlow least (c.rest.length + 1) [] c else none

/-! ## Quoted scalars -/

/-- The rest of a scalar in single quotes, after some of its text; a quote in it is written twice. -/
def singleQuoted? (before : List Char) (gap : Separation) (line column : Nat) : List Char → Scanned
  | [] => none
  | '\x27' :: '\x27' :: cs => singleQuoted? (before ++ gap.text ++ ['\x27']) .none line (column + 2) cs
  | '\x27' :: cs => some (before ++ gap.text, ⟨cs, line, column + 1⟩)
  | c :: cs =>
    if isBreak c then
      if Cursor.atMark ⟨cs, line, 0⟩ then none else singleQuoted? before (gap.addBreak c) (line + 1) 0 cs
    else if isGap c then singleQuoted? before (gap.addGap c) line (column + 1) cs
    else singleQuoted? (before ++ gap.text ++ [c]) .none line (column + 1) cs

/-- The character that a letter behind a backslash stands for. -/
def escaped? (c : Char) : Option Char :=
  [('0', 0x00), ('a', 0x07), ('b', 0x08), ('t', 0x09), ('\t', 0x09), ('n', 0x0a), ('v', 0x0b), ('f', 0x0c), ('r', 0x0d),
    ('e', 0x1b), (' ', 0x20), ('\x22', 0x22), ('/', 0x2f), ('\x5c', 0x5c), ('N', 0x85), ('_', 0xa0), ('L', 0x2028),
    ('P', 0x2029)].lookup c |>.map Char.ofNat

/-- How many hexadecimal digits follow a letter behind a backslash. -/
def escapeWidth? (c : Char) : Option Nat := [('x', 2), ('u', 4), ('U', 8)].lookup c

/-- The character that hexadecimal digits stand for, as many as `width`. -/
def codePoint? (width : Nat) (digits : List Char) : Option Char := do
  if digits.length != width then none
  let n ← numeral? 16 digits
  if n.isValidChar then some (Char.ofNat n) else none

/-- The rest of a scalar in double quotes, after some of its text. -/
def doubleQuoted? (before : List Char) (gap : Separation) (line column : Nat) : (fuel : Nat) → List Char → Scanned
  | 0, _ | _, [] => none
  | _, '\x22' :: cs => some (before ++ gap.text, ⟨cs, line, column + 1⟩)
  | fuel + 1, '\x5c' :: c :: cs =>
    if isBreak c then
      if Cursor.atMark ⟨cs, line, 0⟩ then none
      else doubleQuoted? (before ++ gap.text) (.breaks none []) (line + 1) 0 fuel cs
    else
      match escapeWidth? c with
      | some width => do
        let x ← codePoint? width (cs.take width)
        doubleQuoted? (before ++ gap.text ++ [x]) .none line (column + 2 + width) fuel (cs.drop width)
      | none => do
        let x ← escaped? c
        doubleQuoted? (before ++ gap.text ++ [x]) .none line (column + 2) fuel cs
  | fuel + 1, c :: cs =>
    if isBreak c then
      if Cursor.atMark ⟨cs, line, 0⟩ then none else doubleQuoted? before (gap.addBreak c) (line + 1) 0 fuel cs
    else if isGap c then doubleQuoted? before (gap.addGap c) line (column + 1) fuel cs
    else if c == '\x5c' then none
    else doubleQuoted? (before ++ gap.text ++ [c]) .none line (column + 1) fuel cs

/-- The quoted scalar that begins here and the place behind it. -/
def quoted? (c : Cursor) : Scanned :=
  match c.rest with
  | '\x27' :: cs => singleQuoted? [] .none c.line (c.column + 1) cs
  | '\x22' :: cs => doubleQuoted? [] .none c.line (c.column + 1) (cs.length + 1) cs
  | _ => none

/-! ## Block scalars -/

/-- Which of the line ends behind a block scalar belong to it: none, the first, or all. -/
inductive Chomping where
  | strip | clip | keep
  deriving DecidableEq, Repr

/-- The sign that asks for a treatment of the line ends. -/
def Chomping.ofSign? : Char → Option Chomping
  | '-' => some .strip
  | '+' => some .keep
  | _ => none

/-- The digit that says how far a block scalar is indented beyond what is around it. -/
def increment? (c : Char) : Option Nat := if '1' ≤ c && c ≤ '9' then digitValue? c else none

/-- The signs behind the indicator of a block scalar, in either order, each of them optional. -/
def blockHeader (c : Cursor) : Option Nat × Chomping × Cursor :=
  let first := c.head?
  let second := (c.rest.drop 1).head?
  match first.bind Chomping.ofSign?, first.bind increment? with
  | some chomping, _ =>
    match second.bind increment? with
    | some n => (some n, chomping, c.advance 2)
    | none => (none, chomping, c.advance 1)
  | none, some n =>
    match second.bind Chomping.ofSign? with
    | some chomping => (some n, chomping, c.advance 2)
    | none => (some n, .clip, c.advance 1)
  | none, none => (none, .clip, c)

/-- The line ends of the empty lines that begin here, the largest width of their indentation, and the place behind the
indentation of the line that follows. An indentation that is known is not exceeded, and a tab must not stand for it. -/
def emptyLines? (indent : Option Nat) : (fuel : Nat) → List Char → (widest : Nat) → Cursor → Option (List Char × Nat × Cursor)
  | 0, _, _, _ => none
  | fuel + 1, before, widest, c =>
    let spaces := (c.rest.takeWhile (· == ' ')).length
    let c := c.advance (match indent with
      | some n => min spaces (n - c.column)
      | none => spaces)
    let widest := max widest c.column
    let short := match indent with
      | some n => decide (c.column < n)
      | none => true
    if short && c.head? == some '\t' then none
    else
      match c.passBreak with
      | ([], c) => some (before, widest, c)
      | (ends, c) => emptyLines? indent fuel (before ++ ends) widest c

/-- The text of a block scalar while it is read: what is complete, whether the last line began with a gap, its line end, and the
line ends of the empty lines behind it. -/
structure BlockText where
  text : List Char := []
  gapLine : Bool := false
  lineEnd : List Char := []
  emptyLines : List Char := []

namespace BlockText

/-- What joins the last line to one that follows. Line ends are folded between two lines that do not begin with a gap. -/
def joint (folded : Bool) (b : BlockText) (gapLine : Bool) : List Char :=
  if folded && b.lineEnd == ['\n'] && !b.gapLine && !gapLine then
    if b.emptyLines.isEmpty then [' '] else b.emptyLines
  else b.lineEnd ++ b.emptyLines

/-- The whole text, with the line ends behind it that belong to it. -/
def finish (b : BlockText) : Chomping → List Char
  | .strip => b.text
  | .clip => b.text ++ b.lineEnd
  | .keep => b.text ++ b.lineEnd ++ b.emptyLines

end BlockText

/-- The rest of a block scalar, line by line, as long as the lines are indented far enough. -/
def blockLines? (folded : Bool) (indent : Nat) : (fuel : Nat) → BlockText → Cursor → Option (BlockText × Cursor)
  | 0, _, _ => none
  | fuel + 1, b, c =>
    if c.column == indent && !c.rest.isEmpty then do
      let gapLine := c.head?.any isGap
      let (line, c) := c.takeWhile fun x => !isBreak x
      let (lineEnd, c) := c.passBreak
      let (emptyLines, _, c) ← emptyLines? (some indent) (c.rest.length + 1) [] 0 c
      blockLines? folded indent fuel { text := b.text ++ b.joint folded gapLine ++ line, gapLine, lineEnd, emptyLines } c
    else some (b, c)

/-- The block scalar whose indicator stands here, and the place behind it. Its lines are indented to the column `least` or more,
and by one at least. -/
def block? (folded : Bool) (least : Nat) (c : Cursor) : Scanned := do
  let (increment, chomping, c) := blockHeader (c.advance 1)
  let c ← c.finishLine?
  let fuel := c.rest.length + 1
  let given := increment.map fun n => least - 1 + n
  let (emptyLines, widest, c) ← emptyLines? given fuel [] 0 c
  let indent := given.getD (max widest (max least 1))
  let (b, c) ← blockLines? folded indent fuel { emptyLines } c
  return (b.finish chomping, c)

end MiniLisp.Yaml
