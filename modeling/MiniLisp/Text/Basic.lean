/-!
# Text: the bytes of characters and the classes of characters the reader tells apart

Positions in a source are counted in bytes of its UTF-8 form, while the reader walks over characters. `byteLength` joins
the two: the position after a run of characters is the position before it plus the byte length of the run.
-/

namespace MiniLisp

/-- The number of bytes that a run of characters takes in UTF-8. -/
def byteLength : List Char → Nat
  | [] => 0
  | c :: cs => c.utf8Size + byteLength cs

@[simp]
theorem byteLength_nil : byteLength [] = 0 := rfl

@[simp]
theorem byteLength_cons (c : Char) (cs : List Char) : byteLength (c :: cs) = c.utf8Size + byteLength cs := rfl

@[simp]
theorem byteLength_append (as bs : List Char) : byteLength (as ++ bs) = byteLength as + byteLength bs := by
  induction as with
  | nil => simp
  | cons c cs ih => simp [ih, Nat.add_assoc]

/-- The characters that lie wholly within the first `n` bytes. -/
def takeBytes : Nat → List Char → List Char
  | _, [] => []
  | n, c :: cs => if c.utf8Size ≤ n then c :: takeBytes (n - c.utf8Size) cs else []

/-- Taking the bytes of a leading run gives that run: a position after whole characters cuts between characters. -/
theorem takeBytes_append (as bs : List Char) : takeBytes (byteLength as) (as ++ bs) = as := by
  induction as with
  | nil =>
    cases bs with
    | nil => rfl
    | cons c cs =>
      have h : ¬ c.utf8Size ≤ 0 := Nat.not_le.2 c.utf8Size_pos
      simp [takeBytes, h]
  | cons c cs ih => simp [takeBytes, ih]

/-- The four characters that separate forms. -/
def isBlank (c : Char) : Bool := c == ' ' || c == '\t' || c == '\r' || c == '\n'

/-- The punctuation that may stand in a symbol. -/
def symbolPunctuation : List Char :=
  ['!', '$', '%', '&', '*', '+', '-', '.', '/', ':', '<', '=', '>', '?', '@', '^', '_', '~', '|']

/-- The characters of symbols and numbers: ASCII letters and digits, and some punctuation. -/
def isSymbolChar (c : Char) : Bool := c.isAlphanum || symbolPunctuation.contains c

/-- The characters that open a list, a vector or a map; with a `#` before it, `[` opens a vector and the brace a set. -/
def isOpener (c : Char) : Bool := c == '(' || c == '[' || c == '\x7b'

/-- The characters that close a group. -/
def isCloser (c : Char) : Bool := c == ')' || c == ']' || c == '\x7d'

/-- The closer that ends the group begun by an opener. -/
def closerFor (opener : Char) : Char :=
  if opener == '(' then ')' else if opener == '[' then ']' else '\x7d'

/-- The characters that end a symbol or number at the top level of a source. -/
def isTerminator (c : Char) : Bool :=
  isBlank c || isOpener c || isCloser c || c == '\x22' || c == ';' || c == '\x27' || c == '\x60' || c == ','

/-- The Unicode property White_Space. -/
def isUnicodeSpace (c : Char) : Bool :=
  let n := c.toNat
  (0x09 ≤ n && n ≤ 0x0d) || n == 0x20 || n == 0x85 || n == 0xa0 || n == 0x1680 || (0x2000 ≤ n && n ≤ 0x200a) ||
    n == 0x2028 || n == 0x2029 || n == 0x202f || n == 0x205f || n == 0x3000

end MiniLisp
