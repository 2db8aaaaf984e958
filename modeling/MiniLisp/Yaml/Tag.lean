import MiniLisp.Yaml.Cursor

/-!
# YAML tags and directives

A tag says what kind of data a node is. It is a handle, for which a directive before the document gives the text that it stands
for, and a suffix. Both are made of octets, which are written as characters of ASCII or behind a percent sign; here every octet
is the character with its number.
-/

namespace MiniLisp.Yaml

/-- A tag as it is written. The tag without a handle is its suffix. -/
structure Tag where
  handle : String
  suffix : String
  deriving DecidableEq, Repr

/-- What the lines before a document can say: the version it is written in, or the text that a handle stands for. -/
inductive Directive where
  | version (major minor : Nat)
  | handle (name text : String)
  deriving DecidableEq, Repr

/-! ## Octets -/

/-- The characters that stand for themselves in a tag. In a whole URI these are more than in a suffix, which ends where the
structure of a collection in brackets goes on. -/
def isUriChar (whole : Bool) (c : Char) : Bool :=
  isNameChar c || ";/?:@&=+$.!~*\x27()".toList.contains c || (whole && ",[]".toList.contains c)

/-- How many octets follow one that begins the code of a character. -/
def trailingOctets? (octet : Nat) : Option Nat :=
  if octet < 0x80 then some 0
  else if octet < 0xc0 then none
  else if octet < 0xe0 then some 1
  else if octet < 0xf0 then some 2
  else if octet < 0xf8 then some 3
  else none

/-- The octets that are written here, and what is left behind them. Where the code of a character is begun, as many more octets
are `due`. -/
def octets? (whole : Bool) : (due : Nat) → List Char → Option (List Char × List Char)
  | due, '%' :: high :: low :: cs => do
    let octet ← numeral? 16 [high, low]
    let due ← if due == 0 then trailingOctets? octet else if octet / 0x40 == 2 then some (due - 1) else none
    let (text, rest) ← octets? whole due cs
    return (Char.ofNat octet :: text, rest)
  | 0, c :: cs =>
    if isUriChar whole c then (octets? whole 0 cs).map fun (text, rest) => (c :: text, rest)
    else if c == '%' then none
    else some ([], c :: cs)
  | 0, [] => some ([], [])
  | _ + 1, _ => none

/-- The octets that stand here, and the place behind them. -/
def uri? (whole : Bool) (c : Cursor) : Option (List Char × Cursor) := do
  let (text, rest) ← octets? whole 0 c.rest
  return (text, c.advance (c.rest.length - rest.length))

/-- The text of octets: they count up to the first that is zero. -/
def octetText (cs : List Char) : String := String.ofList (cs.takeWhile (· != '\x00'))

/-! ## Tags -/

/-- The exclamation mark that stands here with the name behind it, and with the exclamation mark that ends the name. -/
def handle? (c : Cursor) : Option (List Char × Cursor) :=
  if c.head? == some '!' then
    let (name, c) := (c.advance 1).takeWhile isNameChar
    if c.head? == some '!' then some ('!' :: name ++ ['!'], c.advance 1) else some ('!' :: name, c)
  else none

/-- A tag that is a whole URI, in angle brackets. -/
def verbatimTag? (c : Cursor) : Option (Tag × Cursor) := do
  let (text, c) ← uri? true (c.advance 2)
  if text.isEmpty || c.head? != some '>' then none else some (⟨"", octetText text⟩, c.advance 1)

/-- A tag with a handle. A name without an exclamation mark behind it belongs to the suffix, and a lone exclamation mark is a
suffix without a handle. -/
def shorthandTag? (c : Cursor) : Option (Tag × Cursor) := do
  let (handle, c) ← handle? c
  let (text, c) ← uri? false c
  if handle.length > 1 && handle.getLast? == some '!' then
    if text.isEmpty then none else some (⟨String.ofList handle, octetText text⟩, c)
  else
    let suffix := octetText (handle.drop 1 ++ text)
    some (if suffix.isEmpty then ⟨"", "!"⟩ else ⟨"!", suffix⟩, c)

/-- The tag that stands here and the place behind it, where a gap is, or inside brackets a comma. -/
def tag? (inFlow : Bool) (c : Cursor) : Option (Tag × Cursor) := do
  let (tag, c) ← if (c.rest.drop 1).head? == some '<' then verbatimTag? c else shorthandTag? c
  if gapStarts c.rest || (inFlow && c.head? == some ',') then some (tag, c) else none

/-! ## Directives -/

/-- The digits of a version that are read at most. -/
def longestVersion : Nat := 9

/-- A part of a version. -/
def versionPart? (c : Cursor) : Option (Nat × Cursor) := do
  let (digits, c) := c.takeWhile Char.isDigit
  if digits.length ≤ longestVersion then some (← numeral? 10 digits, c) else none

/-- The version that stands here. -/
def version? (c : Cursor) : Option (Directive × Cursor) := do
  let (major, c) ← versionPart? c
  if c.head? != some '.' then none
  let (minor, c) ← versionPart? (c.advance 1)
  return (.version major minor, c)

/-- The handle that stands here, and the text that it stands for. -/
def handleMeaning? (c : Cursor) : Option (Directive × Cursor) := do
  let (handle, c) ← handle? c
  if handle.getLast? != some '!' || !c.head?.any isGap then none
  let (text, c) ← uri? true c.skipGaps
  if text.isEmpty || !gapStarts c.rest then none
  else some (.handle (String.ofList handle) (octetText text), c)

/-- The directive whose percent sign stands here, and the place behind its line. -/
def directive? (c : Cursor) : Option (Directive × Cursor) := do
  let (name, c) := (c.advance 1).takeWhile isNameChar
  if !gapStarts c.rest then none
  let (directive, c) ←
    match String.ofList name with
    | "YAML" => version? c.skipGaps
    | "TAG" => handleMeaning? c.skipGaps
    | _ => none
  return (directive, ← c.finishLine?)

end MiniLisp.Yaml
