import MiniLisp.Error
import MiniLisp.Number.Literal
import MiniLisp.Value.Basic

/-!
# Literals: the values of symbols, numbers and strings

A run of symbol characters is a number if it starts like one, then a boolean, and else a symbol. Symbols carry two shorthands:
`rest...` marks a parameter that takes all further arguments, and `a.b.c` is the access to a field of a field. A cause of error
is given without its place, which the caller knows.
-/

namespace MiniLisp.Reader

/-- Whether a run of symbol characters starts like a number: with a digit, or with a minus and a digit. -/
def startsNumber : List Char → Bool
  | '-' :: c :: _ => c.isDigit
  | c :: _ => c.isDigit
  | [] => false

/-- The value of a number literal: an exact number, or a float if the text has a point or an exponent and no slash. -/
def readNumber (text : List Char) : Except ErrorKind Value :=
  match parseExactChars text with
  | some n => .ok (.num n)
  | none =>
    let inexact := text.any (fun c => c == '.' || c == 'e' || c == 'E') && !text.contains '/'
    match if inexact then parseDecimal text else none with
    | some x => .ok (.num (.float x))
    | none => .error (.invalidLiteral "number" (String.ofList text))

/-- The pieces of a text between its dots. -/
def splitDots : List Char → List (List Char)
  | [] => [[]]
  | c :: cs =>
    match splitDots cs with
    | piece :: pieces => if c == '.' then [] :: piece :: pieces else (c :: piece) :: pieces
    | [] => [[c]]

/-- The access to a field of what `target` gives. -/
def fieldAccess (target : Value) (field : List Char) : Value :=
  .list [.sym ".", target, .wrap "quote" (.sym (String.ofList field))]

/-- The value of a symbol literal. -/
def readSymbol (text : List Char) : Except ErrorKind Value :=
  let invalid := .error (.invalidLiteral "qualified name" (String.ofList text))
  if text == "nil".toList then .ok .nil
  else if 3 < text.length && "...".toList.isSuffixOf text then
    let name := text.take (text.length - 3)
    if name.contains '.' then invalid else .ok (.wrap "varg" (.sym (String.ofList name)))
  else if text.contains '.' && !text.all (· == '.') then
    match splitDots text with
    | first :: fields =>
      if first.isEmpty || fields.any List.isEmpty then invalid
      else .ok (fields.foldl fieldAccess (.sym (String.ofList first)))
    | [] => invalid
  else .ok (.sym (String.ofList text))

/-- The value of a run of symbol characters. -/
def readAtom (text : List Char) : Except ErrorKind Value :=
  if startsNumber text then readNumber text
  else if text == "true".toList then .ok (.bool true)
  else if text == "false".toList then .ok (.bool false)
  else readSymbol text

/-- The character that a backslash and `c` stand for. -/
def unescapeChar (c : Char) : Option Char :=
  if c == 'n' then some '\n'
  else if c == 't' then some '\t'
  else if c == 'r' then some '\r'
  else if c == '0' then some '\x00'
  else if c == '\x5c' then some '\x5c'
  else if c == '\x22' then some '\x22'
  else none

/-- The characters that the text between the quotes of a string stands for. -/
def unescape : List Char → Except ErrorKind (List Char)
  | [] => .ok []
  | '\x5c' :: c :: cs =>
    match unescapeChar c with
    | some d => (unescape cs).map (d :: ·)
    | none => .error (.invalidLiteral "escape sequence" (String.ofList ['\x5c', c]))
  | '\x5c' :: [] => .error (.invalidLiteral "escape sequence" (String.ofList ['\x5c']))
  | c :: cs => (unescape cs).map (c :: ·)

/-- The value of a string, from the text between its quotes. -/
def readString (raw : List Char) : Except ErrorKind Value :=
  (unescape raw).map fun cs => .str (String.ofList cs)

end MiniLisp.Reader
