import MiniLisp.Error
import MiniLisp.Number.Literal
import MiniLisp.Value.Basic

/-!
# Printing: the text of a value

Data print as they are read: lists in round brackets, vectors in square ones, sets and maps in braces, strings quoted with the
characters that need it escaped. Functions, macros, modules and constructors print as a description in angle brackets. The
printer writes behind a text that it is given, so that a long list takes no more room than its elements.
-/

namespace MiniLisp

/-- A character as it stands between the quotes of a printed string. -/
def escapeChar (c : Char) : List Char :=
  if c == '\n' then ['\x5c', 'n']
  else if c == '\t' then ['\x5c', 't']
  else if c == '\r' then ['\x5c', 'r']
  else if c == '\x00' then ['\x5c', '0']
  else if c == '\x5c' then ['\x5c', '\x5c']
  else if c == '\x22' then ['\x5c', '\x22']
  else [c]

/-- A text between quotes, with the characters escaped that a string literal cannot hold. -/
def quoteText (s : String) : String :=
  "\x22" ++ String.ofList (s.toList.flatMap escapeChar) ++ "\x22"

namespace Value

/-- What is written before a value: in the tail of a list, the dot that marks it as improper. -/
def openTail (inTail : Bool) (out : String) : String := if inTail then out ++ " . " else out

/-- What is written after a value: in the tail of a list, the bracket that closes the list. -/
def closeTail (inTail : Bool) (out : String) : String := if inTail then out ++ ")" else out

/-- A function or macro in angle brackets, with its name if it has one. -/
def describeLambda (kind : String) (name : Option Symbol) : String :=
  match name with
  | some name => "#<" ++ kind ++ " " ++ name ++ ">"
  | none => "#<" ++ kind ++ ">"

mutual

/-- Write a value behind `out`. With `inTail` the value is what follows a head of a list that is being written: a pair goes
on with the list, `nil` ends it, and anything else ends it behind a dot. -/
def write (inTail : Bool) (out : String) : Value → String
  | .pair h t => write true (write false (out ++ (if inTail then " " else "(")) h) t
  | .nil => out ++ (if inTail then ")" else "nil")
  | .bool b => closeTail inTail (openTail inTail out ++ (if b then "true" else "false"))
  | .num n => closeTail inTail (openTail inTail out ++ n.text)
  | .str s => closeTail inTail (openTail inTail out ++ quoteText s)
  | .sym s => closeTail inTail (openTail inTail out ++ s)
  | .vector xs => closeTail inTail (writeItems "" (openTail inTail out ++ "[") xs ++ "]")
  | .set ⟨xs⟩ => closeTail inTail (writeItems "" (openTail inTail out ++ "#\x7b") xs ++ "\x7d")
  | .map ⟨es⟩ => closeTail inTail (writeEntries "" (openTail inTail out ++ "\x7b") es ++ "\x7d")
  | .setForm xs => closeTail inTail (writeItems "" (openTail inTail out ++ "#\x7b") xs ++ "\x7d")
  | .mapForm es => closeTail inTail (writeEntries "" (openTail inTail out ++ "\x7b") es ++ "\x7d")
  | .closure f => closeTail inTail (openTail inTail out ++ describeLambda "lambda" f.name)
  | .macroFn f => closeTail inTail (openTail inTail out ++ describeLambda "macro" f.name)
  | .native p => closeTail inTail (openTail inTail out ++ "#<native " ++ p.name ++ ">")
  | .module name _ => closeTail inTail (openTail inTail out ++ "#<module " ++ name ++ ">")
  | .record v [] => closeTail inTail (openTail inTail out ++ v.tag)
  | .record v (x :: xs) =>
    closeTail inTail (writeItems " " (write false (openTail inTail out ++ "(" ++ v.tag ++ " ") x) xs ++ ")")
  | .constructor v => closeTail inTail (openTail inTail out ++ "#<constructor " ++ v.tag ++ ">")

/-- Write values behind `out`, the first behind `gap` and each other behind a blank. -/
def writeItems (gap : String) (out : String) : List Value → String
  | [] => out
  | x :: xs => writeItems " " (write false (out ++ gap) x) xs

/-- Write entries behind `out`, the first behind `gap` and each other behind a blank, a blank between key and value. -/
def writeEntries (gap : String) (out : String) : List (Value × Value) → String
  | [] => out
  | (k, v) :: es => writeEntries " " (write false (write false (out ++ gap) k ++ " ") v) es

end

/-- The text of a value. -/
def print (v : Value) : String := write false "" v

/-- The text that a program shows to its user: that of a value, but strings without quotes. -/
def displayText : Value → String
  | .str s => s
  | v => v.print

/-- A value in an error message: its kind and its text, cut to sixty characters. -/
def describe (v : Value) : String :=
  let printed := v.print
  if 60 < printed.length then v.typeName ++ " " ++ String.ofList (printed.toList.take 57) ++ "..."
  else v.typeName ++ " " ++ printed

/-- The elements of a proper list that is needed for `purpose`. -/
def expectList (purpose : String) (v : Value) : Except Error (List Value) :=
  match v.toList? with
  | some items => .ok items
  | none => .error (.typeMismatch ("a proper list for " ++ purpose) v.describe)

/-- The symbol that a value is, or the complaint that `what` was wanted. -/
def expectSymbol (what : String) (v : Value) : Except Error Symbol :=
  match v.asSymbol? with
  | some s => .ok s
  | none => .error (.typeMismatch what v.describe)

end Value

end MiniLisp
