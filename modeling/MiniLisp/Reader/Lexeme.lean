import MiniLisp.Text.Basic
import MiniLisp.Text.Span

/-!
# Lexemes: the brackets, marks, symbols, numbers and strings of a form

A form is cut into lexemes from left to right; blanks and comments between them are dropped. A character with which no lexeme
can begin is a lexeme of its own kind, `Token.stray`, at which taking the form apart will stop.
-/

namespace MiniLisp.Reader

/-- The brackets that open a group. -/
inductive Bracket where
  | list | vector | hashVector | set | map
  deriving DecidableEq, Repr

/-- The closer that a bracket waits for. -/
def Bracket.closer : Bracket → Char
  | .list => ')'
  | .vector | .hashVector => ']'
  | .set | .map => '\x7d'

/-- The marks that quote the form behind them, or take it out of a quotation. -/
inductive Mark where
  | quote | quasiquote | unquote | splice
  deriving DecidableEq, Repr

/-- The symbol at the head of the list that a marked form stands for. -/
def Mark.head : Mark → String
  | .quote => "quote"
  | .quasiquote => "quasiquote"
  | .unquote => "unquote"
  | .splice => "unquote-splicing"

/-- The kinds of lexemes. -/
inductive Token where
  | opener (b : Bracket)
  | closer (c : Char)
  | mark (m : Mark)
  | atom (text : List Char)
  | string (raw : List Char)
  | stray
  deriving DecidableEq, Repr

/-- A token and its place. -/
structure Lexeme where
  token : Token
  span : Span
  deriving DecidableEq, Repr

/-- What the characters that come next belong to. -/
inductive LexMode where
  | code | atom | comment | string | escape
  deriving DecidableEq, Repr

/-- The text of a string up to its closing quote, from behind its opening one. -/
def stringBody (escaped : Bool) : List Char → List Char
  | [] => []
  | c :: cs =>
    if escaped then c :: stringBody false cs
    else if c == '\x22' then []
    else c :: stringBody (c == '\x5c') cs

/-- The single character lexemes: a mark or bracket, or a character that begins no lexeme. -/
def charToken (c : Char) : Token :=
  if c == '(' then .opener .list
  else if c == '[' then .opener .vector
  else if c == '\x7b' then .opener .map
  else if isCloser c then .closer c
  else if c == '\x27' then .mark .quote
  else if c == '\x60' then .mark .quasiquote
  else if c == ',' then .mark .unquote
  else .stray

/-- The lexemes of a text that begins at `offset`. An atom or string is taken whole where it begins, and its other characters
are passed over. -/
def lex (mode : LexMode) (offset : Nat) : List Char → List Lexeme
  | [] => []
  | c :: cs =>
    let next := offset + c.utf8Size
    match mode with
    | .comment => lex (if c == '\n' then .code else .comment) next cs
    | .escape => lex .string next cs
    | .string => lex (if c == '\x5c' then .escape else if c == '\x22' then .code else .string) next cs
    | .code | .atom =>
      if isSymbolChar c then
        if mode = .atom then lex .atom next cs
        else
          let text := c :: cs.takeWhile isSymbolChar
          ⟨.atom text, ⟨offset, offset + byteLength text⟩⟩ :: lex .atom next cs
      else if isBlank c then lex .code next cs
      else if c == ';' then lex .comment next cs
      else if c == '\x22' then
        let raw := stringBody false cs
        ⟨.string raw, ⟨offset, offset + byteLength raw + 2⟩⟩ :: lex .string next cs
      else
        match c, cs with
        | '#', '[' :: cs => ⟨.opener .hashVector, ⟨offset, offset + 2⟩⟩ :: lex .code (offset + 2) cs
        | '#', '\x7b' :: cs => ⟨.opener .set, ⟨offset, offset + 2⟩⟩ :: lex .code (offset + 2) cs
        | ',', '@' :: cs => ⟨.mark .splice, ⟨offset, offset + 2⟩⟩ :: lex .code (offset + 2) cs
        | c, cs => ⟨charToken c, ⟨offset, next⟩⟩ :: lex .code next cs

end MiniLisp.Reader
