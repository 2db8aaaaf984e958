import MiniLisp.Value.Basic

/-!
# Special forms: the lists whose elements are not evaluated like the arguments of a call

A list is a special form because of the symbol at its head, whatever that symbol may be bound to.
-/

namespace MiniLisp

/-- The special forms. -/
inductive SpecialForm where
  | quote | quasiquote | unquote | unquoteSplicing | varg
  | ifForm | begin | letForm | letMutable | assign | lambda | defineMacro | matchForm
  | typeForm | moduleForm | useForm | dot | apply
  deriving DecidableEq, Repr

namespace SpecialForm

/-- The symbol that makes a list a special form. -/
def keyword : SpecialForm → Symbol
  | .quote => "quote"
  | .quasiquote => "quasiquote"
  | .unquote => "unquote"
  | .unquoteSplicing => "unquote-splicing"
  | .varg => "varg"
  | .ifForm => "if"
  | .begin => "begin"
  | .letForm => "let"
  | .letMutable => "let!"
  | .assign => "set!"
  | .lambda => "lambda"
  | .defineMacro => "macro"
  | .matchForm => "match"
  | .typeForm => "type"
  | .moduleForm => "module"
  | .useForm => "use"
  | .dot => "."
  | .apply => "apply"

/-- The special form that a symbol makes of a list. -/
def ofSymbol? (s : Symbol) : Option SpecialForm :=
  match s with
  | "quote" => some .quote
  | "quasiquote" => some .quasiquote
  | "unquote" => some .unquote
  | "unquote-splicing" => some .unquoteSplicing
  | "varg" => some .varg
  | "if" => some .ifForm
  | "begin" => some .begin
  | "let" => some .letForm
  | "let!" => some .letMutable
  | "set!" => some .assign
  | "lambda" => some .lambda
  | "macro" => some .defineMacro
  | "match" => some .matchForm
  | "type" => some .typeForm
  | "module" => some .moduleForm
  | "use" => some .useForm
  | "." => some .dot
  | "apply" => some .apply
  | _ => none

/-- A keyword makes the special form that it belongs to. -/
theorem ofSymbol?_keyword (f : SpecialForm) : ofSymbol? f.keyword = some f := by cases f <;> decide

end SpecialForm

/-- Whether a symbol makes a list a special form. -/
def isSpecial (s : Symbol) : Bool := (SpecialForm.ofSymbol? s).isSome

end MiniLisp
