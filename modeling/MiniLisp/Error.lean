import MiniLisp.Text.Source
import MiniLisp.Text.Span

/-!
# Errors: what went wrong, where, and what may help

One error type serves the reader, the expander and the evaluator. An error is a cause (`ErrorKind`), a help text that starts
as the cause's own (`ErrorKind.defaultHelp`), and a location once the form it belongs to is known. All wording is in this
module.
-/

namespace MiniLisp

/-- The phase an error belongs to. -/
inductive ErrorCategory where
  | parse | expansion | runtime | module | host
  deriving DecidableEq, Repr

/-- The name of a phase, as it stands in error codes. -/
def ErrorCategory.name : ErrorCategory → String
  | .parse => "parse"
  | .expansion => "expansion"
  | .runtime => "runtime"
  | .module => "module"
  | .host => "host"

/-- The cause of an error. -/
inductive ErrorKind where
  | unexpectedToken (expected found : String)
  | unmatchedDelimiter (delimiter : Char)
  | unterminatedString
  | invalidLiteral (literal text : String)
  | oddMapLiteral (count : Nat)
  | macroExpansion (name reason : String)
  | unboundVariable (name : String)
  | immutableAssignment (name : String)
  | arityMismatch (expected : String) (actual : Nat)
  | typeMismatch (expected actual : String)
  | invalidOperation (operation operand : String)
  | recursionLimit (depth : Nat)
  | moduleNotFound (name : String)
  | duplicateModule (name : String)
  | io (path message : String)
  | internal (message : String)
  deriving DecidableEq, Repr

namespace ErrorKind

def category : ErrorKind → ErrorCategory
  | .unexpectedToken .. | .unmatchedDelimiter .. | .unterminatedString | .invalidLiteral .. | .oddMapLiteral .. => .parse
  | .macroExpansion .. => .expansion
  | .unboundVariable .. | .immutableAssignment .. | .arityMismatch .. | .typeMismatch .. | .invalidOperation ..
  | .recursionLimit .. => .runtime
  | .moduleNotFound .. | .duplicateModule .. => .module
  | .io .. | .internal .. => .host

/-- The last part of the error code. -/
def codeSuffix : ErrorKind → String
  | .unexpectedToken .. => "unexpected_token"
  | .unmatchedDelimiter .. => "unmatched_delimiter"
  | .unterminatedString => "unterminated_string"
  | .invalidLiteral .. => "invalid_literal"
  | .oddMapLiteral .. => "odd_map_literal"
  | .macroExpansion .. => "macro_expansion"
  | .unboundVariable .. => "unbound_variable"
  | .immutableAssignment .. => "immutable_binding_assignment"
  | .arityMismatch .. => "arity_mismatch"
  | .typeMismatch .. => "type_mismatch"
  | .invalidOperation .. => "invalid_operation"
  | .recursionLimit .. => "recursion_limit"
  | .moduleNotFound .. => "module_not_found"
  | .duplicateModule .. => "duplicate_module_definition"
  | .io .. => "io"
  | .internal .. => "internal"

/-- The code by which tools tell errors apart. -/
def code (kind : ErrorKind) : String := "lust::" ++ kind.category.name ++ "::" ++ kind.codeSuffix

/-- The help that goes with a cause, for the causes that have one. -/
def defaultHelp : ErrorKind → Option String
  | .unmatchedDelimiter .. => some "check that every opening delimiter has a matching closer"
  | .immutableAssignment name => some ("bind '" ++ name ++ "' with `let!` to make it assignable")
  | .macroExpansion .. => some "a macro that expands into a call to itself must eventually stop"
  | .moduleNotFound .. => some "modules must be declared with `(module Name ...)` before use"
  | .recursionLimit .. => some "raise `max_depth` or make the recursive call a tail call"
  | .internal .. => some "This is an internal engine error. Please report this as a bug."
  | _ => none

/-- The sentence that reports the cause. -/
def message : ErrorKind → String
  | .unexpectedToken expected found => "Parse error: expected " ++ expected ++ ", found " ++ found
  | .unmatchedDelimiter delimiter => "Parse error: unmatched delimiter '" ++ delimiter.toString ++ "'"
  | .unterminatedString => "Parse error: unterminated string"
  | .invalidLiteral literal text => "Parse error: invalid " ++ literal ++ " '" ++ text ++ "'"
  | .oddMapLiteral count =>
    "Parse error: map literal needs key/value pairs, found " ++ toString count ++ " forms"
  | .macroExpansion name reason => "Macro expansion error in '" ++ name ++ "': " ++ reason
  | .unboundVariable name => "Runtime error: unbound variable '" ++ name ++ "'"
  | .immutableAssignment name => "Runtime error: cannot assign to immutable binding '" ++ name ++ "'"
  | .arityMismatch expected actual =>
    "Runtime error: incorrect arity, expected " ++ expected ++ ", got " ++ toString actual
  | .typeMismatch expected actual => "Type error: expected " ++ expected ++ ", got " ++ actual
  | .invalidOperation operation operand => "Runtime error: invalid operation '" ++ operation ++ "' on " ++ operand
  | .recursionLimit depth => "Runtime error: recursion limit of " ++ toString depth ++ " exceeded"
  | .moduleNotFound name => "Module error: module '" ++ name ++ "' not found"
  | .duplicateModule name => "Module error: module '" ++ name ++ "' is already defined"
  | .io path message => "I/O error on '" ++ path ++ "': " ++ message
  | .internal message => "Internal error: " ++ message

/-- The words that mark the place of the error in its source. -/
def label : ErrorKind → String
  | .unexpectedToken .. => "unexpected token"
  | .unmatchedDelimiter .. => "unmatched delimiter"
  | .unterminatedString => "string starts here"
  | .invalidLiteral .. => "invalid literal"
  | .oddMapLiteral .. => "map literal"
  | .macroExpansion .. => "while expanding this form"
  | .unboundVariable .. => "unbound variable"
  | .immutableAssignment .. => "assignment here"
  | .arityMismatch .. => "arity mismatch"
  | .typeMismatch .. => "type mismatch"
  | .invalidOperation .. => "invalid operation"
  | .recursionLimit .. => "recursion limit exceeded"
  | .moduleNotFound .. => "unknown module"
  | .duplicateModule .. => "duplicate module"
  | .io .. | .internal .. => "here"

end ErrorKind

/-- The place of an error: a span of a source. -/
structure Location where
  source : Source
  span : Span
  deriving DecidableEq, Repr

/-- The line and column where the span starts. -/
def Location.position (l : Location) : Position := l.source.position l.span.start

/-- An error of the language. -/
structure Error where
  kind : ErrorKind
  location : Option Location := none
  help : Option String := kind.defaultHelp
  deriving DecidableEq, Repr

namespace Error

/-- The error with this cause, no location yet, and the help of its cause. -/
def ofKind (kind : ErrorKind) : Error := { kind }

/-- The same error at a place, whatever place it had before. -/
def locatedAt (e : Error) (source : Source) (span : Span) : Error := { e with location := some ⟨source, span⟩ }

/-- The same error at a place, unless it has one already. -/
def orLocatedAt (e : Error) (source : Source) (span : Span) : Error :=
  if e.location.isSome then e else e.locatedAt source span

/-- The same error with another help text. -/
def withHelp (e : Error) (help : String) : Error := { e with help := some help }

def code (e : Error) : String := e.kind.code

def category (e : Error) : ErrorCategory := e.kind.category

def message (e : Error) : String := e.kind.message

def isParseError (e : Error) : Bool := e.category == .parse

/-- The marks of the error in its source: one label over its span, when it has a location. -/
def labels (e : Error) : Option (List (String × Span)) := e.location.map fun l => [(e.kind.label, l.span)]

def typeMismatch (expected actual : String) : Error := ofKind (.typeMismatch expected actual)

def arityMismatch (expected : String) (actual : Nat) : Error := ofKind (.arityMismatch expected actual)

def unboundVariable (name : String) : Error := ofKind (.unboundVariable name)

def invalidOperation (operation operand : String) : Error := ofKind (.invalidOperation operation operand)

end Error

end MiniLisp
