import MiniLisp.Heap
import MiniLisp.Value.Datum
import MiniLisp.Value.Printer

/-!
# Patterns: when a value matches, and which names it binds

A symbol is a tag: `t` and `_` match everything, a tag that is bound to a constructor or to a record matches the records of
that variant, and the built-in tags match by kind. A tag may be followed by names for the fields; without them the fields are
bound under their own names. Any other pattern is data, quoted or not, and matches what is equal to it.
-/

namespace MiniLisp

/-- The kinds of values that a built-in tag without fields stands for. -/
def tagKinds? (tag : Symbol) : Option (List String) :=
  match tag with
  | "Nil" | "Empty" => some ["nil"]
  | "Int" => some ["int"]
  | "Ratio" => some ["ratio"]
  | "Float" => some ["float"]
  | "Number" => some ["int", "ratio", "float"]
  | "String" => some ["string"]
  | "Symbol" => some ["symbol"]
  | "Bool" => some ["bool"]
  | "Vector" => some ["vector"]
  | "Set" => some ["set"]
  | "Map" => some ["map"]
  | "Fn" => some ["lambda", "native function", "constructor"]
  | _ => none

/-- The fields of a pair, if the value is one. -/
def pairFields? : Value → Option (List (Symbol × Value))
  | .pair h t => some [("head", h), ("tail", t)]
  | _ => none

/-- What a built-in tag finds in a value: nothing if the word is no such tag, else whether the value matches, with its fields. -/
def builtinTag? (tag : Symbol) (v : Value) : Option (Option (List (Symbol × Value))) :=
  if tag = "Pair" ∨ tag = "Cons" then some (pairFields? v)
  else (tagKinds? tag).map fun kinds => if kinds.contains v.typeName then some [] else none

/-- The variant that a value declares, when the name it is bound to stands in a pattern. -/
def declaredVariant? : Value → Option Variant
  | .constructor variant => some variant
  | .record variant _ => some variant
  | _ => none

/-- The fields of a matched value under the names given for them, or under their own. -/
def bindFields (tag : Symbol) (fields : List Symbol) (values : List Value) (names : Option (List Symbol)) :
    Except Error (List (Symbol × Value)) :=
  let names := names.getD fields
  if names.length = values.length then .ok (names.zip values)
  else
    .error ((Error.arityMismatch (toString values.length) names.length).withHelp
      ("pattern `" ++ tag ++ "` binds one name per field"))

/-- The complaint about a symbol that is no tag. -/
def unknownTag (h : Heap) (env : Env) (tag : Symbol) : Error :=
  let e : Error := match h.lookup? env tag with
    | some v => .typeMismatch "a variant tag" ("`" ++ tag ++ "`, a variable bound to " ++ v.describe)
    | none => .unboundVariable tag
  e.withHelp "patterns are variant tags, literals, quoted data, or `t`"

/-- Match a value with a tag; the names that it binds, if it matches. -/
def matchTag (h : Heap) (env : Env) (tag : Symbol) (names : Option (List Symbol)) (v : Value) :
    Except Error (Option (List (Symbol × Value))) :=
  if tag = "t" ∨ tag = "_" then .ok (some [])
  else
    match (h.lookup? env tag).bind declaredVariant? with
    | some variant =>
      match v with
      | .record own values =>
        if variant.same own then (bindFields tag variant.fields values names).map some else .ok none
      | _ => .ok none
    | none =>
      match builtinTag? tag v with
      | none => .error (unknownTag h env tag)
      | some none => .ok none
      | some (some fields) => (bindFields tag (fields.map (·.1)) (fields.map (·.2)) names).map some

/-- The names of the fields in a pattern. -/
def fieldNames : List Value → Except Error (List Symbol)
  | [] => .ok []
  | v :: vs => do
    let name ← v.expectSymbol "a field name"
    let names ← fieldNames vs
    return name :: names

/-- The datum behind a quote in a pattern. -/
def quotedDatum? (pattern : Value) : Option Value := (pattern.toList?.bind (·[1]?)).map Value.toDatum

/-- Match a value with a pattern in an environment; the names that it binds, if it matches. -/
def matchPattern (h : Heap) (env : Env) (pattern v : Value) : Except Error (Option (List (Symbol × Value))) :=
  match pattern with
  | .sym tag => matchTag h env tag none v
  | .pair head fields =>
    if pattern.isForm "quote" then
      match quotedDatum? pattern with
      | some datum => .ok (if datum == v then some [] else none)
      | none => .ok none
    else do
      let tag ← head.expectSymbol "a pattern tag"
      let names ← fieldNames (← fields.expectList "pattern field names")
      matchTag h env tag (some names) v
  | literal => .ok (if literal.toDatum == v then some [] else none)

end MiniLisp
