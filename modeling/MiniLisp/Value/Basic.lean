import MiniLisp.Collection.FiniteSet
import MiniLisp.Collection.OrderedMap
import MiniLisp.Number.Basic
import MiniLisp.Primitive.Name

/-!
# Values: the data of the language, which are also its code

Lists are chains of pairs that end in `nil`; a chain that ends in anything else is improper. A set or map written in a source
reads as a form that keeps every element in order (`Value.setForm`, `Value.mapForm`), and evaluating or quoting the form makes
the set or map. Functions and macros are a parameter list and a body together with the environment they were made in.
-/

namespace MiniLisp

/-- The name that a symbol is. -/
abbrev Symbol := String

/-- The number of a frame of bindings in the heap. -/
abbrev FrameId := Nat

/-- An environment: the frame in which new names are bound, and the frames around it, innermost first. -/
structure Env where
  frame : FrameId
  outer : List FrameId
  deriving DecidableEq, Repr, Inhabited

/-- The parameters of a function: one name per required argument, and perhaps one name for the list of all others. -/
structure Params where
  required : List Symbol := []
  rest : Option Symbol := none
  deriving DecidableEq, Repr, Inhabited

/-- What functions and macros share. The number `id` tells two of them apart that were made at different times. -/
structure Lambda (α : Type) where
  id : Nat
  name : Option Symbol
  params : Params
  body : List α
  env : Env

/-- One tagged variant of a declared type, with the names of its fields. -/
structure Variant where
  typeName : Symbol
  tag : Symbol
  fields : List Symbol
  deriving DecidableEq, Repr, Inhabited

/-- A value of the language. -/
inductive Value where
  | nil
  | bool (b : Bool)
  | num (n : Number)
  | str (s : String)
  | sym (s : Symbol)
  | pair (head tail : Value)
  | vector (items : List Value)
  | set (s : FiniteSet Value)
  | map (m : OrderedMap Value Value)
  | setForm (items : List Value)
  | mapForm (entries : List (Value × Value))
  | closure (f : Lambda Value)
  | macroFn (f : Lambda Value)
  | native (p : Primitive)
  | module (name : Symbol) (env : Env)
  | record (variant : Variant) (values : List Value)
  | constructor (variant : Variant)

/-- Two variants are the same when they have the same tag in a type of the same name, whatever their fields. -/
def Variant.same (a b : Variant) : Bool := a.typeName == b.typeName && a.tag == b.tag

namespace Value

instance : Inhabited Value := ⟨.nil⟩

/-- An integer as a value. -/
def ofInt (n : Int) : Value := .num (.ofInt n)

/-- A list that ends in `tail`. -/
def listWithTail (items : List Value) (tail : Value) : Value := items.foldr .pair tail

/-- A proper list. -/
def list (items : List Value) : Value := listWithTail items .nil

/-- The heads of a chain of pairs after those in `before`, which are in reverse order. -/
def headsAfter (before : List Value) : Value → List Value
  | .pair h t => headsAfter (h :: before) t
  | _ => before.reverse

/-- The heads of a chain of pairs, in order. -/
def heads (v : Value) : List Value := headsAfter [] v

/-- What a chain of pairs ends in; `nil` for a proper list. -/
def remainder : Value → Value
  | .pair _ t => t.remainder
  | v => v

/-- The elements of a proper list; nothing else has any. -/
def toList? (v : Value) : Option (List Value) :=
  match v.remainder with
  | .nil => some v.heads
  | _ => none

/-- Only `nil` and `false` count as false. -/
def isTruthy : Value → Bool
  | .nil | .bool false => false
  | _ => true

/-- Whether a value is the empty list or a pair. -/
def isList : Value → Bool
  | .nil | .pair .. => true
  | _ => false

def asSymbol? : Value → Option Symbol
  | .sym s => some s
  | _ => none

/-- The symbol at the head of a pair, if there is one. -/
def headSymbol? : Value → Option Symbol
  | .pair (.sym s) _ => some s
  | _ => none

/-- Whether a value is a pair with this symbol at its head. -/
def isForm (v : Value) (head : Symbol) : Bool := v.headSymbol? == some head

/-- The argument of a list of exactly two elements whose first is the symbol `head`. -/
def argumentOf? (head : Symbol) : Value → Option Value
  | .pair (.sym s) (.pair arg .nil) => if s == head then some arg else none
  | _ => none

/-- The list of two elements that `argumentOf?` takes apart. -/
def wrap (head : Symbol) (arg : Value) : Value := list [.sym head, arg]

/-- The number that a value is. -/
def asNumber? : Value → Option Number
  | .num n => some n
  | _ => none

/-- The name of the kind of value, as error messages and tools show it. -/
def typeName : Value → String
  | .nil => "nil"
  | .bool _ => "bool"
  | .num (.int _) | .num (.big ..) => "int"
  | .num (.ratio ..) => "ratio"
  | .num (.float _) => "float"
  | .str _ => "string"
  | .sym _ => "symbol"
  | .pair .. => "pair"
  | .vector _ => "vector"
  | .set _ => "set"
  | .map _ => "map"
  | .setForm _ => "set form"
  | .mapForm _ => "map form"
  | .closure _ => "lambda"
  | .macroFn _ => "macro"
  | .native _ => "native function"
  | .module .. => "module"
  | .record .. => "record"
  | .constructor _ => "constructor"

/-- The heads that were collected come before those that are left, in reverse. -/
theorem headsAfter_eq (before : List Value) (v : Value) : headsAfter before v = before.reverse ++ v.heads := by
  fun_induction remainder v generalizing before with
  | case1 h t ih => simp [heads, headsAfter, ih (h :: before), ih [h]]
  | case2 v hv =>
    have hn : ∀ bs, headsAfter bs v = bs.reverse := by
      intro bs
      cases v with
      | pair h t => exact absurd rfl (hv h t)
      | _ => rfl
    simp [heads, hn]

@[simp]
theorem heads_pair (h t : Value) : (pair h t).heads = h :: t.heads := by
  simp [heads, headsAfter, headsAfter_eq [h] t]

@[simp]
theorem heads_listWithTail (items : List Value) (tail : Value) :
    (listWithTail items tail).heads = items ++ tail.heads := by
  induction items with
  | nil => rfl
  | cons x xs ih =>
    show (pair x (listWithTail xs tail)).heads = x :: (xs ++ tail.heads)
    rw [heads_pair, ih]

@[simp]
theorem remainder_listWithTail (items : List Value) (tail : Value) :
    (listWithTail items tail).remainder = tail.remainder := by
  induction items with
  | nil => rfl
  | cons x xs ih => exact ih

/-- The elements of a list made of some values are those values. -/
@[simp]
theorem toList?_list (items : List Value) : (list items).toList? = some items := by
  have hr : (list items).remainder = .nil := remainder_listWithTail items .nil
  have hh : (list items).heads = items ++ [] := heads_listWithTail items .nil
  simp [toList?, hr, hh]

/-- Every value is the chain of its heads and its remainder. -/
theorem listWithTail_heads_remainder (v : Value) : listWithTail v.heads v.remainder = v := by
  fun_induction remainder v with
  | case1 h t ih =>
    rw [heads_pair]
    exact congrArg (pair h) ih
  | case2 v hv =>
    cases v with
    | pair h t => exact absurd rfl (hv h t)
    | _ => rfl

end Value

end MiniLisp
