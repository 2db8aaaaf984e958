import MiniLisp.Error
import MiniLisp.Limits
import MiniLisp.Text.Basic
import MiniLisp.Yaml.Node

/-!
# Settings: the limits of an interpreter and the size of its stack, as a YAML mapping

Settings that a text does not give keep their defaults, and keys that are no setting mean nothing. A setting that is given twice,
or that is no whole number of at most 64 bits, makes the text as a whole invalid.
-/

namespace MiniLisp

/-- What can be set from outside a program. -/
structure Settings extends Limits where
  /-- The bytes of stack that a run is given. -/
  stackSize : Nat := 512 * 1024 * 1024
  deriving DecidableEq, Repr, Inhabited

/-- One setting. -/
inductive Setting where
  | maxDepth | maxMacroExpansions | stackSize
  deriving DecidableEq, Repr

namespace Setting

def name : Setting → String
  | .maxDepth => "max_depth"
  | .maxMacroExpansions => "max_macro_expansions"
  | .stackSize => "stack_size"

def all : List Setting := [.maxDepth, .maxMacroExpansions, .stackSize]

/-- The setting with a name. -/
def ofName? (name : String) : Option Setting := all.find? (·.name == name)

/-- Every setting is found under its name. -/
theorem ofName?_name (s : Setting) : ofName? s.name = some s := by cases s <;> decide

end Setting

namespace Settings

/-- The settings with one of them changed. -/
def set (s : Settings) : Setting → Nat → Settings
  | .maxDepth, n => { s with maxDepth := n }
  | .maxMacroExpansions, n => { s with maxMacroExpansions := n }
  | .stackSize, n => { s with stackSize := n }

/-- The value of one setting. -/
def get (s : Settings) : Setting → Nat
  | .maxDepth => s.maxDepth
  | .maxMacroExpansions => s.maxMacroExpansions
  | .stackSize => s.stackSize

/-- Changing one setting leaves the others. -/
theorem get_set (s : Settings) (a b : Setting) (n : Nat) : (s.set a n).get b = if a = b then n else s.get b := by
  cases a <;> cases b <;> rfl

/-- The numbers that a setting can have fit into 64 bits. -/
def bound : Nat := UInt64.size

/-- The magnitude of a whole number: decimal digits without a zero before others, or digits of another base behind its mark. -/
def magnitude? : List Char → Option Nat
  | '0' :: 'x' :: digits => Yaml.numeral? 16 digits
  | '0' :: 'o' :: digits => Yaml.numeral? 8 digits
  | '0' :: 'b' :: digits => Yaml.numeral? 2 digits
  | '0' :: _ :: _ => none
  | digits => Yaml.numeral? 10 digits

/-- The number that a text stands for. A plus sign may stand before it. -/
def number? (text : String) : Option Nat :=
  let n := match text.toList with
    | '+' :: cs => magnitude? cs
    | cs => magnitude? cs
  n.filter (· < bound)

/-- The tag of whole numbers. -/
def numberTag : String := "tag:yaml.org,2002:int"

/-- The number that a node stands for: a plain scalar does, and a literal one with the tag of whole numbers. -/
def nodeNumber? : Yaml.Node → Option Nat
  | .scalar .plain _ text => number? text
  | .scalar .literal tag text => if tag == some numberTag then number? text else none
  | _ => none

/-- The settings that entries of a mapping in a document give, beyond those given already. The keys are scalars. -/
def ofEntries? (d : Yaml.Document) (given : List Setting) (s : Settings) : List (Yaml.Node × Yaml.Node) → Option Settings
  | [] => some s
  | (key, value) :: rest =>
    match d.resolve? key with
    | some (.scalar _ _ name) =>
      match Setting.ofName? name with
      | some setting => do
        if given.contains setting then none
        let n ← (d.resolve? value).bind nodeNumber?
        ofEntries? d (setting :: given) (s.set setting n) rest
      | none => ofEntries? d given s rest
    | _ => none

/-- The settings that a document gives: a mapping, or nothing at all. -/
def ofDocument? (d : Yaml.Document) : Option Settings :=
  match d.root with
  | .scalar .plain _ text => if text.isEmpty then some {} else none
  | .mapping entries => ofEntries? d [] {} entries
  | _ => none

/-- The settings that a text gives. White space alone gives none, whatever it is. -/
def ofText? (text : String) : Option Settings :=
  if text.toList.all isUnicodeSpace then some {} else (Yaml.Document.ofText? text).bind ofDocument?

/-- The settings that a text gives, or an error. -/
def parse (text : String) : Except Error Settings :=
  match ofText? text with
  | some s => .ok s
  | none => .error (.ofKind (.io "config" "invalid config"))

end Settings

end MiniLisp
