import MiniLisp.Value.Basic

/-!
# Equality of values

Data are equal when they are built alike; sets and maps are equal whatever the order of their elements. Functions and macros
are equal only to themselves, and so are modules, which their frame identifies. Numbers are equal in the same form only, and
floats bit by bit. Records are equal when their variants are the same and their fields are equal.
-/

namespace MiniLisp.Value

mutual

/-- Equality of two values. -/
def beq : Value → Value → Bool
  | .nil, .nil => true
  | .bool a, .bool b => a == b
  | .num a, .num b => a.same b
  | .str a, .str b => a == b
  | .sym a, .sym b => a == b
  | .pair h t, .pair h' t' => beq h h' && beq t t'
  | .vector xs, .vector ys => beqItems xs ys
  | .set ⟨xs⟩, .set ⟨ys⟩ => xs.length == ys.length && allIn xs ys
  | .map ⟨es⟩, .map ⟨fs⟩ => es.length == fs.length && agree es fs
  | .setForm xs, .setForm ys => beqItems xs ys
  | .mapForm es, .mapForm fs => beqEntries es fs
  | .closure f, .closure g => f.id == g.id
  | .macroFn f, .macroFn g => f.id == g.id
  | .native p, .native q => p == q
  | .module _ e, .module _ e' => e.frame == e'.frame
  | .record v xs, .record w ys => v.same w && beqItems xs ys
  | .constructor v, .constructor w => v.same w
  | _, _ => false
termination_by structural a => a

/-- Equality of two lists of values, element by element. -/
def beqItems : List Value → List Value → Bool
  | [], [] => true
  | x :: xs, y :: ys => beq x y && beqItems xs ys
  | _, _ => false
termination_by structural a => a

/-- Equality of two lists of entries, entry by entry. -/
def beqEntries : List (Value × Value) → List (Value × Value) → Bool
  | [], [] => true
  | (k, v) :: es, (k', v') :: fs => beq k k' && beq v v' && beqEntries es fs
  | _, _ => false
termination_by structural a => a

/-- Whether each of some values is among others. -/
def allIn : List Value → List Value → Bool
  | [], _ => true
  | x :: xs, ys => ys.any (fun y => beq x y) && allIn xs ys
termination_by structural a => a

/-- Whether each of some entries stands for the same value in another map. -/
def agree : List (Value × Value) → List (Value × Value) → Bool
  | [], _ => true
  | (k, v) :: es, fs =>
    (match fs.find? (fun e => beq k e.1) with
      | some e => beq v e.2
      | none => false) && agree es fs
termination_by structural a => a

end

instance : BEq Value := ⟨beq⟩

end MiniLisp.Value
