import MiniLisp.Value.Equality

/-!
# Quoted code as data

Quoting turns the set and map forms of code into sets and maps, at every depth of lists, vectors and forms. What is already a
set or map stays as it is, with its elements.
-/

namespace MiniLisp.Value

mutual

/-- The data that a piece of code is when it is quoted. -/
def toDatum : Value → Value
  | .pair h t => .pair (toDatum h) (toDatum t)
  | .vector xs => .vector (toData xs)
  | .setForm xs => .set (.ofList (toData xs))
  | .mapForm es => .map (.ofList (toDataEntries es))
  | v => v

/-- The data of several pieces of code. -/
def toData : List Value → List Value
  | [] => []
  | x :: xs => toDatum x :: toData xs

/-- The data of the entries of a map form. -/
def toDataEntries : List (Value × Value) → List (Value × Value)
  | [] => []
  | (k, v) :: es => (toDatum k, toDatum v) :: toDataEntries es

end

theorem toData_eq_map (xs : List Value) : toData xs = xs.map toDatum := by
  induction xs with
  | nil => simp [toData]
  | cons x xs ih => simp [toData, ih]

theorem toDataEntries_eq_map (es : List (Value × Value)) :
    toDataEntries es = es.map fun e => (toDatum e.1, toDatum e.2) := by
  induction es with
  | nil => simp [toDataEntries]
  | cons e es ih => simp [toDataEntries, ih]

end MiniLisp.Value
