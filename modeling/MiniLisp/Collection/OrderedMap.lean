/-!
# Ordered maps: keys and values in the order in which the keys first came

A map is the list of its entries. Inserting a key that is there already keeps its place and replaces what stands there, key
and value; a new key goes to the end. Keys are compared with the boolean equality of their type.
-/

namespace MiniLisp

/-- The elements of a list two by two; a last one that has no partner is dropped. -/
def pairUp {α : Type} : List α → List (α × α)
  | k :: v :: rest => (k, v) :: pairUp rest
  | _ => []

theorem mem_pairUp {α : Type} {xs : List α} {p : α × α} (h : p ∈ pairUp xs) : p.1 ∈ xs ∧ p.2 ∈ xs := by
  fun_induction pairUp xs <;> grind

/-- The entries of a map, oldest key first. -/
structure OrderedMap (κ : Type) (ν : Type) where
  entries : List (κ × ν)

namespace OrderedMap

variable {κ ν : Type}

def empty : OrderedMap κ ν := ⟨[]⟩

instance : Inhabited (OrderedMap κ ν) := ⟨empty⟩

def size (m : OrderedMap κ ν) : Nat := m.entries.length

def isEmpty (m : OrderedMap κ ν) : Bool := m.entries.isEmpty

def keys (m : OrderedMap κ ν) : List κ := m.entries.map (·.1)

def values (m : OrderedMap κ ν) : List ν := m.entries.map (·.2)

variable [BEq κ]

/-- The value that stands under a key. -/
def get? (m : OrderedMap κ ν) (key : κ) : Option ν := (m.entries.find? fun e => key == e.1).map (·.2)

def contains (m : OrderedMap κ ν) (key : κ) : Bool := m.entries.any fun e => key == e.1

/-- Entries with one key set: in its place if it is there, else at the end. -/
def insertEntry (key : κ) (value : ν) : List (κ × ν) → List (κ × ν)
  | [] => [(key, value)]
  | e :: es => if key == e.1 then (key, value) :: es else e :: insertEntry key value es

def insert (m : OrderedMap κ ν) (key : κ) (value : ν) : OrderedMap κ ν := ⟨insertEntry key value m.entries⟩

def erase (m : OrderedMap κ ν) (key : κ) : OrderedMap κ ν := ⟨m.entries.filter fun e => !(key == e.1)⟩

/-- Every pair inserted in turn. -/
def insertAll (m : OrderedMap κ ν) (pairs : List (κ × ν)) : OrderedMap κ ν :=
  pairs.foldl (fun m e => m.insert e.1 e.2) m

/-- The map that pairs make: of equal keys the last value counts, in the place of the first. -/
def ofList (pairs : List (κ × ν)) : OrderedMap κ ν := empty.insertAll pairs

@[simp]
theorem get?_empty (key : κ) : (empty : OrderedMap κ ν).get? key = none := rfl

/-- A key just inserted stands for its value, where a key equals itself. -/
theorem get?_insert_self [ReflBEq κ] (m : OrderedMap κ ν) (key : κ) (value : ν) :
    (m.insert key value).get? key = some value := by
  obtain ⟨es⟩ := m
  simp only [get?, insert]
  induction es with
  | nil => simp [insertEntry]
  | cons e es ih =>
    by_cases h : key == e.1
    · simp [insertEntry, h]
    · simp [insertEntry, h, ih]

/-- An erased key is gone. -/
theorem contains_erase_self (m : OrderedMap κ ν) (key : κ) : (m.erase key).contains key = false := by
  simp [contains, erase, List.any_filter]

end OrderedMap

end MiniLisp
