/-!
# Finite sets: elements without repetition

A set is a list of its elements, no two of them equal. Inserting an element that is there already replaces it by the new one.
The order of the elements means nothing: what is equal to a set has the same elements in any order.
-/

namespace MiniLisp

/-- The elements of a set. -/
structure FiniteSet (α : Type) where
  elements : List α

namespace FiniteSet

variable {α : Type}

def empty : FiniteSet α := ⟨[]⟩

instance : Inhabited (FiniteSet α) := ⟨empty⟩

def size (s : FiniteSet α) : Nat := s.elements.length

variable [BEq α]

def contains (s : FiniteSet α) (x : α) : Bool := s.elements.any fun y => x == y

/-- Elements with one of them set: in place of its equal if there is one, else at the end. -/
def insertElement (x : α) : List α → List α
  | [] => [x]
  | y :: ys => if x == y then x :: ys else y :: insertElement x ys

def insert (s : FiniteSet α) (x : α) : FiniteSet α := ⟨insertElement x s.elements⟩

def erase (s : FiniteSet α) (x : α) : FiniteSet α := ⟨s.elements.filter fun y => !(x == y)⟩

def insertAll (s : FiniteSet α) (xs : List α) : FiniteSet α := xs.foldl insert s

/-- The set of the elements of a list. -/
def ofList (xs : List α) : FiniteSet α := empty.insertAll xs

/-- An element just inserted is there, where an element equals itself. -/
theorem contains_insert_self [ReflBEq α] (s : FiniteSet α) (x : α) : (s.insert x).contains x = true := by
  obtain ⟨ys⟩ := s
  simp only [contains, insert]
  induction ys with
  | nil => simp [insertElement]
  | cons y ys ih =>
    by_cases h : x == y
    · simp [insertElement, h]
    · simp [insertElement, h, ih]

/-- An erased element is gone. -/
theorem contains_erase_self (s : FiniteSet α) (x : α) : (s.erase x).contains x = false := by
  simp [contains, erase, List.any_filter]

end FiniteSet

end MiniLisp
