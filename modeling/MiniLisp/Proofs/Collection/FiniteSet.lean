import MiniLisp.Collection.FiniteSet
import MiniLisp.Proofs.Collection.OrderedMap

/-!
# What a set holds after an edit

A set is an ordered map whose keys are the elements and which holds nothing under them (`asEntries`), so what is known of the
entries of a map is known of the elements of a set: an insertion keeps them distinct (`distinct_insertElement`), and adds the
new element and no other (`contains_insert`). What is collected from elements holds these and no other (`contains_ofList`).
-/

namespace MiniLisp.FiniteSet

variable {α : Type}

/-- Elements as the keys of entries that hold nothing. -/
def asEntries (xs : List α) : List (α × Unit) := xs.map fun x => (x, ())

variable [BEq α]

/-- To insert an element is to insert it as a key without a value. -/
theorem asEntries_insertElement (x : α) (xs : List α) :
    asEntries (insertElement x xs) = OrderedMap.insertEntry x () (asEntries xs) := by
  induction xs with
  | nil => rfl
  | cons y ys ih =>
    rw [insertElement]
    split <;> simp_all [asEntries, OrderedMap.insertEntry]

/-- Nothing but the new element comes in. -/
theorem mem_insertElement {x y : α} {xs : List α} (h : y ∈ insertElement x xs) : y = x ∨ y ∈ xs := by
  have hentry : (y, ()) ∈ OrderedMap.insertEntry x () (asEntries xs) := by
    rw [← asEntries_insertElement]
    exact List.mem_map_of_mem h
  rcases OrderedMap.mem_insertEntry hentry with heq | hmem
  · exact .inl (congrArg Prod.fst heq)
  · obtain ⟨z, hz, heq⟩ := List.mem_map.1 hmem
    cases heq
    exact .inr hz

/-- To look for an element is to look for it as a key. -/
theorem any_eq_isSome_find? (x : α) (xs : List α) :
    (xs.any fun y => x == y) = ((asEntries xs).find? fun e => x == e.1).isSome := by
  simp [asEntries, List.isSome_find?]

variable {good : α → Prop}

omit [BEq α] in
/-- As keys, good elements are good keys. -/
theorem good_asEntries {xs : List α} (hgood : ∀ x ∈ xs, good x) : ∀ e ∈ asEntries xs, good e.1 := by
  intro e he
  obtain ⟨x, hx, rfl⟩ := List.mem_map.1 he
  exact hgood x hx

/-- An insertion keeps the elements distinct: the new element comes in the place of its equal. -/
theorem distinct_insertElement (hequiv : EquivalenceOn good) {x : α} (hx : good x) {xs : List α} (hgood : ∀ y ∈ xs, good y)
    (hd : Distinct (fun a b => (a == b) = true) xs) : Distinct (fun a b => (a == b) = true) (insertElement x xs) := by
  have hdistinct := OrderedMap.distinct_insertEntry hequiv hx () (good_asEntries hgood) (List.pairwise_map.2 hd)
  rw [← asEntries_insertElement] at hdistinct
  exact List.pairwise_map.1 hdistinct

/-- An element is in a set after an insertion if it was in there or is equal to the new one. -/
theorem contains_insert (hequiv : EquivalenceOn good) {x y : α} (hx : good x) (hy : good y) {s : FiniteSet α}
    (hgood : ∀ z ∈ s.elements, good z) : (s.insert x).contains y = (y == x || s.contains y) := by
  have hfind := OrderedMap.find?_insertEntry hequiv hx hy () (good_asEntries hgood)
  rw [contains, contains, any_eq_isSome_find?, any_eq_isSome_find?, insert, asEntries_insertElement, hfind]
  cases y == x <;> rfl

/-! ## Sets that are collected from elements -/

/-- A set is collected from elements as a map is from entries that hold nothing. -/
theorem asEntries_ofList (xs : List α) : asEntries (ofList xs).elements = (OrderedMap.ofList (asEntries xs)).entries := by
  have hinsert (s : FiniteSet α) :
      asEntries (s.insertAll xs).elements = (OrderedMap.insertAll ⟨asEntries s.elements⟩ (asEntries xs)).entries := by
    induction xs generalizing s with
    | nil => rfl
    | cons x xs ih =>
      have hx : OrderedMap.insert ⟨asEntries s.elements⟩ x () = ⟨asEntries (s.insert x).elements⟩ := by
        rw [OrderedMap.insert, insert, asEntries_insertElement]
      exact (ih (s.insert x)).trans (congrArg (fun m => (OrderedMap.insertAll m (asEntries xs)).entries) hx.symm)
  exact hinsert empty

/-- A set that is made of a list has no other elements. -/
theorem mem_ofList {x : α} {xs : List α} (h : x ∈ (ofList xs).elements) : x ∈ xs := by
  have hentry : (x, ()) ∈ (OrderedMap.ofList (asEntries xs)).entries := by
    rw [← asEntries_ofList]
    exact List.mem_map_of_mem h
  obtain ⟨y, hy, heq⟩ := List.mem_map.1 (OrderedMap.mem_ofList hentry)
  cases heq
  exact hy

/-- A set that is made of a list has no two equal elements. -/
theorem distinct_ofList (hequiv : EquivalenceOn good) {xs : List α} (hgood : ∀ x ∈ xs, good x) :
    Distinct (fun a b => (a == b) = true) (ofList xs).elements := by
  have hdistinct := OrderedMap.distinct_ofList hequiv (good_asEntries hgood)
  rw [← asEntries_ofList] at hdistinct
  exact List.pairwise_map.1 hdistinct

/-- In the set of some elements there is what is equal to one of them. -/
theorem contains_ofList (hequiv : EquivalenceOn good) {xs : List α} (hgood : ∀ x ∈ xs, good x) {x : α} (hx : good x) :
    (ofList xs).contains x = xs.any fun y => x == y := by
  have hfind := OrderedMap.find?_ofList hequiv (good_asEntries hgood) hx
  rw [← asEntries_ofList] at hfind
  rw [contains, any_eq_isSome_find?, hfind, List.isSome_find?, List.any_reverse, any_eq_isSome_find?, List.isSome_find?]

end MiniLisp.FiniteSet
