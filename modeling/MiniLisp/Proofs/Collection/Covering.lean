import Mathlib.Data.List.Forall2

/-!
# Equivalence one element at a time, and lists that cover one another

Whether two nested things are equal is settled by what they hold, so that equality is an equivalence is shown for a thing from
what is known of the things inside it alone. `EquivalenceAt` is all that is known of one of them. It passes from the elements to
lists that are compared element by element (`EquivalenceAt.forall₂`), and to lists whose order does not count
(`EquivalenceAt.covers`): a list without repetition covers a list of the same length if each of its elements has an equal in
there, and then each of the others has an equal in it.
-/

namespace MiniLisp

variable {α β : Type} {r : α → α → Prop} {good : α → Prop}

/-- Among good things, a relation is an equivalence as far as `a` is concerned. -/
structure EquivalenceAt (r : α → α → Prop) (good : α → Prop) (a : α) : Prop where
  refl : r a a
  symm : ∀ {b}, good b → r a b → r b a
  trans : ∀ {b c}, good b → good c → r a b → r b c → r a c
  join : ∀ {b c}, good b → good c → r a b → r a c → r b c

namespace EquivalenceAt

/-- Lists that are compared element by element. -/
theorem forall₂ {xs : List α} (h : ∀ x ∈ xs, EquivalenceAt r good x) :
    EquivalenceAt (List.Forall₂ r) (fun ys => ∀ y ∈ ys, good y) xs := by
  induction xs with
  | nil =>
    refine ⟨.nil, fun _ h => ?_, fun _ _ h h' => ?_, fun _ _ h h' => ?_⟩
    · cases h
      exact .nil
    · cases h
      exact h'
    · cases h
      exact h'
  | cons x xs ih =>
    obtain ⟨hx, hxs⟩ := List.forall_mem_cons.1 h
    have ih := ih hxs
    refine ⟨.cons hx.refl ih.refl, ?_, ?_, ?_⟩
    · intro ys hys h
      cases h with
      | cons hxy hrest =>
        obtain ⟨hy, hys⟩ := List.forall_mem_cons.1 hys
        exact .cons (hx.symm hy hxy) (ih.symm hys hrest)
    · intro ys zs hys hzs h h'
      cases h with
      | cons hxy hrest =>
        cases h' with
        | cons hyz hrest' =>
          obtain ⟨hy, hys⟩ := List.forall_mem_cons.1 hys
          obtain ⟨hz, hzs⟩ := List.forall_mem_cons.1 hzs
          exact .cons (hx.trans hy hz hxy hyz) (ih.trans hys hzs hrest hrest')
    · intro ys zs hys hzs h h'
      cases h with
      | cons hxy hrest =>
        cases h' with
        | cons hxz hrest' =>
          obtain ⟨hy, hys⟩ := List.forall_mem_cons.1 hys
          obtain ⟨hz, hzs⟩ := List.forall_mem_cons.1 hzs
          exact .cons (hx.join hy hz hxy hxz) (ih.join hys hzs hrest hrest')

/-- Two things beside each other. -/
theorem prod {s : β → β → Prop} {good' : β → Prop} {p : α × β} (h : EquivalenceAt r good p.1)
    (h' : EquivalenceAt s good' p.2) :
    EquivalenceAt (fun p q => r p.1 q.1 ∧ s p.2 q.2) (fun p => good p.1 ∧ good' p.2) p where
  refl := ⟨h.refl, h'.refl⟩
  symm hq hpq := ⟨h.symm hq.1 hpq.1, h'.symm hq.2 hpq.2⟩
  trans hq hs hpq hqs := ⟨h.trans hq.1 hs.1 hpq.1 hqs.1, h'.trans hq.2 hs.2 hpq.2 hqs.2⟩
  join hq hs hpq hps := ⟨h.join hq.1 hs.1 hpq.1 hps.1, h'.join hq.2 hs.2 hpq.2 hps.2⟩

/-- What is an equivalence for many elements is one for some of them. -/
theorem imp {good' : α → Prop} {a : α} (h : EquivalenceAt r good a) (hgood : ∀ {b}, good' b → good b) :
    EquivalenceAt r good' a where
  refl := h.refl
  symm hb := h.symm (hgood hb)
  trans hb hc := h.trans (hgood hb) (hgood hc)
  join hb hc := h.join (hgood hb) (hgood hc)

/-- Things made of others by a constructor `c`: the relation of two of them is that of what they are made of. It is enough to
know this for things that stand in relation to `c x`. -/
theorem under {s : β → β → Prop} {good' : β → Prop} {c : β → α} {x : β} (h : EquivalenceAt s good' x) (hx : good' x)
    (hgood : ∀ {y}, good (c y) → good' y) (hinv : ∀ {y b}, r (c y) b → ∃ z, b = c z ∧ s y z)
    (hrel : ∀ {y z}, good' y → good' z → s x y → s y z → r (c y) (c z)) : EquivalenceAt r good (c x) where
  refl := hrel hx hx h.refl h.refl
  symm {b} hb hr := by
    obtain ⟨y, rfl, hxy⟩ := hinv hr
    exact hrel (hgood hb) hx hxy (h.symm (hgood hb) hxy)
  trans {b d} hb hd hr hr' := by
    obtain ⟨y, rfl, hxy⟩ := hinv hr
    obtain ⟨z, rfl, hyz⟩ := hinv hr'
    exact hrel hx (hgood hd) h.refl (h.trans (hgood hb) (hgood hd) hxy hyz)
  join {b d} hb hd hr hr' := by
    obtain ⟨y, rfl, hxy⟩ := hinv hr
    obtain ⟨z, rfl, hxz⟩ := hinv hr'
    exact hrel (hgood hb) (hgood hd) hxy (h.join (hgood hb) (hgood hd) hxy hxz)

end EquivalenceAt

/-! ## Covering -/

/-- No element of a list is related to a later one. -/
def Distinct (r : α → α → Prop) (xs : List α) : Prop := xs.Pairwise fun a b => ¬r a b

/-- In a list without repetition, a search for things that are all related finds the only one there. -/
theorem Distinct.find?_eq {xs : List α} {x : α} {p : α → Bool} (hd : Distinct r xs) (hx : x ∈ xs) (hp : p x = true)
    (hr : ∀ y ∈ xs, p y = true → r y x) : xs.find? p = some x := by
  induction xs with
  | nil => cases hx
  | cons y ys ih =>
    obtain ⟨hy, hys⟩ := List.forall_mem_cons.1 hr
    cases hpy : p y with
    | true =>
      rw [List.find?_cons_of_pos hpy]
      rcases List.mem_cons.1 hx with rfl | hx
      · rfl
      · exact absurd (hy hpy) (List.rel_of_pairwise_cons hd hx)
    | false =>
      rw [List.find?_cons_of_neg (by simp [hpy])]
      have hne : x ≠ y := by
        rintro rfl
        simp [hpy] at hp
      exact ih (List.Pairwise.of_cons hd) ((List.mem_cons.1 hx).resolve_left hne) hys

/-- A list without repetition stays one if an element is replaced by one that is related to no more than it was. -/
theorem Distinct.replace {before after : List α} {x x' : α} (hd : Distinct r (before ++ x :: after))
    (hbefore : ∀ y ∈ before, r y x' → r y x) (hafter : ∀ y ∈ after, r x' y → r x y) :
    Distinct r (before ++ x' :: after) := by
  obtain ⟨hb, hxa, hba⟩ := List.pairwise_append.1 hd
  obtain ⟨hx, ha⟩ := List.pairwise_cons.1 hxa
  refine List.pairwise_append.2 ⟨hb, List.pairwise_cons.2 ⟨fun y hy h => hx y hy (hafter y hy h), ha⟩, fun y hy z hz => ?_⟩
  rcases List.mem_cons.1 hz with rfl | hz
  · exact fun h => hba y hy x List.mem_cons_self (hbefore y hy h)
  · exact hba y hy z (List.mem_cons_of_mem _ hz)

/-- Each element of a list is related to an element of another of the same length. -/
structure Covers (r : α → α → Prop) (xs ys : List α) : Prop where
  length : xs.length = ys.length
  covered : ∀ x ∈ xs, ∃ y ∈ ys, r x y

/-- Elements that are related to one thing are related to each other. -/
def Injects (r : α → α → Prop) (xs ys : List α) : Prop := ∀ x ∈ xs, ∀ x' ∈ xs, ∀ y ∈ ys, r x y → r x' y → r x x'

/-- The first element of a list has a partner that no other element has. -/
theorem Injects.split {x : α} {xs ys : List α} (hi : Injects r (x :: xs) ys) (hd : Distinct r (x :: xs))
    (hc : ∀ x' ∈ x :: xs, ∃ y ∈ ys, r x' y) :
    ∃ before y after, ys = before ++ y :: after ∧ r x y ∧ ∀ x' ∈ xs, ∃ y' ∈ before ++ after, r x' y' := by
  obtain ⟨y, hy, hxy⟩ := hc x List.mem_cons_self
  obtain ⟨before, after, rfl⟩ := List.append_of_mem hy
  refine ⟨before, y, after, rfl, hxy, fun x' hx' => ?_⟩
  obtain ⟨y', hy', hxy'⟩ := hc x' (List.mem_cons_of_mem _ hx')
  -- If the partner were the same, the two elements would be related.
  have hne : y' ≠ y := by
    rintro rfl
    exact List.rel_of_pairwise_cons hd hx' (hi x List.mem_cons_self x' (List.mem_cons_of_mem _ hx') y' hy hxy hxy')
  refine ⟨y', ?_, hxy'⟩
  rcases List.mem_append.1 hy' with hy' | hy'
  · exact List.mem_append_left _ hy'
  · exact List.mem_append_right _ ((List.mem_cons.1 hy').resolve_left hne)

/-- When the first element and its partner are taken away, the other elements have their partners still. -/
theorem Injects.tail {x : α} {xs before after : List α} {y : α} (hi : Injects r (x :: xs) (before ++ y :: after)) :
    Injects r xs (before ++ after) := by
  intro x₁ h₁ x₂ h₂ y' hy'
  refine hi x₁ (List.mem_cons_of_mem _ h₁) x₂ (List.mem_cons_of_mem _ h₂) y' ?_
  rcases List.mem_append.1 hy' with hy' | hy'
  · exact List.mem_append_left _ hy'
  · exact List.mem_append_right _ (List.mem_cons_of_mem _ hy')

/-- A list without repetition is no longer than a list with a partner for each of its elements. -/
theorem Injects.length_le {xs ys : List α} (hi : Injects r xs ys) (hd : Distinct r xs) (hc : ∀ x ∈ xs, ∃ y ∈ ys, r x y) :
    xs.length ≤ ys.length := by
  induction xs generalizing ys with
  | nil => exact Nat.zero_le _
  | cons x xs ih =>
    obtain ⟨before, y, after, rfl, -, hrest⟩ := hi.split hd hc
    have hle := ih hi.tail (List.Pairwise.of_cons hd) hrest
    simp only [List.length_append, List.length_cons] at hle ⊢
    omega

/-- If it is as long, each of the others is a partner. -/
theorem Injects.covered_back {xs ys : List α} (hi : Injects r xs ys) (hd : Distinct r xs) (hc : Covers r xs ys) :
    ∀ y ∈ ys, ∃ x ∈ xs, r x y := by
  obtain ⟨hlen, hc⟩ := hc
  induction xs generalizing ys with
  | nil =>
    obtain rfl := List.length_eq_zero_iff.1 hlen.symm
    simp
  | cons x xs ih =>
    obtain ⟨before, y, after, rfl, hxy, hrest⟩ := hi.split hd hc
    have hback := ih hi.tail (List.Pairwise.of_cons hd) (by simp at hlen ⊢; omega) hrest
    intro y' hy'
    have hcases : y' = y ∨ y' ∈ before ++ after := by simpa [or_left_comm] using hy'
    rcases hcases with rfl | hy'
    · exact ⟨x, List.mem_cons_self, hxy⟩
    · obtain ⟨x', hx', h⟩ := hback y' hy'
      exact ⟨x', List.mem_cons_of_mem _ hx', h⟩

/-- In some order, the others are the partners one by one. -/
theorem Injects.exists_perm {xs ys : List α} (hi : Injects r xs ys) (hd : Distinct r xs) (hc : Covers r xs ys) :
    ∃ zs : List α, zs.Perm ys ∧ List.Forall₂ r xs zs := by
  obtain ⟨hlen, hc⟩ := hc
  induction xs generalizing ys with
  | nil =>
    obtain rfl := List.length_eq_zero_iff.1 hlen.symm
    exact ⟨[], .nil, .nil⟩
  | cons x xs ih =>
    obtain ⟨before, y, after, rfl, hxy, hrest⟩ := hi.split hd hc
    obtain ⟨zs, hperm, hzs⟩ := ih hi.tail (List.Pairwise.of_cons hd) (by simp at hlen ⊢; omega) hrest
    exact ⟨y :: zs, (hperm.cons y).trans List.perm_middle.symm, .cons hxy hzs⟩

/-- Elements that are compared by an equivalence have partners of their own wherever one list covers the other. -/
theorem injects_of_equivalenceAt {xs ys : List α} (h : ∀ x ∈ xs, EquivalenceAt r good x) (hxs : ∀ x ∈ xs, good x)
    (hys : ∀ y ∈ ys, good y) : Injects r xs ys := by
  intro x hx x' hx' y hy hxy hxy'
  exact (h x hx).trans (hys y hy) (hxs x' hx') hxy ((h x' hx').symm (hys y hy) hxy')

/-- Lists without repetition whose order does not count. -/
theorem EquivalenceAt.covers {xs : List α} (h : ∀ x ∈ xs, EquivalenceAt r good x) (hxs : ∀ x ∈ xs, good x)
    (hd : Distinct r xs) : EquivalenceAt (Covers r) (fun ys => ∀ y ∈ ys, good y) xs where
  refl := ⟨rfl, fun x hx => ⟨x, hx, (h x hx).refl⟩⟩
  symm {ys} hys hc := by
    refine ⟨hc.length.symm, fun y hy => ?_⟩
    obtain ⟨x, hx, hxy⟩ := (injects_of_equivalenceAt h hxs hys).covered_back hd hc y hy
    exact ⟨x, hx, (h x hx).symm (hys y hy) hxy⟩
  trans {ys zs} hys hzs hc hc' := by
    refine ⟨hc.length.trans hc'.length, fun x hx => ?_⟩
    obtain ⟨y, hy, hxy⟩ := hc.covered x hx
    obtain ⟨z, hz, hyz⟩ := hc'.covered y hy
    exact ⟨z, hz, (h x hx).trans (hys y hy) (hzs z hz) hxy hyz⟩
  join {ys zs} hys hzs hc hc' := by
    refine ⟨hc.length.symm.trans hc'.length, fun y hy => ?_⟩
    obtain ⟨x, hx, hxy⟩ := (injects_of_equivalenceAt h hxs hys).covered_back hd hc y hy
    obtain ⟨z, hz, hxz⟩ := hc'.covered x hx
    exact ⟨z, hz, (h x hx).join (hys y hy) (hzs z hz) hxy hxz⟩

end MiniLisp
