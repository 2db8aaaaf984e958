import MiniLisp.Proofs.Collection.OrderedMap
import Mathlib.Data.List.Basic

/-!
# Maps with an index

A map can be kept in two structures: the entries, one after the other, and an index that says at which place the entry of a key
stands. Nothing is searched for in the entries; an edit keeps the two in step by hand. Taking an entry away shifts the places of
all later ones, so the map is made anew of the entries that stay.

The index says what a search in the entries would find (`IndexedMap.Consistent`, an invariant of all edits), and the entries are
those of the ordered map with the same history (`IndexedMap.ofHistory_refines`). The index is only asked for what stands under a
key: in which order it holds its keys does not matter.
-/

namespace MiniLisp

variable {κ ν : Type}

/-- The entries of a map, oldest key first, and the places of its keys among them. -/
structure IndexedMap (κ ν : Type) where
  entries : List (κ × ν)
  index : OrderedMap κ Nat

namespace IndexedMap

variable [BEq κ]

def empty : IndexedMap κ ν := ⟨[], .empty⟩

def get? (m : IndexedMap κ ν) (key : κ) : Option ν := (m.index.get? key).bind fun i => m.entries[i]?.map (·.2)

def contains (m : IndexedMap κ ν) (key : κ) : Bool := m.index.contains key

def insert (m : IndexedMap κ ν) (key : κ) (value : ν) : IndexedMap κ ν :=
  match m.index.get? key with
  | some i => ⟨m.entries.set i (key, value), m.index⟩
  | none => ⟨m.entries ++ [(key, value)], m.index.insert key m.entries.length⟩

/-- Every pair inserted in turn. -/
def insertAll (m : IndexedMap κ ν) (pairs : List (κ × ν)) : IndexedMap κ ν := pairs.foldl (fun m e => m.insert e.1 e.2) m

/-- The map of the entries with other keys; a map without the key is left as it is. -/
def erase (m : IndexedMap κ ν) (key : κ) : IndexedMap κ ν :=
  if m.contains key then empty.insertAll (m.entries.filter fun e => !(e.1 == key)) else m

/-- The map after an edit. -/
def edit (m : IndexedMap κ ν) : Edit κ ν → IndexedMap κ ν
  | .insert key value => m.insert key value
  | .erase key => m.erase key
  | .clear => empty

/-- The map that edits make of the empty one, the latest edit first. -/
def ofHistory : List (Edit κ ν) → IndexedMap κ ν
  | [] => empty
  | e :: before => (ofHistory before).edit e

/-- Two maps hold as many entries, and the second holds all those of the first. -/
def same [BEq ν] (a b : IndexedMap κ ν) : Bool :=
  a.entries.length == b.entries.length && a.entries.all fun e => b.get? e.1 == some e.2

/-! ## Places in a list -/

omit [BEq κ] in
/-- A search is not changed by replacing an element with one that it treats alike. -/
theorem findIdx?_set {α : Type} {p : α → Bool} {xs : List α} {i : Nat} {x y : α} (hx : xs[i]? = some x) (hy : p y = p x) :
    (xs.set i y).findIdx? p = xs.findIdx? p := by
  have hmap : (xs.set i y).map p = xs.map p := by
    obtain ⟨hi, rfl⟩ := List.getElem?_eq_some_iff.1 hx
    rw [List.map_set, hy, ← List.getElem_map p (h := by simpa using hi), List.set_getElem_self]
  have hsearch (zs : List α) : zs.findIdx? p = (zs.map p).findIdx? id := by rw [List.findIdx?_map, Function.id_comp]
  rw [hsearch, hsearch, hmap]

/-- The entry of a key that is there is set where a search for the key stops. -/
theorem insertEntry_eq_set {key : κ} (value : ν) {entries : List (κ × ν)} {i : Nat}
    (h : (entries.findIdx? fun e => key == e.1) = some i) :
    OrderedMap.insertEntry key value entries = entries.set i (key, value) := by
  induction entries generalizing i with
  | nil => cases h
  | cons e entries ih =>
    rw [List.findIdx?_cons] at h
    rw [OrderedMap.insertEntry]
    split at h
    · rename_i hkey
      cases h
      rw [if_pos hkey, List.set_cons_zero]
    · rename_i hkey
      obtain ⟨j, hj, rfl⟩ := Option.map_eq_some_iff.1 h
      rw [if_neg hkey, ih hj, List.set_cons_succ]

/-! ## The two structures in step -/

variable {good : κ → Prop}

/-- The index says where a search in the entries would stop, and of no other key. -/
structure Consistent (good : κ → Prop) (m : IndexedMap κ ν) : Prop where
  goodEntries : ∀ e ∈ m.entries, good e.1
  goodIndex : ∀ e ∈ m.index.entries, good e.1
  size : m.index.size = m.entries.length
  points : ∀ e ∈ m.index.entries, ∃ f, m.entries[e.2]? = some f ∧ (e.1 == f.1) = true
  finds : ∀ key, good key → m.index.get? key = m.entries.findIdx? fun e => key == e.1

/-- The empty map has the empty index. -/
theorem consistent_empty : Consistent good (empty : IndexedMap κ ν) where
  goodEntries := List.forall_mem_nil _
  goodIndex := List.forall_mem_nil _
  size := rfl
  points := List.forall_mem_nil _
  finds _ _ := rfl

namespace Consistent

variable {m : IndexedMap κ ν}

/-- What stands under a key in the index is the place of an entry with an equal key. -/
theorem entry_of_get? (h : Consistent good m) {key : κ} (hkey : good key) {i : Nat} (hi : m.index.get? key = some i) :
    ∃ e ∈ m.entries, m.entries[i]? = some e ∧ (key == e.1) = true := by
  rw [h.finds key hkey, List.findIdx?_eq_some_iff_getElem] at hi
  obtain ⟨hlt, hke, -⟩ := hi
  exact ⟨_, List.getElem_mem hlt, List.getElem?_eq_getElem hlt, hke⟩

/-- A key that is not in the index is in no entry. -/
theorem absent_of_get? (h : Consistent good m) {key : κ} (hkey : good key) (hnone : m.index.get? key = none) :
    ∀ e ∈ m.entries, (key == e.1) = false := by
  rw [h.finds key hkey, List.findIdx?_eq_none_iff] at hnone
  simpa using hnone

/-- Setting the entry of a key that is there. -/
theorem replace (h : Consistent good m) (hequiv : EquivalenceOn good) {key : κ} (hkey : good key) {i : Nat}
    (hi : m.index.get? key = some i) (value : ν) : Consistent good ⟨m.entries.set i (key, value), m.index⟩ := by
  obtain ⟨e, he, hget, hke⟩ := h.entry_of_get? hkey hi
  have hegood := h.goodEntries e he
  refine ⟨fun f hf => ?_, h.goodIndex, by simpa using h.size, fun f hf => ?_, fun probe hprobe => ?_⟩
  · rcases List.mem_or_eq_of_mem_set hf with hf | rfl
    · exact h.goodEntries f hf
    · exact hkey
  · obtain ⟨g, hg, hfg⟩ := h.points f hf
    by_cases hif : i = f.2
    · -- The key in the index was equal to that of the old entry, so it is equal to the new one.
      subst hif
      obtain rfl : e = g := Option.some.inj (hget.symm.trans hg)
      have hlt := (List.getElem?_eq_some_iff.1 hget).1
      refine ⟨(key, value), by simp [hlt], ?_⟩
      rwa [hequiv.beq_congr_right hkey hegood (h.goodIndex f hf) hke]
    · exact ⟨g, by rwa [List.getElem?_set_ne hif], hfg⟩
  · rw [h.finds probe hprobe]
    exact (findIdx?_set hget (hequiv.beq_congr_right hkey hegood hprobe hke)).symm

/-- Adding an entry with a new key. -/
theorem append (h : Consistent good m) (hequiv : EquivalenceOn good) {key : κ} (hkey : good key)
    (hnone : m.index.get? key = none) (value : ν) :
    Consistent good ⟨m.entries ++ [(key, value)], m.index.insert key m.entries.length⟩ := by
  have habsent := h.absent_of_get? hkey hnone
  have hindex : (m.index.insert key m.entries.length).entries = m.index.entries ++ [(key, m.entries.length)] := by
    refine OrderedMap.insertEntry_of_not_contains _ ?_
    have hcontains := OrderedMap.contains_eq_isSome m.index key
    rwa [hnone] at hcontains
  refine ⟨fun e he => ?_, fun e he => ?_, ?_, fun e he => ?_, fun probe hprobe => ?_⟩
  · rcases List.mem_append.1 he with he | he
    · exact h.goodEntries e he
    · obtain rfl := List.mem_singleton.1 he
      exact hkey
  · rw [hindex] at he
    rcases List.mem_append.1 he with he | he
    · exact h.goodIndex e he
    · obtain rfl := List.mem_singleton.1 he
      exact hkey
  · have hsize := h.size
    simp only [OrderedMap.size] at hsize ⊢
    simp [hindex, hsize]
  · rw [hindex] at he
    rcases List.mem_append.1 he with he | he
    · obtain ⟨f, hf, hef⟩ := h.points e he
      exact ⟨f, by rw [List.getElem?_append_left (List.getElem?_eq_some_iff.1 hf).1, hf], hef⟩
    · obtain rfl := List.mem_singleton.1 he
      exact ⟨(key, value), by simp, (hequiv key hkey).refl⟩
  · rw [OrderedMap.get?_insert hequiv hkey hprobe _ h.goodIndex, h.finds probe hprobe, List.findIdx?_append]
    cases hpk : probe == key with
    | true =>
      -- A key that is equal to the new one was in no entry either, so the search goes on to the new entry.
      have hsearch : (m.entries.findIdx? fun e => probe == e.1) = none := by
        refine List.findIdx?_eq_none_iff.2 fun e he => ?_
        rw [hequiv.beq_congr hprobe hkey (h.goodEntries e he) hpk, habsent e he]
      simp [hsearch, hpk]
    | false => simp [hpk]

/-- An insertion keeps the two structures in step, and sets the entry that an ordered map sets. -/
theorem insert (h : Consistent good m) (hequiv : EquivalenceOn good) {key : κ} (hkey : good key) (value : ν) :
    Consistent good (m.insert key value) ∧ (m.insert key value).entries = OrderedMap.insertEntry key value m.entries := by
  have hfinds := h.finds key hkey
  rw [IndexedMap.insert]
  cases hi : m.index.get? key with
  | some i =>
    rw [hi] at hfinds
    exact ⟨h.replace hequiv hkey hi value, (insertEntry_eq_set value hfinds.symm).symm⟩
  | none =>
    refine ⟨h.append hequiv hkey hi value, (OrderedMap.insertEntry_of_not_contains value ?_).symm⟩
    exact List.any_eq_false.2 fun e he => by simp [h.absent_of_get? hkey hi e he]

/-- Of several insertions, each keeps the index in step with the entries. -/
theorem insertAll (h : Consistent good m) (hequiv : EquivalenceOn good) {pairs : List (κ × ν)} (hpairs : ∀ e ∈ pairs, good e.1) :
    Consistent good (m.insertAll pairs) ∧ (m.insertAll pairs).entries = (OrderedMap.insertAll ⟨m.entries⟩ pairs).entries := by
  induction pairs generalizing m with
  | nil => exact ⟨h, rfl⟩
  | cons e pairs ih =>
    obtain ⟨he, hpairs⟩ := List.forall_mem_cons.1 hpairs
    obtain ⟨hm, hentries⟩ := h.insert hequiv he e.2
    obtain ⟨hconsistent, heq⟩ := ih hm hpairs
    rw [hentries] at heq
    exact ⟨hconsistent, heq⟩

/-- Whether a key is there is answered by the index as it is by the entries. -/
theorem contains_eq (h : Consistent good m) {key : κ} (hkey : good key) :
    m.contains key = (OrderedMap.mk m.entries).contains key := by
  rw [IndexedMap.contains, OrderedMap.contains_eq_isSome, h.finds key hkey, List.findIdx?_isSome]
  rfl

/-- What the index leads to is what a search in the entries finds. -/
theorem get?_eq (h : Consistent good m) {key : κ} (hkey : good key) :
    m.get? key = (OrderedMap.mk m.entries).get? key := by
  rw [IndexedMap.get?, h.finds key hkey, OrderedMap.get?, List.find?_eq_bind_findIdx?_getElem?]
  cases m.entries.findIdx? fun e => key == e.1 <;> rfl

/-- An erasure keeps the two structures in step, and leaves the entries that an ordered map keeps. -/
theorem erase (h : Consistent good m) (hequiv : EquivalenceOn good)
    (hd : Distinct (fun e f => (e.1 == f.1) = true) m.entries) {key : κ} (hkey : good key) :
    Consistent good (m.erase key) ∧ (m.erase key).entries = ((OrderedMap.mk m.entries).erase key).entries := by
  rw [IndexedMap.erase, h.contains_eq hkey]
  split
  · have hkept : ∀ e ∈ m.entries.filter (fun e => !(e.1 == key)), good e.1 :=
      fun e he => h.goodEntries e (List.mem_filter.1 he).1
    obtain ⟨hconsistent, heq⟩ := consistent_empty.insertAll hequiv hkept
    refine ⟨hconsistent, heq.trans ?_⟩
    rw [show (⟨empty.entries⟩ : OrderedMap κ ν) = .empty from rfl, ← OrderedMap.ofList,
      OrderedMap.ofList_of_distinct hequiv hkept (hd.filter _)]
    exact List.filter_congr fun e he => by rw [hequiv.beq_comm hkey (h.goodEntries e he)]
  · rename_i hcontains
    refine ⟨h, (List.filter_eq_self.2 fun e he => ?_).symm⟩
    have hne := List.any_eq_false.1 (Bool.not_eq_true _ ▸ hcontains) e he
    simpa using hne

end Consistent

/-- A history of edits gives the entries of the ordered map with that history, and an index in step with them. -/
theorem ofHistory_refines (hequiv : EquivalenceOn good) {history : List (Edit κ ν)} (hgood : ∀ edit ∈ history, edit.Good good) :
    Consistent good (ofHistory history) ∧ (ofHistory history).entries = (OrderedMap.ofHistory history).entries := by
  induction history with
  | nil => exact ⟨consistent_empty, rfl⟩
  | cons edit before ih =>
    obtain ⟨hedit, hbefore⟩ := List.forall_mem_cons.1 hgood
    obtain ⟨hconsistent, hentries⟩ := ih hbefore
    have hd := OrderedMap.distinct_ofHistory hequiv hbefore
    rw [← hentries] at hd
    cases edit with
    | insert key value =>
      have hstep := hconsistent.insert hequiv hedit value
      rw [hentries] at hstep
      exact hstep
    | erase key =>
      have hstep := hconsistent.erase hequiv hd hedit
      rw [hentries] at hstep
      exact hstep
    | clear => exact ⟨consistent_empty, rfl⟩

end IndexedMap

end MiniLisp
