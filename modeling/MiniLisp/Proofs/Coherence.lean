import Mathlib.Order.Nat
import MiniLisp.Proofs.Session

/-!
# Coherent heaps

In a coherent heap no frame binds a name twice, and every name stands for a slot that is there. New heaps are coherent, and all
work keeps a heap coherent (`coherent_law`).

In a coherent heap the names that a frame shares with another one are exactly the names that it has, each with its own slot
(`Heap.localSlot?_shared`).
-/

namespace MiniLisp

variable {h : Heap} {frame home : FrameId} {name : Symbol} {slot : SlotId}

/-! ## Frames -/

namespace Frame

variable {f : Frame} {size : Nat}

/-- Every name is bound once, to one of so many slots. -/
structure Coherent (size : Nat) (f : Frame) : Prop where
  nodup : (f.bindings.map Prod.fst).Nodup
  slot_lt : ∀ b ∈ f.bindings, b.2 < size

theorem Coherent.empty (size : Nat) : Coherent size {} := ⟨List.nodup_nil, fun _ hb => nomatch hb⟩

theorem Coherent.mono {size' : Nat} (hc : f.Coherent size) (hle : size ≤ size') : f.Coherent size' :=
  ⟨hc.nodup, fun b hb => (hc.slot_lt b hb).trans_le hle⟩

/-- A name that is bound anew loses its binding before. -/
theorem Coherent.bind (hc : f.Coherent size) (hlt : slot < size) : (f.bind name slot).Coherent size := by
  constructor
  · simp only [Frame.bind, List.map_cons, List.nodup_cons]
    refine ⟨?_, (hc.nodup.sublist (List.filter_sublist.map Prod.fst))⟩
    simp
  · intro b hb
    simp only [Frame.bind, List.mem_cons, List.mem_filter] at hb
    rcases hb with rfl | ⟨hb, -⟩
    · exact hlt
    · exact hc.slot_lt b hb

/-- A name stands for the slot that it is bound to. -/
theorem Coherent.slot?_eq_some_iff (hc : f.Coherent size) : f.slot? name = some slot ↔ (name, slot) ∈ f.bindings := by
  obtain ⟨hnodup, -⟩ := hc
  obtain ⟨bindings⟩ := f
  simp only [slot?]
  induction bindings with
  | nil => simp
  | cons b bs ih =>
    obtain ⟨other, s⟩ := b
    rw [List.map_cons, List.nodup_cons] at hnodup
    obtain ⟨hfresh, hnodup⟩ := hnodup
    by_cases hname : name = other
    · subst hname
      have habsent : (name, slot) ∉ bs := fun hmem => hfresh (List.mem_map.2 ⟨_, hmem, rfl⟩)
      simp [habsent, eq_comm]
    · have hb : (name == other) = false := by simpa using hname
      simp [List.lookup_cons, hb, ih hnodup, hname]

end Frame

/-! ## Heaps -/

namespace Heap

/-- Every frame binds each of its names once, to a slot that is there. -/
def Coherent (h : Heap) : Prop := ∀ (i : FrameId) (f : Frame), h.frames[i]? = some f → f.Coherent h.slots.size

namespace Coherent

/-- A name stands for a slot that is there. -/
theorem slot_lt (hc : h.Coherent) (hs : h.localSlot? frame name = some slot) : slot < h.slots.size := by
  obtain ⟨f, hf, hslot⟩ := Option.bind_eq_some_iff.1 hs
  exact (hc frame f hf).slot_lt _ ((hc frame f hf).slot?_eq_some_iff.1 hslot)

/-- So there is something in that slot. -/
theorem exists_slot (hc : h.Coherent) (hs : h.localSlot? frame name = some slot) : ∃ contents, h.slots[slot]? = some contents :=
  ⟨_, Array.getElem?_eq_getElem (hc.slot_lt hs)⟩

/-- The same along a path of frames. -/
theorem resolvePath?_lt (hc : h.Coherent) {path : List FrameId} (hs : h.resolvePath? name path = some slot) :
    slot < h.slots.size := by
  induction path with
  | nil => cases hs
  | cons frame path ih =>
    rw [resolvePath?] at hs
    split at hs
    · rename_i found hfound
      cases hs
      exact hc.slot_lt hfound
    · exact ih hs

/-- A name that stands for the same slot has the same value, if the slots that were there are as they were. -/
theorem lookup?_congr {h' : Heap} (hc : h.Coherent) (hslots : ∀ i < h.slots.size, h'.slots[i]? = h.slots[i]?) {scope : Env}
    (hs : h'.resolve? scope name = h.resolve? scope name) : h'.lookup? scope name = h.lookup? scope name := by
  rw [lookup?, lookup?, hs]
  cases hr : h.resolve? scope name with
  | none => rfl
  | some slot => rw [Option.bind_some, Option.bind_some, hslots slot (hc.resolvePath?_lt hr)]

/-- Binding a name to a slot that is there. -/
theorem bind (hc : h.Coherent) (hlt : slot < h.slots.size) : (h.bind frame name slot).Coherent := by
  intro i f hf
  rw [Heap.bind, Array.getElem?_modify] at hf
  split at hf
  · obtain ⟨g, hg, rfl⟩ := Option.map_eq_some_iff.1 hf
    exact (hc i g hg).bind hlt
  · exact hc i f hf

/-- Names for slots that are there may be bound in any frame. -/
theorem bindAll (hc : h.Coherent) {bindings : List (Symbol × SlotId)} (hlt : ∀ b ∈ bindings, b.2 < h.slots.size) :
    (h.bindAll frame bindings).Coherent := by
  induction bindings generalizing h with
  | nil => exact hc
  | cons b bs ih =>
    rw [Heap.bindAll, List.foldl_cons]
    refine ih (hc.bind (hlt b List.mem_cons_self)) fun b' hb' => ?_
    exact hlt b' (List.mem_cons_of_mem b hb')

/-- The slots of the heap are those that were there and one more. -/
theorem define (hc : h.Coherent) (value : Value) (mutable : Bool) : (h.define frame name value mutable).Coherent := by
  have hpush : Coherent { h with slots := h.slots.push ⟨value, mutable⟩ } := by
    intro i f hf
    exact (hc i f hf).mono (by simp)
  exact hpush.bind (by simp)

theorem newChild (hc : h.Coherent) (env : Env) : (h.newChild env).2.Coherent := by
  intro i f hf
  rw [frames_newChild, Array.getElem?_push] at hf
  split at hf
  · cases hf
    exact .empty _
  · exact hc i f hf

/-- Each definition makes the slot that its name stands for. -/
theorem defineAll (hc : h.Coherent) (mutable : Bool) (bindings : List (Symbol × Value)) :
    (h.defineAll frame mutable bindings).Coherent := by
  induction bindings generalizing h with
  | nil => exact hc
  | cons b bs ih => exact ih (hc.define b.2 mutable)

/-- A new frame with new slots for its names. -/
theorem withScope (hc : h.Coherent) (env : Env) (bindings : List (Symbol × Value)) : (h.withScope env bindings).Coherent :=
  (hc.newChild env).defineAll false bindings

/-- The filling of a slot changes no name. -/
theorem fill (hc : h.Coherent) (value : Value) : (h.fill slot value).Coherent := by
  intro i f hf
  have hsize : (h.fill slot value).slots.size = h.slots.size := by simp [Heap.fill]
  rw [hsize]
  exact hc i f hf

/-- The bindings of a frame are its names with the slots that they stand for. -/
theorem mem_localBindings_iff (hc : h.Coherent) : (name, slot) ∈ h.localBindings home ↔ h.localSlot? home name = some slot := by
  rw [localBindings, List.mem_mergeSort, localSlot?]
  cases hf : h.frames[home]? with
  | none => simp
  | some f => simp [(hc home f hf).slot?_eq_some_iff]

/-- A frame lists each of its names once. -/
theorem nodup_localBindings (hc : h.Coherent) (home : FrameId) : ((h.localBindings home).map Prod.fst).Nodup := by
  rw [localBindings, ((List.mergeSort_perm _ _).map Prod.fst).nodup_iff]
  cases hf : h.frames[home]? with
  | none => simp
  | some f => exact (hc home f hf).nodup

/-- The names of a frame, shared with another. -/
theorem share (hc : h.Coherent) (frame home : FrameId) : (h.bindAll frame (h.localBindings home)).Coherent := by
  refine hc.bindAll fun b hb => ?_
  exact hc.slot_lt (hc.mem_localBindings_iff.1 hb)

end Coherent

end Heap

/-- All work keeps the heap coherent. -/
theorem coherent_law : Law (fun _ => True) fun _ m m' => m.heap.Coherent → m'.heap.Coherent where
  refl _ _ hc := hc
  trans h h' hc := h' (h hc)
  definition _ _ _ _ v mutable hc := hc.define v mutable
  sharing _ own _ home hc := hc.share own home
  assignment _ _ _ _ _ _ v _ hc := hc.fill v
  lambdaId _ _ hc := hc
  symbol _ _ _ hc := hc
  output _ _ _ hc := hc
  scope env bindings h hc := h (hc.withScope env bindings)
  newModule env _ h _ hc := h (hc.newChild env)
  nested _ h hc := h hc

/-- A new interpreter has a coherent heap. -/
theorem Heap.Coherent.fresh (limits : Limits) : (Machine.fresh limits).heap.Coherent := by
  have hall : ∀ (ps : List Primitive) (h : Heap), h.Coherent →
      (ps.foldl (fun h p => h.define 0 p.name (.native p) false) h).Coherent := by
    intro ps
    induction ps with
    | nil => exact fun h hc => hc
    | cons p ps ih => exact fun h hc => ih _ (hc.define (.native p) false)
  have hempty : Heap.Coherent {} := by
    intro i f hf
    simp at hf
  have hroot : ({} : Heap).newRoot.2.Coherent := hempty.newChild ⟨0, []⟩
  exact (hall Primitive.all _ hroot).define (.bool true) false

/-! ## Names after sharing -/

namespace Heap

/-- After sharing, a name of the shared frame stands for the same slot in the other frame. -/
theorem localSlot?_shared (hc : h.Coherent) (hf : frame < h.frames.size) (hs : h.localSlot? home name = some slot) :
    (h.bindAll frame (h.localBindings home)).localSlot? frame name = some slot :=
  localSlot?_bindAll_of_mem h hf (hc.nodup_localBindings home) (hc.mem_localBindings_iff.2 hs)

/-- Sharing leaves alone what is no name of the shared frame. -/
theorem localSlot?_shared_of_none (hc : h.Coherent) (other : FrameId) (hs : h.localSlot? home name = none) :
    (h.bindAll frame (h.localBindings home)).localSlot? other name = h.localSlot? other name := by
  refine localSlot?_bindAll_of_not_mem h frame other fun hmem => ?_
  obtain ⟨⟨_, slot⟩, hb, rfl⟩ := List.mem_map.1 hmem
  rw [hc.mem_localBindings_iff.1 hb] at hs
  cases hs

end Heap

end MiniLisp
