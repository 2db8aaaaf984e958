import MiniLisp.Heap
import Mathlib.Data.List.Induction

/-!
# What each operation of the heap changes

Binding a name changes one frame and no slot; filling a slot changes one slot and no frame; a new frame or slot comes behind
those that are there. Reserving a slot and filling it is the same as defining the name at once (`fill_reserve`).
-/

namespace MiniLisp.Heap

/-- A new frame is empty and comes last. -/
@[simp]
theorem frames_newChild (h : Heap) (env : Env) : (h.newChild env).2.frames = h.frames.push {} := rfl

/-- To bind a name makes no frame. -/
@[simp]
theorem size_frames_bind (h : Heap) (frame : FrameId) (name : Symbol) (slot : SlotId) :
    (h.bind frame name slot).frames.size = h.frames.size := by
  simp [bind]

/-- A definition makes one slot, behind those that are there. -/
@[simp]
theorem slots_define (h : Heap) (frame : FrameId) (name : Symbol) (value : Value) (mutable : Bool) :
    (h.define frame name value mutable).slots = h.slots.push ⟨value, mutable⟩ := rfl

/-- A definition makes no frame. -/
@[simp]
theorem size_frames_define (h : Heap) (frame : FrameId) (name : Symbol) (value : Value) (mutable : Bool) :
    (h.define frame name value mutable).frames.size = h.frames.size := by
  simp [define, defineSlot, newSlot]

/-- Binding a name leaves the other frames as they are. -/
theorem frames_bind_of_ne (h : Heap) {frame other : FrameId} (name : Symbol) (slot : SlotId) (hne : other ≠ frame) :
    (h.bind frame name slot).frames[other]? = h.frames[other]? := by
  simp [bind, Array.getElem?_modify, Ne.symm hne]

/-- Defining a name leaves the other frames as they are. -/
theorem frames_define_of_ne (h : Heap) {frame other : FrameId} (name : Symbol) (value : Value) (mutable : Bool)
    (hne : other ≠ frame) : (h.define frame name value mutable).frames[other]? = h.frames[other]? :=
  frames_bind_of_ne _ name _ hne

/-- A new frame leaves those that are there as they are. -/
theorem frames_newChild_of_lt (h : Heap) (env : Env) {frame : FrameId} (hf : frame < h.frames.size) :
    (h.newChild env).2.frames[frame]? = h.frames[frame]? := by
  simp [Array.getElem?_push_lt, hf]

/-- Binding several names makes no frame. -/
theorem size_frames_bindAll (h : Heap) (frame : FrameId) (bindings : List (Symbol × SlotId)) :
    (h.bindAll frame bindings).frames.size = h.frames.size := by
  induction bindings generalizing h with
  | nil => rfl
  | cons b bs ih =>
    rw [bindAll, List.foldl_cons]
    exact (ih _).trans (size_frames_bind h frame b.1 b.2)

/-- Binding several names of a frame leaves the other frames as they are. -/
theorem frames_bindAll_of_ne (h : Heap) {frame other : FrameId} (bindings : List (Symbol × SlotId))
    (hne : other ≠ frame) : (h.bindAll frame bindings).frames[other]? = h.frames[other]? := by
  induction bindings generalizing h with
  | nil => rfl
  | cons b bs ih =>
    rw [bindAll, List.foldl_cons]
    exact (ih _).trans (frames_bind_of_ne h b.1 b.2 hne)

/-- Binding several names changes no slot. -/
theorem slots_bindAll (h : Heap) (frame : FrameId) (bindings : List (Symbol × SlotId)) :
    (h.bindAll frame bindings).slots = h.slots := by
  induction bindings generalizing h with
  | nil => rfl
  | cons b bs ih =>
    rw [bindAll, List.foldl_cons]
    exact ih _

/-- A slot that is reserved and filled is a slot that was defined with the value. -/
theorem fill_reserve (h : Heap) (frame : FrameId) (name : Symbol) (value : Value) (mutable : Bool) :
    (h.reserve frame name mutable).2.fill (h.reserve frame name mutable).1 value = h.define frame name value mutable := by
  have hs : (h.slots.push ⟨.nil, mutable⟩).modify h.slots.size (fun s => { s with value }) =
      h.slots.push ⟨value, mutable⟩ := by
    apply Array.ext
    · simp
    · intro i hi hi'
      simp only [Array.getElem_modify, Array.getElem_push]
      grind
  simp only [reserve, define, defineSlot, newSlot, bind, fill]
  rw [hs]

/-! ## Several definitions -/

/-- Several definitions make no frame. -/
theorem size_frames_defineAll (h : Heap) (frame : FrameId) (mutable : Bool) (bindings : List (Symbol × Value)) :
    (h.defineAll frame mutable bindings).frames.size = h.frames.size := by
  induction bindings generalizing h with
  | nil => rfl
  | cons b bs ih =>
    rw [defineAll, List.foldl_cons]
    exact (ih _).trans (size_frames_define h frame b.1 b.2 mutable)

/-- Defining several names of a frame leaves the other frames as they are. -/
theorem frames_defineAll_of_ne (h : Heap) {frame other : FrameId} (mutable : Bool) (bindings : List (Symbol × Value))
    (hne : other ≠ frame) : (h.defineAll frame mutable bindings).frames[other]? = h.frames[other]? := by
  induction bindings generalizing h with
  | nil => rfl
  | cons b bs ih =>
    rw [defineAll, List.foldl_cons]
    exact (ih _).trans (frames_define_of_ne h b.1 b.2 mutable hne)

/-- Defining several names leaves the slots that are there as they are. -/
theorem slots_defineAll_of_lt (h : Heap) (frame : FrameId) (mutable : Bool) (bindings : List (Symbol × Value)) {slot : SlotId}
    (hlt : slot < h.slots.size) : (h.defineAll frame mutable bindings).slots[slot]? = h.slots[slot]? := by
  induction bindings generalizing h with
  | nil => rfl
  | cons b bs ih =>
    rw [defineAll, List.foldl_cons]
    have hlt' : slot < (h.define frame b.1 b.2 mutable).slots.size := by
      rw [slots_define, Array.size_push]
      exact Nat.lt_succ_of_lt hlt
    refine (ih _ hlt').trans ?_
    rw [slots_define, Array.getElem?_push_lt hlt, Array.getElem?_eq_getElem hlt]

/-! ## A new frame with names -/

/-- The heap with a new frame inside an environment, and with names bound in it. -/
def withScope (h : Heap) (env : Env) (bindings : List (Symbol × Value)) : Heap :=
  (h.newChild env).2.defineAll h.frames.size false bindings

/-- A scope is one frame, whatever it binds. -/
@[simp]
theorem size_frames_withScope (h : Heap) (env : Env) (bindings : List (Symbol × Value)) :
    (h.withScope env bindings).frames.size = h.frames.size + 1 := by
  rw [withScope, size_frames_defineAll, frames_newChild, Array.size_push]

/-- A new frame, whatever is bound in it, leaves those that are there as they are. -/
theorem frames_withScope_of_lt (h : Heap) (env : Env) (bindings : List (Symbol × Value)) {frame : FrameId}
    (hf : frame < h.frames.size) : (h.withScope env bindings).frames[frame]? = h.frames[frame]? :=
  (frames_defineAll_of_ne _ false bindings (Nat.ne_of_lt hf)).trans (frames_newChild_of_lt h env hf)

/-- A new frame, whatever is bound in it, leaves the slots that are there as they are. -/
theorem slots_withScope_of_lt (h : Heap) (env : Env) (bindings : List (Symbol × Value)) {slot : SlotId}
    (hlt : slot < h.slots.size) : (h.withScope env bindings).slots[slot]? = h.slots[slot]? :=
  slots_defineAll_of_lt (h.newChild env).2 _ false bindings hlt

/-! ## What names mean in a new frame -/

/-- A new frame binds no name, and no name of another frame changes. -/
theorem localSlot?_of_push {h h' : Heap} (hf : h'.frames = h.frames.push {}) (frame : FrameId) (name : Symbol) :
    h'.localSlot? frame name = h.localSlot? frame name := by
  simp only [localSlot?, hf, Array.getElem?_push]
  split
  · rename_i hlast
    have hnone : h.frames[frame]? = none := by simp [hlast]
    rw [hnone]
    rfl
  · rfl

/-! ## What names mean when others are bound -/

/-- A name that is bound in a frame stands for its slot there. -/
theorem localSlot?_bind_self (h : Heap) {frame : FrameId} (hf : frame < h.frames.size) (name : Symbol) (slot : SlotId) :
    (h.bind frame name slot).localSlot? frame name = some slot := by
  simp [localSlot?, bind, hf, Array.getElem_modify, Frame.slot?_bind_self]

/-- The other names stand for what they stood for. -/
theorem localSlot?_bind_of_ne (h : Heap) (frame other : FrameId) {name s : Symbol} (slot : SlotId) (hne : s ≠ name) :
    (h.bind frame name slot).localSlot? other s = h.localSlot? other s := by
  by_cases ho : other = frame
  · subst ho
    cases hframe : h.frames[other]? with
    | none => simp [localSlot?, bind, Array.getElem?_modify, hframe]
    | some f => simp [localSlot?, bind, Array.getElem?_modify, hframe, Frame.slot?_bind_of_ne f _ hne]
  · simp only [localSlot?, frames_bind_of_ne h name slot ho]

/-- Binding a name in a frame changes what that name stands for in that frame, and nothing else. -/
theorem localSlot?_bind (h : Heap) {frame : FrameId} (hf : frame < h.frames.size) (name : Symbol) (slot : SlotId)
    (other : FrameId) (s : Symbol) :
    (h.bind frame name slot).localSlot? other s = if other = frame ∧ s = name then some slot else h.localSlot? other s := by
  split
  · rename_i hself
    obtain ⟨rfl, rfl⟩ := hself
    exact localSlot?_bind_self h hf s slot
  · rename_i hother
    by_cases hs : s = name
    · have ho : other ≠ frame := fun ho => hother ⟨ho, hs⟩
      simp only [localSlot?, frames_bind_of_ne h name slot ho]
    · exact localSlot?_bind_of_ne h frame other slot hs

/-- A name that is not among those that are bound stands for what it stood for. -/
theorem localSlot?_bindAll_of_not_mem (h : Heap) (frame other : FrameId) {bindings : List (Symbol × SlotId)} {name : Symbol}
    (hn : name ∉ bindings.map Prod.fst) :
    (h.bindAll frame bindings).localSlot? other name = h.localSlot? other name := by
  induction bindings generalizing h with
  | nil => rfl
  | cons b bs ih =>
    rw [List.map_cons, List.mem_cons, not_or] at hn
    rw [bindAll, List.foldl_cons]
    exact (ih _ hn.2).trans (localSlot?_bind_of_ne h frame other b.2 hn.1)

/-- Of names that are bound once, each stands for the slot that it is bound to. -/
theorem localSlot?_bindAll_of_mem (h : Heap) {frame : FrameId} (hf : frame < h.frames.size)
    {bindings : List (Symbol × SlotId)} (hnodup : (bindings.map Prod.fst).Nodup) {name : Symbol} {slot : SlotId}
    (hmem : (name, slot) ∈ bindings) :
    (h.bindAll frame bindings).localSlot? frame name = some slot := by
  induction bindings generalizing h with
  | nil => cases hmem
  | cons b bs ih =>
    rw [List.map_cons, List.nodup_cons] at hnodup
    rw [bindAll, List.foldl_cons]
    rcases List.mem_cons.1 hmem with rfl | hrest
    · exact (localSlot?_bindAll_of_not_mem _ frame frame hnodup.1).trans (localSlot?_bind_self h hf name slot)
    · exact ih _ (by simpa using hf) hnodup.2 hrest

/-! ## What names mean after a definition -/

/-- A name that is defined in a frame stands for the new slot there. -/
theorem localSlot?_define_self (h : Heap) {frame : FrameId} (hf : frame < h.frames.size) (name : Symbol) (value : Value)
    (mutable : Bool) : (h.define frame name value mutable).localSlot? frame name = some h.slots.size :=
  localSlot?_bind_self (h.newSlot value mutable).2 hf name h.slots.size

/-- The other names stand for what they stood for. -/
theorem localSlot?_define_of_ne (h : Heap) (frame other : FrameId) {name s : Symbol} (value : Value) (mutable : Bool)
    (hne : s ≠ name) : (h.define frame name value mutable).localSlot? other s = h.localSlot? other s :=
  localSlot?_bind_of_ne (h.newSlot value mutable).2 frame other h.slots.size hne

/-- A name that is not among those that are defined stands for what it stood for. -/
theorem localSlot?_defineAll_of_not_mem (h : Heap) (frame other : FrameId) (mutable : Bool) {bindings : List (Symbol × Value)}
    {name : Symbol} (hn : name ∉ bindings.map Prod.fst) :
    (h.defineAll frame mutable bindings).localSlot? other name = h.localSlot? other name := by
  induction bindings generalizing h with
  | nil => rfl
  | cons b bs ih =>
    rw [List.map_cons, List.mem_cons, not_or] at hn
    rw [defineAll, List.foldl_cons]
    exact (ih _ hn.2).trans (localSlot?_define_of_ne h frame other b.2 mutable hn.1)

/-- Each of several names that are defined stands for a new slot. -/
theorem localSlot?_defineAll_of_mem (h : Heap) {frame : FrameId} (hf : frame < h.frames.size) (mutable : Bool)
    {bindings : List (Symbol × Value)} {name : Symbol} (hmem : name ∈ bindings.map Prod.fst) :
    ∃ slot, h.slots.size ≤ slot ∧ (h.defineAll frame mutable bindings).localSlot? frame name = some slot := by
  induction bindings generalizing h with
  | nil => cases hmem
  | cons b bs ih =>
    rw [defineAll, List.foldl_cons]
    by_cases hrest : name ∈ bs.map Prod.fst
    · -- The name is defined again, in a slot behind the one that it has now.
      obtain ⟨slot, hle, hslot⟩ := ih (h.define frame b.1 b.2 mutable) (by simpa using hf) hrest
      rw [slots_define, Array.size_push] at hle
      exact ⟨slot, Nat.le_of_succ_le hle, hslot⟩
    · rw [List.map_cons, List.mem_cons, or_iff_left hrest] at hmem
      subst hmem
      refine ⟨h.slots.size, Nat.le_refl _, ?_⟩
      exact (localSlot?_defineAll_of_not_mem _ frame frame mutable hrest).trans (localSlot?_define_self h hf b.1 b.2 mutable)

/-- A definition changes no search for another name. -/
theorem resolvePath?_define_of_ne (h : Heap) (frame : FrameId) {name s : Symbol} (value : Value) (mutable : Bool)
    (hne : s ≠ name) (path : List FrameId) :
    (h.define frame name value mutable).resolvePath? s path = h.resolvePath? s path := by
  induction path with
  | nil => rfl
  | cons f path ih => simp only [resolvePath?, localSlot?_define_of_ne h frame f value mutable hne, ih]

/-- A name has the value that it was given last in the innermost frame. -/
theorem lookup?_define_self (h : Heap) {env : Env} (hf : env.frame < h.frames.size) (name : Symbol) (value : Value)
    (mutable : Bool) : (h.define env.frame name value mutable).lookup? env name = some value := by
  simp [lookup?, resolve?, Env.path, resolvePath?, localSlot?_define_self h hf]

/-- A name keeps its value when another is defined. -/
theorem lookup?_define_of_ne (h : Heap) (frame : FrameId) {env : Env} {name s : Symbol} (value : Value) (mutable : Bool)
    {v : Value} (hne : s ≠ name) (hs : h.lookup? env s = some v) :
    (h.define frame name value mutable).lookup? env s = some v := by
  unfold lookup? resolve? at hs ⊢
  rw [resolvePath?_define_of_ne h frame value mutable hne]
  obtain ⟨slot, hslot, hv⟩ := Option.bind_eq_some_iff.1 hs
  obtain ⟨contents, hcontents, hv⟩ := Option.map_eq_some_iff.1 hv
  obtain ⟨hlt, -⟩ := Array.getElem?_eq_some_iff.1 hcontents
  rw [hslot, Option.bind_some, slots_define, Array.getElem?_push_lt hlt, ← Array.getElem?_eq_getElem hlt, hcontents]
  exact congrArg some hv

/-- Of several definitions in the innermost frame, the last one of a name gives it its value. -/
theorem lookup?_defineAll (h : Heap) {env : Env} (hf : env.frame < h.frames.size) (mutable : Bool)
    {bindings : List (Symbol × Value)} {s : Symbol} {v : Value} (hs : bindings.reverse.lookup s = some v) :
    (h.defineAll env.frame mutable bindings).lookup? env s = some v := by
  -- The last definition is the one made last, so the induction takes definitions off at the end.
  induction bindings using List.reverseRecOn with
  | nil => cases hs
  | append_singleton bs b ih =>
    obtain ⟨name, value⟩ := b
    have hdef : h.defineAll env.frame mutable (bs ++ [(name, value)]) =
        (h.defineAll env.frame mutable bs).define env.frame name value mutable := by
      rw [defineAll, List.foldl_append]
      rfl
    have hf' : env.frame < (h.defineAll env.frame mutable bs).frames.size := by rwa [size_frames_defineAll]
    rw [List.reverse_append, List.reverse_singleton, List.singleton_append, List.lookup_cons] at hs
    rw [hdef]
    by_cases hname : s = name
    · subst hname
      have hv : value = v := by simpa using hs
      rw [hv]
      exact lookup?_define_self _ hf' s v mutable
    · have hb : (s == name) = false := by simpa using hname
      rw [hb] at hs
      exact lookup?_define_of_ne _ env.frame value mutable hname (ih hs)

end MiniLisp.Heap
