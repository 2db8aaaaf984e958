import MiniLisp.Proofs.Sharing
import Mathlib.Data.List.Nodup

/-!
# Assignments change one slot

Frames are made one after another, each on its own or inside one that is there; names are defined in them, reserved and filled,
shared from elsewhere and assigned to (`Heap.Operation`). In every collection of frames that comes about in this way
(`Scopes.Built`) an assignment changes the slot that the name stands for in the innermost frame that binds it, and nothing else:
a name has the new value afterwards if it stands for that slot, under whatever name and through however many frames, and its old
value otherwise. An assignment that fails changes nothing.

Only defining, reserving and sharing a name in a frame change what the frame binds, and only what stands in the frame or inside
of it sees the new binding (`Scopes.BindsInside`). What is inside a frame is found by its path: in such a collection the frames
around a frame are frames of the collection with the same frames around them (`Scopes.WellFormed.suffix_of_mem`).
-/

namespace MiniLisp

/-! ## The innermost binding -/

namespace Heap

variable {h : Heap} {env : Env} {name : Symbol} {slot : SlotId}

/-- A name is visible in an environment as this slot: the innermost frame that binds the name binds it to the slot. -/
def Visible (h : Heap) (env : Env) (name : Symbol) (slot : SlotId) : Prop :=
  ∃ inner frame outer, env.path = inner ++ frame :: outer ∧ (∀ f ∈ inner, h.localSlot? f name = none) ∧
    h.localSlot? frame name = some slot

/-- A search along a path ends in the first frame that has the name. -/
theorem resolvePath?_eq_some_iff {path : List FrameId} :
    h.resolvePath? name path = some slot ↔
      ∃ inner frame outer, path = inner ++ frame :: outer ∧ (∀ f ∈ inner, h.localSlot? f name = none) ∧
        h.localSlot? frame name = some slot := by
  constructor
  · intro hs
    induction path with
    | nil => cases hs
    | cons frame path ih =>
      rw [resolvePath?] at hs
      split at hs
      · rename_i found hfound
        cases hs
        exact ⟨[], frame, path, rfl, by simp, hfound⟩
      · rename_i hnone
        obtain ⟨inner, outermost, outer, rfl, hinner, hfound⟩ := ih hs
        refine ⟨frame :: inner, outermost, outer, rfl, ?_, hfound⟩
        intro f hf
        rcases List.mem_cons.1 hf with rfl | hf
        · exact hnone
        · exact hinner f hf
  · rintro ⟨inner, frame, outer, rfl, hinner, hfound⟩
    rw [resolvePath?_append, resolvePath?_eq_none hinner, resolvePath?, hfound]
    rfl

/-- The slot that a name stands for is the one that it is visible as. -/
theorem resolve?_eq_some_iff : h.resolve? env name = some slot ↔ h.Visible env name slot := resolvePath?_eq_some_iff

/-- A name stands for nothing exactly if no slot is visible under it. -/
theorem resolve?_eq_none_iff : h.resolve? env name = none ↔ ∀ slot, ¬h.Visible env name slot := by
  constructor
  · intro hr slot hv
    rw [resolve?_eq_some_iff.2 hv] at hr
    cases hr
  · intro hall
    cases hr : h.resolve? env name with
    | none => rfl
    | some slot => exact absurd (resolve?_eq_some_iff.1 hr) (hall slot)

/-- In a coherent heap there is a slot behind every visible name. -/
theorem Coherent.exists_contents (hc : h.Coherent) (hv : h.Visible env name slot) : ∃ contents, h.slots[slot]? = some contents :=
  ⟨_, Array.getElem?_eq_getElem (hc.resolvePath?_lt (resolve?_eq_some_iff.2 hv))⟩

/-! ## Assignment -/

/-- An assignment to a name that stands for nothing is refused as one to an unbound variable. -/
theorem assign_of_not_visible (v : Value) (hn : ∀ slot, ¬h.Visible env name slot) :
    h.assign env name v = .error (.unboundVariable name) := by
  rw [assign, assignable, resolve?_eq_none_iff.2 hn]
  rfl

/-- An assignment to a visible name fills its slot, if that is mutable, and is refused otherwise. -/
theorem assign_of_visible (v : Value) {contents : Slot} (hv : h.Visible env name slot) (hs : h.slots[slot]? = some contents) :
    h.assign env name v =
      if contents.mutable then .ok (h.fill slot v) else .error (.ofKind (.immutableAssignment name)) := by
  rw [assign, assignable, resolve?_eq_some_iff.2 hv]
  simp only [hs, Option.map_some, Option.getD_some]
  split
  · rfl
  · rfl

/-- Filling a slot is seen by the names that are visible as it, and by no others. -/
theorem lookup?_fill {contents : Slot} (v : Value) (hs : h.slots[slot]? = some contents) (scope : Env) (n : Symbol) :
    (h.Visible scope n slot → (h.fill slot v).lookup? scope n = some v) ∧
      (¬h.Visible scope n slot → (h.fill slot v).lookup? scope n = h.lookup? scope n) := by
  have hresolve : (h.fill slot v).resolve? scope n = h.resolve? scope n := resolvePath?_congr fun f _ => rfl
  constructor
  · intro hv
    rw [lookup?, hresolve, resolve?_eq_some_iff.2 hv, Option.bind_some, fill, Array.getElem?_modify, if_pos rfl, hs]
    rfl
  · intro hn
    rw [lookup?, lookup?, hresolve]
    cases hr : h.resolve? scope n with
    | none => rfl
    | some other =>
      have hne : slot ≠ other := by
        rintro rfl
        exact hn (resolve?_eq_some_iff.1 hr)
      rw [Option.bind_some, Option.bind_some, fill, Array.getElem?_modify, if_neg hne]

/-- What an assignment to a name in an environment does. -/
structure AssignsOneSlot (h : Heap) (env : Env) (name : Symbol) (v : Value) : Prop where
  succeeds : (∃ h', h.assign env name v = .ok h') ↔
    ∃ slot contents, h.Visible env name slot ∧ h.slots[slot]? = some contents ∧ contents.mutable = true
  /-- Whatever is visible as the slot has the new value, and everything else the value that it had. -/
  seen : ∀ h' slot, h.assign env name v = .ok h' → h.Visible env name slot → ∀ scope n,
    (h.Visible scope n slot → h'.lookup? scope n = some v) ∧
      (¬h.Visible scope n slot → h'.lookup? scope n = h.lookup? scope n)
  unbound : h.assign env name v = .error (.unboundVariable name) ↔ ∀ slot, ¬h.Visible env name slot
  immutable : h.assign env name v = .error (.ofKind (.immutableAssignment name)) ↔
    ∃ slot contents, h.Visible env name slot ∧ h.slots[slot]? = some contents ∧ contents.mutable = false
  fails : ∀ e, h.assign env name v = .error e → e = .unboundVariable name ∨ e = .ofKind (.immutableAssignment name)
  /-- The action on a machine does the same; if it fails, the machine is as it was. -/
  action : ∀ m : Machine, m.heap = h → Action.assign env name v m =
    match h.assign env name v with
    | .ok h' => .ok () { m with heap := h' }
    | .error e => .error (.error e) m

/-- The action of assigning changes nothing of the machine but its heap. -/
theorem action_assign (env : Env) (name : Symbol) (v : Value) (m : Machine) :
    Action.assign env name v m =
      match m.heap.assign env name v with
      | .ok h' => .ok () { m with heap := h' }
      | .error e => .error (.error e) m := by
  have hask : Action.ask (fun m => m.heap.assignable env name) m = .ok (m.heap.assignable env name) m := rfl
  rw [Action.assign, Action.bind_of_ok _ hask, assign]
  cases m.heap.assignable env name with
  | ok slot => rfl
  | error e => rfl

/-- An assignment fails as to a name that is not visible, succeeds as to a mutable slot, or fails as to an immutable one. -/
theorem Coherent.assign_cases (hc : h.Coherent) (env : Env) (name : Symbol) (v : Value) :
    ((∀ slot, ¬h.Visible env name slot) ∧ h.assign env name v = .error (.unboundVariable name)) ∨
      ∃ slot contents, h.Visible env name slot ∧ h.slots[slot]? = some contents ∧
        (contents.mutable = true ∧ h.assign env name v = .ok (h.fill slot v) ∨
          contents.mutable = false ∧ h.assign env name v = .error (.ofKind (.immutableAssignment name))) := by
  by_cases hvisible : ∃ slot, h.Visible env name slot
  · obtain ⟨slot, hv⟩ := hvisible
    obtain ⟨contents, hs⟩ := hc.exists_contents hv
    have hassign := assign_of_visible v hv hs
    refine .inr ⟨slot, contents, hv, hs, ?_⟩
    cases hm : contents.mutable with
    | true => exact .inl ⟨rfl, hassign.trans (if_pos hm)⟩
    | false => exact .inr ⟨rfl, hassign.trans (if_neg (by simp [hm]))⟩
  · have hn : ∀ slot, ¬h.Visible env name slot := fun slot hv => hvisible ⟨slot, hv⟩
    exact .inl ⟨hn, assign_of_not_visible v hn⟩

/-- The two ways in which an assignment can be refused are told apart by their errors. -/
theorem unboundVariable_ne_immutableAssignment (name : Symbol) :
    Error.unboundVariable name ≠ .ofKind (.immutableAssignment name) := by
  intro h
  cases congrArg Error.kind h

/-- In a coherent heap an assignment does to every name and every slot just what it ought to. -/
theorem Coherent.assignsOneSlot (hc : h.Coherent) (env : Env) (name : Symbol) (v : Value) : h.AssignsOneSlot env name v where
  succeeds := by
    constructor
    · rintro ⟨h', ha⟩
      rcases hc.assign_cases env name v with ⟨-, he⟩ | ⟨slot, contents, hv, hs, ⟨hm, -⟩ | ⟨-, he⟩⟩
      · rw [he] at ha
        cases ha
      · exact ⟨slot, contents, hv, hs, hm⟩
      · rw [he] at ha
        cases ha
    · rintro ⟨slot, contents, hv, hs, hm⟩
      exact ⟨_, (assign_of_visible v hv hs).trans (if_pos hm)⟩
  seen := by
    intro h' slot ha hv scope n
    obtain ⟨contents, hs⟩ := hc.exists_contents hv
    rw [assign_of_visible v hv hs] at ha
    split at ha
    · cases ha
      exact lookup?_fill v hs scope n
    · cases ha
  unbound := by
    constructor
    · intro ha
      rcases hc.assign_cases env name v with ⟨hn, -⟩ | ⟨slot, contents, -, -, ⟨-, hok⟩ | ⟨-, he⟩⟩
      · exact hn
      · rw [hok] at ha
        cases ha
      · rw [he] at ha
        exact absurd (Except.error.inj ha).symm (unboundVariable_ne_immutableAssignment name)
    · exact assign_of_not_visible v
  immutable := by
    constructor
    · intro ha
      rcases hc.assign_cases env name v with ⟨-, he⟩ | ⟨slot, contents, hv, hs, ⟨-, hok⟩ | ⟨hm, -⟩⟩
      · rw [he] at ha
        exact absurd (Except.error.inj ha) (unboundVariable_ne_immutableAssignment name)
      · rw [hok] at ha
        cases ha
      · exact ⟨slot, contents, hv, hs, hm⟩
    · rintro ⟨slot, contents, hv, hs, hm⟩
      rw [assign_of_visible v hv hs, hm]
      rfl
  fails := by
    intro e ha
    rcases hc.assign_cases env name v with ⟨-, he⟩ | ⟨slot, contents, -, -, ⟨-, hok⟩ | ⟨-, he⟩⟩
    · rw [he] at ha
      exact .inl (Except.error.inj ha).symm
    · rw [hok] at ha
      cases ha
    · rw [he] at ha
      exact .inr (Except.error.inj ha).symm
  action := by
    rintro m rfl
    exact action_assign env name v m

end Heap

/-! ## Collections of frames -/

/-- What can be done to a collection of frames. -/
inductive Heap.Operation where
  | root
  | child (env : Env)
  | define (env : Env) (name : Symbol) (v : Value) (mutable : Bool)
  | reserve (env : Env) (name : Symbol) (mutable : Bool)
  | fill (slot : SlotId) (v : Value)
  | share (env : Env) (name : Symbol) (slot : SlotId)
  | assign (env : Env) (name : Symbol) (v : Value)

/-- A collection of frames: the heap that they are in, and the environment of each frame. -/
structure Scopes where
  heap : Heap := {}
  envs : List Env := []

/-- The binding that an operation makes: the frame, the name and the slot. -/
def Heap.Operation.binding? (h : Heap) : Heap.Operation → Option (Env × Symbol × SlotId)
  | .define env name _ _ | .reserve env name _ => some (env, name, h.slots.size)
  | .share env name slot => some (env, name, slot)
  | _ => none

namespace Scopes

open Heap (Operation)

/-- An operation works on frames and slots that are there. -/
def Admits (s : Scopes) : Operation → Prop
  | .root => True
  | .child env | .define env _ _ _ | .reserve env _ _ | .assign env _ _ => env ∈ s.envs
  | .fill slot _ => slot < s.heap.slots.size
  | .share env _ slot => env ∈ s.envs ∧ slot < s.heap.slots.size

/-- The collection after an operation. A new frame adds its environment; an assignment that fails leaves all as it is. -/
def perform (s : Scopes) : Operation → Scopes
  | .root => { heap := s.heap.newRoot.2, envs := s.envs ++ [s.heap.newRoot.1] }
  | .child env => { heap := (s.heap.newChild env).2, envs := s.envs ++ [(s.heap.newChild env).1] }
  | .define env name v mutable => { s with heap := s.heap.define env.frame name v mutable }
  | .reserve env name mutable => { s with heap := (s.heap.reserve env.frame name mutable).2 }
  | .fill slot v => { s with heap := s.heap.fill slot v }
  | .share env name slot => { s with heap := s.heap.bind env.frame name slot }
  | .assign env name v =>
    match s.heap.assign env name v with
    | .ok heap => { s with heap }
    | .error _ => s

/-- The collections that operations build, one after another. -/
inductive Built : Scopes → Prop where
  | empty : Built {}
  | step {s : Scopes} (hs : Built s) (op : Operation) (h : s.Admits op) : Built (s.perform op)

/-- The heap is coherent, the environments are those of its frames in their order, and around each frame is an older one with the
same frames around it. -/
structure WellFormed (s : Scopes) : Prop where
  coherent : s.heap.Coherent
  frames_eq : s.envs.map Env.frame = List.range s.heap.frames.size
  parent : ∀ env ∈ s.envs, ∀ outer, env.parent? = some outer → outer ∈ s.envs ∧ outer.frame < env.frame

variable {s : Scopes} {env : Env}

/-- Before the first operation, the empty heap and no environments are well formed. -/
theorem WellFormed.empty : WellFormed {} where
  coherent := fun i f hf => by simp at hf
  frames_eq := rfl
  parent := by simp

/-- The innermost frame of every known environment is there. -/
theorem WellFormed.frame_lt (hs : s.WellFormed) (henv : env ∈ s.envs) : env.frame < s.heap.frames.size := by
  have hmem : env.frame ∈ s.envs.map Env.frame := List.mem_map_of_mem henv
  rw [hs.frames_eq] at hmem
  exact List.mem_range.1 hmem

/-- Every frame has exactly one environment. -/
theorem WellFormed.existsUnique_env (hs : s.WellFormed) {frame : FrameId} (hlt : frame < s.heap.frames.size) :
    ∃! env, env ∈ s.envs ∧ env.frame = frame := by
  have hmem : frame ∈ s.envs.map Env.frame := by
    rw [hs.frames_eq]
    exact List.mem_range.2 hlt
  have hnodup : (s.envs.map Env.frame).Nodup := by
    rw [hs.frames_eq]
    exact List.nodup_range
  obtain ⟨env, henv, hframe⟩ := List.mem_map.1 hmem
  refine ⟨env, ⟨henv, hframe⟩, ?_⟩
  rintro other ⟨hother, hsame⟩
  exact List.inj_on_of_nodup_map hnodup hother henv (hsame.trans hframe.symm)

/-- A change of names and slots. -/
theorem WellFormed.withHeap (hs : s.WellFormed) {h : Heap} (hc : h.Coherent) (hsize : h.frames.size = s.heap.frames.size) :
    WellFormed { s with heap := h } where
  coherent := hc
  frames_eq := by rw [hs.frames_eq, hsize]
  parent := hs.parent

/-- A new frame, on its own or inside one that is there. -/
theorem WellFormed.push (hs : s.WellFormed) (hframe : env.frame = s.heap.frames.size)
    (hparent : ∀ outer, env.parent? = some outer → outer ∈ s.envs) :
    WellFormed { heap := { s.heap with frames := s.heap.frames.push {} }, envs := s.envs ++ [env] } where
  coherent := hs.coherent.newChild env
  frames_eq := by
    rw [List.map_append, hs.frames_eq, List.map_singleton, hframe, Array.size_push, List.range_succ]
  parent := by
    intro e he outer houter
    rcases List.mem_append.1 he with he | he
    · obtain ⟨hmem, hlt⟩ := hs.parent e he outer houter
      exact ⟨List.mem_append_left _ hmem, hlt⟩
    · obtain rfl := List.mem_singleton.1 he
      have hmem := hparent outer houter
      exact ⟨List.mem_append_left _ hmem, hframe ▸ hs.frame_lt hmem⟩

/-- An operation keeps a collection well-formed. -/
theorem WellFormed.perform (hs : s.WellFormed) {op : Operation} (h : s.Admits op) : (s.perform op).WellFormed := by
  cases op with
  | root => exact hs.push rfl fun outer houter => nomatch houter
  | child env =>
    refine hs.push rfl fun outer houter => ?_
    cases houter
    exact h
  | define env name v mutable => exact hs.withHeap (hs.coherent.define v mutable) (Heap.size_frames_define s.heap _ _ _ _)
  | reserve env name mutable => exact hs.withHeap (hs.coherent.define .nil mutable) (Heap.size_frames_define s.heap _ _ _ _)
  | fill slot v => exact hs.withHeap (hs.coherent.fill v) rfl
  | share env name slot => exact hs.withHeap (hs.coherent.bind h.2) (Heap.size_frames_bind s.heap _ _ _)
  | assign env name v =>
    rcases hs.coherent.assign_cases env name v with ⟨-, he⟩ | ⟨slot, contents, -, -, ⟨-, hok⟩ | ⟨-, he⟩⟩
    · simp only [Scopes.perform, he]
      exact hs
    · simp only [Scopes.perform, hok]
      exact hs.withHeap (hs.coherent.fill v) rfl
    · simp only [Scopes.perform, he]
      exact hs

/-- By induction on the operations: whatever they have built is well formed. -/
theorem Built.wellFormed (hs : s.Built) : s.WellFormed := by
  induction hs with
  | empty => exact .empty
  | step _ op h ih => exact ih.perform h

/-! ## What is inside a frame -/

/-- The frames around a frame are frames of the collection with the same frames around them. -/
theorem WellFormed.suffix_of_mem (hs : s.WellFormed) {scope : Env} (hscope : scope ∈ s.envs) (henv : env ∈ s.envs)
    (hmem : env.frame ∈ scope.path) : env.path <:+ scope.path := by
  obtain ⟨frame, outer⟩ := scope
  -- Every tail of the path is the path of an older frame; the one that begins with the frame of `env` is that of `env`.
  induction outer generalizing frame with
  | nil =>
    have hsame : env = ⟨frame, []⟩ :=
      (hs.existsUnique_env (hs.frame_lt hscope)).unique ⟨henv, List.mem_singleton.1 hmem⟩ ⟨hscope, rfl⟩
    exact hsame ▸ List.suffix_refl _
  | cons next outer ih =>
    rcases List.mem_cons.1 hmem with hframe | hmem
    · have hsame : env = ⟨frame, next :: outer⟩ :=
        (hs.existsUnique_env (hs.frame_lt hscope)).unique ⟨henv, hframe⟩ ⟨hscope, rfl⟩
      exact hsame ▸ List.suffix_refl _
    · obtain ⟨hparent, -⟩ := hs.parent _ hscope ⟨next, outer⟩ rfl
      exact (ih next hparent hmem).trans (List.suffix_cons frame _)

/-- From the inside to the outside, frames get older. -/
theorem WellFormed.path_descends (hs : s.WellFormed) {scope : Env} (hscope : scope ∈ s.envs) :
    scope.path.IsChain (· > ·) := by
  obtain ⟨frame, outer⟩ := scope
  induction outer generalizing frame with
  | nil => exact .singleton frame
  | cons next outer ih =>
    obtain ⟨hparent, hlt⟩ := hs.parent _ hscope ⟨next, outer⟩ rfl
    exact .cons_cons hlt (ih next hparent)

/-- A frame is not among those inside of it. -/
theorem WellFormed.not_mem_inner (hs : s.WellFormed) {scope : Env} (hscope : scope ∈ s.envs) {inner : List FrameId}
    (hpath : scope.path = inner ++ env.path) : env.frame ∉ inner := by
  intro hmem
  have hpairwise := List.isChain_iff_pairwise.1 (hs.path_descends hscope)
  rw [hpath, List.pairwise_append] at hpairwise
  exact lt_irrefl _ (hpairwise.2.2 env.frame hmem env.frame List.mem_cons_self)

/-! ## What an operation binds -/

/-- An operation that binds a name binds it in a frame that is there; otherwise it makes at most new slots. -/
theorem perform_of_binding {op : Operation} (h : s.Admits op) {name : Symbol} {slot : SlotId}
    (hb : op.binding? s.heap = some (env, name, slot)) :
    env ∈ s.envs ∧ ∃ slots : Array Slot, (s.perform op).heap = Heap.bind { s.heap with slots } env.frame name slot ∧
      ∀ i < s.heap.slots.size, slots[i]? = s.heap.slots[i]? := by
  have hpush : ∀ new, ∀ i < s.heap.slots.size, (s.heap.slots.push new)[i]? = s.heap.slots[i]? := by
    intro new i hi
    rw [Array.getElem?_push_lt hi, Array.getElem?_eq_getElem hi]
  cases op with
  | define env' name' v mutable =>
    cases hb
    exact ⟨h, _, rfl, hpush _⟩
  | reserve env' name' mutable =>
    cases hb
    exact ⟨h, _, rfl, hpush _⟩
  | share env' name' slot' =>
    cases hb
    exact ⟨h.1, _, rfl, fun _ _ => rfl⟩
  | _ => cases hb

/-- Other operations bind no name. -/
theorem localSlot?_of_no_binding {op : Operation} (hb : op.binding? s.heap = none) (frame : FrameId) (n : Symbol) :
    (s.perform op).heap.localSlot? frame n = s.heap.localSlot? frame n := by
  cases op with
  | root => exact Heap.localSlot?_of_push rfl frame n
  | child env => exact Heap.localSlot?_of_push rfl frame n
  | fill slot v => rfl
  | assign env name v =>
    simp only [perform, Heap.assign]
    cases s.heap.assignable env name with
    | ok slot => rfl
    | error e => rfl
  | _ => cases hb

/-- The names that frames bind after an operation, and what sees them. -/
structure BindsInside (s : Scopes) (op : Operation) : Prop where
  kept : op.binding? s.heap = none → ∀ frame n, (s.perform op).heap.localSlot? frame n = s.heap.localSlot? frame n
  bound : ∀ env name slot, op.binding? s.heap = some (env, name, slot) → ∀ frame n,
    (s.perform op).heap.localSlot? frame n = if frame = env.frame ∧ n = name then some slot else s.heap.localSlot? frame n
  /-- Inside the frame, the name stands for the new slot unless a frame further inside binds it. -/
  inside : ∀ env name slot, op.binding? s.heap = some (env, name, slot) → ∀ scope ∈ s.envs, ∀ inner,
    scope.path = inner ++ env.path → (s.perform op).heap.resolve? scope name = (s.heap.resolvePath? name inner).or (some slot)
  /-- Other names, and all names elsewhere, stand for what they stood for and have the values that they had. -/
  outside : ∀ env name slot, op.binding? s.heap = some (env, name, slot) → ∀ scope ∈ s.envs, ∀ n,
    ¬(n = name ∧ env.path <:+ scope.path) →
      (s.perform op).heap.resolve? scope n = s.heap.resolve? scope n ∧
        (s.perform op).heap.lookup? scope n = s.heap.lookup? scope n

/-- After an operation that binds a name, the name stands for the new slot in its frame, and nothing else has changed. -/
theorem WellFormed.localSlot?_of_binding (hs : s.WellFormed) {op : Operation} (h : s.Admits op) {name : Symbol} {slot : SlotId}
    (hb : op.binding? s.heap = some (env, name, slot)) (frame : FrameId) (n : Symbol) :
    (s.perform op).heap.localSlot? frame n =
      if frame = env.frame ∧ n = name then some slot else s.heap.localSlot? frame n := by
  obtain ⟨henv, slots, hheap, -⟩ := perform_of_binding h hb
  rw [hheap]
  exact Heap.localSlot?_bind { s.heap with slots } (hs.frame_lt henv) name slot frame n

/-- From well-formed scopes, every operation that is admitted binds in the innermost frame alone. -/
theorem WellFormed.bindsInside (hs : s.WellFormed) {op : Operation} (h : s.Admits op) : s.BindsInside op where
  kept hb := localSlot?_of_no_binding hb
  bound env name slot hb := hs.localSlot?_of_binding h hb
  inside := by
    intro env name slot hb scope hscope inner hpath
    -- The binding is not made in any of the inner frames, so they are searched as before.
    have hfresh := hs.not_mem_inner hscope hpath
    have hinner : (s.perform op).heap.resolvePath? name inner = s.heap.resolvePath? name inner := by
      refine Heap.resolvePath?_congr fun f hf => ?_
      rw [hs.localSlot?_of_binding h hb, if_neg]
      rintro ⟨rfl, -⟩
      exact hfresh hf
    have hframe : (s.perform op).heap.localSlot? env.frame name = some slot := by
      rw [hs.localSlot?_of_binding h hb, if_pos ⟨rfl, rfl⟩]
    rw [Heap.resolve?, hpath, Heap.resolvePath?_append, hinner, Env.path, Heap.resolvePath?, hframe]
  outside := by
    intro env name slot hb scope hscope n hn
    obtain ⟨henv, slots, hheap, hslots⟩ := perform_of_binding h hb
    have hresolve : (s.perform op).heap.resolve? scope n = s.heap.resolve? scope n := by
      refine Heap.resolvePath?_congr fun f hf => ?_
      rw [hs.localSlot?_of_binding h hb, if_neg]
      rintro ⟨rfl, rfl⟩
      -- The frame of the binding is around the scope, so the scope is inside it.
      exact hn ⟨rfl, hs.suffix_of_mem hscope henv hf⟩
    refine ⟨hresolve, hs.coherent.lookup?_congr ?_ hresolve⟩
    rw [hheap]
    exact hslots

end Scopes

/-- In every collection of frames that operations build, whatever they were: an assignment to a name succeeds exactly if the
innermost visible binding of the name is mutable, and gives its slot the new value under all names in all frames that are visible
as that slot, while everything else has its old value; it fails as unbound exactly if the name is not visible, else as immutable,
and then changes nothing. An operation changes what names a frame binds only if it defines, reserves or shares a name there, and
then only what stands in the frame or inside of it can see the change. Each frame has one environment. -/
theorem assignment_changes_one_slot {s : Scopes} (hs : s.Built) :
    (∀ env ∈ s.envs, ∀ name v, s.heap.AssignsOneSlot env name v) ∧ (∀ op, s.Admits op → s.BindsInside op) ∧
      ∀ frame < s.heap.frames.size, ∃! env, env ∈ s.envs ∧ env.frame = frame := by
  have hwf := hs.wellFormed
  refine ⟨fun env _ name v => hwf.coherent.assignsOneSlot env name v, fun op h => hwf.bindsInside h, ?_⟩
  intro frame hlt
  exact hwf.existsUnique_env hlt

/-- Two frames on their own, the second of which shares the mutable `x` of the first as `y`, and a frame inside the second with a
`y` of its own. -/
def sharedScopes : Scopes :=
  [.root, .root, .define ⟨0, []⟩ "x" (.bool false) true, .share ⟨1, []⟩ "y" 0, .child ⟨1, []⟩,
    .define ⟨2, [1]⟩ "y" .nil false].foldl Scopes.perform {}

/-- The example is built by operations: a frame, two frames inside, and a name shared between them. -/
theorem built_sharedScopes : sharedScopes.Built := by
  have hroots := (Scopes.Built.empty.step .root trivial).step .root trivial
  have hx := hroots.step (.define ⟨0, []⟩ "x" (.bool false) true) List.mem_cons_self
  have hy := hx.step (.share ⟨1, []⟩ "y" 0) ⟨by decide, by decide⟩
  have hchild := hy.step (.child ⟨1, []⟩) (by decide : (⟨1, []⟩ : Env) ∈ _)
  exact hchild.step (.define ⟨2, [1]⟩ "y" .nil false) (by decide : (⟨2, [1]⟩ : Env) ∈ _)

/-- Assigning to `y` in the second frame is seen through `x` in the first, and not in the frame inside. -/
theorem assignment_changes_one_slot_shared :
    ∃ h, sharedScopes.heap.assign ⟨1, []⟩ "y" (.bool true) = .ok h ∧ h.lookup? ⟨0, []⟩ "x" = some (.bool true) ∧
      h.lookup? ⟨2, [1]⟩ "y" = sharedScopes.heap.lookup? ⟨2, [1]⟩ "y" := by
  obtain ⟨hassign, -, -⟩ := assignment_changes_one_slot built_sharedScopes
  obtain ⟨hsucceeds, hseen, -, -, -, -⟩ := hassign ⟨1, []⟩ (by decide) "y" (.bool true)
  have hvisible : sharedScopes.heap.Visible ⟨1, []⟩ "y" 0 := Heap.resolve?_eq_some_iff.1 rfl
  obtain ⟨h, ha⟩ := hsucceeds.2 ⟨0, ⟨.bool false, true⟩, hvisible, rfl, rfl⟩
  refine ⟨h, ha, ?_, ?_⟩
  · exact (hseen h 0 ha hvisible ⟨0, []⟩ "x").1 (Heap.resolve?_eq_some_iff.1 rfl)
  · refine (hseen h 0 ha hvisible ⟨2, [1]⟩ "y").2 fun hv => ?_
    cases Heap.resolve?_eq_some_iff.2 hv

end MiniLisp
