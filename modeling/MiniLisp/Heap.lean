import MiniLisp.Error
import MiniLisp.Value.Basic

/-!
# The heap: frames of names and the slots they stand for

A frame maps names to slots and a slot holds a value, so one slot can be seen under names in several frames: an assignment
through one of them is seen through all. A slot is mutable or not from the start. An environment is a path of frames, and a
name means the slot that the innermost frame of the path gives it.
-/

namespace MiniLisp

/-- The number of a slot in the heap. -/
abbrev SlotId := Nat

/-- A place for a value. -/
structure Slot where
  value : Value
  mutable : Bool

instance : Inhabited Slot := ⟨⟨.nil, false⟩⟩

/-- The names bound in one scope. -/
structure Frame where
  bindings : List (Symbol × SlotId) := []
  deriving Inhabited

namespace Frame

/-- The slot of a name in this scope alone. -/
def slot? (f : Frame) (name : Symbol) : Option SlotId := f.bindings.lookup name

/-- The scope with one name bound, whatever it stood for before. -/
def bind (f : Frame) (name : Symbol) (slot : SlotId) : Frame :=
  ⟨(name, slot) :: f.bindings.filter fun b => b.1 != name⟩

theorem slot?_bind_self (f : Frame) (name : Symbol) (slot : SlotId) : (f.bind name slot).slot? name = some slot := by
  simp [slot?, bind]

theorem slot?_bind_of_ne (f : Frame) {name other : Symbol} (slot : SlotId) (h : other ≠ name) :
    (f.bind name slot).slot? other = f.slot? other := by
  have hb : (other == name) = false := by simpa using h
  obtain ⟨bs⟩ := f
  simp only [slot?, bind, List.lookup_cons, hb]
  induction bs with
  | nil => rfl
  | cons b bs ih =>
    obtain ⟨n, s⟩ := b
    by_cases hn : n = name
    · subst hn
      simp [List.lookup_cons, hb, ih]
    · by_cases ho : other = n
      · subst ho
        simp [h]
      · have ho' : (other == n) = false := by simpa using ho
        simp [List.lookup_cons, hn, ho', ih]

end Frame

/-- All frames and slots made so far. -/
structure Heap where
  frames : Array Frame := #[]
  slots : Array Slot := #[]
  deriving Inhabited

/-- The frames of an environment, innermost first. -/
def Env.path (env : Env) : List FrameId := env.frame :: env.outer

/-- The environment around the innermost frame. -/
def Env.parent? (env : Env) : Option Env :=
  match env.outer with
  | [] => none
  | frame :: outer => some ⟨frame, outer⟩

namespace Heap

/-- A new frame without names around it. -/
def newRoot (h : Heap) : Env × Heap := (⟨h.frames.size, []⟩, { h with frames := h.frames.push {} })

/-- A new frame inside an environment. -/
def newChild (h : Heap) (env : Env) : Env × Heap :=
  (⟨h.frames.size, env.path⟩, { h with frames := h.frames.push {} })

/-- A new slot. -/
def newSlot (h : Heap) (value : Value) (mutable : Bool) : SlotId × Heap :=
  (h.slots.size, { h with slots := h.slots.push ⟨value, mutable⟩ })

/-- Let a name of a frame stand for a slot. -/
def bind (h : Heap) (frame : FrameId) (name : Symbol) (slot : SlotId) : Heap :=
  { h with frames := h.frames.modify frame (·.bind name slot) }

/-- Bind a name of a frame to a new slot with a value, and give the slot. -/
def defineSlot (h : Heap) (frame : FrameId) (name : Symbol) (value : Value) (mutable : Bool) : SlotId × Heap :=
  let (slot, h) := h.newSlot value mutable
  (slot, h.bind frame name slot)

/-- Bind a name of a frame to a new slot with a value. -/
def define (h : Heap) (frame : FrameId) (name : Symbol) (value : Value) (mutable : Bool) : Heap :=
  (h.defineSlot frame name value mutable).2

/-- Bind a name of a frame to a new slot that is filled later, and give the slot. -/
def reserve (h : Heap) (frame : FrameId) (name : Symbol) (mutable : Bool) : SlotId × Heap :=
  h.defineSlot frame name .nil mutable

/-- Put a value into a slot, mutable or not. -/
def fill (h : Heap) (slot : SlotId) (value : Value) : Heap :=
  { h with slots := h.slots.modify slot fun s => { s with value } }

/-- The slot of a name in one frame. -/
def localSlot? (h : Heap) (frame : FrameId) (name : Symbol) : Option SlotId := (h.frames[frame]?).bind (·.slot? name)

/-- The slot of a name in the first frame of a path that binds it. -/
def resolvePath? (h : Heap) (name : Symbol) : List FrameId → Option SlotId
  | [] => none
  | frame :: path =>
    match h.localSlot? frame name with
    | some slot => some slot
    | none => h.resolvePath? name path

/-- The slot that a name stands for in an environment. -/
def resolve? (h : Heap) (env : Env) (name : Symbol) : Option SlotId := h.resolvePath? name env.path

/-- The value of a name in an environment. -/
def lookup? (h : Heap) (env : Env) (name : Symbol) : Option Value :=
  (h.resolve? env name).bind fun slot => h.slots[slot]?.map (·.value)

/-- The value of a name in one frame. -/
def lookupLocal? (h : Heap) (frame : FrameId) (name : Symbol) : Option Value :=
  (h.localSlot? frame name).bind fun slot => h.slots[slot]?.map (·.value)

/-- Whether a name stands for a slot in an environment. -/
def isBound (h : Heap) (env : Env) (name : Symbol) : Bool := (h.resolve? env name).isSome

/-- The slot that an assignment to a name changes: that of the name, if there is one and it is mutable. -/
def assignable (h : Heap) (env : Env) (name : Symbol) : Except Error SlotId :=
  match h.resolve? env name with
  | none => .error (.unboundVariable name)
  | some slot =>
    if (h.slots[slot]?.map (·.mutable)).getD false then .ok slot else .error (.ofKind (.immutableAssignment name))

/-- Put a value into the slot that a name stands for. -/
def assign (h : Heap) (env : Env) (name : Symbol) (value : Value) : Except Error Heap :=
  (h.assignable env name).map fun slot => h.fill slot value

/-- Bind several names of a frame to new slots. -/
def defineAll (h : Heap) (frame : FrameId) (mutable : Bool) (bindings : List (Symbol × Value)) : Heap :=
  bindings.foldl (fun h b => h.define frame b.1 b.2 mutable) h

/-- Bind several names of a frame to slots that are there already. -/
def bindAll (h : Heap) (frame : FrameId) (bindings : List (Symbol × SlotId)) : Heap :=
  bindings.foldl (fun h b => h.bind frame b.1 b.2) h

/-- The names of one frame with their slots, in alphabetical order. -/
def localBindings (h : Heap) (frame : FrameId) : List (Symbol × SlotId) :=
  ((h.frames[frame]?).getD {}).bindings.mergeSort fun a b => decide (a.1 ≤ b.1)

/-- The names of one frame with their slots' contents, in alphabetical order. -/
def localSlots (h : Heap) (frame : FrameId) : List (Symbol × Slot) :=
  (h.localBindings frame).filterMap fun b => (h.slots[b.2]?).map fun s => (b.1, s)

end Heap

end MiniLisp
