import MiniLisp.Proofs.Coherence
import MiniLisp.Proofs.Frames
import MiniLisp.Proofs.Slots

/-!
# Using a module shares its slots

Where a module is used, each of its members is visible through the slot that it has in the module. From then on the name and the
member are one variable (`Machine.OneVariable`): wherever the run goes from there, both have the same value, unless a definition or
another use binds the name anew in that frame. A watch that stops what would bind it anew is told of every such event
(`Watch.StopsRebinding`), so what it lets go on is what comes before. An assignment through either of the two names, or from inside
the module, is seen through both.

When the name is bound anew there, it stands for another variable, and the module does not notice: its members have their values
still, and what stands inside the module sees what it saw (`Machine.Unnoticed`).
-/

namespace MiniLisp

variable {m m' : Machine}

/-! ## One variable with two names -/

namespace Heap

variable {h h' : Heap} {name : Symbol}

/-- A search goes on in the outer frames if the inner ones do not have the name. -/
theorem resolvePath?_append (h : Heap) (name : Symbol) (inner outer : List FrameId) :
    h.resolvePath? name (inner ++ outer) = (h.resolvePath? name inner).or (h.resolvePath? name outer) := by
  induction inner with
  | nil => rfl
  | cons frame inner ih =>
    simp only [List.cons_append, resolvePath?]
    cases h.localSlot? frame name with
    | none => exact ih
    | some slot => rfl

/-- A search depends on the names of the frames that it goes through. -/
theorem resolvePath?_congr {path : List FrameId} (hs : ∀ f ∈ path, h'.localSlot? f name = h.localSlot? f name) :
    h'.resolvePath? name path = h.resolvePath? name path := by
  induction path with
  | nil => rfl
  | cons frame path ih =>
    rw [resolvePath?, resolvePath?, hs frame List.mem_cons_self, ih fun f hf => hs f (List.mem_cons_of_mem frame hf)]

/-- A search through frames without the name finds nothing. -/
theorem resolvePath?_eq_none {path : List FrameId} (hs : ∀ f ∈ path, h.localSlot? f name = none) :
    h.resolvePath? name path = none := by
  induction path with
  | nil => rfl
  | cons frame path ih =>
    rw [resolvePath?, hs frame List.mem_cons_self]
    exact ih fun f hf => hs f (List.mem_cons_of_mem frame hf)

/-- A name in an environment and a member of a module have this value. -/
def BothHave (h : Heap) (module : Symbol) (home env : Env) (name : Symbol) (v : Value) : Prop :=
  h.lookup? env name = some v ∧ SpecialForm.accessField h (.module module home) (.sym name) = .ok v

/-- What a module gives under a name is what the name has in its frame. -/
theorem accessField_module (h : Heap) (module : Symbol) (home : Env) (name : Symbol) :
    SpecialForm.accessField h (.module module home) (.sym name) =
      match h.lookupLocal? home.frame name with
      | some v => .ok v
      | none => .error (.unboundVariable (module ++ "." ++ name)) := rfl

/-- Two names for a slot have the value that is in it. -/
theorem bothHave {home env : Env} {slot : SlotId} {contents : Slot} (module : Symbol)
    (hmember : h.localSlot? home.frame name = some slot) (hvisible : h.localSlot? env.frame name = some slot)
    (hs : h.slots[slot]? = some contents) : h.BothHave module home env name contents.value := by
  constructor
  · simp [lookup?, resolve?, Env.path, resolvePath?, hvisible, hs]
  · have hl : h.lookupLocal? home.frame name = some contents.value := by simp [lookupLocal?, hmember, hs]
    rw [accessField_module, hl]

end Heap

namespace Machine

variable (module : Symbol) (home env : Env) (name : Symbol) (slot : SlotId)

/-- A member of a module, and a name in the innermost frame of an environment, stand for this slot. -/
structure Shares (m : Machine) : Prop where
  registered : m.modules.lookup module = some home
  member : m.heap.localSlot? home.frame name = some slot
  visible : m.heap.localSlot? env.frame name = some slot

/-- They are one variable: both have the same value. -/
structure OneVariable (m : Machine) : Prop where
  shares : m.Shares module home env name slot
  value : ∃ v, m.heap.BothHave module home env name v
  /-- What stands inside the module, and does not bind the name itself, sees the same variable. -/
  inside : ∀ (scope : Env) inner outer, scope.path = inner ++ home.frame :: outer →
    (∀ f ∈ inner, m.heap.localSlot? f name = none) → m.heap.resolve? scope name = some slot

variable {module home env name slot}

/-- Two names for one slot of a coherent heap are one variable. -/
theorem Shares.oneVariable (h : m.Shares module home env name slot) (hc : m.heap.Coherent) :
    m.OneVariable module home env name slot where
  shares := h
  value := by
    obtain ⟨contents, hs⟩ := hc.exists_slot h.member
    exact ⟨contents.value, Heap.bothHave module h.member h.visible hs⟩
  inside scope inner outer hpath hinner := by
    rw [Heap.resolve?, hpath, Heap.resolvePath?_append, Heap.resolvePath?_eq_none hinner, Heap.resolvePath?, h.member]
    rfl

/-- Two names share a slot still if they stand for the slots that they stood for. -/
theorem Shares.of_eq (h : m.Shares module home env name slot)
    (hm : m'.modules.lookup module = some home)
    (hh : m'.heap.localSlot? home.frame name = m.heap.localSlot? home.frame name)
    (he : m'.heap.localSlot? env.frame name = m.heap.localSlot? env.frame name) : m'.Shares module home env name slot :=
  ⟨hm, hh.trans h.member, he.trans h.visible⟩

end Machine

/-! ## Runs -/

section Runs

variable (module : Symbol) (home env : Env) (name : Symbol) (slot : SlotId)

/-- As long as the member of the module and the name are one variable, the watch stops what would bind the name anew in its frame: a
definition of it there, and the use of a module that has another variable of that name. -/
def Watch.StopsRebinding (w : Watch) : Prop := ∀ m : Machine, m.Shares module home env name slot →
  (w (.binding env.frame name) m).isSome ∧
  ∀ other found slot', m.modules.lookup other = some found → m.heap.localSlot? found.frame name = some slot' → slot' ≠ slot →
    (w (.sharing env.frame other) m).isSome

/-- Work in an open frame of a coherent heap has left it open and the heap coherent, and what was one variable is one still. -/
structure SharingKept (own : FrameId) (m m' : Machine) : Prop where
  grown : ModulesGrown own m m'
  coherent : m'.heap.Coherent
  shares : m.Shares module home env name slot → m'.Shares module home env name slot

/-- The law of such work. -/
def SharingLaw (own : FrameId) (m m' : Machine) : Prop :=
  m.Open own → m.heap.Coherent → SharingKept module home env name slot own m m'

variable {module home env name slot} {w : Watch}

/-- A name of a frame that is there stands for what it stood for when another frame is made. -/
theorem Machine.Shares.withScope (h : m.Shares module home env name slot) (scope : Env) (bindings : List (Symbol × Value)) :
    Shares module home env name slot { m with heap := m.heap.withScope scope bindings } := by
  have hold {frame : FrameId} (hs : m.heap.localSlot? frame name = some slot) :
      (m.heap.withScope scope bindings).localSlot? frame name = m.heap.localSlot? frame name := by
    obtain ⟨f, hf, -⟩ := Option.bind_eq_some_iff.1 hs
    obtain ⟨hlt, -⟩ := Array.getElem?_eq_some_iff.1 hf
    rw [Heap.localSlot?, Heap.frames_withScope_of_lt m.heap scope bindings hlt, Heap.localSlot?]
  exact h.of_eq h.registered (hold h.member) (hold h.visible)

/-- A change of what is neither a frame nor a module. -/
theorem Machine.Shares.of_frames (h : m.Shares module home env name slot) (hm : m'.modules = m.modules)
    (hf : m'.heap.frames = m.heap.frames) : m'.Shares module home env name slot := by
  refine h.of_eq (by rw [hm]; exact h.registered) ?_ ?_ <;> rw [Heap.localSlot?, hf, Heap.localSlot?]

/-- All work but the binding of names keeps to the law. -/
theorem sharing_law : Law (· ≠ .bind) (SharingLaw module home env name slot) where
  refl _ _ ho hc := ⟨.refl ho, hc, id⟩
  trans h h' ho hc := by
    have hfirst := h ho hc
    have hthen := h' hfirst.grown.isOpen hfirst.coherent
    exact ⟨hfirst.grown.trans hthen.grown, hthen.coherent, hthen.shares ∘ hfirst.shares⟩
  definition hb := absurd rfl hb
  sharing hb := absurd rfl hb
  assignment _ own m env name slot v ha ho hc :=
    ⟨modules_law.assignment trivial own m env name slot v ha ho, hc.fill v, fun h => h.of_frames rfl rfl⟩
  lambdaId own m ho hc := ⟨modules_law.lambdaId own m ho, hc, fun h => h.of_frames rfl rfl⟩
  symbol _ own m ho hc := ⟨modules_law.symbol trivial own m ho, hc, fun h => h.of_frames rfl rfl⟩
  output own m text ho hc := ⟨modules_law.output own m text ho, hc, fun h => h.of_frames rfl rfl⟩
  scope scope bindings h ho hc := by
    have hin := h (Machine.open_withScope ho.home_lt_size scope bindings) (hc.withScope scope bindings)
    exact ⟨.of_scope ho scope bindings hin.grown, hin.coherent, fun hs => hin.shares (hs.withScope scope bindings)⟩
  newModule {own m m'} scope other h hn ho hc := by
    have hin := h (Machine.open_withScope ho.home_lt_size scope []) (hc.withScope scope [])
    refine ⟨modules_law.newModule scope other (fun _ => hin.grown) hn ho, hin.coherent, fun hs => ?_⟩
    have hs' := hin.shares (hs.withScope scope [])
    exact hs'.of_eq (lookup_registered hn hs'.registered) rfl rfl
  nested hd h ho hc := by
    have hin := h ⟨ho.lt_size, ho.home_lt_size, ho.home_ne⟩ hc
    refine ⟨modules_law.nested hd (fun _ => hin.grown) ho, hin.coherent, fun hs => ?_⟩
    exact (hin.shares (hs.of_frames rfl rfl)).of_frames rfl rfl

/-- A definition in an open frame, of another name or in another frame. -/
theorem Machine.Shares.define (h : m.Shares module home env name slot) {own : FrameId} (ho : m.Open own) {other : Symbol}
    (hne : ¬(own = env.frame ∧ other = name)) (v : Value) (mutable : Bool) :
    Shares module home env name slot { m with heap := m.heap.define own other v mutable } := by
  have hframe {frame : FrameId} (hf : ¬(own = frame ∧ other = name)) :
      (m.heap.define own other v mutable).localSlot? frame name = m.heap.localSlot? frame name := by
    by_cases hown : frame = own
    · exact Heap.localSlot?_define_of_ne m.heap own frame v mutable fun hname => hf ⟨hown.symm, hname.symm⟩
    · rw [Heap.localSlot?, Heap.frames_define_of_ne m.heap other v mutable hown, Heap.localSlot?]
  exact h.of_eq h.registered (hframe fun heq => ho.home_ne module home h.registered heq.1.symm) (hframe hne)

/-- The sharing of a frame with an open one, which has the same variable under the name, or none, or is another frame. -/
theorem Machine.Shares.share (h : m.Shares module home env name slot) {own : FrameId} (ho : m.Open own) (hc : m.heap.Coherent)
    {found : FrameId} (hsame : own = env.frame → ∀ slot', m.heap.localSlot? found name = some slot' → slot' = slot) :
    Shares module home env name slot { m with heap := m.heap.bindAll own (m.heap.localBindings found) } := by
  have hother {frame : FrameId} (hne : frame ≠ own) :
      (m.heap.bindAll own (m.heap.localBindings found)).localSlot? frame name = m.heap.localSlot? frame name := by
    rw [Heap.localSlot?, Heap.frames_bindAll_of_ne m.heap _ hne, Heap.localSlot?]
  refine h.of_eq h.registered (hother (ho.home_ne module home h.registered)) ?_
  by_cases hown : env.frame = own
  · cases hs : m.heap.localSlot? found name with
    | none => exact Heap.localSlot?_shared_of_none hc env.frame hs
    | some slot' =>
      obtain rfl := hsame hown.symm slot' hs
      rw [h.visible, hown]
      exact Heap.localSlot?_shared hc ho.lt_size hs
  · exact hother hown

/-- Under a watch that stops what would bind the name anew, all work keeps to the law. -/
theorem Watch.StopsRebinding.watchLaw (h : w.StopsRebinding module home env name slot) :
    WatchLaw w (SharingLaw module home env name slot) := by
  have hquiet : Law Ability.Quiet (SharingLaw module home env name slot) := sharing_law.weaken fun _ hb => hb ▸ nofun
  refine ⟨hquiet, sharing_law.watchedCall nofun w, fun scope other value mutable hv m => ?_, fun other scope m => ?_,
    sharing_law.watchedAssign nofun w⟩
  · by_cases hat : scope.frame = env.frame ∧ other = name
    · obtain ⟨hframe, rfl⟩ := hat
      intro ho hc
      refine ⟨(modules_law.watched w).definition scope other mutable hv m ho,
        (coherent_law.watched w).definition scope other mutable hv m hc, fun hs => ?_⟩
      have hstop : (w (.binding scope.frame other) m).isSome := hframe ▸ (h m hs).1
      rw [Watch.define, after_pass_bind_of_isSome hstop]
      exact hs
    · refine hquiet.define w (fun m v ho hc => ?_) hv m
      exact ⟨modules_law.definition trivial scope.frame m other v mutable ho, hc.define v mutable,
        fun hs => hs.define ho hat v mutable⟩
  · intro ho hc
    refine ⟨(modules_law.watched w).sharing other scope m ho, (coherent_law.watched w).sharing other scope m hc, fun hs => ?_⟩
    cases hpass : w (.sharing scope.frame other) m with
    | some alarm =>
      rw [Watch.share, after_pass_bind_of_isSome (by rw [hpass]; rfl)]
      exact hs
    | none =>
      rw [Watch.share, after_pass_bind hpass]
      cases hl : m.modules.lookup other with
      | none =>
        rw [Action.after_eq_of_error (useModule_of_not_found scope hl)]
        exact hs
      | some found =>
        rw [Action.after_eq_of_ok (useModule_of_found scope hl)]
        refine hs.share ho hc fun hframe slot' hslot => ?_
        by_contra hne
        have hstop := (h m hs).2 other found slot' hl hslot hne
        rw [← hframe, hpass] at hstop
        cases hstop

/-- What is shared is so at the end of a level, and when one more module is registered. -/
theorem shares_carriesOver :
    CarriesOver fun m m' => m.Shares module home env name slot → m'.Shares module home env name slot where
  trans h h' hs := h' (h hs)
  depth _ _ hs := hs.of_frames rfl rfl
  register _ _ _ _ _ hn hs := hs.of_eq (lookup_registered hn hs.registered) rfl rfl

/-- Work that is begun in an open frame of a coherent heap keeps what is shared. -/
theorem sharing_governs : Governs (fun own m => m.Open own ∧ m.heap.Coherent) (SharingLaw module home env name slot)
    fun m m' => m.Shares module home env name slot → m'.Shares module home env name slot where
  keeps h hR := (hR h.1 h.2).shares
  ready h hR := ⟨(hR h.1 h.2).grown.isOpen, (hR h.1 h.2).coherent⟩
  scope env bindings h := ⟨Machine.open_withScope h.1.home_lt_size env bindings, h.2.withScope env bindings⟩
  depth _ h := ⟨⟨h.1.lt_size, h.1.home_lt_size, h.1.home_ne⟩, h.2⟩
  reset _ _ ho hc := ⟨.of_eq ho rfl rfl fun _ _ => rfl, hc, fun hs => hs.of_frames rfl rfl⟩
  carries := shares_carriesOver

end Runs

/-! ## Assignments -/

/-- An assignment through whatever name for the variable is seen through both of its names; if the variable is not mutable, there is a
complaint. -/
theorem Machine.Shares.assigned {module : Symbol} {home env : Env} {name : Symbol} {slot : SlotId} {contents : Slot}
    {inner : Evaluator} {scope : Env} {other : Symbol} {form v : Value} (hv : inner form scope m = .ok v m')
    (h : m'.Shares module home env name slot) (hc : m'.heap.Coherent) (hr : m'.heap.resolve? scope other = some slot)
    (hs : m'.heap.slots[slot]? = some contents) :
    (contents.mutable = true → ∃ m'', evalStep inner (.list [.sym "set!", .sym other, form]) scope m = .ok (.done .nil) m'' ∧
      m''.OneVariable module home env name slot ∧ m''.heap.BothHave module home env name v) ∧
    (contents.mutable = false → evalStep inner (.list [.sym "set!", .sym other, form]) scope m =
      .error (.error (.ofKind (.immutableAssignment other))) m') := by
  have hstep := evalStep_assign inner other form scope m
  simp only [hv] at hstep
  constructor
  · intro hm
    rw [Heap.assignable_eq_ok_iff.2 ⟨hr, contents, hs, hm⟩] at hstep
    have h' : { m' with heap := m'.heap.fill slot v }.Shares module home env name slot := h.of_frames rfl rfl
    have hfilled : (m'.heap.fill slot v).slots[slot]? = some { contents with value := v } := by
      rw [Heap.getElem?_slots_fill, if_pos rfl, hs]
      rfl
    exact ⟨_, hstep, h'.oneVariable (hc.fill v), Heap.bothHave module h'.member h'.visible hfilled⟩
  · intro hm
    have hcomplaint : m'.heap.assignable scope other = .error (.ofKind (.immutableAssignment other)) := by
      simp [Heap.assignable, hr, hs, hm]
    rw [hcomplaint] at hstep
    exact hstep

/-! ## The use of a module -/

/-- The machine with the names of a frame shared with an environment. -/
def Machine.sharing (home env : Env) (m : Machine) : Machine :=
  { m with heap := m.heap.bindAll env.frame (m.heap.localBindings home.frame) }

/-- The step of `use` shares the frame of the module. -/
theorem evalStep_use (inner : Evaluator) {module : Symbol} {home : Env} (env : Env) (hm : m.modules.lookup module = some home) :
    evalStep inner (.list [.sym "use", .sym module]) env m = .ok (.done .nil) (m.sharing home env) := by
  have hstep : evalStep inner (.list [.sym "use", .sym module]) env m =
      (useModule module env >>= fun _ => pure (.done .nil)) m := rfl
  rw [hstep, Action.bind_of_ok _ (useModule_of_found env hm)]
  rfl

/-- Sharing a frame leaves its own names alone. -/
theorem Heap.localSlot?_shared_home {h : Heap} (hc : h.Coherent) {frame home : FrameId} (name : Symbol) :
    (h.bindAll frame (h.localBindings home)).localSlot? home name = h.localSlot? home name := by
  by_cases hne : home = frame
  · subst hne
    cases hs : h.localSlot? home name with
    | none => rw [localSlot?_shared_of_none hc home hs, hs]
    | some slot =>
      obtain ⟨f, hf, -⟩ := Option.bind_eq_some_iff.1 hs
      obtain ⟨hlt, -⟩ := Array.getElem?_eq_some_iff.1 hf
      exact localSlot?_shared hc hlt hs
  · rw [localSlot?, frames_bindAll_of_ne h _ hne, localSlot?]

/-! ## Names bound anew -/

/-- The steps by which a name is bound anew in the innermost frame of an environment, from the machine where they come to it: the
value of a definition is known by then. -/
inductive RebindingStep (inner : Evaluator) (env : Env) : Machine → Machine → Prop where
  | value {keyword : String} (hk : keyword = "let" ∨ keyword = "let!") (name : Symbol) (form v : Value) (m m₁ : Machine)
      (hv : inner form env m = .ok v m₁) :
      RebindingStep inner env m₁ (Action.after (evalStep inner (.list [.sym keyword, .sym name, form]) env) m)
  | function {keyword : String} (hk : keyword = "let" ∨ keyword = "let!") (name : Symbol) (signature body : Value) (m : Machine) :
      RebindingStep inner env m
        (Action.after (evalStep inner (.pair (.sym keyword) (.pair (.pair (.sym name) signature) body)) env) m)
  | use (other : Symbol) (m : Machine) :
      RebindingStep inner env m (Action.after (evalStep inner (.list [.sym "use", .sym other]) env) m)

/-- A slot that is there has the same content. -/
theorem SlotsUnchanged.getElem?_eq (h : SlotsUnchanged m m') {slot : SlotId} (hlt : slot < m.heap.slots.size) :
    m'.heap.slots[slot]? = m.heap.slots[slot]? := by
  have hs : m.heap.slots[slot]? = some m.heap.slots[slot] := Array.getElem?_eq_getElem hlt
  rw [hs]
  exact h slot _ hs

namespace Machine

/-- What binds names anew in a frame goes unnoticed in a module: its members are what they were, and what stands inside of it sees
the same under all names, but those that are no members and that the frame has bound anew. -/
structure Unnoticed (module : Symbol) (home : Env) (frame : FrameId) (m m' : Machine) : Prop where
  members : ∀ name, SpecialForm.accessField m'.heap (.module module home) (.sym name) =
    SpecialForm.accessField m.heap (.module module home) (.sym name)
  inside : ∀ (scope : Env) inner outer name, scope.path = inner ++ home.frame :: outer → frame ∉ inner →
    (m.heap.localSlot? home.frame name).isSome ∨ m'.heap.localSlot? frame name = m.heap.localSlot? frame name →
    m'.heap.lookup? scope name = m.heap.lookup? scope name

/-- What is left where a name is bound anew in a frame. -/
inductive Rebound (frame : FrameId) (m : Machine) : Machine → Prop where
  | unchanged : Rebound frame m m
  | definition (name : Symbol) (v : Value) (mutable : Bool) (lambdas : Nat) :
      Rebound frame m { m with heap := m.heap.define frame name v mutable, lambdas }
  | sharing (found : FrameId) : Rebound frame m { m with heap := m.heap.bindAll frame (m.heap.localBindings found) }

variable {frame : FrameId}

/-- A name that stands for the same slot has the same value. -/
theorem lookup?_eq_of_resolve? (hc : m.heap.Coherent) (hu : SlotsUnchanged m m') {scope : Env} {s : Symbol}
    (hs : m'.heap.resolve? scope s = m.heap.resolve? scope s) : m'.heap.lookup? scope s = m.heap.lookup? scope s :=
  hc.lookup?_congr (fun _ hlt => hu.getElem?_eq hlt) hs

/-- The same of a name in a frame. -/
theorem lookupLocal?_eq_of_localSlot? (hc : m.heap.Coherent) (hu : SlotsUnchanged m m') {s : Symbol}
    (hs : m'.heap.localSlot? frame s = m.heap.localSlot? frame s) : m'.heap.lookupLocal? frame s = m.heap.lookupLocal? frame s := by
  rw [Heap.lookupLocal?, Heap.lookupLocal?, hs]
  cases hr : m.heap.localSlot? frame s with
  | none => rfl
  | some slot => rw [Option.bind_some, Option.bind_some, hu.getElem?_eq (hc.slot_lt hr)]

/-- To bind a name anew changes no slot that is there. -/
theorem Rebound.slotsUnchanged (h : Rebound frame m m') : SlotsUnchanged m m' := by
  cases h with
  | unchanged => exact .of_eq rfl
  | definition name v mutable lambdas => exact .of_push (Heap.slots_define m.heap frame name v mutable)
  | sharing found => exact .of_eq (Heap.slots_bindAll m.heap frame _)

/-- To bind a name anew changes no other frame. -/
theorem Rebound.localSlot?_of_ne (h : Rebound frame m m') {other : FrameId} (hne : other ≠ frame) (s : Symbol) :
    m'.heap.localSlot? other s = m.heap.localSlot? other s := by
  cases h with
  | unchanged => rfl
  | definition name v mutable lambdas => simp only [Heap.localSlot?, Heap.frames_define_of_ne m.heap name v mutable hne]
  | sharing found => simp only [Heap.localSlot?, Heap.frames_bindAll_of_ne m.heap _ hne]

/-- What is bound anew in another frame goes unnoticed in a module. -/
theorem Rebound.unnoticed (h : Rebound frame m m') (hc : m.heap.Coherent) (module : Symbol) {home : Env}
    (hne : home.frame ≠ frame) : Unnoticed module home frame m m' where
  members s := by
    rw [Heap.accessField_module, Heap.accessField_module,
      lookupLocal?_eq_of_localSlot? hc h.slotsUnchanged (h.localSlot?_of_ne hne s)]
  inside scope inner outer s hpath hinner hs := by
    refine lookup?_eq_of_resolve? hc h.slotsUnchanged ?_
    rw [Heap.resolve?, Heap.resolve?, hpath]
    rcases hs with hmember | hsame
    · -- The search ends in the frame of the module at the latest, and none of the frames up to there has changed.
      obtain ⟨slot, hslot⟩ := Option.isSome_iff_exists.1 hmember
      have hslot' := (h.localSlot?_of_ne hne s).trans hslot
      have hin : m'.heap.resolvePath? s inner = m.heap.resolvePath? s inner := by
        refine Heap.resolvePath?_congr fun f hf => h.localSlot?_of_ne ?_ s
        rintro rfl
        exact hinner hf
      rw [Heap.resolvePath?_append, Heap.resolvePath?_append, hin, Heap.resolvePath?, Heap.resolvePath?, hslot, hslot']
    · refine Heap.resolvePath?_congr fun f _ => ?_
      by_cases hf : f = frame
      · rw [hf]
        exact hsame
      · exact h.localSlot?_of_ne hf s

end Machine

open Machine (Rebound)

/-- To give a function a name counts at most one function more. -/
theorem SpecialForm.named_eq_ok (name : Symbol) (v : Value) (m : Machine) :
    ∃ v' lambdas, SpecialForm.named name v m = .ok v' { m with lambdas } := by
  unfold SpecialForm.named
  split
  · exact ⟨_, _, rfl⟩
  · exact ⟨v, m.lambdas, rfl⟩

/-- A definition of a value, once it is known. -/
theorem rebound_value (inner : Evaluator) (env : Env) {keyword : String} (hk : keyword = "let" ∨ keyword = "let!")
    (name : Symbol) {form v : Value} (hv : inner form env m = .ok v m') :
    Rebound env.frame m' (Action.after (evalStep inner (.list [.sym keyword, .sym name, form]) env) m) := by
  obtain ⟨v', lambdas, hnamed⟩ := SpecialForm.named_eq_ok name v m'
  have hdefine (mutable : Bool) : Rebound env.frame m' (Action.after (inner form env >>= fun v =>
      SpecialForm.named name v >>= fun v => Action.define env name v mutable >>= fun _ => pure (Step.done .nil)) m) := by
    rw [Action.after_bind_of_ok _ hv, Action.after_bind_of_ok _ hnamed]
    exact .definition name v' mutable lambdas
  rcases hk with rfl | rfl
  · exact hdefine false
  · exact hdefine true

/-- The definition of a function. -/
theorem rebound_function (inner : Evaluator) (env : Env) {keyword : String} (hk : keyword = "let" ∨ keyword = "let!")
    (name : Symbol) (signature body : Value) (m : Machine) :
    Rebound env.frame m
      (Action.after (evalStep inner (.pair (.sym keyword) (.pair (.pair (.sym name) signature) body)) env) m) := by
  have hdefine (special : SpecialForm) (mutable : Bool) : Rebound env.frame m (Action.after
      (special.arguments (.pair (.pair (.sym name) signature) body) >>= fun args =>
        SpecialForm.evalLet inner env keyword mutable args) m) := by
    cases hargs : (Value.pair (.pair (.sym name) signature) body).toList? with
    | none =>
      rw [special.arguments_of_improper hargs]
      exact .unchanged
    | some items =>
      have hlist := Value.eq_list_of_toList? hargs
      cases items with
      | nil => cases hlist
      | cons target body' =>
        obtain ⟨rfl, -⟩ := Value.pair.inj hlist
        rw [special.arguments_of_list hargs, pure_bind, SpecialForm.evalLet]
        cases hparams : Params.parse signature with
        | error e => exact .unchanged
        | ok params =>
          have hok : Action.ofExcept (.ok params) m = .ok params m := rfl
          rw [Action.after_bind_of_ok _ hok]
          let f : Lambda Value := { id := m.lambdas, name := some name, params, body := body', env }
          have hfilled : Rebound env.frame m
              { m with heap := m.heap.define env.frame name (.closure f) mutable, lambdas := m.lambdas + 1 } := .definition _ _ _ _
          rw [← Heap.fill_reserve] at hfilled
          exact hfilled
  rcases hk with rfl | rfl
  · exact hdefine .letForm false
  · exact hdefine .letMutable true

/-- The use of a module, if there is one of that name. -/
theorem rebound_use (inner : Evaluator) (env : Env) (other : Symbol) (m : Machine) :
    Rebound env.frame m (Action.after (evalStep inner (.list [.sym "use", .sym other]) env) m) := by
  cases hm : m.modules.lookup other with
  | some home =>
    rw [Action.after_eq_of_ok (evalStep_use inner env hm)]
    exact .sharing home.frame
  | none =>
    have hstep : evalStep inner (.list [.sym "use", .sym other]) env m =
        (useModule other env >>= fun _ => pure (.done .nil)) m := rfl
    rw [Action.after_eq_of_error (hstep.trans (Action.bind_of_error _ (useModule_of_not_found env hm)))]
    exact .unchanged

/-- So every such step does no more than bind names anew. -/
theorem RebindingStep.rebound {inner : Evaluator} {env : Env} (h : RebindingStep inner env m m') : Rebound env.frame m m' := by
  cases h with
  | value hk name form v m₀ _ hv => exact rebound_value inner env hk name hv
  | function hk name signature body => exact rebound_function inner env hk name signature body m
  | use other => exact rebound_use inner env other m

/-- Work in a coherent heap leaves it coherent. -/
theorem coherent_governs : Governs (fun _ m => m.heap.Coherent) (fun _ m m' => m.heap.Coherent → m'.heap.Coherent)
    fun _ _ => True where
  keeps _ _ := trivial
  ready hc h := h hc
  scope env bindings hc := hc.withScope env bindings
  depth _ hc := hc
  reset _ _ hc := hc
  carries := ⟨fun _ _ => trivial, fun _ _ => trivial, fun _ _ _ _ _ _ => trivial⟩

/-- Where a form is evaluated in a session, the heap is coherent, and the innermost frame of the environment is open for work. -/
theorem Session.Passes.open_and_coherent {fuel : Nat} {limits : Limits} {work : List (Watch × Task)} {form : Value} {scope : Env}
    {s : Machine} (h : Passes fuel (Machine.fresh limits) work (.turn form scope) s) :
    s.Open scope.frame ∧ s.heap.Coherent := by
  constructor
  · exact passes_law fuel modules_governs.reset h (fun t _ => modules_law.watched t.1) (modules_governs.turn form scope s)
      (open_fresh limits)
  · exact passes_law fuel coherent_governs.reset h (fun t _ => coherent_law.watched t.1) (coherent_governs.turn form scope s)
      (.fresh limits)

/-- After a module is used, each of its members is one variable with its name in the environment, and it is one wherever the work that
follows goes, as long as the name is not bound anew there. An assignment through whatever name for the variable is seen through
both; and the steps that bind a name anew in that frame go unnoticed in the module. The conditions on the machine are met wherever a
form is evaluated in a session. -/
theorem use_shares_slots (fuel : Nat) :
    Watch.Faithful fuel ∧
    (∀ (m : Machine) module home env inner, m.heap.Coherent → m.modules.lookup module = some home →
      env.frame < m.heap.frames.size →
      evalStep inner (.list [.sym "use", .sym module]) env m = .ok (.done .nil) (m.sharing home env) ∧
      (∀ name, (m.sharing home env).heap.localSlot? home.frame name = m.heap.localSlot? home.frame name) ∧
      ∀ name slot, m.heap.localSlot? home.frame name = some slot →
        (m.sharing home env).OneVariable module home env name slot) ∧
    (∀ module home env name slot (w : Watch) form (scope : Env) m, w.StopsRebinding module home env name slot →
      m.Open scope.frame → m.heap.Coherent →
      Action.Throughout (fun s m' => s.Shares module home env name slot → m'.OneVariable module home env name slot)
        (fun w => w.eval fuel form scope) w m) ∧
    (∀ module home env name slot m work, (∀ t ∈ work, t.1.StopsRebinding module home env name slot) →
      m.Open m.global.frame → m.heap.Coherent →
      Session.Throughout fuel (fun s m' => s.Shares module home env name slot → m'.OneVariable module home env name slot) m work) ∧
    (∀ module home env name slot contents inner scope other form v m (m' : Machine), inner form scope m = .ok v m' →
      m'.Shares module home env name slot → m'.heap.Coherent → m'.heap.resolve? scope other = some slot →
      m'.heap.slots[slot]? = some contents →
      (contents.mutable = true → ∃ m'', evalStep inner (.list [.sym "set!", .sym other, form]) scope m = .ok (.done .nil) m'' ∧
        m''.OneVariable module home env name slot ∧ m''.heap.BothHave module home env name v) ∧
      (contents.mutable = false → evalStep inner (.list [.sym "set!", .sym other, form]) scope m =
        .error (.error (.ofKind (.immutableAssignment other))) m')) ∧
    (∀ module home env inner m m', RebindingStep inner env m m' → m.heap.Coherent → m.modules.lookup module = some home →
      m.Open env.frame → m.Unnoticed module home env.frame m') ∧
    ∀ limits work form scope s, Session.Passes fuel (Machine.fresh limits) work (.turn form scope) s →
      s.Open scope.frame ∧ s.heap.Coherent := by
  refine ⟨Watch.faithful fuel, ?_, ?_, ?_, ?_, ?_, fun limits work form scope s h => h.open_and_coherent⟩
  · intro m module home env inner hc hm hlt
    refine ⟨evalStep_use inner env hm, Heap.localSlot?_shared_home hc, fun name slot hslot => ?_⟩
    have hshares : (m.sharing home env).Shares module home env name slot :=
      ⟨hm, (Heap.localSlot?_shared_home hc name).trans hslot, Heap.localSlot?_shared hc hlt hslot⟩
    exact hshares.oneVariable (hc.share env.frame home.frame)
  · intro module home env name slot w form scope m hw ho hc
    have hend := (coherent_law.watched w).eval fuel form scope m hc
    exact (hw.watchLaw.eval_throughout sharing_governs fuel form ⟨ho, hc⟩).imp fun s hkept hs => (hkept hs).oneVariable hend
  · intro module home env name slot m work hw ho hc
    have hend := (Session.watched_law fuel coherent_governs.reset (fun t (_ : t ∈ work) => coherent_law.watched t.1)
      (fun _ _ hc => hc) (fun h h' hc => h' (h hc)) m).2 hc
    refine (Session.throughout_of_law fuel sharing_law sharing_governs (fun t ht => (hw t ht).watchLaw) ⟨ho, hc⟩).imp ?_
    exact fun s hkept hs => (hkept hs).oneVariable hend
  · exact fun _ _ _ _ _ _ _ _ _ _ _ _ _ hv hs hc hr hslot => hs.assigned hv hc hr hslot
  · intro module home env inner m m' hstep hc hm ho
    exact hstep.rebound.unnoticed hc module (ho.home_ne module home hm)

/-- A mutable member of a module is used in the global environment. Assigned to there, it has the new value in the module too; it is
one variable where an evaluation ends that binds no name; and a definition of the name there goes unnoticed in the module. -/
theorem use_shares_slots_assigned :
    let heap : Heap := { frames := #[{}, ⟨[("x", 0)]⟩], slots := #[⟨.bool true, true⟩] }
    let m : Machine := { heap, global := ⟨0, []⟩, modules := [("M", ⟨1, [0]⟩)] }
    let m' := m.sharing ⟨1, [0]⟩ m.global
    let inner : Evaluator := fun _ _ => pure .nil
    let assign : Value := .list [.sym "set!", .sym "x", .nil]
    let w : Watch := fun event _ => if event matches .binding .. | .sharing .. then some .outOfFuel else none
    evalStep inner (.list [.sym "use", .sym "M"]) m.global m = .ok (.done .nil) m' ∧
      (∃ m'', evalStep inner assign m.global m' = .ok (.done .nil) m'' ∧ m''.heap.BothHave "M" ⟨1, [0]⟩ m.global "x" .nil) ∧
      (Action.after (w.eval 5 assign m.global) m').OneVariable "M" ⟨1, [0]⟩ m.global "x" 0 ∧
      m'.Unnoticed "M" ⟨1, [0]⟩ 0 (Action.after (evalStep inner (.list [.sym "let", .sym "x", .nil]) m.global) m') := by
  intro heap m m' inner assign w
  obtain ⟨-, huse, hrun, -, hassign, hrebinding, -⟩ := use_shares_slots 5
  have hc : m.heap.Coherent := by
    intro i f hf
    rcases i with _ | _ | i
    · cases hf
      exact .empty _
    · cases hf
      exact ⟨by simp [m, heap], by simp [m, heap]⟩
    · simp [m, heap] at hf
  obtain ⟨hstep, -, hmembers⟩ := huse m "M" ⟨1, [0]⟩ m.global inner hc rfl (by decide)
  have hx : m'.OneVariable "M" ⟨1, [0]⟩ m.global "x" 0 := hmembers "x" 0 rfl
  have hc' : m'.heap.Coherent := hc.share 0 1
  have ho : m'.Open m'.global.frame := by
    have hsize : m'.heap.frames.size = 2 := Heap.size_frames_bindAll heap 0 _
    have hhome (name : Symbol) (home : Env) (hl : m'.modules.lookup name = some home) : home.frame = 1 := by
      rcases lookup_registered_cases hl with rfl | hnone
      · rfl
      · cases hnone
    refine ⟨by rw [hsize]; decide, fun name home hl => ?_, fun name home hl => ?_⟩
    · rw [hhome name home hl, hsize]
      decide
    · rw [hhome name home hl]
      decide
  have hw : w.StopsRebinding "M" ⟨1, [0]⟩ m.global "x" 0 := fun _ _ => ⟨rfl, fun _ _ _ _ _ _ => rfl⟩
  have hr : m'.heap.resolve? m.global "x" = some 0 := by
    simp [Heap.resolve?, Env.path, Heap.resolvePath?, hx.shares.visible]
  have hslot : m'.heap.slots[0]? = some ⟨.bool true, true⟩ := by
    have hslots : m'.heap.slots = heap.slots := Heap.slots_bindAll heap 0 _
    rw [hslots]
    rfl
  obtain ⟨hmutable, -⟩ := hassign "M" ⟨1, [0]⟩ m.global "x" 0 _ inner m.global "x" .nil .nil m' m' rfl hx.shares hc' hr hslot
  obtain ⟨m'', hassigned, -, hboth⟩ := hmutable rfl
  have hend := (hrun "M" ⟨1, [0]⟩ m.global "x" 0 w assign m.global m' hw ho hc').start hx.shares
  have hlet : RebindingStep inner m.global m' (Action.after (evalStep inner (.list [.sym "let", .sym "x", .nil]) m.global) m') :=
    .value (.inl rfl) "x" .nil .nil m' m' rfl
  exact ⟨hstep, ⟨m'', hassigned, hboth⟩, hend, hrebinding "M" ⟨1, [0]⟩ m.global inner m' _ hlet hc' rfl ho⟩

end MiniLisp
