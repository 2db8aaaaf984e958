import Mathlib.Order.Nat
import MiniLisp.Proofs.Tasks

/-!
# Names are bound in the own frame alone

An evaluation binds names in the innermost frame of its environment and in frames that it makes itself; of every other frame the
names and their slots stay what they were. Expansions and calls, which work in frames of their own, change no frame that was
there (`frames_kept`).

The frame of a module is made for it, and when it is registered all work in it is done: it is never open for work again
(`Machine.Open`). So the modules that a session has at one of its stages are its modules wherever it goes from there, with the same
names for the same slots.
-/

namespace MiniLisp

/-- No frame but this one has changed, and none is lost. -/
structure FramesKept (own : FrameId) (m m' : Machine) : Prop where
  size : m.heap.frames.size ≤ m'.heap.frames.size
  frames : ∀ f, f < m.heap.frames.size → f ≠ own → m'.heap.frames[f]? = m.heap.frames[f]?

/-- A change that makes no frame and touches one at most. -/
theorem FramesKept.of_eq {own : FrameId} {m m' : Machine} (hs : m'.heap.frames.size = m.heap.frames.size)
    (hf : ∀ f, f ≠ own → m'.heap.frames[f]? = m.heap.frames[f]?) : FramesKept own m m' :=
  ⟨hs.ge, fun f _ hne => hf f hne⟩

/-- Work in a new frame has left all frames that were there as they were. -/
theorem FramesKept.of_scope {m m' : Machine} (own : FrameId) (env : Env) (bindings : List (Symbol × Value))
    (h : FramesKept m.heap.frames.size { m with heap := m.heap.withScope env bindings } m') : FramesKept own m m' := by
  obtain ⟨hsize, hframes⟩ := h
  simp only [Heap.size_frames_withScope] at hsize hframes
  refine ⟨by omega, fun f hlt _ => ?_⟩
  have hf := hframes f (by omega) (by omega)
  exact hf.trans (Heap.frames_withScope_of_lt m.heap env bindings hlt)

/-- All work keeps the frames, but for the one that it is done in. -/
theorem frames_law : Law (fun _ => True) FramesKept where
  refl _ _ := .of_eq rfl fun _ _ => rfl
  trans := by
    intro own m₁ m₂ m₃ h h'
    refine ⟨h.size.trans h'.size, fun f hlt hne => ?_⟩
    rw [h'.frames f (hlt.trans_le h.size) hne]
    exact h.frames f hlt hne
  definition _ _ m name v mutable :=
    .of_eq (Heap.size_frames_define m.heap _ name v mutable) fun _ hne => Heap.frames_define_of_ne m.heap name v mutable hne
  sharing _ _ m _ := .of_eq (Heap.size_frames_bindAll m.heap _ _) fun _ hne => Heap.frames_bindAll_of_ne m.heap _ hne
  assignment _ _ _ _ _ _ _ _ := .of_eq rfl fun _ _ => rfl
  lambdaId _ _ := .of_eq rfl fun _ _ => rfl
  symbol _ _ _ := .of_eq rfl fun _ _ => rfl
  output _ _ _ := .of_eq rfl fun _ _ => rfl
  scope env bindings h := .of_scope _ env bindings h
  newModule {own m _} env name h _ := by
    have hk := FramesKept.of_scope own env [] h
    exact ⟨hk.size, hk.frames⟩
  nested _ h := ⟨h.size, h.frames⟩

/-! ## Modules -/

section Registration

variable {table : List (Symbol × Env)} {name other : Symbol} {home found : Env}

/-- A registration under a free name takes no other one away. -/
theorem lookup_registered (hn : table.lookup name = none) (h : table.lookup other = some found) :
    List.lookup other ((name, home) :: table) = some found := by
  have hne : (other == name) = false := by
    rw [beq_eq_false_iff_ne]
    rintro rfl
    rw [hn] at h
    cases h
  rw [List.lookup_cons, hne]
  exact h

/-- What is registered is what was registered last or what was registered before. -/
theorem lookup_registered_cases (h : List.lookup other ((name, home) :: table) = some found) :
    found = home ∨ table.lookup other = some found := by
  rw [List.lookup_cons] at h
  split at h
  · exact .inl (Option.some.inj h).symm
  · exact .inr h

end Registration

/-- Every module is a module still, with the same names for the same slots. -/
def ModulesKept (m m' : Machine) : Prop :=
  ∀ name home, m.modules.lookup name = some home →
    m'.modules.lookup name = some home ∧ m'.heap.frames[home.frame]? = m.heap.frames[home.frame]?

theorem ModulesKept.trans {m₁ m₂ m₃ : Machine} (h : ModulesKept m₁ m₂) (h' : ModulesKept m₂ m₃) : ModulesKept m₁ m₃ := by
  intro name home hm
  obtain ⟨hm₂, hf₂⟩ := h name home hm
  obtain ⟨hm₃, hf₃⟩ := h' name home hm₂
  exact ⟨hm₃, hf₃.trans hf₂⟩

/-- Work can go on in this frame: it is there, and neither it nor a frame still to be made is the frame of a module. -/
structure Machine.Open (m : Machine) (own : FrameId) : Prop where
  lt_size : own < m.heap.frames.size
  home_lt_size : ∀ name home, m.modules.lookup name = some home → home.frame < m.heap.frames.size
  home_ne : ∀ name home, m.modules.lookup name = some home → home.frame ≠ own

/-- Work in a frame has left it open and kept all modules, and new modules lie in new frames. -/
structure ModulesGrown (own : FrameId) (m m' : Machine) : Prop where
  isOpen : m'.Open own
  size : m.heap.frames.size ≤ m'.heap.frames.size
  new : ∀ name home, m'.modules.lookup name = some home → m.modules.lookup name = some home ∨ m.heap.frames.size ≤ home.frame
  kept : ModulesKept m m'

/-- A new frame is open for work. -/
theorem Machine.open_withScope {m : Machine}
    (h : ∀ name home, m.modules.lookup name = some home → home.frame < m.heap.frames.size) (env : Env)
    (bindings : List (Symbol × Value)) : Machine.Open { m with heap := m.heap.withScope env bindings } m.heap.frames.size where
  lt_size := by simp
  home_lt_size name home hl := by
    rw [Heap.size_frames_withScope]
    exact (h name home hl).trans (Nat.lt_succ_self _)
  home_ne name home hl := (h name home hl).ne

namespace ModulesGrown

variable {own : FrameId} {m m' : Machine}

theorem refl (h : m.Open own) : ModulesGrown own m m := ⟨h, le_rfl, fun _ _ hm => .inl hm, fun _ _ hm => ⟨hm, rfl⟩⟩

theorem trans {m'' : Machine} (h : ModulesGrown own m m') (h' : ModulesGrown own m' m'') : ModulesGrown own m m'' := by
  refine ⟨h'.isOpen, h.size.trans h'.size, fun name home hm => ?_, h.kept.trans h'.kept⟩
  rcases h'.new name home hm with hm' | hnew
  · exact h.new name home hm'
  · exact .inr (h.size.trans hnew)

/-- A change that leaves the modules alone and touches the own frame at most. -/
theorem of_eq (h : m.Open own) (hm : m'.modules = m.modules) (hs : m'.heap.frames.size = m.heap.frames.size)
    (hf : ∀ f, f ≠ own → m'.heap.frames[f]? = m.heap.frames[f]?) : ModulesGrown own m m' := by
  refine ⟨⟨?_, fun name home hl => ?_, fun name home hl => ?_⟩, hs.ge, fun name home hl => ?_, fun name home hl => ?_⟩
  · rw [hs]
    exact h.lt_size
  · rw [hm] at hl
    rw [hs]
    exact h.home_lt_size name home hl
  · rw [hm] at hl
    exact h.home_ne name home hl
  · rw [hm] at hl
    exact .inl hl
  · exact ⟨by rw [hm]; exact hl, hf home.frame (h.home_ne name home hl)⟩

/-- After work in a new frame, the frame before is open again. -/
theorem of_scope (h : m.Open own) (env : Env) (bindings : List (Symbol × Value))
    (hw : ModulesGrown m.heap.frames.size { m with heap := m.heap.withScope env bindings } m') : ModulesGrown own m m' := by
  have hsize := hw.size
  simp only [Heap.size_frames_withScope] at hsize
  have hnew : ∀ name home, m'.modules.lookup name = some home →
      m.modules.lookup name = some home ∨ m.heap.frames.size ≤ home.frame := by
    intro name home hl
    rcases hw.new name home hl with hold | hle
    · exact .inl hold
    · simp only [Heap.size_frames_withScope] at hle
      exact .inr (by omega)
  refine ⟨⟨?_, hw.isOpen.home_lt_size, fun name home hl => ?_⟩, by omega, hnew, fun name home hl => ?_⟩
  · exact h.lt_size.trans_le (Nat.le_of_succ_le hsize)
  · rcases hnew name home hl with hold | hle
    · exact h.home_ne name home hold
    · exact (h.lt_size.trans_le hle).ne'
  · obtain ⟨hl', hf⟩ := hw.kept name home hl
    exact ⟨hl', hf.trans (Heap.frames_withScope_of_lt m.heap env bindings (h.home_lt_size name home hl))⟩

/-- A frame in which no work goes on any more is registered under a free name. -/
theorem register (h : ModulesGrown own m m') {name : Symbol} {home : Env} (hn : m'.modules.lookup name = none)
    (hne : home.frame ≠ own) (hlt : home.frame < m'.heap.frames.size) (hle : m.heap.frames.size ≤ home.frame) :
    ModulesGrown own m { m' with modules := (name, home) :: m'.modules } := by
  refine ⟨⟨h.isOpen.lt_size, fun other found hl => ?_, fun other found hl => ?_⟩, h.size, fun other found hl => ?_,
    fun other found hl => ?_⟩
  · rcases lookup_registered_cases hl with rfl | hold
    · exact hlt
    · exact h.isOpen.home_lt_size other found hold
  · rcases lookup_registered_cases hl with rfl | hold
    · exact hne
    · exact h.isOpen.home_ne other found hold
  · rcases lookup_registered_cases hl with rfl | hold
    · exact .inr hle
    · exact h.new other found hold
  · obtain ⟨hl', hf⟩ := h.kept other found hl
    exact ⟨lookup_registered hn hl', hf⟩

end ModulesGrown

/-- All work in an open frame leaves it open and keeps the modules. -/
theorem modules_law : Law (fun _ => True) fun own m m' => m.Open own → ModulesGrown own m m' where
  refl _ _ h := .refl h
  trans h h' := fun ho => (h ho).trans (h' (h ho).isOpen)
  definition _ own m name v mutable h := .of_eq h rfl (Heap.size_frames_define m.heap own name v mutable)
    fun _ hne => Heap.frames_define_of_ne m.heap name v mutable hne
  sharing _ own m home h := .of_eq h rfl (Heap.size_frames_bindAll m.heap own _)
    fun _ hne => Heap.frames_bindAll_of_ne m.heap _ hne
  assignment _ _ _ _ _ _ _ _ h := .of_eq h rfl rfl fun _ _ => rfl
  lambdaId _ _ h := .of_eq h rfl rfl fun _ _ => rfl
  symbol _ _ _ h := .of_eq h rfl rfl fun _ _ => rfl
  output _ _ _ h := .of_eq h rfl rfl fun _ _ => rfl
  scope env bindings hw h := .of_scope h env bindings (hw (Machine.open_withScope h.home_lt_size env bindings))
  newModule {own m m'} env name hw hn h := by
    -- The new frame was open to the end of the work in it, so it exists; registering it closes it.
    have hgrown := hw (Machine.open_withScope h.home_lt_size env [])
    exact (ModulesGrown.of_scope h env [] hgrown).register hn h.lt_size.ne' hgrown.isOpen.lt_size le_rfl
  nested {own m m'} _ hw h := by
    have hin : ModulesGrown own m { m with depth := m.depth + 1 } := .of_eq h rfl rfl fun _ _ => rfl
    have hmid := hw hin.isOpen
    have hout : ModulesGrown own m' { m' with depth := m'.depth - 1 } := .of_eq hmid.isOpen rfl rfl fun _ _ => rfl
    exact (hin.trans hmid).trans hout

/-- The modules are kept at the end of a level, and when one more is registered. -/
theorem modulesKept_carriesOver : CarriesOver ModulesKept where
  trans := ModulesKept.trans
  depth _ _ _ _ hl := ⟨hl, rfl⟩
  register _ _ _ _ _ hn _ _ hl := ⟨lookup_registered hn hl, rfl⟩

/-- Work that is begun in an open frame keeps the modules. -/
theorem modules_governs : Governs (fun own m => m.Open own) (fun own m m' => m.Open own → ModulesGrown own m m') ModulesKept where
  keeps h hR := (hR h).kept
  ready h hR := (hR h).isOpen
  scope env bindings h := Machine.open_withScope h.home_lt_size env bindings
  depth _ h := ⟨h.lt_size, h.home_lt_size, h.home_ne⟩
  reset _ _ h := .of_eq h rfl rfl fun _ _ => rfl
  carries := modulesKept_carriesOver

/-- In a new interpreter the global frame is open for work. -/
theorem open_fresh (limits : Limits) : (Machine.fresh limits).Open (Machine.fresh limits).global.frame := by
  have hsize : ∀ (ps : List Primitive) (h : Heap),
      (ps.foldl (fun h p => h.define 0 p.name (.native p) false) h).frames.size = h.frames.size := by
    intro ps
    induction ps with
    | nil => exact fun h => rfl
    | cons p ps ih =>
      intro h
      rw [List.foldl_cons, ih, Heap.size_frames_define]
  refine ⟨?_, fun name home hl => ?_, fun name home hl => ?_⟩
  · show 0 < (Heap.define _ 0 "t" (.bool true) false).frames.size
    rw [Heap.size_frames_define]
    exact (hsize Primitive.all _).symm ▸ Nat.one_pos
  · cases hl
  · cases hl

/-- An evaluation changes no frame that was there but the innermost one of its environment; an expansion or a call changes none at
all. And a module that is registered at some stage of a session, whatever watches look on, keeps its frame, in which the names
stand for the same slots, wherever the session goes from there. -/
theorem frames_kept (fuel : Nat) :
    (∀ form env m f, f < m.heap.frames.size → f ≠ env.frame →
      (Action.after (eval fuel form env) m).heap.frames[f]? = m.heap.frames[f]?) ∧
    (∀ form env m f, f < m.heap.frames.size →
      (Action.after (expand (eval fuel) form env) m).heap.frames[f]? = m.heap.frames[f]?) ∧
    (∀ callee args m f, f < m.heap.frames.size →
      (Action.after (Session.call fuel callee args) m).heap.frames[f]? = m.heap.frames[f]?) ∧
    Watch.Faithful fuel ∧
    ∀ limits work, Session.Throughout fuel ModulesKept (Machine.fresh limits) work := by
  refine ⟨fun form env m f hlt hne => ?_, fun form env m f hlt => ?_, fun callee args m f hlt => ?_, Watch.faithful fuel,
    fun limits work => ?_⟩
  · exact (eval_obeys frames_law fuel form env m).frames f hlt hne
  · -- Any frame may stand for the own one here, so take one that is not there yet.
    have hk := expand_obeys frames_law (eval_obeys frames_law fuel) m.heap.frames.size form env m
    exact hk.frames f hlt hlt.ne
  · have hr : Session.resetDepth m = .ok () { m with depth := 0 } := rfl
    rw [Session.call, Action.after_bind_of_ok _ hr]
    have hk := call_obeys frames_law fuel m.heap.frames.size callee args { m with depth := 0 }
    exact hk.frames f hlt hlt.ne
  · exact Session.throughout_of_law fuel modules_law modules_governs (fun t _ => modules_law.watched t.1) (open_fresh limits)

/-- A definition in an inner frame binds its name there, and the outer frame is kept. -/
theorem frames_kept_inner_definition :
    let m : Machine := { heap := { frames := #[{}, {}] }, global := ⟨0, []⟩ }
    let m' := Action.after (eval 3 (.list [.sym "let", .sym "x", .nil]) ⟨1, [0]⟩) m
    m'.heap.localSlot? 1 "x" = some 0 ∧ m'.heap.frames[0]? = m.heap.frames[0]? := by
  intro m m'
  exact ⟨rfl, (frames_kept 3).1 _ _ m 0 (by decide) (by decide)⟩

end MiniLisp
