import MiniLisp.Proofs.Modules
import MiniLisp.Proofs.Number.Literal

/-!
# Generated symbols never repeat

A generated symbol ends in its number, behind two underscores. However its beginning was chosen, the number is what the digits at
its end say (`numbered_injective`), so symbols with different numbers are different. And no two have the same number: each call of
`gensym` that returns raises the count of generated symbols by one, and nothing lowers it.

The calls are those that a watch is told of while a session goes on (`Session.Generates`), and there are no others: where a watch
stops every call of `gensym`, no symbol is generated (`Watch.StopsGeneration.watchLaw`).
-/

namespace MiniLisp

/-! ## The number of a symbol -/

/-- The symbol with this beginning that is generated as number `n`. -/
def numbered (beginning : String) (n : Nat) : Symbol := beginning ++ "__" ++ toString n

/-- The digits at the end of a text are found from there, whatever stands before the last underscore. -/
theorem takeWhile_reverse_digits (before : List Char) {digits : List Char} (h : ∀ c ∈ digits, c.isDigit = true) :
    (before ++ '_' :: digits).reverse.takeWhile Char.isDigit = digits.reverse := by
  rw [List.reverse_append, List.reverse_cons, List.append_assoc,
    List.takeWhile_append_of_pos fun c hc => h c (List.mem_reverse.1 hc)]
  simp

/-- A generated symbol ends in two underscores and its number. -/
theorem toList_numbered (beginning : String) (n : Nat) :
    (numbered beginning n).toList = (beginning.toList ++ ['_']) ++ '_' :: Nat.toDigits 10 n := by
  simp [numbered, Nat.toString_eq_repr, Nat.toList_repr]

/-- Whatever their beginnings are, equal symbols have equal numbers. -/
theorem numbered_injective {beginning beginning' : String} {n n' : Nat} (h : numbered beginning n = numbered beginning' n') :
    n = n' := by
  have hends := congrArg (fun s : Symbol => s.toList.reverse.takeWhile Char.isDigit) h
  simp only [toList_numbered, takeWhile_reverse_digits _ fun _ => isDigit_of_mem_toDigits, List.reverse_inj] at hends
  have hread := congrArg parseNatural hends
  rw [parseNatural_toDigits, parseNatural_toDigits] at hread
  exact Option.some.inj hread

/-! ## One call -/

/-- A call of `gensym` gives a symbol with the next number, or complains about its arguments. -/
theorem gensym_call (args : List Value) (m : Machine) :
    Primitive.gensym.call args m =
      match Primitive.symbolBeginning args with
      | .ok beginning => .ok (.sym (numbered beginning (m.generated + 1))) { m with generated := m.generated + 1 }
      | .error e => .error (.error e) m := by
  have hcall : Primitive.gensym.call args = (Action.ofExcept (Primitive.symbolBeginning args) >>= fun beginning =>
      Action.generateSymbol beginning >>= fun s => pure (.sym s)) := rfl
  rw [hcall]
  cases Primitive.symbolBeginning args <;> rfl

/-- A call that returns has raised the count, and its symbol has the new count as its number. -/
theorem gensym_eq_ok {args : List Value} {v : Value} {m m' : Machine} (h : Primitive.gensym.call args m = .ok v m') :
    m'.generated = m.generated + 1 ∧ ∃ beginning, v = .sym (numbered beginning (m.generated + 1)) := by
  rw [gensym_call] at h
  split at h
  · cases h
    exact ⟨rfl, _, rfl⟩
  · cases h

/-- Two calls that begin with different counts return different symbols. -/
theorem gensym_ne_of_generated_ne {args args' : List Value} {b b' : Symbol} {m m' m₁ m₁' : Machine}
    (h : Primitive.gensym.call args m = .ok (.sym b) m₁) (h' : Primitive.gensym.call args' m' = .ok (.sym b') m₁')
    (hne : m.generated ≠ m'.generated) : b ≠ b' := by
  obtain ⟨-, beginning, hb⟩ := gensym_eq_ok h
  obtain ⟨-, beginning', hb'⟩ := gensym_eq_ok h'
  cases hb
  cases hb'
  intro heq
  exact hne (Nat.succ.inj (numbered_injective heq))

/-! ## The calls of a session -/

/-- At this stage of a session under watch `gensym` is called with these arguments, and it returns this symbol. -/
structure Session.Generates (fuel : Nat) (m : Machine) (work : List (Watch × Task)) (args : List Value) (s : Machine)
    (symbol : Symbol) : Prop where
  called : Passes fuel m work (.call .gensym args) s
  returned : ∃ s', Primitive.gensym.call args s = .ok (.sym symbol) s'

/-- Behind a call of `gensym` that returns, the count is higher than before it. -/
theorem StageLaw.of_gensym {args : List Value} {s s' : Machine} {v : Value} (h : Primitive.gensym.call args s = .ok v s') :
    StageLaw (.call .gensym args) s (fun _ => Machine.Grown) fun _ _ m' => s.generated < m'.generated where
  begins _ hin := hin.elim
  called p args' heq _ _ := by
    cases heq
    rw [Action.after_eq_of_ok h, (gensym_eq_ok h).1]
    exact Nat.lt_succ_self _
  earlier _ h := h
  later _ h h' := h.trans_le h'.generated
  scope _ _ h := h
  newModule _ _ _ h _ := h
  nested h := h

namespace Session.Generates

variable {fuel : Nat} {m s s' : Machine} {work : List (Watch × Task)} {args args' : List Value} {b b' : Symbol}

/-- Where a session ends, the count is higher than at any call that returned. -/
theorem generated_lt (h : Generates fuel m work args s b) : s.generated < (watched fuel m work).generated := by
  obtain ⟨hcalled, s', hreturned⟩ := h
  have hlaw : ∀ t ∈ work, WatchLaw t.1 fun _ => Machine.Grown := fun t _ => grown_law.watched t.1
  exact passes_law fuel (fun _ m => grown_carriesOver.depth m 0) hcalled hlaw (.of_gensym hreturned)

/-- At a later stage the count is higher than at the call. -/
theorem generated_lt_of_reaches (h : Reaches fuel m (.call .gensym args) s s')
    (hb : ∃ m', Primitive.gensym.call args s = .ok (.sym b) m') : s.generated < s'.generated := by
  obtain ⟨work, hpasses, d, hd⟩ := h
  have hlt := generated_lt ⟨hpasses, hb⟩
  rwa [hd] at hlt

/-- Of two different calls, one begins with a lower count. -/
theorem generated_ne (h : Generates fuel m work args s b) (h' : Generates fuel m work args' s' b')
    (hne : ¬(args = args' ∧ s = s')) : s.generated ≠ s'.generated := by
  have hstages : ¬(Event.call .gensym args = .call .gensym args' ∧ s = s') := by
    rintro ⟨heq, hs⟩
    cases heq
    exact hne ⟨rfl, hs⟩
  rcases h.called.order h'.called hstages with hreaches | hreaches
  · exact (generated_lt_of_reaches hreaches h.returned).ne
  · exact (generated_lt_of_reaches hreaches h'.returned).ne'

end Session.Generates

/-! ## No other symbols -/

/-- Without the generation of symbols, all work leaves the count alone. -/
theorem generated_law : Law (· ≠ .generate) fun _ m m' => m'.generated = m.generated where
  refl _ _ := rfl
  trans h h' := h'.trans h
  definition _ _ _ _ _ _ := rfl
  sharing _ _ _ _ := rfl
  assignment _ _ _ _ _ _ _ _ := rfl
  lambdaId _ _ := rfl
  symbol hc := absurd rfl hc
  output _ _ _ := rfl
  scope _ _ h := h
  newModule _ _ h _ := h
  nested _ h := h

/-- A watch that stops every call of `gensym`. -/
def Watch.StopsGeneration (w : Watch) : Prop := ∀ args m, (w (.call .gensym args) m).isSome

namespace Watch.StopsGeneration

/-- Under such a watch all work leaves the count alone. -/
theorem watchLaw {w : Watch} (h : w.StopsGeneration) : WatchLaw w fun _ m m' => m'.generated = m.generated := by
  refine .of_law generated_law nofun nofun (fun own p args m => ?_) (generated_law.watchedAssign nofun w)
  by_cases hp : p = .gensym
  · subst hp
    rw [after_pass_bind_of_isSome (h args m)]
  · have hr : Routine (· ≠ .generate) own fun _ _ => p.call args := call_routine p args fun heq => absurd heq hp
    exact generated_law.pass w own _ (hr.obeys_alone generated_law) m

end Watch.StopsGeneration

/-- In every session, whatever watches look on and however its tasks end, two different calls of `gensym` return different symbols,
whatever beginnings they were given; and no call that is made where the session has ended, or was stopped, returns a symbol that was
returned before. So the session does not come back to the state of a call, and its calls are told apart by their states. These are
all the symbols that are generated: where every call of `gensym` is stopped, the count stays as it is. -/
theorem generated_symbols_differ (fuel : Nat) :
    Watch.Faithful fuel ∧
    (∀ m work args s b args' s' b', Session.Generates fuel m work args s b → Session.Generates fuel m work args' s' b' →
      ¬(args = args' ∧ s = s') → b ≠ b') ∧
    (∀ m work args s b args' b' m', Session.Generates fuel m work args s b →
      Primitive.gensym.call args' (Session.watched fuel m work) = .ok (.sym b') m' → b ≠ b') ∧
    ∀ m work, (∀ t ∈ work, t.1.StopsGeneration) → (Session.watched fuel m work).generated = m.generated := by
  refine ⟨Watch.faithful fuel, fun m work args s b args' s' b' h h' hne => ?_, fun m work args s b args' b' m' h h' => ?_,
    fun m work h => ?_⟩
  · obtain ⟨_, hreturned⟩ := h.returned
    obtain ⟨_, hreturned'⟩ := h'.returned
    exact gensym_ne_of_generated_ne hreturned hreturned' (h.generated_ne h' hne)
  · obtain ⟨_, hreturned⟩ := h.returned
    exact gensym_ne_of_generated_ne hreturned h' h.generated_lt.ne
  · have hlaw : ∀ t ∈ work, WatchLaw t.1 fun _ m m' => m'.generated = m.generated := fun t ht => (h t ht).watchLaw
    have hreset : ∀ (_ : FrameId) (m : Machine), { m with depth := 0 }.generated = m.generated := fun _ _ => rfl
    exact (Session.watched_law fuel (R := fun _ m m' => m'.generated = m.generated) hreset hlaw (fun _ _ => rfl)
      (fun h h' => h'.trans h) m).2

/-- When the host calls a primitive, the session passes through the call. -/
theorem Session.Passes.of_call {fuel : Nat} {m : Machine} (done : List (Watch × Task)) {rest : List (Watch × Task)} {w : Watch}
    {p : Primitive} {args : List Value} (hw : w (.call p args) { watched fuel m done with depth := 0 } = none) :
    Passes fuel m (done ++ (w, .call (.native p) args) :: rest) (.call p args) { watched fuel m done with depth := 0 } := by
  refine ⟨done, w, .call (.native p) args, rest, rfl, hw, fun alarm => ⟨{ watched fuel m done with depth := 0 }, ?_⟩⟩
  refine Action.bind_of_error (fun _ => p.call args) (Watch.pass_eq_error ?_)
  simp [Watch.orAt]

/-- The second symbol begins with the first, and a call that fails lies between them; a call that is stopped generates none. -/
theorem generated_symbols_differ_same_beginning :
    let gensym (v : Value) : Watch × Session.Task := (.never, .call (.native .gensym) [v])
    let m := Machine.fresh {}
    let m' : Machine := { m with generated := 1 }
    let work := [gensym (.str "a"), gensym .nil, gensym (.sym "a__1")]
    let stop : Watch := fun event _ => if event matches .call .gensym _ then some .outOfFuel else none
    Session.Generates 1 m work [.str "a"] m "a__1" ∧ Session.Generates 1 m work [.sym "a__1"] m' "a__1__2" ∧
      ¬([Value.str "a"] = [.sym "a__1"] ∧ m = m') ∧ "a__1" ≠ "a__1__2" ∧
      (Session.watched 1 m [(stop, .call (.native .gensym) [])]).generated = 0 := by
  intro gensym m m' work stop
  have hreturned : ∃ s', Primitive.gensym.call [.str "a"] m = .ok (.sym "a__1") s' := by
    have hsymbol : numbered "a" 1 = "a__1" := by decide
    exact ⟨m', hsymbol ▸ gensym_call [.str "a"] m⟩
  have hreturned' : ∃ s', Primitive.gensym.call [.sym "a__1"] m' = .ok (.sym "a__1__2") s' := by
    have hsymbol : numbered "a__1" (m'.generated + 1) = "a__1__2" := by decide
    exact ⟨{ m' with generated := m'.generated + 1 }, hsymbol ▸ gensym_call [.sym "a__1"] m'⟩
  have hfirst : Session.Generates 1 m work [.str "a"] m "a__1" :=
    ⟨.of_call [] rfl, hreturned⟩
  have hlast : Session.Generates 1 m work [.sym "a__1"] m' "a__1__2" :=
    ⟨.of_call [gensym (.str "a"), gensym .nil] rfl, hreturned'⟩
  have hne : ¬([Value.str "a"] = [.sym "a__1"] ∧ m = m') := fun h => nomatch h.1
  obtain ⟨-, hdiffer, -, hstopped⟩ := generated_symbols_differ 1
  have hstop : ∀ t ∈ [(stop, Session.Task.call (.native .gensym) [])], t.1.StopsGeneration := by
    simp [Watch.StopsGeneration, stop]
  exact ⟨hfirst, hlast, hne, hdiffer m work _ m _ _ m' _ hfirst hlast hne, hstopped m _ hstop⟩

end MiniLisp
