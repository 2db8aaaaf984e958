import MiniLisp.Proofs.Expansion.FixedPoint

/-!
# Parameter lists accept their grammar and lose no argument

A parameter list is read, the arguments of a call are counted, and then they are named, each by a function of its own. The three
agree. What is read is a list of names with or without the marked name of a rest parameter behind them, or a bare name
(`Params.parse_eq_ok_iff`). A count is accepted exactly if there is an argument for every required parameter and none is left
over without a rest parameter (`Params.accepts_iff`), and then no argument is lost when they are named (`Params.binds_of_takes`).
The frame of a call holds the parameters with their arguments and nothing else (`bindsExactly_parameterScope`).
-/

namespace MiniLisp

/-- Only a symbol is taken for one. -/
theorem Value.eq_sym_of_asSymbol? {v : Value} {name : Symbol} (h : v.asSymbol? = some name) : v = .sym name := by
  cases v with
  | sym s => exact congrArg Value.sym (Option.some.inj h)
  | _ => cases h

namespace Params

/-! ## Reading -/

/-- The forms that declare parameters one by one: names, and a rest parameter with its marker behind them. -/
def forms (p : Params) : List Value := p.required.map .sym ++ p.rest.toList.map fun name => .wrap "varg" (.sym name)

/-- The form declares these parameters: it is a bare name for all arguments, or the proper list of the forms that declare them. -/
def Declares (form : Value) (p : Params) : Prop := (∃ name, form = .sym name ∧ p = ⟨[], some name⟩) ∨ form = .list p.forms

variable {p : Params} {items : List Value}

/-- A parameter for the rest is written in one way. -/
theorem eq_wrap_of_restName? {item : Value} {name : Symbol} (h : restName? item = some name) :
    item = .wrap "varg" (.sym name) := by
  unfold restName? at h
  split at h
  · cases h
    rfl
  · cases h

/-- The first of several items is a rest parameter that comes too early, a name, or a rest parameter. -/
theorem parseItems_cons (params : Params) (item : Value) (items : List Value) :
    parseItems params (item :: items) =
      if params.rest.isSome then .error ((notAParameter item).withHelp "a variadic parameter must come last")
      else match item.asSymbol? with
        | some name => parseItems { params with required := params.required ++ [name] } items
        | none => match restName? item with
          | some name => parseItems { params with rest := some name } items
          | none => .error (notAParameter item) := by
  cases item <;> rfl

/-- The forms of some parameters are read as these parameters, behind the names that were read before. -/
theorem parseItems_forms (before names : List Symbol) (rest : Option Symbol) :
    parseItems ⟨before, none⟩ (forms ⟨names, rest⟩) = .ok ⟨before ++ names, rest⟩ := by
  induction names generalizing before with
  | nil =>
    rw [List.append_nil]
    cases rest <;> rfl
  | cons name names ih =>
    have h := ih (before ++ [name])
    rw [List.append_assoc] at h
    exact h

/-- Nothing may follow a rest parameter. -/
theorem eq_nil_of_parseItems {params : Params} (hrest : params.rest.isSome = true) (h : parseItems params items = .ok p) :
    items = [] ∧ p = params := by
  cases items with
  | nil =>
    cases h
    exact ⟨rfl, rfl⟩
  | cons item items =>
    rw [parseItems_cons, if_pos hrest] at h
    cases h

/-- What is read are the forms of some parameters, which come behind those that were read before. -/
theorem eq_forms_of_parseItems {before : List Symbol} (h : parseItems ⟨before, none⟩ items = .ok p) :
    ∃ names, items = forms ⟨names, p.rest⟩ ∧ p.required = before ++ names := by
  induction items generalizing before with
  | nil =>
    cases h
    exact ⟨[], rfl, (List.append_nil _).symm⟩
  | cons item items ih =>
    rw [parseItems_cons, if_neg nofun] at h
    split at h
    · rename_i name hname
      obtain ⟨names, rfl, hrequired⟩ := ih h
      refine ⟨name :: names, ?_, ?_⟩
      · rw [Value.eq_sym_of_asSymbol? hname]
        rfl
      · rw [hrequired, List.append_assoc, List.singleton_append]
    · split at h
      · rename_i hmarker
        obtain ⟨rfl, rfl⟩ := eq_nil_of_parseItems rfl h
        refine ⟨[], ?_, (List.append_nil _).symm⟩
        rw [eq_wrap_of_restName? hmarker]
        rfl
      · cases h

/-- A form that is no bare name is read item by item. -/
theorem parse_of_not_symbol {form : Value} (h : form.asSymbol? = none) :
    parse form = form.expectList "a parameter list" >>= parseItems {} := by
  cases form with
  | sym name => cases h
  | _ => rfl

/-- A form is read as parameters exactly if it declares them. -/
theorem parse_eq_ok_iff {form : Value} : parse form = .ok p ↔ Declares form p := by
  constructor
  · intro h
    cases hname : form.asSymbol? with
    | some name =>
      obtain rfl := Value.eq_sym_of_asSymbol? hname
      cases h
      exact .inl ⟨name, rfl, rfl⟩
    | none =>
      rw [parse_of_not_symbol hname, Value.expectList] at h
      cases hitems : form.toList? with
      | none =>
        rw [hitems] at h
        cases h
      | some items =>
        rw [hitems] at h
        obtain ⟨names, rfl, hrequired⟩ := eq_forms_of_parseItems h
        obtain rfl : p.required = names := hrequired
        exact .inr (Value.eq_list_of_toList? hitems)
  · rintro (⟨name, rfl, rfl⟩ | rfl)
    · rfl
    · have hname : (Value.list p.forms).asSymbol? = none := by cases p.forms <;> rfl
      rw [parse_of_not_symbol hname, Value.expectList, Value.toList?_list]
      exact parseItems_forms [] p.required p.rest

/-! ## Counting and naming -/

/-- A call may have this many arguments: one for each required parameter, and any number more if there is a rest parameter. -/
def Takes (p : Params) (count : Nat) : Prop :=
  match p.rest with
  | none => count = p.required.length
  | some _ => p.required.length ≤ count

/-- A number of arguments is accepted exactly if the parameters take as many. -/
theorem accepts_iff {count : Nat} : p.accepts count = true ↔ p.Takes count := by
  obtain ⟨required, rest⟩ := p
  cases rest <;> simp [accepts, Takes]

instance (count : Nat) : Decidable (p.Takes count) := decidable_of_iff (p.accepts count = true) accepts_iff

/-- All arguments are named, each once and in order: the required parameters have one each, and the rest parameter has the list of
all others. -/
def Binds (p : Params) (args : List Value) (bindings : List (Symbol × Value)) : Prop :=
  ∃ values others, args = values ++ others ∧ values.length = p.required.length ∧ (p.rest = none → others = []) ∧
    bindings = p.required.zip values ++ p.rest.toList.map fun name => (name, .list others)

/-- The required parameters take as many arguments as they are, and the others are left over. -/
theorem bindRequired_append {names : List Symbol} {values : List Value} (h : values.length = names.length)
    (others : List Value) : bindRequired names (values ++ others) = (names.zip values, others) := by
  induction names generalizing values with
  | nil =>
    obtain rfl := List.length_eq_zero_iff.1 h
    rfl
  | cons name names ih =>
    cases values with
    | nil => cases h
    | cons value values =>
      rw [bindRequired, List.cons_append, List.tail_cons, ih (Nat.succ.inj h)]
      rfl

/-- Where there are as many arguments as a call may have, none is lost when they are named. -/
theorem binds_of_takes {args : List Value} (h : p.Takes args.length) : p.Binds args (p.bind args) := by
  obtain ⟨required, rest⟩ := p
  have hle : required.length ≤ args.length := by
    cases rest with
    | none => exact Nat.le_of_eq (Eq.symm h)
    | some name => exact h
  have hlength : (args.take required.length).length = required.length := List.length_take_of_le hle
  have hbind := bindRequired_append hlength (args.drop required.length)
  rw [List.take_append_drop] at hbind
  refine ⟨args.take required.length, args.drop required.length, (List.take_append_drop _ _).symm, hlength, ?_, ?_⟩
  · rintro rfl
    exact List.drop_eq_nil_of_le (Nat.le_of_eq h)
  · cases rest with
    | none => simp [bind, hbind]
    | some name => simp [bind, hbind]

/-- The names of the parameters, in order. -/
def names (p : Params) : List Symbol := p.required ++ p.rest.toList

/-- The names that are bound are the names of the parameters. -/
theorem Binds.map_fst {args : List Value} {bindings : List (Symbol × Value)} (h : p.Binds args bindings) :
    bindings.map Prod.fst = p.names := by
  obtain ⟨values, others, -, hlength, -, rfl⟩ := h
  rw [List.map_append, List.map_fst_zip (Nat.le_of_eq hlength.symm), List.map_map, names]
  simp [Function.comp_def]

end Params

/-! ## The frame of a call -/

namespace Heap

/-- The frame binds these names and no others, each of them to its value, and none is mutable. -/
structure BindsExactly (h : Heap) (frame : FrameId) (bindings : List (Symbol × Value)) : Prop where
  bound : ∀ b ∈ bindings, ∃ slot, h.localSlot? frame b.1 = some slot ∧ h.slots[slot]? = some ⟨b.2, false⟩
  unbound : ∀ name, name ∉ bindings.map Prod.fst → h.localSlot? frame name = none

/-- Of names that are defined once, each stands for a slot with its value. -/
theorem slot_defineAll_of_mem (h : Heap) {frame : FrameId} (hf : frame < h.frames.size) (mutable : Bool)
    {bindings : List (Symbol × Value)} (hnodup : (bindings.map Prod.fst).Nodup) {b : Symbol × Value} (hb : b ∈ bindings) :
    ∃ slot, (h.defineAll frame mutable bindings).localSlot? frame b.1 = some slot ∧
      (h.defineAll frame mutable bindings).slots[slot]? = some ⟨b.2, mutable⟩ := by
  induction bindings generalizing h with
  | nil => cases hb
  | cons first bindings ih =>
    rw [List.map_cons, List.nodup_cons] at hnodup
    rw [defineAll, List.foldl_cons]
    rcases List.mem_cons.1 hb with rfl | hrest
    · have hlt : h.slots.size < (h.define frame b.1 b.2 mutable).slots.size := by simp
      refine ⟨h.slots.size, ?_, ?_⟩
      · exact (localSlot?_defineAll_of_not_mem _ frame frame mutable hnodup.1).trans (localSlot?_define_self h hf b.1 b.2 mutable)
      · refine (slots_defineAll_of_lt _ frame mutable bindings hlt).trans ?_
        rw [slots_define, Array.getElem?_push_size]
    · exact ih _ (by simpa using hf) hnodup.2 hrest

/-- The definitions in a new frame are all that it holds. -/
theorem bindsExactly_defineAll (h : Heap) (env : Env) {bindings : List (Symbol × Value)}
    (hnodup : (bindings.map Prod.fst).Nodup) :
    ((h.newChild env).2.defineAll h.frames.size false bindings).BindsExactly h.frames.size bindings where
  bound _ hb := slot_defineAll_of_mem (h.newChild env).2 (by simp) false hnodup hb
  unbound name hn := by
    rw [localSlot?_defineAll_of_not_mem _ _ _ false hn, localSlot?_of_push (frames_newChild h env)]
    simp [localSlot?]

end Heap

/-- The scope of a call is a new frame inside the environment of the function, where the parameters have their arguments. -/
theorem bindsExactly_parameterScope {f : Lambda Value} {args : List Value} (h : f.params.Binds args (f.params.bind args))
    (m : Machine) : ∃ m', parameterScope f args m = .ok ⟨m.heap.frames.size, f.env.path⟩ m' ∧
      (f.params.names.Nodup → m'.heap.BindsExactly m.heap.frames.size (f.params.bind args)) := by
  refine ⟨_, parameterScope_apply f args m, fun hnodup => ?_⟩
  rw [← h.map_fst] at hnodup
  exact m.heap.bindsExactly_defineAll f.env hnodup

/-- A function that does not take as many arguments is not called. -/
theorem bindArguments_of_not_takes {f : Lambda Value} {args : List Value} (h : ¬f.params.Takes args.length) (m : Machine) :
    ∃ e, bindArguments f args m = .error (.error e) m ∧ e.kind = .arityMismatch f.params.arity args.length := by
  rw [← Params.accepts_iff] at h
  rw [bindArguments, if_neg h]
  cases f.name with
  | none => exact ⟨_, rfl, rfl⟩
  | some name => exact ⟨_, rfl, rfl⟩

/-- A form is read as parameters exactly if it is a bare name, or a proper list of names behind which one marked name may stand.
A function or macro takes exactly the counts of arguments that its parameters allow, and is refused with any other before
anything is done. Where it takes the arguments, the required parameters and the rest parameter have all of them in order, and in
the new frame, if no name is used twice, these names stand for these values and no other name for any. -/
theorem parameters_take_arguments :
    (∀ form p, Params.parse form = .ok p ↔ Params.Declares form p) ∧
    ∀ (f : Lambda Value) (args : List Value),
      (f.params.accepts args.length = true ↔ f.params.Takes args.length) ∧
      (f.params.Takes args.length →
        f.params.Binds args (f.params.bind args) ∧
        bindArguments f args = parameterScope f args ∧
        (∀ eval, expandCall eval f args = parameterScope f args >>= fun scope => evalBody eval scope f.body >>= force eval) ∧
        ∀ m, ∃ m', parameterScope f args m = .ok ⟨m.heap.frames.size, f.env.path⟩ m' ∧
          (f.params.names.Nodup → m'.heap.BindsExactly m.heap.frames.size (f.params.bind args))) ∧
      (¬f.params.Takes args.length → ∀ m,
        (∃ e, bindArguments f args m = .error (.error e) m ∧ e.kind = .arityMismatch f.params.arity args.length) ∧
        ∀ eval, expandCall eval f args m = .error (.error (macroArityError f args.length)) m) := by
  refine ⟨fun form p => Params.parse_eq_ok_iff, fun f args => ⟨Params.accepts_iff, fun htakes => ?_, fun htakes m => ?_⟩⟩
  · have haccepts := Params.accepts_iff.2 htakes
    have hbinds := Params.binds_of_takes htakes
    refine ⟨hbinds, ?_, fun eval => ?_, bindsExactly_parameterScope hbinds⟩
    · rw [bindArguments, if_pos haccepts]
    · rw [expandCall, if_pos haccepts]
  · refine ⟨bindArguments_of_not_takes htakes m, fun eval => ?_⟩
    rw [expandCall, if_neg (Params.accepts_iff.not.2 htakes)]
    rfl

/-- A function with the parameters `(a b (varg more))`. -/
def takesTwoOrMore : Lambda Value := { id := 0, name := none, params := ⟨["a", "b"], some "more"⟩, body := [], env := ⟨0, []⟩ }

/-- With three arguments the rest parameter is the list of the last, and with one argument the call is refused. -/
theorem parameters_take_arguments_rest :
    let form : Value := .list [.sym "a", .sym "b", .list [.sym "varg", .sym "more"]]
    let args : List Value := [.bool true, .nil, .bool false]
    Params.parse form = .ok takesTwoOrMore.params ∧
    (∃ m', bindArguments takesTwoOrMore args trueMachine = .ok ⟨trueMachine.heap.frames.size, [0]⟩ m' ∧
      m'.heap.BindsExactly trueMachine.heap.frames.size [("a", .bool true), ("b", .nil), ("more", .list [.bool false])]) ∧
    ∃ e, bindArguments takesTwoOrMore [.nil] trueMachine = .error (.error e) trueMachine ∧
      e.kind = .arityMismatch "at least 2" 1 := by
  intro form args
  obtain ⟨hparse, hcall⟩ := parameters_take_arguments
  obtain ⟨-, htaken, -⟩ := hcall takesTwoOrMore args
  obtain ⟨-, -, hrefused⟩ := hcall takesTwoOrMore [.nil]
  obtain ⟨-, hbind, -, hscope⟩ := htaken (by decide)
  obtain ⟨m', hm', hframe⟩ := hscope trueMachine
  refine ⟨(hparse form _).2 (.inr rfl), ⟨m', ?_, hframe (by decide)⟩, (hrefused (by decide) trueMachine).1⟩
  rw [hbind]
  exact hm'

end MiniLisp
