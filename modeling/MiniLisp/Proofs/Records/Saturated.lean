import MiniLisp.Eval.Special
import MiniLisp.Proofs.Collection.FiniteSet
import MiniLisp.Proofs.Expansion.Code
import MiniLisp.Proofs.Value.Map

/-!
# Saturated values

A record is saturated when it holds one value for each field that its variant declares. Here a value is called saturated when
every record in it is, at every depth and in the bodies of functions too. What is put together from saturated values, and what is
taken out of them, is saturated: the data of quoted code, what the functions behind the primitives give and the names
that a pattern binds (`matchPattern_gives`).
-/

namespace MiniLisp

variable {α β : Type}

/-- Every record in the value holds one value per declared field. -/
inductive Value.Saturated : Value → Prop where
  | nil : Saturated .nil
  | bool (b : Bool) : Saturated (.bool b)
  | num (n : Number) : Saturated (.num n)
  | str (s : String) : Saturated (.str s)
  | sym (s : Symbol) : Saturated (.sym s)
  | pair {h t : Value} (hh : Saturated h) (ht : Saturated t) : Saturated (.pair h t)
  | vector {items : List Value} (hitems : ∀ x ∈ items, Saturated x) : Saturated (.vector items)
  | set {s : FiniteSet Value} (hs : ∀ x ∈ s.elements, Saturated x) : Saturated (.set s)
  | map {m : OrderedMap Value Value} (hkeys : ∀ e ∈ m.entries, Saturated e.1) (hvalues : ∀ e ∈ m.entries, Saturated e.2) :
      Saturated (.map m)
  | setForm {items : List Value} (hitems : ∀ x ∈ items, Saturated x) : Saturated (.setForm items)
  | mapForm {entries : List (Value × Value)} (hkeys : ∀ e ∈ entries, Saturated e.1) (hvalues : ∀ e ∈ entries, Saturated e.2) :
      Saturated (.mapForm entries)
  | closure {f : Lambda Value} (hbody : ∀ form ∈ f.body, Saturated form) : Saturated (.closure f)
  | macroFn {f : Lambda Value} (hbody : ∀ form ∈ f.body, Saturated form) : Saturated (.macroFn f)
  | native (p : Primitive) : Saturated (.native p)
  | module (name : Symbol) (env : Env) : Saturated (.module name env)
  | record {variant : Variant} {values : List Value} (hlength : values.length = variant.fields.length)
      (hvalues : ∀ v ∈ values, Saturated v) : Saturated (.record variant values)
  | constructor (variant : Variant) : Saturated (.constructor variant)

/-- Every one of several values is saturated. -/
def AllSaturated (values : List Value) : Prop := ∀ v ∈ values, v.Saturated

/-- Every key and value is saturated. -/
def EntriesSaturated (entries : List (Value × Value)) : Prop := ∀ e ∈ entries, e.1.Saturated ∧ e.2.Saturated

/-- Every value that a name is bound to is saturated. -/
def BindingsSaturated (bindings : List (Symbol × Value)) : Prop := ∀ b ∈ bindings, b.2.Saturated

/-- If there is a result, it has the property. -/
def GivesOnly (P : α → Prop) (r : Except Error α) : Prop := ∀ a, r = .ok a → P a

namespace GivesOnly

theorem value {P : α → Prop} {a : α} (h : P a) : GivesOnly P (.ok a) := by
  rintro _ ⟨⟩
  exact h

theorem failure {P : α → Prop} (e : Error) : GivesOnly P (.error e) := nofun

/-- What follows may rely on the property of the first result. -/
theorem bind {P : α → Prop} {Q : β → Prop} {r : Except Error α} {f : α → Except Error β} (hr : GivesOnly P r)
    (hf : ∀ a, P a → GivesOnly Q (f a)) : GivesOnly Q (r >>= f) := by
  cases r with
  | error e => exact failure e
  | ok a => exact hf a (hr a rfl)

/-- Whatever the first part gives. -/
theorem any (r : Except Error α) : GivesOnly (fun _ => True) r := fun _ _ => trivial

/-- A property of what is made of a result. -/
theorem map {P : α → Prop} {Q : β → Prop} {r : Except Error α} {f : α → β} (hr : GivesOnly P r) (hf : ∀ a, P a → Q (f a)) :
    GivesOnly Q (r.map f) := by
  cases r with
  | error e => exact failure e
  | ok a => exact value (hf a (hr a rfl))

end GivesOnly

section Lists

theorem allSaturated_nil : AllSaturated [] := nofun

/-- Items are saturated if the first one and the others are. -/
theorem allSaturated_cons {v : Value} {vs : List Value} : AllSaturated (v :: vs) ↔ v.Saturated ∧ AllSaturated vs :=
  List.forall_mem_cons

/-- Two lists of items are saturated if both of them are. -/
theorem allSaturated_append {vs ws : List Value} : AllSaturated (vs ++ ws) ↔ AllSaturated vs ∧ AllSaturated ws :=
  List.forall_mem_append

/-- An item among saturated ones is saturated, and so is what stands for one that is not there. -/
theorem AllSaturated.getD {values : List Value} (h : AllSaturated values) (i : Nat) {default : Value}
    (hd : default.Saturated) : (values[i]?.getD default).Saturated := by
  cases hv : values[i]? with
  | none => exact hd
  | some v => exact h v (List.mem_of_getElem? hv)

theorem AllSaturated.headD {values : List Value} (h : AllSaturated values) : (values.headD .nil).Saturated := by
  cases values with
  | nil => exact .nil
  | cons v vs => exact h v List.mem_cons_self

theorem AllSaturated.tail {values : List Value} (h : AllSaturated values) : AllSaturated values.tail :=
  fun v hv => h v (List.mem_of_mem_tail hv)

/-- Saturated keys and values make saturated entries. -/
theorem AllSaturated.pairUp {values : List Value} (h : AllSaturated values) : EntriesSaturated (pairUp values) :=
  fun _ he => ⟨h _ (mem_pairUp he).1, h _ (mem_pairUp he).2⟩

end Lists

namespace Value

/-- A pair is saturated if both of its parts are. -/
theorem saturated_pair {h t : Value} : (pair h t).Saturated ↔ h.Saturated ∧ t.Saturated := by
  constructor
  · rintro ⟨⟩
    exact ⟨‹_›, ‹_›⟩
  · exact fun ⟨hh, ht⟩ => .pair hh ht

/-- The items of a saturated vector are saturated. -/
theorem Saturated.of_vector {items : List Value} (h : (Value.vector items).Saturated) : AllSaturated items := by
  cases h
  assumption

/-- So are the elements of a set. -/
theorem Saturated.of_set {s : FiniteSet Value} (h : (Value.set s).Saturated) : AllSaturated s.elements := by
  cases h
  assumption

/-- So are the keys and values of a map. -/
theorem Saturated.of_map {m : OrderedMap Value Value} (h : (Value.map m).Saturated) : EntriesSaturated m.entries := by
  cases h with
  | map hkeys hvalues => exact fun e he => ⟨hkeys e he, hvalues e he⟩

/-- So are the forms in a set form. -/
theorem Saturated.of_setForm {items : List Value} (h : (Value.setForm items).Saturated) : AllSaturated items := by
  cases h
  assumption

/-- So are those in a map form. -/
theorem Saturated.of_mapForm {entries : List (Value × Value)} (h : (Value.mapForm entries).Saturated) :
    EntriesSaturated entries := by
  cases h with
  | mapForm hkeys hvalues => exact fun e he => ⟨hkeys e he, hvalues e he⟩

/-- So are the forms in the body of a function. -/
theorem Saturated.of_closure {f : Lambda Value} (h : (Value.closure f).Saturated) : AllSaturated f.body := by
  cases h
  assumption

/-- So are those in the body of a macro. -/
theorem Saturated.of_macroFn {f : Lambda Value} (h : (Value.macroFn f).Saturated) : AllSaturated f.body := by
  cases h
  assumption

/-- A saturated record has a value for each field. -/
theorem Saturated.of_record {variant : Variant} {values : List Value} (h : (Value.record variant values).Saturated) :
    values.length = variant.fields.length ∧ AllSaturated values := by
  cases h
  exact ⟨‹_›, ‹_›⟩

/-! ## Lists -/

/-- A list is saturated if its items are, and what it ends in. -/
theorem saturated_listWithTail {items : List Value} {tail : Value} :
    (listWithTail items tail).Saturated ↔ AllSaturated items ∧ tail.Saturated := by
  induction items with
  | nil => simp [listWithTail, AllSaturated]
  | cons x xs ih =>
    have hcons : listWithTail (x :: xs) tail = pair x (listWithTail xs tail) := rfl
    rw [hcons, saturated_pair, ih, allSaturated_cons, and_assoc]

/-- A list of saturated items is saturated. -/
theorem Saturated.list {items : List Value} (h : AllSaturated items) : (list items).Saturated :=
  saturated_listWithTail.2 ⟨h, .nil⟩

/-- A saturated form is so behind a mark. -/
theorem Saturated.wrap (s : Symbol) {v : Value} (h : v.Saturated) : (wrap s v).Saturated := .pair (.sym s) (.pair h .nil)

/-- The elements of a list, and what it ends in, are its parts. -/
theorem Saturated.parts {v : Value} (h : v.Saturated) : AllSaturated v.heads ∧ v.remainder.Saturated := by
  have hv := h
  rw [← listWithTail_heads_remainder v, saturated_listWithTail] at hv
  exact hv

/-- The items of a saturated list are saturated. -/
theorem Saturated.heads {v : Value} (h : v.Saturated) : AllSaturated v.heads := h.parts.1

/-- So are those of a proper one. -/
theorem Saturated.toList {v : Value} {items : List Value} (h : v.Saturated) (hl : v.toList? = some items) :
    AllSaturated items := by
  rw [← heads_eq_of_toList? hl]
  exact h.heads

/-- So are those that are asked for. -/
theorem Saturated.expectList {v : Value} (h : v.Saturated) (purpose : String) :
    GivesOnly AllSaturated (v.expectList purpose) := by
  unfold Value.expectList
  split
  · rename_i items hl
    exact .value (h.toList hl)
  · exact .failure _

/-- The argument of a saturated form is saturated. -/
theorem Saturated.argumentOf {v arg : Value} {head : Symbol} (h : v.Saturated) (ha : v.argumentOf? head = some arg) :
    arg.Saturated := by
  rw [eq_wrap_of_argumentOf? ha] at h
  exact (saturated_pair.1 (saturated_pair.1 h).2).1

/-! ## Sets and maps -/

/-- A saturated element may be inserted into a saturated set. -/
theorem setInsert_saturated {s : FiniteSet Value} {x : Value} (hs : AllSaturated s.elements) (hx : x.Saturated) :
    AllSaturated (s.insert x).elements := by
  intro y hy
  rcases FiniteSet.mem_insertElement hy with rfl | hmem
  · exact hx
  · exact hs y hmem

theorem setInsertAll_saturated {s : FiniteSet Value} {items : List Value} (hs : AllSaturated s.elements)
    (hitems : AllSaturated items) : AllSaturated (s.insertAll items).elements := by
  induction items generalizing s with
  | nil => exact hs
  | cons x xs ih =>
    obtain ⟨hx, hxs⟩ := allSaturated_cons.1 hitems
    exact ih (setInsert_saturated hs hx) hxs

/-- A set of saturated elements is saturated. -/
theorem Saturated.setOf {items : List Value} (h : AllSaturated items) : (Value.set (.ofList items)).Saturated :=
  .set (setInsertAll_saturated allSaturated_nil h)

/-- A saturated entry may be inserted into a saturated map. -/
theorem mapInsert_saturated {m : OrderedMap Value Value} {k v : Value} (hm : EntriesSaturated m.entries) (hk : k.Saturated)
    (hv : v.Saturated) : EntriesSaturated (m.insert k v).entries := by
  intro e he
  rcases OrderedMap.mem_insertEntry he with rfl | hmem
  · exact ⟨hk, hv⟩
  · exact hm e hmem

theorem mapInsertAll_saturated {m : OrderedMap Value Value} {entries : List (Value × Value)} (hm : EntriesSaturated m.entries)
    (hentries : EntriesSaturated entries) : EntriesSaturated (m.insertAll entries).entries := by
  induction entries generalizing m with
  | nil => exact hm
  | cons e es ih =>
    obtain ⟨he, hes⟩ := List.forall_mem_cons.1 hentries
    exact ih (mapInsert_saturated hm he.1 he.2) hes

theorem Saturated.ofEntries {m : OrderedMap Value Value} (h : EntriesSaturated m.entries) : (Value.map m).Saturated :=
  .map (fun e he => (h e he).1) fun e he => (h e he).2

/-- A map of saturated entries is saturated. -/
theorem Saturated.mapOf {entries : List (Value × Value)} (h : EntriesSaturated entries) :
    (Value.map (.ofList entries)).Saturated :=
  .ofEntries (mapInsertAll_saturated nofun h)

/-- So is a map form of them. -/
theorem Saturated.formOf {entries : List (Value × Value)} (h : EntriesSaturated entries) : (Value.mapForm entries).Saturated :=
  .mapForm (fun e he => (h e he).1) fun e he => (h e he).2

/-- What is found in a saturated map is saturated. -/
theorem Saturated.getFromMap {m : OrderedMap Value Value} (h : EntriesSaturated m.entries) (key : Value) {default : Value}
    (hd : default.Saturated) : ((m.get? key).getD default).Saturated := by
  unfold OrderedMap.get?
  cases hf : m.entries.find? fun e => key == e.1 with
  | none => exact hd
  | some e => exact (h e (List.mem_of_find?_eq_some hf)).2

/-! ## Quoted code -/

/-- Quoting brings no record into a value. -/
theorem Saturated.toDatum {v : Value} (h : v.Saturated) : v.toDatum.Saturated := by
  induction h with
  | pair _ _ ihh iht =>
    rw [Value.toDatum]
    exact .pair ihh iht
  | vector _ ih =>
    rw [Value.toDatum, toData_eq_map]
    exact .vector (List.forall_mem_map.2 ih)
  | setForm _ ih =>
    rw [Value.toDatum, toData_eq_map]
    exact .setOf (List.forall_mem_map.2 ih)
  | mapForm _ _ ihk ihv =>
    rw [Value.toDatum, toDataEntries_eq_map]
    exact .mapOf (List.forall_mem_map.2 fun e he => ⟨ihk e he, ihv e he⟩)
  | set hs => simpa [Value.toDatum] using Saturated.set hs
  | map hkeys hvalues => simpa [Value.toDatum] using Saturated.map hkeys hvalues
  | closure hbody => simpa [Value.toDatum] using Saturated.closure hbody
  | macroFn hbody => simpa [Value.toDatum] using Saturated.macroFn hbody
  | record hlength hvalues => simpa [Value.toDatum] using Saturated.record hlength hvalues
  | nil | bool | num | str | sym | native | module | constructor =>
    simp only [Value.toDatum]
    constructor

end Value

/-! ## Primitives -/

namespace Primitive

open Value (Saturated)

variable {args : List Value}

/-- The only argument of a primitive is saturated. -/
theorem oneArgument_gives (p : Primitive) (h : AllSaturated args) : GivesOnly Saturated (p.oneArgument args) := by
  unfold oneArgument
  split
  · exact .value (h _ List.mem_cons_self)
  · exact .failure _

theorem twoArguments_gives (p : Primitive) (h : AllSaturated args) :
    GivesOnly (fun a => a.1.Saturated ∧ a.2.Saturated) (p.twoArguments args) := by
  unfold twoArguments
  split
  · obtain ⟨hx, hy⟩ := allSaturated_cons.1 h
    exact .value ⟨hx, hy _ List.mem_cons_self⟩
  · exact .failure _

theorem subtract_gives (args : List Value) : GivesOnly Saturated (subtract args) := by
  refine .bind (.any _) fun _ _ => .bind (.any _) fun ns _ => ?_
  split <;> exact .value (.num _)

theorem divide_gives (args : List Value) : GivesOnly Saturated (divide args) := by
  refine .bind (.any _) fun _ _ => .bind (.any _) fun ns _ => ?_
  split
  · exact .value (.num _)
  · exact .bind (.any _) fun q _ => .value (.num q)
  · exact .bind (.any _) fun q _ => .value (.num q)

theorem remainder_gives (args : List Value) : GivesOnly Saturated (remainder args) := by
  refine .bind (.any _) fun xy _ => .bind (.any _) fun a _ => .bind (.any _) fun b _ => .bind (.any _) fun _ _ =>
    .bind (.any _) fun _ _ => ?_
  split
  · exact .value (.num _)
  · exact .failure _

/-- The head of a saturated list is saturated. -/
theorem headOf_gives (h : AllSaturated args) : GivesOnly Saturated (headOf args) := by
  refine .bind (oneArgument_gives _ h) fun v hv => ?_
  split
  · exact .value (Value.saturated_pair.1 hv).1
  · exact .failure _

theorem tailOf_gives (h : AllSaturated args) : GivesOnly Saturated (tailOf args) := by
  refine .bind (oneArgument_gives _ h) fun v hv => ?_
  split
  · exact .value (Value.saturated_pair.1 hv).2
  · exact .failure _

theorem lengthOf_gives (args : List Value) : GivesOnly Saturated (lengthOf args) := by
  refine .bind (.any _) fun v _ => ?_
  split
  · exact .failure _
  · exact .failure _
  · exact .bind (.any _) fun n _ => .value (.num _)

/-- Lists of saturated items are appended to one. -/
theorem appendFrom_gives (index : Nat) (h : AllSaturated args) : GivesOnly AllSaturated (appendFrom index args) := by
  induction args generalizing index with
  | nil => exact .value allSaturated_nil
  | cons v vs ih =>
    obtain ⟨hv, hvs⟩ := allSaturated_cons.1 h
    rw [appendFrom]
    split
    · rename_i items hl
      exact .bind (ih (index + 1) hvs) fun rest hrest => .value (allSaturated_append.2 ⟨hv.toList hl, hrest⟩)
    · exact .failure _

/-- A saturated list is saturated in reverse. -/
theorem reverseOf_gives (h : AllSaturated args) : GivesOnly Saturated (reverseOf args) := by
  refine .bind (oneArgument_gives _ h) fun v hv => ?_
  split
  · exact .value (.vector fun x hx => hv.of_vector x (List.mem_reverse.1 hx))
  · split
    · rename_i items hl
      exact .value (.list fun x hx => hv.toList hl x (List.mem_reverse.1 hx))
    · exact .failure _

/-- An item of a saturated sequence is saturated. -/
theorem nthOf_gives (h : AllSaturated args) : GivesOnly Saturated (nthOf args) := by
  refine .bind (twoArguments_gives _ h) ?_
  rintro ⟨sequence, place⟩ ⟨hs, -⟩
  refine .bind (.any _) fun index _ => ?_
  cases index with
  | none => exact .value .nil
  | some i =>
    cases sequence with
    | vector items => exact .value (hs.of_vector.getD i .nil)
    | nil | pair => exact .value (hs.heads.getD i .nil)
    | _ => exact .failure _

/-- What is found in a saturated collection is saturated, and so is the default if that is. -/
theorem find?_gives {coll key : Value} (hc : coll.Saturated) (hk : key.Saturated) :
    GivesOnly (fun found => ∀ default : Value, default.Saturated → (found.getD default).Saturated) (find? coll key) := by
  unfold find?
  split
  · exact .value fun _ hd => .getFromMap hc.of_map _ hd
  · refine .value fun _ hd => ?_
    split
    · exact hc.of_vector.getD _ hd
    · exact hd
  · refine .value fun _ hd => ?_
    split
    · exact hk
    · exact hd
  · exact .value fun _ hd => hd
  · exact .failure _

/-- So `get` gives saturated values. -/
theorem getFrom_gives (h : AllSaturated args) : GivesOnly Saturated (getFrom args) := by
  refine .bind (.any _) fun _ _ => ?_
  split
  · obtain ⟨hc, h⟩ := allSaturated_cons.1 h
    obtain ⟨hk, -⟩ := allSaturated_cons.1 h
    exact .bind (find?_gives hc hk) fun found hfound => .value (hfound _ .nil)
  · obtain ⟨hc, h⟩ := allSaturated_cons.1 h
    obtain ⟨hk, h⟩ := allSaturated_cons.1 h
    exact .bind (find?_gives hc hk) fun found hfound => .value (hfound _ (h _ List.mem_cons_self))
  · exact .failure _

/-- Items of a vector are replaced by saturated ones. -/
theorem assocVector_gives {items : List Value} {entries : List (Value × Value)} (hitems : AllSaturated items)
    (hentries : EntriesSaturated entries) : GivesOnly AllSaturated (assocVector items entries) := by
  induction entries generalizing items with
  | nil => exact .value hitems
  | cons e es ih =>
    obtain ⟨he, hes⟩ := List.forall_mem_cons.1 hentries
    rw [assocVector]
    refine .bind (.any _) fun index _ => ?_
    split
    · split
      · refine ih (fun x hx => ?_) hes
        rcases List.mem_or_eq_of_mem_set hx with hx | rfl
        · exact hitems x hx
        · exact he.2
      · split
        · refine ih (allSaturated_append.2 ⟨hitems, ?_⟩) hes
          exact allSaturated_cons.2 ⟨he.2, allSaturated_nil⟩
        · exact .failure _
    · exact .failure _

/-- So `assoc` gives saturated collections. -/
theorem assocAll_gives (h : AllSaturated args) : GivesOnly Saturated (assocAll args) := by
  have hpairs := h.tail.pairUp
  have hfirst := h.headD
  refine .bind (.any _) fun _ _ => ?_
  by_cases hodd : (args.length % 2 == 0) = true
  · simp only [hodd, if_true]
    exact .failure _
  · simp only [hodd, Bool.false_eq_true, if_false]
    split
    · rename_i m hm
      rw [hm] at hfirst
      exact .value (.ofEntries (Value.mapInsertAll_saturated hfirst.of_map hpairs))
    · exact .value (.mapOf hpairs)
    · rename_i items hm
      rw [hm] at hfirst
      exact .bind (assocVector_gives hfirst.of_vector hpairs) fun items hitems => .value (.vector hitems)
    · exact .failure _

/-- What is left of a saturated map is saturated. -/
theorem eraseKeys_saturated {m : OrderedMap Value Value} (h : EntriesSaturated m.entries) (keys : List Value) :
    EntriesSaturated (keys.foldl OrderedMap.erase m).entries := by
  induction keys generalizing m with
  | nil => exact h
  | cons k ks ih => exact ih fun e he => h e (List.mem_filter.1 he).1

/-- What is left of a saturated set is saturated. -/
theorem eraseElements_saturated {s : FiniteSet Value} (h : AllSaturated s.elements) (items : List Value) :
    AllSaturated (items.foldl FiniteSet.erase s).elements := by
  induction items generalizing s with
  | nil => exact h
  | cons x xs ih => exact ih fun y hy => h y (List.mem_filter.1 hy).1

/-- So `dissoc` gives saturated collections. -/
theorem dissocAll_gives (h : AllSaturated args) : GivesOnly Saturated (dissocAll args) := by
  have hfirst := h.headD
  refine .bind (.any _) fun _ _ => ?_
  split
  · rename_i m hm
    rw [hm] at hfirst
    exact .value (.ofEntries (eraseKeys_saturated hfirst.of_map _))
  · rename_i s hs
    rw [hs] at hfirst
    exact .value (.set (eraseElements_saturated hfirst.of_set _))
  · exact .failure _

theorem containsOf_gives (args : List Value) : GivesOnly Saturated (containsOf args) := by
  refine .bind (.any _) ?_
  rintro ⟨coll, needle⟩ -
  cases coll with
  | map | set | vector | nil | pair => exact .value (.bool _)
  | _ => exact .failure _

/-- A map among saturated arguments is saturated. -/
theorem mapArgument_gives (p : Primitive) (h : AllSaturated args) :
    GivesOnly (fun m => EntriesSaturated m.entries) (mapArgument p args) := by
  refine .bind (oneArgument_gives p h) fun v hv => ?_
  split
  · exact .value hv.of_map
  · exact .failure _

/-- Saturated maps and entries are joined to a saturated map. -/
theorem conjMap_gives (index : Nat) {m : OrderedMap Value Value} (hm : EntriesSaturated m.entries) (h : AllSaturated args) :
    GivesOnly (fun m => EntriesSaturated m.entries) (conjMap index m args) := by
  fun_induction conjMap index m args with
  | case1 => exact .value hm
  | case2 index m k v rest ih =>
    obtain ⟨hpair, hrest⟩ := allSaturated_cons.1 h
    obtain ⟨hk, hv⟩ := allSaturated_cons.1 hpair.of_vector
    exact ih (Value.mapInsert_saturated hm hk (hv v List.mem_cons_self)) hrest
  | case3 => exact .failure _

/-- So `conj` gives saturated collections. -/
theorem conjAll_gives (h : AllSaturated args) : GivesOnly Saturated (conjAll args) := by
  have hfirst := h.headD
  have hmore := h.tail
  refine .bind (.any _) fun _ _ => ?_
  split
  · rename_i items hi
    rw [hi] at hfirst
    exact .value (.vector (allSaturated_append.2 ⟨hfirst.of_vector, hmore⟩))
  · rename_i s hs
    rw [hs] at hfirst
    exact .value (.set (Value.setInsertAll_saturated hfirst.of_set hmore))
  · rename_i m hm
    rw [hm] at hfirst
    exact .bind (conjMap_gives 1 hfirst.of_map hmore) fun m hm => .value (.ofEntries hm)
  · split
    · refine .value ?_
      generalize args.headD .nil = list at hfirst
      generalize args.tail = additions at hmore
      induction additions generalizing list with
      | nil => exact hfirst
      | cons x xs ih =>
        obtain ⟨hx, hxs⟩ := allSaturated_cons.1 hmore
        exact ih _ (.pair hx hfirst) hxs
    · exact .failure _

end Primitive

/-! ## Arguments, records and patterns -/

/-- The required parameters are bound to saturated arguments, and those that are left over are saturated. -/
theorem bindRequired_saturated {args : List Value} (names : List Symbol) (h : AllSaturated args) :
    BindingsSaturated (Params.bindRequired names args).1 ∧ AllSaturated (Params.bindRequired names args).2 := by
  induction names generalizing args with
  | nil => exact ⟨nofun, h⟩
  | cons name names ih =>
    obtain ⟨hbound, hleft⟩ := ih h.tail
    exact ⟨List.forall_mem_cons.2 ⟨h.headD, hbound⟩, hleft⟩

/-- The parameters of a call are bound to its arguments, the rest parameter to a list of them. -/
theorem bind_saturated {args : List Value} (p : Params) (h : AllSaturated args) : BindingsSaturated (p.bind args) := by
  obtain ⟨hbound, hleft⟩ := bindRequired_saturated p.required h
  unfold Params.bind
  cases p.rest with
  | none => exact hbound
  | some name =>
    refine List.forall_mem_append.2 ⟨hbound, ?_⟩
    exact List.forall_mem_singleton.2 (Value.Saturated.list hleft)

/-- A constructor takes one value per field. -/
theorem construct_gives {args : List Value} (variant : Variant) (h : AllSaturated args) :
    GivesOnly Value.Saturated (construct variant args) := by
  unfold construct
  split
  · exact .value (.record ‹_› h)
  · exact .failure _

/-- What stands for a variant is saturated: a tag without fields is a record without values. -/
theorem tagValue_saturated (variant : Variant) : (SpecialForm.tagValue variant).Saturated := by
  unfold SpecialForm.tagValue
  split
  · rename_i hempty
    refine .record ?_ nofun
    rw [List.isEmpty_iff.1 hempty]
    rfl
  · exact .constructor variant

/-- The fields of a saturated record are bound to saturated values. -/
theorem bindFields_gives {tag : Symbol} {fields : List Symbol} {values : List Value} {names : Option (List Symbol)}
    (h : AllSaturated values) : GivesOnly BindingsSaturated (bindFields tag fields values names) := by
  unfold bindFields
  simp only
  split
  · exact .value fun b hb => h _ (List.of_mem_zip hb).2
  · exact .failure _

/-- What a pattern binds are parts of the value that it matches. -/
theorem matchTag_gives (heap : Heap) (env : Env) (tag : Symbol) (names : Option (List Symbol)) {v : Value} (h : v.Saturated) :
    GivesOnly (fun found => ∀ bindings, found = some bindings → BindingsSaturated bindings) (matchTag heap env tag names v) := by
  have hnone : ∀ bindings : List (Symbol × Value), none = some bindings → BindingsSaturated bindings := nofun
  have hsome : ∀ {found : List (Symbol × Value)}, BindingsSaturated found →
      ∀ bindings, some found = some bindings → BindingsSaturated bindings := by
    rintro found hfound _ ⟨⟩
    exact hfound
  unfold matchTag
  split
  · exact .value (hsome nofun)
  · split
    · split
      · split
        · exact (bindFields_gives h.of_record.2).map fun _ => hsome
        · exact .value hnone
      · exact .value hnone
    · split
      · exact .failure _
      · exact .value hnone
      · rename_i fields hbuiltin
        refine (bindFields_gives ?_).map fun _ => hsome
        unfold builtinTag? at hbuiltin
        split at hbuiltin
        · unfold pairFields? at hbuiltin
          split at hbuiltin
          · obtain ⟨hh, ht⟩ := Value.saturated_pair.1 h
            cases hbuiltin
            exact allSaturated_cons.2 ⟨hh, allSaturated_cons.2 ⟨ht, allSaturated_nil⟩⟩
          · cases hbuiltin
        · obtain ⟨kinds, -, hfields⟩ := Option.map_eq_some_iff.1 hbuiltin
          split at hfields
          · cases hfields
            exact allSaturated_nil
          · cases hfields

/-- By induction on the pattern: what a pattern binds is saturated. -/
theorem matchPattern_gives (heap : Heap) (env : Env) (pattern : Value) {v : Value} (h : v.Saturated) :
    GivesOnly (fun found => ∀ bindings, found = some bindings → BindingsSaturated bindings) (matchPattern heap env pattern v) := by
  have hequal : ∀ (b : Bool) (bindings : List (Symbol × Value)), (if b then some [] else none) = some bindings →
      BindingsSaturated bindings := by
    rintro (_ | _) bindings ⟨⟩
    exact nofun
  unfold matchPattern
  split
  · exact matchTag_gives heap env _ none h
  · split
    · split
      · exact .value (hequal _)
      · exact .value nofun
    · exact .bind (.any _) fun tag _ => .bind (.any _) fun fields _ => .bind (.any _) fun names _ =>
        matchTag_gives heap env tag (some names) h
  · exact .value (hequal _)

end MiniLisp
