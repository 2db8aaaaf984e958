import Mathlib.Data.List.Nodup
import MiniLisp.Proofs.Pattern.Tags
import MiniLisp.Proofs.Records.Session
import MiniLisp.Proofs.Shadowing

/-!
# Fields: bound by a pattern, accessed by name

The fields of a record are reached in two ways. An access by name takes the first place of the name among the fields that the
record's own variant declares. A tag without names binds the fields under the names that the variant of the tag declares, and of a
name that stands there twice the last place counts. Since every record that is ever reached holds one value per declared field, an
access by a declared name never fails. Where the two variants declare the same fields in the same order, each once, both ways lead
to the same value (`fields_matched_as_accessed`); two variants of the same name may declare other fields, or one variant a field
twice, and then they need not (`fields_matched_apart`).
-/

namespace MiniLisp

/-! ## Places of names -/

/-- The last place of a name among several. -/
def lastPlace? (name : Symbol) : List Symbol → Option Nat
  | [] => none
  | n :: names =>
    match lastPlace? name names with
    | some i => some (i + 1)
    | none => if n = name then some 0 else none

/-- The first place of a name among several. -/
def firstPlace? (name : Symbol) (names : List Symbol) : Option Nat := names.findIdx? (· == name)

section Places

variable {name : Symbol} {names : List Symbol} {values : List Value}

/-- The last place of a name is a place among the names. -/
theorem lastPlace?_lt {i : Nat} (h : lastPlace? name names = some i) : i < names.length := by
  induction names generalizing i with
  | nil => cases h
  | cons n names ih =>
    rw [lastPlace?] at h
    split at h
    · rename_i j hj
      cases h
      exact Nat.succ_lt_succ (ih hj)
    · split at h
      · cases h
        simp
      · cases h

/-- A name has no last place exactly if it is not there. -/
theorem lastPlace?_eq_none_iff : lastPlace? name names = none ↔ name ∉ names := by
  induction names with
  | nil => simp [lastPlace?]
  | cons n names ih =>
    cases hl : lastPlace? name names with
    | some i =>
      have hmem : name ∈ names := by
        by_contra hn
        rw [ih.2 hn] at hl
        cases hl
      simp [lastPlace?, hl, hmem]
    | none => simp [lastPlace?, hl, ih.1 hl, eq_comm]

/-- The first place of a name is a place among the names. -/
theorem firstPlace?_lt {i : Nat} (h : firstPlace? name names = some i) : i < names.length :=
  (List.findIdx?_eq_some_iff_getElem.1 h).1

/-- A name that is there has a first place. -/
theorem exists_firstPlace? (h : name ∈ names) : ∃ i, firstPlace? name names = some i := by
  refine Option.isSome_iff_exists.1 ?_
  rw [firstPlace?, List.findIdx?_isSome]
  simpa using h

/-- A name that stands once has one place. -/
theorem lastPlace?_eq_firstPlace? (h : names.Nodup) : lastPlace? name names = firstPlace? name names := by
  induction names with
  | nil => rfl
  | cons n names ih =>
    obtain ⟨hn, hnames⟩ := List.nodup_cons.1 h
    rw [lastPlace?, ih hnames, firstPlace?, firstPlace?, List.findIdx?_cons]
    by_cases hname : n = name
    · subst hname
      have hnone : names.findIdx? (· == n) = none := by
        rw [List.findIdx?_eq_none_iff]
        intro x hx
        rw [beq_eq_false_iff_ne]
        rintro rfl
        exact hn hx
      simp [hnone]
    · have hb : (n == name) = false := by simpa using hname
      cases names.findIdx? (· == name) <;> simp [hb, hname]

/-- Of names that are bound in order, each has the value at its last place. -/
theorem lookup_reverse_zip (h : names.length = values.length) :
    (names.zip values).reverse.lookup name = (lastPlace? name names).bind (values[·]?) := by
  induction names generalizing values with
  | nil => rfl
  | cons n names ih =>
    obtain ⟨v, values, rfl⟩ := List.exists_cons_of_length_eq_add_one h.symm
    have hlength : names.length = values.length := by simpa using h
    rw [List.zip_cons_cons, List.reverse_cons, List.lookup_append, ih hlength, lastPlace?]
    cases hl : lastPlace? name names with
    | some i =>
      have hlt : i < values.length := hlength ▸ lastPlace?_lt hl
      simp [hlt]
    | none =>
      by_cases hname : n = name
      · simp [hname]
      · have hb : (name == n) = false := by simpa using Ne.symm hname
        simp [List.lookup_cons, hb, hname]

end Places

/-! ## Records -/

section Records

variable {own variant : Variant} {values : List Value} {f : Symbol}

/-- Access to a field gives the value in the first place of the field's name. -/
theorem accessField_record (h : Heap) (own : Variant) (values : List Value) (f : Symbol) {v : Value} :
    SpecialForm.accessField h (.record own values) (.sym f) = .ok v ↔ (firstPlace? f own.fields).bind (values[·]?) = some v := by
  have hkey : (Value.sym f).expectSymbol "a field name" = .ok f := rfl
  have hfield : SpecialForm.recordField? own values f = (firstPlace? f own.fields).bind (values[·]?) := rfl
  simp only [SpecialForm.accessField, hkey, hfield, bind, Except.bind]
  cases (firstPlace? f own.fields).bind (values[·]?) <;> simp

/-- A declared field of a record that is full can be accessed. -/
theorem exists_accessField (h : Heap) (hfull : (Value.record own values).Saturated) (hf : f ∈ own.fields) :
    ∃ v, SpecialForm.accessField h (.record own values) (.sym f) = .ok v := by
  obtain ⟨i, hi⟩ := exists_firstPlace? hf
  have hlt : i < values.length := hfull.of_record.1 ▸ firstPlace?_lt hi
  refine ⟨values[i], (accessField_record h own values f).2 ?_⟩
  simp [hi, hlt]

/-- A tag that matches a record stands for a variant of the same name, and binds the fields that this variant declares. -/
theorem matchPattern_record {h : Heap} {env : Env} {tag : Symbol} (hplain : tag ≠ "t" ∧ tag ≠ "_")
    {bindings : List (Symbol × Value)} (hm : matchPattern h env (.sym tag) (.record own values) = .ok (some bindings)) :
    ∃ w variant, h.lookup? env tag = some w ∧ StandsForVariant w variant ∧ variant.same own = true ∧
      variant.fields.length = values.length ∧ bindings = variant.fields.zip values := by
  have hmatch : matchPattern h env (.sym tag) (.record own values) = matchTag h env tag none (.record own values) := rfl
  rw [hmatch] at hm
  by_cases hbound : ∃ w variant, h.lookup? env tag = some w ∧ StandsForVariant w variant
  · obtain ⟨w, variant, hw, hstands⟩ := hbound
    obtain ⟨hsame, hother⟩ := matchTag_variant h env none (.record own values) hplain hw hstands
    cases hs : variant.same own with
    | false =>
      rw [hother fun own' values' heq => by cases heq; exact hs] at hm
      cases hm
    | true =>
      obtain ⟨hzip, hrefused⟩ := hsame own values rfl hs
      by_cases hlength : variant.fields.length = values.length
      · rw [hzip hlength] at hm
        cases hm
        exact ⟨w, variant, hw, hstands, hs, hlength, rfl⟩
      · obtain ⟨e, he, -⟩ := hrefused hlength
        rw [he] at hm
        cases hm
  · -- No built-in tag stands for a kind that records are of.
    have hordinary : ∀ w, h.lookup? env tag = some w → w.Ordinary :=
      fun w hw variant hstands => hbound ⟨w, variant, hw, hstands⟩
    by_cases hbuiltin : tag ∈ builtinTags
    · have hkind := matchTag_kind h env none (.record own values) hplain hordinary hbuiltin
      rw [hkind.other fun hk => by cases hk] at hm
      cases hm
    · rw [matchTag_unknown h env none (.record own values) hplain hordinary hbuiltin] at hm
      cases hm

/-- In the scope of a clause, a field has the value at its last place among the names that were bound. -/
theorem lookup?_clauseScope {m m' : Machine} {env scope : Env} {names : List Symbol} (hlength : names.length = values.length)
    (hscope : SpecialForm.clauseScope env (names.zip values) m = .ok scope m') {v : Value}
    (hv : (lastPlace? f names).bind (values[·]?) = some v) : m'.heap.lookup? scope f = some v := by
  rw [← lookup_reverse_zip hlength] at hv
  cases hb : names.zip values with
  | nil =>
    rw [hb] at hv
    cases hv
  | cons b bs =>
    rw [hb] at hscope hv
    cases hscope
    exact lookup?_newScope m.heap env hv

/-- In the scope of a clause and by an access, a field has the same value if its last place among the names that were bound is its
first place among those that the record declares; and only then, where all values of the record differ. -/
theorem lookup?_clauseScope_eq {m m' : Machine} {env scope : Env} {names : List Symbol} (hlength : names.length = values.length)
    (hscope : SpecialForm.clauseScope env (names.zip values) m = .ok scope m') {v : Value}
    (hv : (firstPlace? f own.fields).bind (values[·]?) = some v) :
    (lastPlace? f names = firstPlace? f own.fields → m'.heap.lookup? scope f = some v) ∧
      (f ∈ names → values.Nodup → m'.heap.lookup? scope f = some v → lastPlace? f names = firstPlace? f own.fields) := by
  constructor
  · intro hplace
    rw [← hplace] at hv
    exact lookup?_clauseScope hlength hscope hv
  · intro hmem hnodup hlookup
    obtain ⟨i, hi⟩ : ∃ i, lastPlace? f names = some i := by
      rw [← Option.ne_none_iff_exists']
      exact fun hnone => lastPlace?_eq_none_iff.1 hnone hmem
    obtain ⟨j, hj, hv⟩ := Option.bind_eq_some_iff.1 hv
    have hlt : i < values.length := hlength ▸ lastPlace?_lt hi
    have hseen : m'.heap.lookup? scope f = some values[i] := lookup?_clauseScope hlength hscope (by simp [hi, hlt])
    obtain ⟨hltj, hvj⟩ := List.getElem?_eq_some_iff.1 hv
    have heq : values[i] = values[j] := by
      rw [hseen] at hlookup
      rw [hvj]
      exact Option.some.inj hlookup
    rw [hi, hj, hnodup.getElem_inj_iff.1 heq]

/-- The scope of a clause can always be made. -/
theorem exists_clauseScope (env : Env) (bindings : List (Symbol × Value)) (m : Machine) :
    ∃ scope m', SpecialForm.clauseScope env bindings m = .ok scope m' := by
  cases bindings with
  | nil => exact ⟨_, _, rfl⟩
  | cons b bs => exact ⟨_, _, rfl⟩

end Records

/-- Records are full, and matching and access agree on their fields where the declarations do. Every heap that a session reaches
holds full records only, and so does every value that is evaluated there and every heap that is left, wherever the evaluation
is stopped. An access to a declared field of such a record has a value. If a tag matches the record, it stands for a variant of the
same tag and type; the body of the clause sees each declared field with the value that the access has, if that variant declares
the fields that the record's own variant declares, in that order and each once. More exactly, it does so if the last place of the
field in the one declaration is its first place in the other, and, for a field that both declare, in a record of different values
only then. -/
theorem fields_matched_as_accessed (fuel : Nat) (m : Machine) :
    (∀ limits operations, (∀ operation ∈ operations, Session.Operation.Saturated operation) →
      (Session.performAll fuel (Machine.fresh limits) operations).heap.Saturated) ∧
    (∀ form env, m.heap.Saturated → form.Saturated →
      (Action.after (eval fuel form env) m).heap.Saturated ∧ ∀ v m', eval fuel form env m = .ok v m' → v.Saturated) ∧
    ∀ own values, (Value.record own values).Saturated → values.length = own.fields.length ∧
      (∀ f ∈ own.fields, ∃ v, SpecialForm.accessField m.heap (.record own values) (.sym f) = .ok v) ∧
      ∀ env tag bindings, tag ≠ "t" ∧ tag ≠ "_" →
        matchPattern m.heap env (.sym tag) (.record own values) = .ok (some bindings) →
        ∃ w variant scope m', m.heap.lookup? env tag = some w ∧ StandsForVariant w variant ∧ variant.same own = true ∧
          SpecialForm.clauseScope env bindings m = .ok scope m' ∧
          ∀ f ∈ own.fields, ∃ v, SpecialForm.accessField m'.heap (.record own values) (.sym f) = .ok v ∧
            (variant.fields = own.fields → own.fields.Nodup → m'.heap.lookup? scope f = some v) ∧
            (lastPlace? f variant.fields = firstPlace? f own.fields → m'.heap.lookup? scope f = some v) ∧
            (f ∈ variant.fields → values.Nodup → m'.heap.lookup? scope f = some v →
              lastPlace? f variant.fields = firstPlace? f own.fields) := by
  refine ⟨?_, ?_, ?_⟩
  · intro limits operations hops
    exact Session.performAll_saturated fuel (Heap.Saturated.fresh limits) hops
  · intro form env hm hform
    have hyields := eval_yields fuel form env hform
    exact ⟨hyields.kept m hm, fun v m' hrun => hyields.result m v m' hm hrun⟩
  · intro own values hfull
    refine ⟨hfull.of_record.1, fun f hf => exists_accessField m.heap hfull hf, ?_⟩
    intro env tag bindings hplain hmatch
    obtain ⟨w, variant, hw, hstands, hsame, hlength, rfl⟩ := matchPattern_record hplain hmatch
    obtain ⟨scope, m', hscope⟩ := exists_clauseScope env (variant.fields.zip values) m
    refine ⟨w, variant, scope, m', hw, hstands, hsame, hscope, ?_⟩
    intro f hf
    obtain ⟨v, hv⟩ := exists_accessField m'.heap hfull hf
    obtain ⟨hagree, honly⟩ := lookup?_clauseScope_eq hlength hscope ((accessField_record m'.heap own values f).1 hv)
    refine ⟨v, hv, fun hfields hnodup => hagree ?_, hagree, honly⟩
    rw [hfields]
    exact lastPlace?_eq_firstPlace? hnodup

/-- A machine in which `A` is the constructor of its variant. -/
def constructorMachine : Machine where
  heap := ({} : Heap).newRoot.2.define 0 "A" (.constructor variantA) false
  global := ⟨0, []⟩

/-- Where `A` is the constructor, the pattern `A` matches the record `(A true)`, and the clause sees its field. -/
theorem fields_matched_as_accessed_constructor :
    (Session.performAll 1 (Machine.fresh {}) [.call (.constructor variantA) [.bool true]]).heap.Saturated ∧
    (Value.record variantA [.bool true]).Saturated ∧
    matchPattern constructorMachine.heap ⟨0, []⟩ (.sym "A") (.record variantA [.bool true]) = .ok (some [("x", .bool true)]) ∧
    ∃ scope m', SpecialForm.clauseScope ⟨0, []⟩ [("x", .bool true)] constructorMachine = .ok scope m' ∧
      m'.heap.lookup? scope "x" = some (.bool true) ∧
      SpecialForm.accessField m'.heap (.record variantA [.bool true]) (.sym "x") = .ok (.bool true) := by
  obtain ⟨hreached, -, hrecords⟩ := fields_matched_as_accessed 1 constructorMachine
  have hfull : (Value.record variantA [.bool true]).Saturated := .record rfl (by simp [Value.Saturated.bool])
  have hmatch : matchPattern constructorMachine.heap ⟨0, []⟩ (.sym "A") (.record variantA [.bool true]) =
      .ok (some [("x", .bool true)]) := rfl
  have hcall : ∀ operation ∈ [Session.Operation.call (.constructor variantA) [.bool true]], operation.Saturated := by
    simp [Session.Operation.Saturated, Value.Saturated.constructor, AllSaturated, Value.Saturated.bool]
  refine ⟨hreached {} _ hcall, hfull, hmatch, ?_⟩
  obtain ⟨-, -, hclause⟩ := hrecords variantA [.bool true] hfull
  obtain ⟨w, variant, scope, m', hw, hstands, -, hscope, hfields⟩ := hclause ⟨0, []⟩ "A" _ (by decide) hmatch
  cases hw
  cases hstands
  obtain ⟨v, hv, hagree, -, -⟩ := hfields "x" (by decide)
  cases hv
  exact ⟨scope, m', hscope, hagree rfl (by decide), rfl⟩

/-- After a second declaration with the fields the other way round, a record of the first is matched with its fields exchanged; and
of a field that is declared twice the match sees the last value and the access gives the first. -/
theorem fields_matched_apart :
    let declared : String := "(type T (A x y)) (let r (A true false)) (type T (A y x)) "
    let twice : String := "(type T (A x x)) (let r (A true false)) "
    (∃ m', Session.runSource 9 ⟨"input", declared ++ "(match r (A x))"⟩ (Machine.fresh {}) = .ok (.bool false) m') ∧
    (∃ m', Session.runSource 9 ⟨"input", declared ++ "r.x"⟩ (Machine.fresh {}) = .ok (.bool true) m') ∧
    (∃ m', Session.runSource 9 ⟨"input", twice ++ "(match r (A x))"⟩ (Machine.fresh {}) = .ok (.bool false) m') ∧
    ∃ m', Session.runSource 9 ⟨"input", twice ++ "r.x"⟩ (Machine.fresh {}) = .ok (.bool true) m' := by
  refine ⟨eq_of_isOutcome ?_, eq_of_isOutcome ?_, eq_of_isOutcome ?_, eq_of_isOutcome ?_⟩
  all_goals decide +kernel

end MiniLisp
