import MiniLisp.Proofs.Collection.FiniteSet
import MiniLisp.Proofs.Improper
import MiniLisp.Proofs.Reader.Written
import MiniLisp.Proofs.Value.Map

/-!
# Quoting makes data of code

Quoting keeps the spines of lists and vectors, makes the set of its data of every set form, and the map of its data of every map
form, where elements and keys that differ in the code may be equal as data (`SetOf`, `MapOf`). What it has made it does not change
again, and no form is left in it (`quoting_makes_data`). It does not look into sets, maps and records, which are data already, so
a form that was put into one of them stays (`quoting_keeps_forms_of_records`). None can be written in a source.
-/

namespace MiniLisp

namespace Value

/-! ## The values that stand in a value -/

/-- The values that a value is built of. Functions and modules are built of none. -/
def parts : Value → List Value
  | .pair h t => [h, t]
  | .vector items | .setForm items | .record _ items => items
  | .set s => s.elements
  | .map m => m.keys ++ m.values
  | .mapForm entries => entries.map (·.1) ++ entries.map (·.2)
  | _ => []

/-- The value `x` stands in another one, at some depth. -/
inductive Occurs (x : Value) : Value → Prop where
  | here : Occurs x x
  | inside {part v : Value} : part ∈ v.parts → Occurs x part → Occurs x v

def isCollectionForm : Value → Bool
  | .setForm _ | .mapForm _ => true
  | _ => false

/-- Whether a value is a set or a map. -/
def isCollection : Value → Bool
  | .set _ | .map _ => true
  | _ => false

/-- Whether a value holds others and is no code: a set, a map or a record. -/
def isContainer : Value → Bool
  | .record .. => true
  | v => v.isCollection

/-- No set form and no map form stands in the value. -/
def FormFree (v : Value) : Prop := ∀ x, Occurs x v → x.isCollectionForm = false

/-- The values of some kind that stand in the value have no forms in them. -/
def FormFreeWithin (kind : Value → Bool) (v : Value) : Prop := ∀ x, Occurs x v → kind x = true → x.FormFree

variable {v x : Value}

/-- A value is free of collection forms exactly if it is none and its parts are free of them. -/
theorem formFree_iff : v.FormFree ↔ v.isCollectionForm = false ∧ ∀ part ∈ v.parts, part.FormFree := by
  constructor
  · exact fun h => ⟨h v .here, fun part hpart x hx => h x (.inside hpart hx)⟩
  · rintro ⟨hself, hparts⟩ x hx
    cases hx with
    | here => exact hself
    | inside hpart hx => exact hparts _ hpart x hx

/-- The parts of such a value are such values. -/
theorem FormFreeWithin.part {kind : Value → Bool} (h : v.FormFreeWithin kind) (hx : x ∈ v.parts) : x.FormFreeWithin kind :=
  fun y hy => h y (.inside hx hy)

/-- What code is built of is smaller than the code. -/
theorem size_lt_of_mem_parts (hv : v.isContainer = false) (h : x ∈ v.parts) : x.size < v.size := by
  cases v with
  | pair head tail =>
    rw [size]
    simp only [parts, List.mem_cons, List.not_mem_nil, or_false] at h
    rcases h with rfl | rfl <;> omega
  | vector | setForm =>
    rw [size]
    exact Nat.lt_succ_of_le (size_le_of_mem h)
  | mapForm entries =>
    rw [size]
    rcases List.mem_append.1 h with h | h
    all_goals
      obtain ⟨e, he, rfl⟩ := List.mem_map.1 h
      have := size_le_of_mem_entries he
      omega
  | set | map | record => cases hv
  | _ => cases h

/-! ## The data of code -/

/-- A container is quoted as it is. -/
theorem toDatum_of_isContainer (h : v.isContainer = true) : v.toDatum = v := by
  cases v with
  | set | map | record => simp [toDatum]
  | _ => cases h

/-- No quoted datum is a collection form. -/
theorem isCollectionForm_toDatum (v : Value) : v.toDatum.isCollectionForm = false := by
  cases v <;> simp [toDatum, isCollectionForm]

/-- The data of code are built of the data of what the code is built of. -/
theorem mem_parts_toDatum (hv : v.isContainer = false) (h : x ∈ v.toDatum.parts) : ∃ part ∈ v.parts, x = part.toDatum := by
  cases v with
  | pair head tail =>
    simp only [toDatum, parts, List.mem_cons, List.not_mem_nil, or_false] at h
    rcases h with rfl | rfl
    · exact ⟨head, List.mem_cons_self, rfl⟩
    · exact ⟨tail, List.mem_cons_of_mem _ List.mem_cons_self, rfl⟩
  | vector items =>
    rw [toDatum, toData_eq_map] at h
    obtain ⟨part, hpart, rfl⟩ := List.mem_map.1 h
    exact ⟨part, hpart, rfl⟩
  | setForm items =>
    rw [toDatum, toData_eq_map] at h
    obtain ⟨part, hpart, rfl⟩ := List.mem_map.1 (FiniteSet.mem_ofList h)
    exact ⟨part, hpart, rfl⟩
  | mapForm entries =>
    rw [toDatum, toDataEntries_eq_map] at h
    rcases List.mem_append.1 h with h | h
    · obtain ⟨e, he, rfl⟩ := List.mem_map.1 h
      obtain ⟨entry, hentry, rfl⟩ := List.mem_map.1 (OrderedMap.mem_ofList he)
      exact ⟨entry.1, List.mem_append_left _ (List.mem_map_of_mem hentry), rfl⟩
    · obtain ⟨e, he, rfl⟩ := List.mem_map.1 h
      obtain ⟨entry, hentry, rfl⟩ := List.mem_map.1 (OrderedMap.mem_ofList he)
      exact ⟨entry.2, List.mem_append_right _ (List.mem_map_of_mem hentry), rfl⟩
  | set | map | record => cases hv
  | _ => simp [toDatum, parts] at h

/-- If there is no form in sets, maps and records, there is none in the data. -/
theorem formFree_toDatum (h : v.FormFreeWithin isContainer) : v.toDatum.FormFree := by
  induction hn : v.size using Nat.strongRecOn generalizing v with
  | ind n ih =>
    subst hn
    cases hv : v.isContainer with
    | true =>
      rw [toDatum_of_isContainer hv]
      exact h v .here hv
    | false =>
      refine formFree_iff.2 ⟨isCollectionForm_toDatum v, fun x hx => ?_⟩
      obtain ⟨part, hpart, rfl⟩ := mem_parts_toDatum hv hx
      exact ih part.size (size_lt_of_mem_parts hv hpart) (h.part hpart) rfl

/-- The items of a quoted list are the quoted items. -/
theorem heads_toDatum (v : Value) : v.toDatum.heads = v.heads.map toDatum := by
  fun_induction remainder v with
  | case1 head tail ih => rw [toDatum, heads_pair, heads_pair, ih, List.map_cons]
  | case2 v hv =>
    cases v with
    | pair head tail => exact absurd rfl (hv head tail)
    | _ => simp [toDatum, heads, headsAfter]

/-! ## Sets and maps of data -/

/-- A list of sound items is sound. -/
theorem Sound.list {items : List Value} (h : ∀ x ∈ items, Sound x) : Sound (.list items) := by
  induction items with
  | nil => exact .atom rfl
  | cons x items ih =>
    obtain ⟨hx, hitems⟩ := List.forall_mem_cons.1 h
    exact .pair hx (ih hitems)

/-- A set that is made of sound items is sound. -/
theorem Sound.setOf {items : List Value} (h : ∀ x ∈ items, Sound x) : Sound (.set (.ofList items)) :=
  .set (fun x hx => h x (FiniteSet.mem_ofList hx)) (FiniteSet.distinct_ofList equivalenceOn_sound h)

/-- So is a map that is made of sound entries. -/
theorem Sound.mapOf {entries : List (Value × Value)} (h : ∀ e ∈ entries, Sound e.1 ∧ Sound e.2) :
    Sound (.map (.ofList entries)) :=
  .map (fun e he => (h e (OrderedMap.mem_ofList he)).1) (fun e he => (h e (OrderedMap.mem_ofList he)).2)
    (OrderedMap.distinct_ofList equivalenceOn_sound fun e he => (h e he).1)

/-- The data of sound code are sound. -/
theorem Sound.toDatum (h : Sound v) : Sound v.toDatum := by
  induction h with
  | @atom v a h =>
    have heq : v.toDatum = v := by
      cases v with
      | pair | vector | setForm | mapForm => cases h
      | _ => simp [Value.toDatum]
    rw [heq]
    exact .atom h
  | pair _ _ ihh iht =>
    rw [Value.toDatum]
    exact .pair ihh iht
  | vector _ ih =>
    rw [Value.toDatum, toData_eq_map]
    exact .vector (List.forall_mem_map.2 ih)
  | setForm _ ih =>
    rw [Value.toDatum, toData_eq_map]
    exact .setOf (List.forall_mem_map.2 ih)
  | mapForm _ _ ihk ihv =>
    rw [Value.toDatum, toDataEntries_eq_map]
    exact .mapOf (List.forall_mem_map.2 fun e he => ⟨ihk e he, ihv e he⟩)
  | set helements hd =>
    rw [toDatum_of_isContainer rfl]
    exact .set helements hd
  | map hkeys hvalues hd =>
    rw [toDatum_of_isContainer rfl]
    exact .map hkeys hvalues hd
  | record hvalues =>
    rw [toDatum_of_isContainer rfl]
    exact .record hvalues

/-- The set that holds the given elements, and of equal ones one. -/
structure SetOf (items : List Value) (s : FiniteSet Value) : Prop where
  given : ∀ x ∈ s.elements, x ∈ items
  distinct : Distinct Equal s.elements
  contains : ∀ x : Value, x.Sound → (s.contains x = true ↔ ∃ item ∈ items, Equal x item)

/-- The map that holds the given pairs, and of pairs with equal keys the last one, in the place of the first. -/
structure MapOf (pairs : List (Value × Value)) (m : OrderedMap Value Value) : Prop where
  given : ∀ e ∈ m.entries, e ∈ pairs
  distinct : Distinct (fun e f => Equal e.1 f.1) m.entries
  last : ∀ key : Value, key.Sound → m.get? key = (pairs.reverse.find? fun e => key == e.1).map (·.2)
  first : m.keys.Pairwise fun k k' => pairs.findIdx (fun e => k == e.1) < pairs.findIdx fun e => k' == e.1

/-- The set of a list holds the items of the list, each of them once. -/
theorem setOf_ofList {items : List Value} (h : ∀ x ∈ items, x.Sound) : SetOf items (.ofList items) where
  given _ := FiniteSet.mem_ofList
  distinct := FiniteSet.distinct_ofList equivalenceOn_sound h
  contains x hx := by
    rw [FiniteSet.contains_ofList equivalenceOn_sound h hx, List.any_eq_true]
    rfl

/-- The map of a list holds the entries of the list, the last one for each key. -/
theorem mapOf_ofList {pairs : List (Value × Value)} (h : ∀ e ∈ pairs, e.1.Sound) : MapOf pairs (.ofList pairs) where
  given _ := OrderedMap.mem_ofList
  distinct := OrderedMap.distinct_ofList equivalenceOn_sound h
  last key hkey := by rw [OrderedMap.get?, OrderedMap.find?_ofList equivalenceOn_sound h hkey]
  first := OrderedMap.pairwise_keys_ofList equivalenceOn_sound h

end Value

/-! ## What is written in a source -/

namespace Reader

open Value

variable {v x : Value}

/-- The parts of what is written are written. -/
theorem Written.part (h : Written v) (hx : x ∈ v.parts) : Written x := by
  cases h with
  | @list values hvalues =>
    cases values with
    | nil => cases hx
    | cons first values =>
      obtain ⟨hfirst, hvalues⟩ := List.forall_mem_cons.1 hvalues
      rw [list_cons, parts] at hx
      simp only [List.mem_cons, List.not_mem_nil, or_false] at hx
      rcases hx with rfl | rfl
      · exact hfirst
      · exact .list hvalues
  | vector hvalues | setForm hvalues => exact hvalues x hx
  | mapForm hkeys hvalues =>
    rcases List.mem_append.1 hx with hx | hx
    · obtain ⟨e, he, rfl⟩ := List.mem_map.1 hx
      exact hkeys e he
    · obtain ⟨e, he, rfl⟩ := List.mem_map.1 hx
      exact hvalues e he
  | nil | bool | num | str | sym => cases hx

/-- So is all that occurs in it. -/
theorem Written.occurs (h : Written v) (hx : Occurs x v) : Written x := by
  induction hx with
  | here => exact h
  | inside hpart _ ih => exact ih (h.part hpart)

theorem Written.isContainer (h : Written v) : v.isContainer = false := by
  cases h with
  | @list values hvalues => cases values <;> rfl
  | _ => rfl

theorem Written.isCollection (h : Written v) : v.isCollection = false := by
  have hcontainer := h.isContainer
  cases v with
  | record => rfl
  | _ => exact hcontainer

/-- There is no set, map or record in what is written. -/
theorem Written.formFreeWithin (h : Written v) : v.FormFreeWithin Value.isContainer := by
  intro x hx hcontainer
  rw [(h.occurs hx).isContainer] at hcontainer
  cases hcontainer

/-- What is written is sound: it holds no set and no map that might have equal elements. -/
theorem Written.sound (h : Written v) : v.Sound := by
  induction h with
  | list _ ih => exact .list ih
  | vector _ ih => exact .vector ih
  | setForm _ ih => exact .setForm ih
  | mapForm _ _ ihk ihv => exact .mapForm ihk ihv
  | nil | bool | num | str | sym => exact .atom rfl

end Reader

/-! ## Quoting -/

namespace Value

/-- Quoting changes nothing in what it has made. It keeps the spines of lists, improper ones too, and of vectors. A set form becomes
the set of its data; a map form becomes the map of its data, where of equal keys the last value counts in the place of the first.
If no form stands in a set, map or record, then none stands in the data; so it is with all that is written in a source. -/
theorem quoting_makes_data (v : Value) :
    v.toDatum.toDatum = v.toDatum ∧
      (v.FormFreeWithin isContainer → v.toDatum.FormFree) ∧
      (v.toDatum.heads = v.heads.map toDatum ∧ v.toDatum.remainder = v.remainder.toDatum ∧
        ∀ items, v = .vector items → v.toDatum = .vector (items.map toDatum)) ∧
      (∀ items, v = .setForm items → (∀ x ∈ items, x.Sound) →
        ∃ s, v.toDatum = .set s ∧ SetOf (items.map toDatum) s) ∧
      (∀ entries, v = .mapForm entries → (∀ e ∈ entries, e.1.Sound) →
        ∃ m, v.toDatum = .map m ∧ MapOf (entries.map fun e => (e.1.toDatum, e.2.toDatum)) m) ∧
      ∀ source span, .ok (v, span) ∈ Reader.results source → v.FormFreeWithin isContainer ∧ v.Sound := by
  refine ⟨toDatum_toDatum v, formFree_toDatum, ⟨heads_toDatum v, remainder_toDatum v, ?vector⟩, ?setForm, ?mapForm, ?written⟩
  case vector =>
    rintro items rfl
    rw [toDatum, toData_eq_map]
  case setForm =>
    rintro items rfl hitems
    refine ⟨.ofList (items.map toDatum), by rw [toDatum, toData_eq_map], ?_⟩
    exact setOf_ofList (List.forall_mem_map.2 fun x hx => (hitems x hx).toDatum)
  case mapForm =>
    rintro entries rfl hentries
    refine ⟨.ofList (entries.map fun e => (e.1.toDatum, e.2.toDatum)), by rw [toDatum, toDataEntries_eq_map], ?_⟩
    exact mapOf_ofList (List.forall_mem_map.2 fun e he => (hentries e he).toDatum)
  case written =>
    intro source span hread
    have hwritten := Reader.written_of_mem_results hread
    exact ⟨hwritten.formFreeWithin, hwritten.sound⟩

/-- Two keys that are different as code and equal as data, with another key between them. -/
def repeatedKey : Value :=
  .mapForm [(.setForm [.nil, .bool true], .str "a"), (.str "k", .nil), (.setForm [.bool true, .nil], .str "b")]

theorem readable_repeatedKey : Reader.Readable repeatedKey := by
  have hflag : Reader.Readable (.bool true) := .bool true
  have hkey : Reader.Readable (.setForm [.nil, .bool true]) := .setForm (by simp [Reader.Readable.nil, hflag])
  have hkey' : Reader.Readable (.setForm [.bool true, .nil]) := .setForm (by simp [Reader.Readable.nil, hflag])
  refine .mapForm ?_ ?_
  · simp [hkey, hkey', Reader.Readable.str]
  · simp [Reader.Readable.str, Reader.Readable.nil]

/-- Read from a source and quoted, it is a map of two keys, in which the later value stands in the earlier place. -/
theorem quoting_makes_data_repeatedKey :
    repeatedKey.toDatum.FormFree ∧ ∃ m, repeatedKey.toDatum = .map m ∧ m.values = [.str "b", .nil] ∧
      m.get? (.set (.ofList [.nil, .bool true])) = some (.str "b") := by
  obtain ⟨-, hfree, -, -, hmap, hread⟩ := quoting_makes_data repeatedKey
  obtain ⟨span, hresults⟩ := Reader.results_print "<input>" readable_repeatedKey
  obtain ⟨hwithin, hsound⟩ := hread ⟨"<input>", repeatedKey.print⟩ span (hresults ▸ List.mem_cons_self)
  obtain ⟨m, hm, hpairs⟩ := hmap _ rfl fun e he => (hsound.of_mapForm e he).1
  have hkey : Sound (.set (.ofList [.nil, .bool true])) :=
    .setOf (List.forall_mem_cons.2 ⟨.atom rfl, List.forall_mem_singleton.2 (.atom rfl)⟩)
  refine ⟨hfree hwithin, m, hm, ?_, (hpairs.last _ hkey).trans rfl⟩
  cases hm
  rfl

/-- A record that holds a set form: no set or map is in it, but quoting leaves the form where it is. -/
theorem quoting_keeps_forms_of_records :
    let form : Value := .setForm [ofInt 1, ofInt 1]
    let record : Value := .record ⟨"T", "A", ["f"]⟩ [form]
    record.FormFreeWithin isCollection ∧ Occurs form record.toDatum ∧ ¬record.toDatum.FormFree := by
  intro form record
  have hoccurs : Occurs form record.toDatum := by
    rw [toDatum_of_isContainer rfl]
    exact .inside List.mem_cons_self .here
  refine ⟨fun x hx hcollection => ?_, hoccurs, fun hfree => Bool.noConfusion (hfree form hoccurs)⟩
  have hwritten : Reader.Written form :=
    .setForm (List.forall_mem_cons.2 ⟨.num _, List.forall_mem_singleton.2 (.num _)⟩)
  cases hx with
  | here => cases hcollection
  | inside hpart hx =>
    obtain rfl := List.mem_singleton.1 hpart
    rw [(hwritten.occurs hx).isCollection] at hcollection
    cases hcollection

end Value

end MiniLisp
