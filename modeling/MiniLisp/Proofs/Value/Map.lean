import MiniLisp.Eval.Basic
import MiniLisp.Proofs.Collection.IndexedMap
import MiniLisp.Proofs.Value.Equality

/-!
# The maps of the language

A map of values is what its history says: its entries, their order, and what it holds under a key can all be read off the edits
that made it (`FaithfulMap`). It can be kept with an index that is never out of step (`IndexedAs`). Two maps are equal exactly if
they hold the same under every key. What the language does to maps are edits of this kind (`EditedByLanguage`), so all of this
holds of every map that a program makes (`map_faithful`).

Keys and values are any sound values. The maps in them are again maps with a history (`Value.sound_map_iff`).
-/

namespace MiniLisp

/-- The keys and values of an edit are sound. -/
def Edit.Sound : Edit Value Value → Prop
  | insert key value => key.Sound ∧ value.Sound
  | erase key => key.Sound
  | clear => True

/-- Edits of sound entries have good keys. -/
theorem Edit.good_of_sound {history : List (Edit Value Value)} (hsound : ∀ edit ∈ history, edit.Sound) :
    ∀ edit ∈ history, edit.Good Value.Sound := by
  intro edit hedit
  have h := hsound edit hedit
  cases edit with
  | insert key value => exact h.1
  | erase key => exact h
  | clear => trivial

/-- To insert sound entries takes sound edits. -/
theorem Edit.sound_inserts {pairs : List (Value × Value)} (h : ∀ e ∈ pairs, e.1.Sound ∧ e.2.Sound) :
    ∀ edit ∈ Edit.inserts pairs, edit.Sound := by
  intro edit hedit
  obtain ⟨e, he, rfl⟩ := List.mem_map.1 (List.mem_reverse.1 hedit)
  exact h e he

/-- So does the erasing of sound keys. -/
theorem Edit.sound_erasures {keys : List Value} (h : ∀ key ∈ keys, key.Sound) : ∀ edit ∈ Edit.erasures keys, edit.Sound := by
  intro edit hedit
  obtain ⟨key, hkey, rfl⟩ := List.mem_map.1 (List.mem_reverse.1 hedit)
  exact h key hkey

/-- So does the collecting of sound entries. -/
theorem Edit.sound_collect {pairs : List (Value × Value)} (h : ∀ e ∈ pairs, e.1.Sound ∧ e.2.Sound) :
    ∀ edit ∈ Edit.collect pairs, edit.Sound := by
  intro edit hedit
  rcases List.mem_append.1 hedit with hedit | hedit
  · exact sound_inserts h edit hedit
  · obtain rfl := List.mem_singleton.1 hedit
    trivial

namespace Value

/-- Sound values are compared by an equivalence. -/
theorem equivalenceOn_sound : EquivalenceOn Sound := fun _ h => h.equivalenceAt

variable {history : List (Edit Value Value)}

/-- The entries of a map with a sound history are sound. -/
theorem soundEntries_ofHistory (hsound : ∀ edit ∈ history, edit.Sound) :
    SoundEntries (OrderedMap.ofHistory history).entries where
  sound _ he := hsound _ (OrderedMap.mem_ofHistory he)
  distinct := OrderedMap.distinct_ofHistory equivalenceOn_sound (Edit.good_of_sound hsound)

/-- The sound maps are those that sound edits make of the empty map. -/
theorem sound_map_iff {m : OrderedMap Value Value} :
    Sound (.map m) ↔ ∃ history : List (Edit Value Value), (∀ edit ∈ history, edit.Sound) ∧ m = OrderedMap.ofHistory history := by
  constructor
  · intro h
    obtain ⟨hsound, hd⟩ := h.of_map
    refine ⟨Edit.collect m.entries ++ [], by simpa using Edit.sound_collect hsound, ?_⟩
    rw [OrderedMap.ofHistory_collect, OrderedMap.ofList_of_distinct equivalenceOn_sound (fun e he => (hsound e he).1) hd]
  · rintro ⟨history, hsound, rfl⟩
    obtain ⟨hentries, hd⟩ := soundEntries_ofHistory hsound
    exact .map (fun e he => (hentries e he).1) (fun e he => (hentries e he).2) hd

/-! ## Equal maps -/

variable {es fs : List (Value × Value)}

/-- An entry of a sound map is found under every key that is equal to its own. -/
theorem SoundEntries.find?_of_mem (hes : SoundEntries es) {key : Value} (hkey : Sound key) {e : Value × Value} (he : e ∈ es)
    (hk : Equal key e.1) : es.find? (fun f => key == f.1) = some e :=
  hes.find?_eq hkey.equivalenceAt hkey hkey.equivalenceAt.refl he hk

/-- Keys that are equal to one key are equal. -/
theorem SoundEntries.injects (hes : SoundEntries es) (hfs : SoundEntries fs) : Injects (fun e f => Equal e.1 f.1) es fs := by
  intro e he e' he' f hf h h'
  have hsound := (hfs.sound f hf).1
  exact (hes.sound e he).1.equivalenceAt.trans hsound (hes.sound e' he').1 h ((hes.sound e' he').1.equivalenceAt.symm hsound h')

/-- Equal maps hold equal values under every key. -/
theorem get?_of_equal_map {a b : OrderedMap Value Value} (ha : SoundEntries a.entries) (hb : SoundEntries b.entries)
    (h : Equal (.map a) (.map b)) {key : Value} (hkey : Sound key) : (a.get? key == b.get? key) = true := by
  obtain ⟨hlen, hagree⟩ := equal_map_iff.1 h
  have hcovers : Covers (fun e f => Equal e.1 f.1) a.entries b.entries := by
    refine ⟨hlen, fun e he => ?_⟩
    obtain ⟨f, hf, -⟩ := hagree e he
    exact ⟨f, entry_of_find? hf⟩
  rw [OrderedMap.get?, OrderedMap.get?]
  cases hfind : a.entries.find? (fun e => key == e.1) with
  | some e =>
    obtain ⟨he, hke⟩ := entry_of_find? hfind
    obtain ⟨f, hfindb, hvalue⟩ := hagree e he
    obtain ⟨hf, hef⟩ := entry_of_find? hfindb
    rw [hb.find?_of_mem hkey hf (hkey.equivalenceAt.trans (ha.sound e he).1 (hb.sound f hf).1 hke hef)]
    exact hvalue
  | none =>
    -- A key of the second map that is equal to this one would have an equal in the first.
    have hnone : b.entries.find? (fun f => key == f.1) = none := by
      refine List.find?_eq_none.2 fun f hf hkf => ?_
      obtain ⟨e, he, hef⟩ := (ha.injects hb).covered_back ha.distinct hcovers f hf
      have hesound := (ha.sound e he).1
      have hfe := hesound.equivalenceAt.symm (hb.sound f hf).1 hef
      exact List.find?_eq_none.1 hfind e he (hkey.equivalenceAt.trans (hb.sound f hf).1 hesound hkf hfe)
    rw [hnone]
    rfl

/-- Maps that hold equal values under every key are equal: each has an entry for every entry of the other, so that they are of one
length. -/
theorem equal_map_of_get? {a b : OrderedMap Value Value} (ha : SoundEntries a.entries) (hb : SoundEntries b.entries)
    (h : ∀ key, Sound key → (a.get? key == b.get? key) = true) : Equal (.map a) (.map b) := by
  have hforth : ∀ e ∈ a.entries, ∃ f, b.entries.find? (fun f => e.1 == f.1) = some f ∧ Equal e.2 f.2 := by
    intro e he
    have hsound := (ha.sound e he).1
    have hagree := h e.1 hsound
    rw [OrderedMap.get?, OrderedMap.get?, ha.find?_of_mem hsound he hsound.equivalenceAt.refl] at hagree
    cases hfind : b.entries.find? (fun f => e.1 == f.1) with
    | none =>
      rw [hfind] at hagree
      cases hagree
    | some f =>
      rw [hfind] at hagree
      exact ⟨f, rfl, hagree⟩
  have hback : ∀ f ∈ b.entries, ∃ e ∈ a.entries, Equal f.1 e.1 := by
    intro f hf
    have hsound := (hb.sound f hf).1
    have hagree := h f.1 hsound
    rw [OrderedMap.get?, OrderedMap.get?, hb.find?_of_mem hsound hf hsound.equivalenceAt.refl] at hagree
    cases hfind : a.entries.find? (fun e => f.1 == e.1) with
    | none =>
      rw [hfind] at hagree
      cases hagree
    | some e => exact ⟨e, entry_of_find? hfind⟩
  have hcovered : ∀ e ∈ a.entries, ∃ f ∈ b.entries, Equal e.1 f.1 := by
    intro e he
    obtain ⟨f, hf, -⟩ := hforth e he
    exact ⟨f, entry_of_find? hf⟩
  have hle := (ha.injects hb).length_le ha.distinct hcovered
  have hge := (hb.injects ha).length_le hb.distinct hback
  exact equal_map_iff.2 ⟨Nat.le_antisymm hle hge, hforth⟩

/-- Maps that are kept with an index are compared by it; the outcome is the same. -/
theorem same_eq_equal {a b : OrderedMap Value Value} {i j : IndexedMap Value Value} (ha : SoundEntries a.entries)
    (hb : SoundEntries b.entries) (hi : i.entries = a.entries) (hj : j.entries = b.entries)
    (hget : ∀ key, Sound key → j.get? key = b.get? key) : i.same j = (Value.map a == Value.map b) := by
  refine Bool.eq_iff_iff.2 (Iff.trans ?_ equal_map_iff.symm)
  rw [IndexedMap.same, hi, hj, Bool.and_eq_true, beq_iff_eq, List.all_eq_true]
  refine and_congr_right fun _ => forall₂_congr fun e he => ?_
  have hsound := ha.sound e he
  rw [hget e.1 hsound.1, OrderedMap.get?]
  cases hfind : b.entries.find? (fun f => e.1 == f.1) with
  | none => simp
  | some f =>
    have hf := (hb.sound f (entry_of_find? hfind).1).2
    have hcomm : (f.2 == e.2) = (e.2 == f.2) := equivalenceOn_sound.beq_comm hf hsound.2
    simp [Equal, hcomm]

end Value

/-! ## What the language does to maps -/

/-- A value is the map that edits make of the one with a history. If what they were taken from is sound, the edits are. -/
structure EditedMap (history edits : List (Edit Value Value)) (given : List Value) (v : Value) : Prop where
  eq : v = .map (.ofHistory (edits ++ history))
  sound : (∀ x ∈ given, x.Sound) → ∀ edit ∈ edits, edit.Sound

/-- The maps that the language makes of a map with a history. -/
structure EditedByLanguage (history : List (Edit Value Value)) : Prop where
  /-- Keys and values, one after the other, are inserted into a map. -/
  assoc : ∀ args v, Primitive.assocAll (.map (.ofHistory history) :: args) = .ok v ↔
    (args ≠ [] ∧ args.length % 2 = 0) ∧ EditedMap history (Edit.inserts (pairUp args)) args v
  /-- Without a map to start from, they are collected. -/
  assocNil : ∀ args v, Primitive.assocAll (.nil :: args) = .ok v ↔
    (args ≠ [] ∧ args.length % 2 = 0) ∧ EditedMap history (Edit.collect (pairUp args)) args v
  dissoc : ∀ keys v, Primitive.dissocAll (.map (.ofHistory history) :: keys) = .ok v ↔
    EditedMap history (Edit.erasures keys) keys v
  /-- Pairs, each a vector of a key and a value, are inserted. -/
  conj : ∀ args v, Primitive.conjAll (.map (.ofHistory history) :: args) = .ok v ↔
    ∃ pairs : List (Value × Value),
      args = pairs.map (fun e => .vector [e.1, e.2]) ∧ EditedMap history (Edit.inserts pairs) args v
  /-- A map is collected from the values of a map form, or from the data that it stands for if it is quoted. -/
  literal : ∀ eval entries env, evalStep eval (.mapForm entries) env =
    evalEntries eval env entries >>= fun pairs => return .done (.map (.ofHistory (Edit.collect pairs ++ history)))
  quoted : ∀ entries, Value.toDatum (.mapForm entries) = .map (.ofHistory (Edit.collect (Value.toDataEntries entries) ++ history))
  collected : ∀ pairs : List (Value × Value), (∀ e ∈ pairs, e.1.Sound ∧ e.2.Sound) → ∀ edit ∈ Edit.collect pairs, edit.Sound

namespace Primitive

/-- Keys and values must come in pairs, and at least one of them. -/
theorem paired_of_assocAll {coll v : Value} {args : List Value} (h : assocAll (coll :: args) = .ok v) :
    args ≠ [] ∧ args.length % 2 = 0 := by
  rw [assocAll, needAtLeast] at h
  split at h
  · rename_i hleast
    rw [List.length_cons] at hleast
    refine ⟨List.length_pos_iff.1 (by omega), ?_⟩
    by_contra hodd
    have heven : ((coll :: args).length % 2 == 0) = true := by
      rw [List.length_cons, beq_iff_eq]
      omega
    rw [heven] at h
    cases h
  · cases h

/-- Pairs are inserted into a map, or into the empty one. -/
theorem assocAll_eq_ok_iff {coll v : Value} {start : OrderedMap Value Value}
    (hcoll : coll = .map start ∨ coll = .nil ∧ start = .empty) {args : List Value} :
    assocAll (coll :: args) = .ok v ↔ (args ≠ [] ∧ args.length % 2 = 0) ∧ v = .map (start.insertAll (pairUp args)) := by
  have hresult : args ≠ [] ∧ args.length % 2 = 0 → assocAll (coll :: args) = .ok (.map (start.insertAll (pairUp args))) := by
    rintro ⟨hne, heven⟩
    have hlength : 0 < args.length := List.length_pos_iff.2 hne
    have hleast : 3 ≤ (coll :: args).length := by
      rw [List.length_cons]
      omega
    have hodd : ((coll :: args).length % 2 == 0) = false := by
      rw [List.length_cons, beq_eq_false_iff_ne]
      omega
    rw [assocAll, needAtLeast, if_pos hleast, hodd]
    rcases hcoll with rfl | ⟨rfl, rfl⟩
    · rfl
    · rfl
  constructor
  · intro h
    have hargs := paired_of_assocAll h
    rw [hresult hargs] at h
    cases h
    exact ⟨hargs, rfl⟩
  · rintro ⟨hargs, rfl⟩
    exact hresult hargs

/-- The primitive `dissoc` erases its keys one after another. -/
theorem dissocAll_map (m : OrderedMap Value Value) (keys : List Value) :
    dissocAll (.map m :: keys) = .ok (.map (keys.foldl OrderedMap.erase m)) := by
  rw [dissocAll, needAtLeast, if_pos (by simp)]
  rfl

/-- Pairs are added to a map as long as each argument is one. -/
theorem conjMap_eq_ok_iff {index : Nat} {m : OrderedMap Value Value} {args : List Value} {v : OrderedMap Value Value} :
    conjMap index m args = .ok v ↔
      ∃ pairs : List (Value × Value), args = pairs.map (fun e => .vector [e.1, e.2]) ∧ v = m.insertAll pairs := by
  fun_induction conjMap index m args with
  | case1 index m =>
    constructor
    · intro h
      cases h
      exact ⟨[], rfl, rfl⟩
    · rintro ⟨pairs, hpairs, rfl⟩
      obtain rfl := List.map_eq_nil_iff.1 hpairs.symm
      rfl
  | case2 index m key value rest ih =>
    rw [ih]
    constructor
    · rintro ⟨pairs, rfl, rfl⟩
      exact ⟨(key, value) :: pairs, rfl, rfl⟩
    · rintro ⟨pairs, hpairs, rfl⟩
      obtain ⟨e, pairs, rfl, he, rfl⟩ := List.map_eq_cons_iff.1 hpairs.symm
      cases he
      exact ⟨pairs, rfl, rfl⟩
  | case3 index m x rest hne =>
    constructor
    · intro h
      cases h
    · rintro ⟨pairs, hpairs, rfl⟩
      obtain ⟨e, -, -, rfl, -⟩ := List.map_eq_cons_iff.1 hpairs.symm
      exact absurd rfl (hne e.1 e.2)

/-- The primitive `conj` takes pairs, and inserts them one after another. -/
theorem conjAll_eq_ok_iff {m : OrderedMap Value Value} {args : List Value} {v : Value} :
    conjAll (.map m :: args) = .ok v ↔
      ∃ pairs : List (Value × Value), args = pairs.map (fun e => .vector [e.1, e.2]) ∧ v = .map (m.insertAll pairs) := by
  have heq : conjAll (.map m :: args) = conjMap 1 m args >>= fun m => .ok (.map m) := by
    rw [conjAll, needAtLeast, if_pos (by simp)]
    rfl
  rw [heq]
  constructor
  · intro h
    cases hm : conjMap 1 m args with
    | error e =>
      rw [hm] at h
      cases h
    | ok m' =>
      rw [hm] at h
      cases h
      obtain ⟨pairs, rfl, rfl⟩ := conjMap_eq_ok_iff.1 hm
      exact ⟨pairs, rfl, rfl⟩
  · rintro ⟨pairs, hpairs, rfl⟩
    rw [conjMap_eq_ok_iff.2 ⟨pairs, hpairs, rfl⟩]
    rfl

end Primitive

section

variable (history : List (Edit Value Value))

/-- What a sound edit gives is the map with that edit in its history. -/
theorem editedMap_iff {edits : List (Edit Value Value)} {given : List Value} {v : Value} {m : OrderedMap Value Value}
    (hm : OrderedMap.ofHistory (edits ++ history) = m) (hsound : (∀ x ∈ given, x.Sound) → ∀ edit ∈ edits, edit.Sound) :
    EditedMap history edits given v ↔ v = .map m :=
  ⟨fun h => hm ▸ h.eq, fun h => ⟨hm ▸ h, hsound⟩⟩

theorem sound_pairUp {args : List Value} (h : ∀ x ∈ args, x.Sound) : ∀ e ∈ pairUp args, e.1.Sound ∧ e.2.Sound :=
  fun _ he => ⟨h _ (mem_pairUp he).1, h _ (mem_pairUp he).2⟩

theorem sound_pairVectors {pairs : List (Value × Value)}
    (h : ∀ x ∈ pairs.map (fun e => Value.vector [e.1, e.2]), x.Sound) : ∀ e ∈ pairs, e.1.Sound ∧ e.2.Sound := by
  intro e he
  have hvector := (h _ (List.mem_map_of_mem he)).of_vector
  exact ⟨hvector e.1 (by simp), hvector e.2 (by simp)⟩

/-- Every operation of the language on maps adds its edits to the history. -/
theorem editedByLanguage : EditedByLanguage history where
  assoc args v := by
    rw [editedMap_iff history (OrderedMap.ofHistory_inserts _ _) fun h => Edit.sound_inserts (sound_pairUp h)]
    exact Primitive.assocAll_eq_ok_iff (.inl rfl)
  assocNil args v := by
    rw [editedMap_iff history (OrderedMap.ofHistory_collect _ _) fun h => Edit.sound_collect (sound_pairUp h)]
    exact Primitive.assocAll_eq_ok_iff (.inr ⟨rfl, rfl⟩)
  dissoc keys v := by
    rw [editedMap_iff history (OrderedMap.ofHistory_erasures _ _) Edit.sound_erasures, Primitive.dissocAll_map,
      Except.ok.injEq, eq_comm]
  conj args v := by
    refine Primitive.conjAll_eq_ok_iff.trans (exists_congr fun pairs => and_congr_right ?_)
    rintro rfl
    rw [editedMap_iff history (OrderedMap.ofHistory_inserts _ _) fun h => Edit.sound_inserts (sound_pairVectors h)]
  literal eval entries env := by
    simp only [OrderedMap.ofHistory_collect]
    rfl
  quoted entries := by rw [OrderedMap.ofHistory_collect, Value.toDatum]
  collected _ h := Edit.sound_collect h

end

/-! ## Maps are what their histories say -/

/-- A map is what its history says. -/
structure FaithfulMap (history : List (Edit Value Value)) (m : OrderedMap Value Value) : Prop where
  sound : (Value.map m).Sound
  distinct : Distinct (fun e f => Value.Equal e.1 f.1) m.entries
  /-- The key and the value that stand under a key are those of its last insertion since it was last taken away. -/
  stored : ∀ key : Value, key.Sound → m.entries.find? (fun e => key == e.1) = lastInserted? key history
  get : ∀ key : Value, key.Sound → m.get? key = (lastInserted? key history).map (·.2)
  contains : ∀ key, m.contains key = true ↔ ∃ value, m.get? key = some value
  order : OrderedMap.InOrderOfBirth history m.keys
  /-- A key that is inserted again keeps its place. -/
  replaces : ∀ key value, m.contains key = true → ∃ before e after, m.entries = before ++ e :: after ∧ Value.Equal key e.1 ∧
    (m.insert key value).entries = before ++ (key, value) :: after
  appends : ∀ key value, m.contains key = false → (m.insert key value).entries = m.entries ++ [(key, value)]
  /-- An erasure keeps all entries with other keys, in their order. -/
  erases : ∀ key, (m.erase key).entries.Sublist m.entries ∧
    ∀ e ∈ m.entries, e ∈ (m.erase key).entries ↔ ¬Value.Equal key e.1

/-- A map is kept in two structures that are in step. -/
structure IndexedAs (m : OrderedMap Value Value) (i : IndexedMap Value Value) : Prop where
  entries : i.entries = m.entries
  size : i.index.size = i.entries.length
  points : ∀ e ∈ i.index.entries, ∃ f, i.entries[e.2]? = some f ∧ Value.Equal e.1 f.1
  get : ∀ key : Value, key.Sound → i.get? key = m.get? key
  contains : ∀ key : Value, key.Sound → i.contains key = m.contains key

variable {history : List (Edit Value Value)}

/-- A map with a sound history is faithful to it. -/
theorem faithfulMap_ofHistory (hsound : ∀ edit ∈ history, edit.Sound) : FaithfulMap history (.ofHistory history) := by
  have hgood := Edit.good_of_sound hsound
  have hstored := fun (key : Value) (hkey : key.Sound) => OrderedMap.find?_ofHistory Value.equivalenceOn_sound hgood hkey
  refine
    { sound := Value.sound_map_iff.2 ⟨history, hsound, rfl⟩
      distinct := (Value.soundEntries_ofHistory hsound).distinct
      stored := hstored
      get := fun key hkey => by rw [OrderedMap.get?, hstored key hkey]
      contains := fun key => by rw [OrderedMap.contains_eq_isSome, Option.isSome_iff_exists]
      order := OrderedMap.inOrderOfBirth_ofHistory Value.equivalenceOn_sound hgood
      replaces := fun key value h => OrderedMap.insertEntry_of_contains value h
      appends := fun key value h => OrderedMap.insertEntry_of_not_contains value h
      erases := fun key => ⟨List.filter_sublist, fun e he => ?_⟩ }
  simp [OrderedMap.erase, he, Value.Equal]

/-- So is the indexed map with that history. -/
theorem indexedAs_ofHistory (hsound : ∀ edit ∈ history, edit.Sound) : IndexedAs (.ofHistory history) (.ofHistory history) := by
  have hgood := Edit.good_of_sound hsound
  obtain ⟨hconsistent, hentries⟩ := IndexedMap.ofHistory_refines Value.equivalenceOn_sound hgood
  refine ⟨hentries, hconsistent.size, hconsistent.points, fun key hkey => ?_, fun key hkey => ?_⟩
  · rw [hconsistent.get?_eq hkey, hentries]
  · rw [hconsistent.contains_eq hkey, hentries]

/-- For every history of insertions, erasures and collections, the map is what the history says, the index that it is kept with is
in step, and what the language makes of it are maps with longer histories. Two maps are equal if and only if they hold the same
under every key. -/
theorem map_faithful (hsound : ∀ edit ∈ history, edit.Sound) :
    FaithfulMap history (.ofHistory history) ∧ IndexedAs (.ofHistory history) (.ofHistory history) ∧ EditedByLanguage history ∧
      ∀ other : List (Edit Value Value), (∀ edit ∈ other, edit.Sound) →
        (Value.Equal (.map (.ofHistory history)) (.map (.ofHistory other)) ↔
          ∀ key : Value, key.Sound →
            ((OrderedMap.ofHistory history).get? key == (OrderedMap.ofHistory other).get? key) = true) ∧
        (IndexedMap.ofHistory history).same (.ofHistory other) =
          (Value.map (.ofHistory history) == Value.map (.ofHistory other)) := by
  have hentries := Value.soundEntries_ofHistory hsound
  refine ⟨faithfulMap_ofHistory hsound, indexedAs_ofHistory hsound, editedByLanguage history, fun other hother => ⟨?_, ?_⟩⟩
  · have hothers := Value.soundEntries_ofHistory hother
    exact ⟨fun h _ => Value.get?_of_equal_map hentries hothers h, Value.equal_map_of_get? hentries hothers⟩
  · have hindexed := indexedAs_ofHistory hother
    exact Value.same_eq_equal hentries (Value.soundEntries_ofHistory hother) (indexedAs_ofHistory hsound).entries hindexed.entries
      hindexed.get

/-- A key inserted twice, a key that is a vector, and a key that was taken away again. -/
def longHistory : List (Edit Value Value) :=
  [.erase (.str "b"), .insert (.sym "a") (.bool true), .insert (.str "b") .nil, .insert (.vector [.nil]) (.bool false),
    .insert (.sym "a") .nil]

/-- What is left of them, inserted the other way round. -/
def shortHistory : List (Edit Value Value) := [.insert (.sym "a") (.bool true), .insert (.vector [.nil]) (.bool false)]

theorem sound_longHistory : ∀ edit ∈ longHistory, edit.Sound := by
  have hvector : (Value.vector [.nil]).Sound := .vector (List.forall_mem_singleton.2 (.atom rfl))
  simp only [longHistory, List.forall_mem_cons, Edit.Sound]
  exact ⟨.atom rfl, ⟨.atom rfl, .atom rfl⟩, ⟨.atom rfl, .atom rfl⟩, ⟨hvector, .atom rfl⟩, ⟨.atom rfl, .atom rfl⟩,
    List.forall_mem_nil _⟩

theorem sound_shortHistory : ∀ edit ∈ shortHistory, edit.Sound := by
  have hsubset : shortHistory ⊆ longHistory := by simp [shortHistory, longHistory]
  exact fun edit hedit => sound_longHistory edit (hsubset hedit)

/-- The two list their keys in different orders; still they hold the same under every key there is. -/
theorem map_faithful_reordered :
    (OrderedMap.ofHistory longHistory).keys = [.sym "a", .vector [.nil]] ∧
      (OrderedMap.ofHistory shortHistory).keys = [.vector [.nil], .sym "a"] ∧
      ∀ key : Value, key.Sound →
        ((OrderedMap.ofHistory longHistory).get? key == (OrderedMap.ofHistory shortHistory).get? key) = true := by
  obtain ⟨-, -, -, hequal⟩ := map_faithful sound_longHistory
  exact ⟨rfl, rfl, (hequal shortHistory sound_shortHistory).1.1 rfl⟩

end MiniLisp
