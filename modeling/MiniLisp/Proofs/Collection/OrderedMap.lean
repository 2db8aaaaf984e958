import MiniLisp.Collection.OrderedMap
import MiniLisp.Proofs.Collection.Covering
import Mathlib.Data.List.Basic

/-!
# What a map holds, read off its history

A history is the edits that made a map of the empty one, the latest first. What the map holds under a key is what was last
inserted there since it was last taken away (`OrderedMap.find?_ofHistory`), no two of its keys are equal
(`OrderedMap.distinct_ofHistory`), and it lists its keys in the order in which they came
(`OrderedMap.inOrderOfBirth_ofHistory`): a key came with its first insertion since it was last taken away.

Keys are compared by a boolean equality that need be an equivalence among good keys only.
-/

namespace MiniLisp

variable {κ ν : Type}

/-- One edit of a map. A map that is collected from pairs is cleared, and then the pairs are inserted. -/
inductive Edit (κ ν : Type) where
  | insert (key : κ) (value : ν)
  | erase (key : κ)
  | clear

/-- The keys of an edit are good. -/
def Edit.Good (good : κ → Prop) : Edit κ ν → Prop
  | insert key _ | erase key => good key
  | clear => True

/-- The edits that insert pairs, one after the other. -/
def Edit.inserts (pairs : List (κ × ν)) : List (Edit κ ν) := (pairs.map fun e => .insert e.1 e.2).reverse

/-- The edits that take keys away, one after the other. -/
def Edit.erasures (keys : List κ) : List (Edit κ ν) := (keys.map .erase).reverse

/-- The edits that collect a map from pairs. -/
def Edit.collect (pairs : List (κ × ν)) : List (Edit κ ν) := Edit.inserts pairs ++ [.clear]

/-- Of several insertions, the first one comes first. -/
theorem Edit.inserts_cons (e : κ × ν) (pairs : List (κ × ν)) (before : List (Edit κ ν)) :
    Edit.inserts (e :: pairs) ++ before = Edit.inserts pairs ++ .insert e.1 e.2 :: before := by
  simp [Edit.inserts]

variable [BEq κ]

/-- The boolean equality of keys is an equivalence among good keys. -/
def EquivalenceOn (good : κ → Prop) : Prop := ∀ k, good k → EquivalenceAt (fun a b => (a == b) = true) good k

/-- Equal keys are equal to the same keys. -/
theorem EquivalenceOn.beq_congr {good : κ → Prop} (h : EquivalenceOn good) {a b c : κ} (ha : good a) (hb : good b) (hc : good c)
    (hab : (a == b) = true) : (a == c) = (b == c) := by
  refine Bool.eq_iff_iff.2 ⟨fun hac => ?_, fun hbc => ?_⟩
  · exact (h a ha).join hb hc hab hac
  · exact (h a ha).trans hb hc hab hbc

theorem EquivalenceOn.beq_comm {good : κ → Prop} (h : EquivalenceOn good) {a b : κ} (ha : good a) (hb : good b) :
    (a == b) = (b == a) :=
  Bool.eq_iff_iff.2 ⟨(h a ha).symm hb, (h b hb).symm ha⟩

/-- Equal keys are equal to the same keys. -/
theorem EquivalenceOn.beq_congr_right {good : κ → Prop} (h : EquivalenceOn good) {a b c : κ} (ha : good a) (hb : good b)
    (hc : good c) (hab : (a == b) = true) : (c == a) = (c == b) := by
  rw [h.beq_comm hc ha, h.beq_comm hc hb, h.beq_congr ha hb hc hab]

/-- A key that is equal to one of two different keys is not equal to the other. -/
theorem EquivalenceOn.beq_eq_false {good : κ → Prop} (h : EquivalenceOn good) {a b c : κ} (ha : good a) (hb : good b)
    (hc : good c) (hca : (c == a) = true) (hba : (b == a) = false) : (c == b) = false := by
  rw [h.beq_congr hc ha hb hca, h.beq_comm ha hb]
  exact hba

/-! ## What a history says of a key -/

/-- The last insertion of a key since it was last taken away. -/
def lastInserted? (key : κ) : List (Edit κ ν) → Option (κ × ν)
  | [] => none
  | .insert k v :: before => if key == k then some (k, v) else lastInserted? key before
  | .erase k :: before => if key == k then none else lastInserted? key before
  | .clear :: _ => none

/-- When a key came: how many edits there were before its first insertion since it was last taken away. -/
def birth? (key : κ) : List (Edit κ ν) → Option Nat
  | [] => none
  | .insert k _ :: before => if key == k then some ((birth? key before).getD before.length) else birth? key before
  | .erase k :: before => if key == k then none else birth? key before
  | .clear :: _ => none

/-- A key was born exactly if it was inserted and not erased since. -/
theorem isSome_birth? (key : κ) (history : List (Edit κ ν)) :
    (birth? key history).isSome = (lastInserted? key history).isSome := by
  induction history with
  | nil => rfl
  | cons edit before ih =>
    cases edit with
    | insert k v =>
      rw [birth?, lastInserted?]
      split
      · rfl
      · exact ih
    | erase k =>
      rw [birth?, lastInserted?]
      split
      · rfl
      · exact ih
    | clear => rfl

/-- A key was born before now. -/
theorem birth?_lt {key : κ} {history : List (Edit κ ν)} {time : Nat} (h : birth? key history = some time) :
    time < history.length := by
  induction history generalizing time with
  | nil => cases h
  | cons edit before ih =>
    rw [List.length_cons]
    cases edit with
    | insert k v =>
      rw [birth?] at h
      split at h
      · cases hb : birth? key before with
        | none =>
          rw [hb] at h
          cases h
          exact Nat.lt_succ_self _
        | some t =>
          rw [hb] at h
          cases h
          exact Nat.lt_succ_of_lt (ih hb)
      · exact Nat.lt_succ_of_lt (ih h)
    | erase k =>
      rw [birth?] at h
      split at h
      · cases h
      · exact Nat.lt_succ_of_lt (ih h)
    | clear => cases h

/-- A further insertion does not change when a key came. -/
theorem birth?_insert_of_some {key : κ} {history : List (Edit κ ν)} {time : Nat} (h : birth? key history = some time) (k : κ)
    (v : ν) : birth? key (.insert k v :: history) = some time := by
  rw [birth?, h]
  split <;> rfl

variable {good : κ → Prop}

/-- Equal keys came at the same time. -/
theorem birth?_congr (hequiv : EquivalenceOn good) {a b : κ} (ha : good a) (hb : good b) (hab : (a == b) = true)
    {history : List (Edit κ ν)} (hgood : ∀ edit ∈ history, edit.Good good) : birth? a history = birth? b history := by
  induction history with
  | nil => rfl
  | cons edit before ih =>
    obtain ⟨hedit, hbefore⟩ := List.forall_mem_cons.1 hgood
    cases edit with
    | insert k v => rw [birth?, birth?, hequiv.beq_congr ha hb hedit hab, ih hbefore]
    | erase k => rw [birth?, birth?, hequiv.beq_congr ha hb hedit hab, ih hbefore]
    | clear => rfl

namespace OrderedMap

/-! ## One edit -/

/-- An inserted key that is there already keeps its place; its entry is replaced. -/
theorem insertEntry_of_contains {key : κ} (value : ν) {entries : List (κ × ν)} (h : entries.any fun e => key == e.1) :
    ∃ before e after, entries = before ++ e :: after ∧ (key == e.1) = true ∧
      insertEntry key value entries = before ++ (key, value) :: after := by
  induction entries with
  | nil => cases h
  | cons e entries ih =>
    rw [insertEntry]
    split
    · rename_i hkey
      exact ⟨[], e, entries, rfl, hkey, rfl⟩
    · rename_i hkey
      obtain ⟨before, f, after, rfl, hf, heq⟩ := ih (by simpa [hkey] using h)
      exact ⟨e :: before, f, after, rfl, hf, by rw [heq]; rfl⟩

/-- A key that was not there goes to the end. -/
theorem insertEntry_of_not_contains {key : κ} (value : ν) {entries : List (κ × ν)}
    (h : (entries.any fun e => key == e.1) = false) : insertEntry key value entries = entries ++ [(key, value)] := by
  induction entries with
  | nil => rfl
  | cons e entries ih =>
    obtain ⟨hkey, hrest⟩ : (key == e.1) = false ∧ (entries.any fun e => key == e.1) = false := by
      simpa only [List.any_cons, Bool.or_eq_false_iff] using h
    rw [insertEntry, hkey, ih hrest]
    rfl

/-- Nothing but the new entry comes in. -/
theorem mem_insertEntry {key : κ} {value : ν} {entries : List (κ × ν)} {e : κ × ν} (h : e ∈ insertEntry key value entries) :
    e = (key, value) ∨ e ∈ entries := by
  induction entries with
  | nil => exact .inl (List.mem_singleton.1 h)
  | cons f entries ih =>
    rw [insertEntry] at h
    split at h
    · rcases List.mem_cons.1 h with rfl | h
      · exact .inl rfl
      · exact .inr (List.mem_cons_of_mem _ h)
    · rcases List.mem_cons.1 h with rfl | h
      · exact .inr List.mem_cons_self
      · exact (ih h).imp_right (List.mem_cons_of_mem _)

/-- The entry found under a key after an insertion. -/
theorem find?_insertEntry (hequiv : EquivalenceOn good) {key probe : κ} (hkey : good key) (hprobe : good probe) (value : ν)
    {entries : List (κ × ν)} (hgood : ∀ e ∈ entries, good e.1) :
    (insertEntry key value entries).find? (fun e => probe == e.1) =
      if probe == key then some (key, value) else entries.find? fun e => probe == e.1 := by
  induction entries with
  | nil => cases h : probe == key <;> simp [insertEntry, h]
  | cons e entries ih =>
    obtain ⟨he, hrest⟩ := List.forall_mem_cons.1 hgood
    cases hke : key == e.1 with
    | true =>
      -- The new entry answers to the keys that the old one answered to.
      have hpe : (probe == key) = (probe == e.1) := hequiv.beq_congr_right hkey he hprobe hke
      rw [insertEntry, hke, if_pos rfl, List.find?_cons, List.find?_cons, ← hpe]
      cases probe == key <;> rfl
    | false =>
      rw [insertEntry, hke, if_neg Bool.false_ne_true, List.find?_cons, List.find?_cons, ih hrest]
      cases hpe : probe == e.1 with
      | true =>
        rw [hequiv.beq_eq_false he hkey hprobe hpe hke]
        rfl
      | false => rfl

/-- The entry found under a key after an erasure. -/
theorem find?_erase (hequiv : EquivalenceOn good) {key probe : κ} (hkey : good key) (hprobe : good probe) {m : OrderedMap κ ν}
    (hgood : ∀ e ∈ m.entries, good e.1) :
    (m.erase key).entries.find? (fun e => probe == e.1) =
      if probe == key then none else m.entries.find? fun e => probe == e.1 := by
  obtain ⟨entries⟩ := m
  show (entries.filter fun e => !(key == e.1)).find? (fun e => probe == e.1) = _
  induction entries with
  | nil => simp
  | cons e entries ih =>
    obtain ⟨he, hrest⟩ := List.forall_mem_cons.1 hgood
    have ih := ih hrest
    cases hke : key == e.1 with
    | true =>
      have hpe : (probe == key) = (probe == e.1) := hequiv.beq_congr_right hkey he hprobe hke
      rw [List.filter_cons_of_neg (by simp [hke]), ih, List.find?_cons, ← hpe]
      cases probe == key <;> rfl
    | false =>
      rw [List.filter_cons_of_pos (by simp [hke]), List.find?_cons, ih, List.find?_cons]
      cases hpe : probe == e.1 with
      | true =>
        rw [hequiv.beq_eq_false he hkey hprobe hpe hke]
        rfl
      | false => rfl

/-- After an insertion its key has the new value, and the other keys have what they had. -/
theorem get?_insert (hequiv : EquivalenceOn good) {key probe : κ} (hkey : good key) (hprobe : good probe) (value : ν)
    {m : OrderedMap κ ν} (hgood : ∀ e ∈ m.entries, good e.1) :
    (m.insert key value).get? probe = if probe == key then some value else m.get? probe := by
  rw [get?, insert, find?_insertEntry hequiv hkey hprobe value hgood, get?]
  split <;> rfl

/-! ## A history of edits -/

/-- The map after an edit. -/
def edit (m : OrderedMap κ ν) : Edit κ ν → OrderedMap κ ν
  | .insert key value => m.insert key value
  | .erase key => m.erase key
  | .clear => empty

/-- The map that edits make of the empty one. -/
def ofHistory : List (Edit κ ν) → OrderedMap κ ν
  | [] => empty
  | e :: before => (ofHistory before).edit e

variable {history : List (Edit κ ν)}

/-- What a map holds was inserted. -/
theorem mem_ofHistory {e : κ × ν} (he : e ∈ (ofHistory history).entries) : .insert e.1 e.2 ∈ history := by
  induction history with
  | nil => cases he
  | cons edit before ih =>
    cases edit with
    | insert key value =>
      rcases mem_insertEntry he with rfl | he
      · exact List.mem_cons_self
      · exact List.mem_cons_of_mem _ (ih he)
    | erase key => exact List.mem_cons_of_mem _ (ih (List.mem_filter.1 he).1)
    | clear => cases he

/-- The keys of a map are keys that were inserted. -/
theorem good_ofHistory (hgood : ∀ edit ∈ history, edit.Good good) : ∀ e ∈ (ofHistory history).entries, good e.1 :=
  fun _ he => hgood _ (mem_ofHistory he)

/-- Several edits that insert make up the insertion of several entries. -/
theorem ofHistory_inserts (pairs : List (κ × ν)) (before : List (Edit κ ν)) :
    ofHistory (Edit.inserts pairs ++ before) = (ofHistory before).insertAll pairs := by
  induction pairs generalizing before with
  | nil => rfl
  | cons e pairs ih =>
    rw [Edit.inserts_cons, ih]
    rfl

/-- Several edits that erase make up the erasing of several keys. -/
theorem ofHistory_erasures (keys : List κ) (before : List (Edit κ ν)) :
    ofHistory (Edit.erasures keys ++ before) = keys.foldl erase (ofHistory before) := by
  induction keys generalizing before with
  | nil => rfl
  | cons key keys ih =>
    have hsplit : (Edit.erasures (key :: keys) : List (Edit κ ν)) ++ before = Edit.erasures keys ++ .erase key :: before := by
      simp [Edit.erasures]
    rw [hsplit, ih]
    rfl

/-- A map that is collected from pairs does not depend on what was there. -/
theorem ofHistory_collect (pairs : List (κ × ν)) (before : List (Edit κ ν)) :
    ofHistory (Edit.collect pairs ++ before) = ofList pairs := by
  rw [Edit.collect, List.append_assoc, ofHistory_inserts]
  rfl

/-- Under a key there is what was last inserted since the key was last taken away. -/
theorem find?_ofHistory (hequiv : EquivalenceOn good) (hgood : ∀ edit ∈ history, edit.Good good) {key : κ} (hkey : good key) :
    (ofHistory history).entries.find? (fun e => key == e.1) = lastInserted? key history := by
  induction history with
  | nil => rfl
  | cons edit before ih =>
    obtain ⟨hedit, hbefore⟩ := List.forall_mem_cons.1 hgood
    have hentries := good_ofHistory hbefore
    cases edit with
    | insert k v =>
      rw [lastInserted?, ← ih hbefore]
      exact find?_insertEntry hequiv hedit hkey v hentries
    | erase k =>
      rw [lastInserted?, ← ih hbefore]
      exact find?_erase hequiv hedit hkey hentries
    | clear => rfl

/-- A key is in a map exactly if it has a value there. -/
theorem contains_eq_isSome (m : OrderedMap κ ν) (key : κ) : m.contains key = (m.get? key).isSome := by
  rw [contains, get?, Option.isSome_map, List.isSome_find?]

/-- A key is in a map exactly if it is alive at the end of the history. -/
theorem contains_ofHistory (hequiv : EquivalenceOn good) (hgood : ∀ edit ∈ history, edit.Good good) {key : κ}
    (hkey : good key) : (ofHistory history).contains key = (birth? key history).isSome := by
  rw [isSome_birth?, ← find?_ofHistory hequiv hgood hkey, List.isSome_find?]
  rfl

/-- An insertion makes no second entry for a key. -/
theorem distinct_insertEntry (hequiv : EquivalenceOn good) {key : κ} (hkey : good key) (value : ν) {entries : List (κ × ν)}
    (hgood : ∀ e ∈ entries, good e.1) (hd : Distinct (fun e f => (e.1 == f.1) = true) entries) :
    Distinct (fun e f => (e.1 == f.1) = true) (insertEntry key value entries) := by
  cases hany : entries.any fun e => key == e.1 with
  | true =>
    obtain ⟨before, e, after, rfl, hke, heq⟩ := insertEntry_of_contains value hany
    rw [heq]
    have he := hgood e (by simp)
    refine hd.replace (fun f hf hfe => ?_) fun f hf hef => ?_
    · rwa [hequiv.beq_congr_right hkey he (hgood f (by simp [hf])) hke] at hfe
    · rwa [hequiv.beq_congr hkey he (hgood f (by simp [hf])) hke] at hef
  | false =>
    rw [insertEntry_of_not_contains value hany]
    refine List.pairwise_append.2 ⟨hd, List.pairwise_singleton _ _, fun e he f hf => ?_⟩
    obtain rfl := List.mem_singleton.1 hf
    have hne : ¬(key == e.1) = true := List.any_eq_false.1 hany e he
    rwa [hequiv.beq_comm hkey (hgood e he)] at hne

/-- Pairs with new keys that are all different are added as they are. -/
theorem insertAll_of_distinct (hequiv : EquivalenceOn good) (entries : List (κ × ν)) {pairs : List (κ × ν)}
    (hgood : ∀ e ∈ entries ++ pairs, good e.1) (hd : Distinct (fun e f => (e.1 == f.1) = true) (entries ++ pairs)) :
    insertAll ⟨entries⟩ pairs = ⟨entries ++ pairs⟩ := by
  induction pairs generalizing entries with
  | nil => simp [insertAll]
  | cons e pairs ih =>
    have hnew : (entries.any fun f => e.1 == f.1) = false := by
      refine List.any_eq_false.2 fun f hf => ?_
      rw [hequiv.beq_comm (hgood e (by simp)) (hgood f (by simp [hf]))]
      exact (List.pairwise_append.1 hd).2.2 f hf e List.mem_cons_self
    have hsplit : entries ++ e :: pairs = (entries ++ [e]) ++ pairs := by simp
    rw [hsplit] at hgood hd ⊢
    rw [← ih _ hgood hd, ← insertEntry_of_not_contains e.2 hnew]
    rfl

/-- Entries with different keys are the entries of the map that is collected from them. -/
theorem ofList_of_distinct (hequiv : EquivalenceOn good) {pairs : List (κ × ν)} (hgood : ∀ e ∈ pairs, good e.1)
    (hd : Distinct (fun e f => (e.1 == f.1) = true) pairs) : ofList pairs = ⟨pairs⟩ :=
  insertAll_of_distinct hequiv [] hgood hd

/-- No two keys of a map are equal. -/
theorem distinct_ofHistory (hequiv : EquivalenceOn good) (hgood : ∀ edit ∈ history, edit.Good good) :
    Distinct (fun e f => (e.1 == f.1) = true) (ofHistory history).entries := by
  induction history with
  | nil => exact List.Pairwise.nil
  | cons edit before ih =>
    obtain ⟨hedit, hbefore⟩ := List.forall_mem_cons.1 hgood
    cases edit with
    | insert key value => exact distinct_insertEntry hequiv hedit value (good_ofHistory hbefore) (ih hbefore)
    | erase key => exact List.Pairwise.filter _ (ih hbefore)
    | clear => exact List.Pairwise.nil

/-- These keys came one after the other. -/
def InOrderOfBirth (history : List (Edit κ ν)) (keys : List κ) : Prop :=
  ∃ times : List Nat, keys.map (birth? · history) = times.map some ∧ times.Pairwise (· < ·)

omit [BEq κ] in
theorem keys_mk (entries : List (κ × ν)) : (OrderedMap.mk entries).keys = entries.map (·.1) := rfl

/-- The keys that are there keep their times when another is inserted. -/
theorem births_kept {keys : List κ} {times : List Nat} (h : keys.map (birth? · history) = times.map some) (k : κ) (v : ν) :
    keys.map (birth? · (.insert k v :: history)) = times.map some := by
  rw [← h]
  refine List.map_congr_left fun key hkey => ?_
  have hmem : birth? key history ∈ times.map some := h ▸ List.mem_map_of_mem hkey
  obtain ⟨time, -, htime⟩ := List.mem_map.1 hmem
  rw [← htime]
  exact birth?_insert_of_some htime.symm k v

/-- A new key is the youngest, and a key that is inserted again keeps its age. -/
theorem inOrderOfBirth_insert (hequiv : EquivalenceOn good) {before : List (Edit κ ν)}
    (hgood : ∀ edit ∈ before, edit.Good good) {key : κ} (hkey : good key) (value : ν)
    (h : InOrderOfBirth before (ofHistory before).keys) :
    InOrderOfBirth (.insert key value :: before) (ofHistory (.insert key value :: before)).keys := by
  obtain ⟨times, htimes, hsorted⟩ := h
  have hkept := births_kept htimes key value
  have hbirth := contains_ofHistory hequiv hgood hkey
  have hentries := good_ofHistory hgood
  show InOrderOfBirth _ (OrderedMap.mk (insertEntry key value (ofHistory before).entries)).keys
  cases hany : (ofHistory before).contains key with
  | true =>
    obtain ⟨first, e, last, hsplit, hke, heq⟩ := insertEntry_of_contains value hany
    have he : good e.1 := hentries e (by rw [hsplit]; simp)
    have hhistory : ∀ edit ∈ Edit.insert key value :: before, edit.Good good := List.forall_mem_cons.2 ⟨hkey, hgood⟩
    refine ⟨times, ?_, hsorted⟩
    have hkeys : (ofHistory before).keys = first.map (·.1) ++ e.1 :: last.map (·.1) := by rw [keys, hsplit]; simp
    rw [← hkept, hkeys, heq]
    simp [keys_mk, birth?_congr hequiv hkey he hke hhistory]
  | false =>
    rw [hany] at hbirth
    have hnone : birth? key before = none := Option.not_isSome_iff_eq_none.1 (by simp [← hbirth])
    have hself : (key == key) = true := (hequiv key hkey).refl
    -- The new key comes last, after all that came at an earlier edit.
    refine ⟨times ++ [before.length], ?_, List.pairwise_append.2 ⟨hsorted, List.pairwise_singleton _ _, ?_⟩⟩
    · rw [insertEntry_of_not_contains value hany, keys_mk, List.map_append, List.map_append, List.map_append, ← hkept]
      simp [keys, birth?, hnone, hself]
    · intro time htime last hlast
      obtain rfl := List.mem_singleton.1 hlast
      have hmem : some time ∈ (ofHistory before).keys.map (birth? · before) := htimes ▸ List.mem_map_of_mem htime
      obtain ⟨_, -, hlt⟩ := List.mem_map.1 hmem
      exact birth?_lt hlt

/-- The keys that are left when one is erased keep their ages. -/
theorem inOrderOfBirth_erase (hequiv : EquivalenceOn good) {before : List (Edit κ ν)}
    (hgood : ∀ edit ∈ before, edit.Good good) {key : κ} (hkey : good key) (h : InOrderOfBirth before (ofHistory before).keys) :
    InOrderOfBirth (.erase key :: before) (ofHistory (.erase key :: before)).keys := by
  obtain ⟨times, htimes, hsorted⟩ := h
  have hentries := good_ofHistory hgood
  have hsublist : (((ofHistory before).erase key).keys.map (birth? · before)).Sublist (times.map some) := by
    rw [← htimes]
    exact (List.filter_sublist.map _).map _
  obtain ⟨left, hleft, heq⟩ := List.sublist_map_iff.1 hsublist
  refine ⟨left, ?_, hsorted.sublist hleft⟩
  rw [← heq]
  refine List.map_congr_left fun k hk => ?_
  obtain ⟨e, he, rfl⟩ := List.mem_map.1 hk
  obtain ⟨he, hne⟩ := List.mem_filter.1 he
  rw [birth?, hequiv.beq_comm (hentries e he) hkey, if_neg (by simpa using hne)]

/-- A map lists its keys in the order in which they came. -/
theorem inOrderOfBirth_ofHistory (hequiv : EquivalenceOn good) (hgood : ∀ edit ∈ history, edit.Good good) :
    InOrderOfBirth history (ofHistory history).keys := by
  induction history with
  | nil => exact ⟨[], rfl, List.Pairwise.nil⟩
  | cons edit before ih =>
    obtain ⟨hedit, hbefore⟩ := List.forall_mem_cons.1 hgood
    cases edit with
    | insert key value => exact inOrderOfBirth_insert hequiv hbefore hedit value (ih hbefore)
    | erase key => exact inOrderOfBirth_erase hequiv hbefore hedit (ih hbefore)
    | clear => exact ⟨[], rfl, List.Pairwise.nil⟩

end OrderedMap

/-! ## Maps that are collected from pairs -/

omit [BEq κ] in
/-- To collect entries with good keys takes edits of good keys. -/
theorem Edit.good_collect {pairs : List (κ × ν)} (hgood : ∀ e ∈ pairs, good e.1) :
    ∀ edit ∈ Edit.collect pairs, edit.Good good := by
  intro edit hedit
  rcases List.mem_append.1 hedit with hedit | hedit
  · obtain ⟨e, he, rfl⟩ := List.mem_map.1 (List.mem_reverse.1 hedit)
    exact hgood e he
  · obtain rfl := List.mem_singleton.1 hedit
    trivial

/-- The last of the pairs with a key is what was last inserted under it. -/
theorem lastInserted?_inserts (key : κ) (pairs : List (κ × ν)) (before : List (Edit κ ν)) :
    lastInserted? key (Edit.inserts pairs ++ before) =
      (pairs.reverse.find? fun e => key == e.1).or (lastInserted? key before) := by
  induction pairs generalizing before with
  | nil => rfl
  | cons e pairs ih =>
    rw [Edit.inserts_cons, ih, lastInserted?, List.reverse_cons, List.find?_append, Option.or_assoc, List.find?_singleton]
    split <;> rfl

/-- A key that is alive does not become younger by insertions. -/
theorem birth?_inserts_of_some {key : κ} {before : List (Edit κ ν)} {time : Nat} (h : birth? key before = some time)
    (pairs : List (κ × ν)) : birth? key (Edit.inserts pairs ++ before) = some time := by
  induction pairs generalizing before with
  | nil => exact h
  | cons e pairs ih =>
    rw [Edit.inserts_cons]
    exact ih (birth?_insert_of_some h e.1 e.2)

/-- A new key comes with the first of the pairs that have it. -/
theorem birth?_inserts_of_none {key : κ} {before : List (Edit κ ν)} (h : birth? key before = none) (pairs : List (κ × ν)) :
    birth? key (Edit.inserts pairs ++ before) = (pairs.findIdx? fun e => key == e.1).map (· + before.length) := by
  induction pairs generalizing before with
  | nil => exact h
  | cons e pairs ih =>
    rw [Edit.inserts_cons, List.findIdx?_cons]
    cases hkey : key == e.1 with
    | true =>
      have hfirst : birth? key (.insert e.1 e.2 :: before) = some before.length := by simp [birth?, hkey, h]
      rw [birth?_inserts_of_some hfirst, if_pos rfl, Option.map_some, Nat.zero_add]
    | false =>
      have hlater : birth? key (.insert e.1 e.2 :: before) = none := by simp [birth?, hkey, h]
      rw [ih hlater, if_neg Bool.false_ne_true, Option.map_map, List.length_cons]
      congr 1
      funext i
      simp only [Function.comp_apply]
      omega

namespace OrderedMap

variable {pairs : List (κ × ν)}

/-- A map that is made of a list has the history of collecting its entries. -/
theorem ofList_eq_ofHistory (pairs : List (κ × ν)) : ofList pairs = ofHistory (Edit.collect pairs) := by
  rw [← List.append_nil (Edit.collect pairs), ofHistory_collect]

/-- A map that is made of a list has no other entries. -/
theorem mem_ofList {e : κ × ν} (he : e ∈ (ofList pairs).entries) : e ∈ pairs := by
  rw [ofList_eq_ofHistory] at he
  simpa [Edit.collect, Edit.inserts] using mem_ofHistory he

/-- A map that is made of a list has one entry for each key. -/
theorem distinct_ofList (hequiv : EquivalenceOn good) (hgood : ∀ e ∈ pairs, good e.1) :
    Distinct (fun e f => (e.1 == f.1) = true) (ofList pairs).entries := by
  rw [ofList_eq_ofHistory]
  exact distinct_ofHistory hequiv (Edit.good_collect hgood)

/-- Under a key there is the last of the pairs with that key. -/
theorem find?_ofList (hequiv : EquivalenceOn good) (hgood : ∀ e ∈ pairs, good e.1) {key : κ} (hkey : good key) :
    (ofList pairs).entries.find? (fun e => key == e.1) = pairs.reverse.find? fun e => key == e.1 := by
  rw [ofList_eq_ofHistory, find?_ofHistory hequiv (Edit.good_collect hgood) hkey, Edit.collect, lastInserted?_inserts]
  exact Option.or_none

/-- The keys stand in the order of the first pairs that have them. -/
theorem pairwise_keys_ofList (hequiv : EquivalenceOn good) (hgood : ∀ e ∈ pairs, good e.1) :
    (ofList pairs).keys.Pairwise fun k k' =>
      pairs.findIdx (fun e => k == e.1) < pairs.findIdx (fun e => k' == e.1) := by
  obtain ⟨times, htimes, hsorted⟩ := inOrderOfBirth_ofHistory hequiv (Edit.good_collect hgood)
  rw [← ofList_eq_ofHistory] at htimes
  have hclear {key : κ} : birth? key ([.clear] : List (Edit κ ν)) = none := rfl
  have hbirth (key : κ) : birth? key (Edit.collect pairs) = (pairs.findIdx? fun e => key == e.1).map (· + 1) :=
    birth?_inserts_of_none hclear pairs
  have hcame : ∀ key ∈ (ofList pairs).keys,
      birth? key (Edit.collect pairs) = some (pairs.findIdx (fun e => key == e.1) + 1) := by
    intro key hkey
    have hmem : birth? key (Edit.collect pairs) ∈ times.map some := htimes ▸ List.mem_map_of_mem hkey
    obtain ⟨time, -, htime⟩ := List.mem_map.1 hmem
    rw [hbirth] at htime ⊢
    obtain ⟨i, hi, -⟩ := Option.map_eq_some_iff.1 htime.symm
    rw [hi, (List.findIdx?_eq_some_iff_findIdx_eq.1 hi).2, Option.map_some]
  have hpairwise : (times.map some).Pairwise fun a b => ∀ i, a = some i → ∀ j, b = some j → i < j := by
    refine List.pairwise_map.2 (hsorted.imp ?_)
    intro i j hlt a ha b hb
    cases ha
    cases hb
    exact hlt
  rw [← htimes] at hpairwise
  refine (List.pairwise_map.1 hpairwise).imp_of_mem fun hk hk' h => ?_
  exact Nat.lt_of_succ_lt_succ (h _ (hcame _ hk) _ (hcame _ hk'))

end OrderedMap

end MiniLisp
