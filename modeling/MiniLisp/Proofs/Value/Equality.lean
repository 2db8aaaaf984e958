import MiniLisp.Proofs.Collection.Covering
import MiniLisp.Value.Equality

/-!
# Equality of values is an equivalence

It is one for the values that can come up: a set is a list of elements and a map a list of entries, but only lists without
repetition are sets and maps (`Value.Sound`). Sets and maps are compared by their length and in one direction only, which for
lists with repetition says less. The main statement is `Value.Sound.equivalenceAt`, by induction on the value.
-/

namespace MiniLisp

namespace Value

/-- Two values are equal to the language. -/
def Equal (a b : Value) : Prop := (a == b) = true

instance (a b : Value) : Decidable (Equal a b) := inferInstanceAs (Decidable ((a == b) = true))

/-- Two entries are equal to the language. -/
def EqualEntry (e f : Value × Value) : Prop := Equal e.1 f.1 ∧ Equal e.2 f.2

/-- What tells a value without parts from others: its contents, or what identifies it. -/
inductive Atom where
  | nil
  | bool (b : Bool)
  | int (n : Int64)
  | big (n : Int)
  | ratio (q : Rat)
  | float (bits : UInt64)
  | str (s : String)
  | sym (s : Symbol)
  | closure (id : Nat)
  | macroFn (id : Nat)
  | native (p : Primitive)
  | module (frame : FrameId)
  | constructor (typeName tag : Symbol)

def Atom.ofNumber : Number → Atom
  | .int n => .int n
  | .big n _ => .big n
  | .ratio q _ => .ratio q
  | .float x => .float x.toBits

/-- The atom that a value without parts is. -/
def atom? : Value → Option Atom
  | .nil => some .nil
  | .bool b => some (.bool b)
  | .num n => some (.ofNumber n)
  | .str s => some (.str s)
  | .sym s => some (.sym s)
  | .closure f => some (.closure f.id)
  | .macroFn f => some (.macroFn f.id)
  | .native p => some (.native p)
  | .module _ env => some (.module env.frame)
  | .constructor v => some (.constructor v.typeName v.tag)
  | _ => none

/-- A value in which no set holds equal elements and no map equal keys, at any depth. -/
inductive Sound : Value → Prop where
  | atom {v : Value} {a : Atom} (h : v.atom? = some a) : Sound v
  | pair {h t : Value} (hh : Sound h) (ht : Sound t) : Sound (.pair h t)
  | vector {items : List Value} (hitems : ∀ x ∈ items, Sound x) : Sound (.vector items)
  | set {elements : List Value} (helements : ∀ x ∈ elements, Sound x) (hd : Distinct Equal elements) :
      Sound (.set ⟨elements⟩)
  | map {entries : List (Value × Value)} (hkeys : ∀ e ∈ entries, Sound e.1) (hvalues : ∀ e ∈ entries, Sound e.2)
      (hd : Distinct (fun e f => Equal e.1 f.1) entries) : Sound (.map ⟨entries⟩)
  | setForm {items : List Value} (hitems : ∀ x ∈ items, Sound x) : Sound (.setForm items)
  | mapForm {entries : List (Value × Value)} (hkeys : ∀ e ∈ entries, Sound e.1) (hvalues : ∀ e ∈ entries, Sound e.2) :
      Sound (.mapForm entries)
  | record {variant : Variant} {values : List Value} (hvalues : ∀ x ∈ values, Sound x) : Sound (.record variant values)

/-! ## What equality compares -/

/-- Two numbers are the same exactly if they are the same atom. -/
theorem same_iff {m n : Number} : m.same n = true ↔ Atom.ofNumber m = Atom.ofNumber n := by
  cases m <;> cases n <;> simp [Number.same, Atom.ofNumber]

/-- A value without parts is equal to those that are the same atom. -/
theorem equal_iff_of_atom {v b : Value} {a : Atom} (h : v.atom? = some a) : Equal v b ↔ v.atom? = b.atom? := by
  show beq v b = true ↔ _
  cases v with
  | pair | vector | set | map | setForm | mapForm | record => cases h
  | num n =>
    cases b with
    | num m => simp [beq, atom?, same_iff]
    | _ => cases n <;> simp [beq, atom?, Atom.ofNumber]
  | _ =>
    cases b with
    | num m => cases m <;> simp [beq, atom?, Atom.ofNumber]
    | _ => simp [beq, atom?, Variant.same]

/-- Items are equal one by one. -/
theorem beqItems_iff {xs ys : List Value} : beqItems xs ys = true ↔ List.Forall₂ Equal xs ys := by
  induction xs generalizing ys with
  | nil => cases ys <;> simp [beqItems]
  | cons x xs ih =>
    cases ys with
    | nil => simp [beqItems]
    | cons y ys => simp [beqItems, ih, Equal, BEq.beq]

theorem beqEntries_iff {es fs : List (Value × Value)} : beqEntries es fs = true ↔ List.Forall₂ EqualEntry es fs := by
  induction es generalizing fs with
  | nil => cases fs <;> simp [beqEntries]
  | cons e es ih =>
    cases fs with
    | nil => simp [beqEntries]
    | cons f fs => simp [beqEntries, ih, EqualEntry, Equal, BEq.beq]

/-- Items lie in others if each of them is equal to one of these. -/
theorem allIn_iff {xs ys : List Value} : allIn xs ys = true ↔ ∀ x ∈ xs, ∃ y ∈ ys, Equal x y := by
  induction xs with
  | nil => simp [allIn]
  | cons x xs ih => simp [allIn, ih, Equal, BEq.beq]

/-- Entries agree with others if each key is found there with an equal value. -/
theorem agree_iff {es fs : List (Value × Value)} :
    agree es fs = true ↔ ∀ e ∈ es, ∃ f, fs.find? (fun f => e.1 == f.1) = some f ∧ Equal e.2 f.2 := by
  induction es with
  | nil => simp [agree]
  | cons e es ih =>
    obtain ⟨k, v⟩ := e
    rw [agree, Bool.and_eq_true, ih, List.forall_mem_cons]
    refine and_congr_left fun _ => ?_
    show _ ↔ ∃ f, fs.find? (fun f => beq k f.1) = some f ∧ Equal v f.2
    cases fs.find? (fun f => beq k f.1) with
    | none => simp
    | some f => simp [Equal, BEq.beq]

/-- A pair is equal to pairs of equal parts alone. -/
theorem equal_pair {p : Value × Value} {b : Value} (h : Equal (.pair p.1 p.2) b) :
    ∃ q : Value × Value, b = .pair q.1 q.2 ∧ EqualEntry p q := by
  cases b with
  | pair h' t' => exact ⟨(h', t'), rfl, Bool.and_eq_true_iff.1 h⟩
  | _ => cases h

/-- A vector is equal to vectors of equal items alone. -/
theorem equal_vector {xs : List Value} {b : Value} (h : Equal (.vector xs) b) :
    ∃ ys, b = .vector ys ∧ List.Forall₂ Equal xs ys := by
  cases b with
  | vector ys => exact ⟨ys, rfl, beqItems_iff.1 h⟩
  | _ => cases h

theorem equal_setForm {xs : List Value} {b : Value} (h : Equal (.setForm xs) b) :
    ∃ ys, b = .setForm ys ∧ List.Forall₂ Equal xs ys := by
  cases b with
  | setForm ys => exact ⟨ys, rfl, beqItems_iff.1 h⟩
  | _ => cases h

theorem equal_mapForm {es : List (Value × Value)} {b : Value} (h : Equal (.mapForm es) b) :
    ∃ fs, b = .mapForm fs ∧ List.Forall₂ EqualEntry es fs := by
  cases b with
  | mapForm fs => exact ⟨fs, rfl, beqEntries_iff.1 h⟩
  | _ => cases h

/-- A record is equal to records of the same variant with equal values alone. -/
theorem equal_record {p : Variant × List Value} {b : Value} (h : Equal (.record p.1 p.2) b) :
    ∃ q : Variant × List Value, b = .record q.1 q.2 ∧ p.1.same q.1 = true ∧ List.Forall₂ Equal p.2 q.2 := by
  cases b with
  | record w ys =>
    obtain ⟨hsame, hitems⟩ := Bool.and_eq_true_iff.1 h
    exact ⟨(w, ys), rfl, hsame, beqItems_iff.1 hitems⟩
  | _ => cases h

/-- Sets are equal if each covers the other. -/
theorem equal_set_iff {xs ys : List Value} : Equal (.set ⟨xs⟩) (.set ⟨ys⟩) ↔ Covers Equal xs ys := by
  constructor
  · intro h
    obtain ⟨hlen, hall⟩ := Bool.and_eq_true_iff.1 h
    exact ⟨beq_iff_eq.1 hlen, allIn_iff.1 hall⟩
  · intro h
    exact Bool.and_eq_true_iff.2 ⟨beq_iff_eq.2 h.length, allIn_iff.2 h.covered⟩

/-- A set is equal to sets that it covers alone. -/
theorem equal_set {xs : List Value} {b : Value} (h : Equal (.set ⟨xs⟩) b) : ∃ ys, b = .set ⟨ys⟩ ∧ Covers Equal xs ys := by
  cases b with
  | set s => exact ⟨s.elements, rfl, equal_set_iff.1 h⟩
  | _ => cases h

/-- Maps are equal if they have as many entries, and each key of the one has an equal value in the other. -/
theorem equal_map_iff {es fs : List (Value × Value)} :
    Equal (.map ⟨es⟩) (.map ⟨fs⟩) ↔
      es.length = fs.length ∧ ∀ e ∈ es, ∃ f, fs.find? (fun f => e.1 == f.1) = some f ∧ Equal e.2 f.2 := by
  constructor
  · intro h
    obtain ⟨hlen, hagree⟩ := Bool.and_eq_true_iff.1 h
    exact ⟨beq_iff_eq.1 hlen, agree_iff.1 hagree⟩
  · rintro ⟨hlen, hagree⟩
    exact Bool.and_eq_true_iff.2 ⟨beq_iff_eq.2 hlen, agree_iff.2 hagree⟩

/-- What is found under a key is an entry with an equal key. -/
theorem entry_of_find? {key : Value} {entries : List (Value × Value)} {e : Value × Value}
    (h : entries.find? (fun f => key == f.1) = some e) : e ∈ entries ∧ Equal key e.1 := by
  have hkey : (key == e.1) = true := by simpa using List.find?_some h
  exact ⟨List.mem_of_find?_eq_some h, hkey⟩

/-- A map is equal to maps that it covers alone. -/
theorem equal_map {es : List (Value × Value)} {b : Value} (h : Equal (.map ⟨es⟩) b) :
    ∃ fs, b = .map ⟨fs⟩ ∧ Covers EqualEntry es fs := by
  cases b with
  | map m =>
    obtain ⟨hlen, hagree⟩ := equal_map_iff.1 h
    refine ⟨m.entries, rfl, hlen, fun e he => ?_⟩
    obtain ⟨f, hf, hvalue⟩ := hagree e he
    obtain ⟨hmem, hkey⟩ := entry_of_find? hf
    exact ⟨f, hmem, hkey, hvalue⟩
  | _ => cases h

/-! ## The values that a sound value holds -/

theorem Sound.of_pair {h t : Value} (hs : Sound (.pair h t)) : Sound h ∧ Sound t := by
  cases hs with
  | atom h => cases h
  | pair hh ht => exact ⟨hh, ht⟩

theorem Sound.of_vector {items : List Value} (hs : Sound (.vector items)) : ∀ x ∈ items, Sound x := by
  cases hs with
  | atom h => cases h
  | vector hitems => exact hitems

/-- The elements of a sound set are sound, and no two of them are equal. -/
theorem Sound.of_set {elements : List Value} (hs : Sound (.set ⟨elements⟩)) :
    (∀ x ∈ elements, Sound x) ∧ Distinct Equal elements := by
  cases hs with
  | atom h => cases h
  | set helements hd => exact ⟨helements, hd⟩

/-- The entries of a map. -/
structure SoundEntries (entries : List (Value × Value)) : Prop where
  sound : ∀ e ∈ entries, Sound e.1 ∧ Sound e.2
  distinct : Distinct (fun e f => Equal e.1 f.1) entries

theorem Sound.of_map {entries : List (Value × Value)} (hs : Sound (.map ⟨entries⟩)) : SoundEntries entries := by
  cases hs with
  | atom h => cases h
  | map hkeys hvalues hd => exact ⟨fun e he => ⟨hkeys e he, hvalues e he⟩, hd⟩

theorem Sound.of_setForm {items : List Value} (hs : Sound (.setForm items)) : ∀ x ∈ items, Sound x := by
  cases hs with
  | atom h => cases h
  | setForm hitems => exact hitems

theorem Sound.of_mapForm {entries : List (Value × Value)} (hs : Sound (.mapForm entries)) :
    ∀ e ∈ entries, Sound e.1 ∧ Sound e.2 := by
  cases hs with
  | atom h => cases h
  | mapForm hkeys hvalues => exact fun e he => ⟨hkeys e he, hvalues e he⟩

theorem Sound.of_record {variant : Variant} {values : List Value} (hs : Sound (.record variant values)) :
    ∀ x ∈ values, Sound x := by
  cases hs with
  | atom h => cases h
  | record hvalues => exact hvalues

/-! ## Equality is an equivalence -/

/-- Atoms are compared by an equivalence. -/
theorem equivalenceAt_of_atom {v : Value} {a : Atom} (h : v.atom? = some a) : EquivalenceAt Equal Sound v where
  refl := (equal_iff_of_atom h).2 rfl
  symm {b} _ hb := by
    have hatom := (equal_iff_of_atom h).1 hb
    exact (equal_iff_of_atom (hatom.symm.trans h)).2 hatom.symm
  trans {b c} _ _ hb hc := by
    have hatom := (equal_iff_of_atom h).1 hb
    exact (equal_iff_of_atom h).2 (hatom.trans ((equal_iff_of_atom (hatom.symm.trans h)).1 hc))
  join {b c} _ _ hb hc := by
    have hatom := (equal_iff_of_atom h).1 hb
    exact (equal_iff_of_atom (hatom.symm.trans h)).2 (hatom.symm.trans ((equal_iff_of_atom h).1 hc))

/-- So are variants. -/
theorem equivalenceAt_variant (v : Variant) : EquivalenceAt (fun v w => Variant.same v w = true) (fun _ => True) v := by
  constructor <;> simp_all [Variant.same]

/-- The only entry of a map whose key is equal to a given one is what is found under any key that is equal to it. -/
theorem SoundEntries.find?_eq {key probe : Value} {entries : List (Value × Value)} {e : Value × Value}
    (hentries : SoundEntries entries) (hkey : EquivalenceAt Equal Sound key) (hprobe : Sound probe) (hp : Equal key probe)
    (he : e ∈ entries) (hk : Equal key e.1) : entries.find? (fun f => probe == f.1) = some e := by
  have hesound := (hentries.sound e he).1
  refine hentries.distinct.find?_eq he (hkey.join hprobe hesound hp hk) fun f hf hpf => ?_
  have hfsound := (hentries.sound f hf).1
  exact hkey.join hfsound hesound (hkey.trans hprobe hfsound hp hpf) hk

/-- Maps whose entries cover one another are equal. Only of the keys of the first map it is known that equality is an equivalence
there, so the keys of the second are looked up by way of the first. -/
theorem equal_map_of_covers {es fs gs : List (Value × Value)} (hes : SoundEntries es)
    (hequiv : ∀ e ∈ es, EquivalenceAt Equal Sound e.1 ∧ EquivalenceAt Equal Sound e.2) (hfs : SoundEntries fs)
    (hgs : SoundEntries gs) (hef : Covers EqualEntry es fs) (hfg : Covers EqualEntry fs gs) :
    Equal (.map ⟨fs⟩) (.map ⟨gs⟩) := by
  refine equal_map_iff.2 ⟨hfg.length, fun f hf => ?_⟩
  obtain ⟨g, hg, hkey, hvalue⟩ := hfg.covered f hf
  have hinjects : Injects EqualEntry es fs :=
    injects_of_equivalenceAt (fun e he => .prod (hequiv e he).1 (hequiv e he).2) hes.sound hfs.sound
  have hdistinct : Distinct EqualEntry es := hes.distinct.imp fun hne hef => hne hef.1
  obtain ⟨e, he, hkey', -⟩ := hinjects.covered_back hdistinct hef f hf
  have hsound := (hfs.sound f hf).1
  have hprobe := (hequiv e he).1.trans hsound (hgs.sound g hg).1 hkey' hkey
  exact ⟨g, hgs.find?_eq (hequiv e he).1 hsound hkey' hg hprobe, hvalue⟩

/-- For sound values, equality is an equivalence. -/
theorem Sound.equivalenceAt {v : Value} (h : Sound v) : EquivalenceAt Equal Sound v := by
  -- By induction on what makes the value sound: it speaks of every element of a list, where the value itself has only the list.
  induction h with
  | atom h => exact equivalenceAt_of_atom h
  | @pair h t hh ht ihh iht =>
    refine .under (c := fun p : Value × Value => Value.pair p.1 p.2) (x := (h, t)) (.prod ihh iht) ⟨hh, ht⟩ Sound.of_pair
      equal_pair ?_
    exact fun _ _ _ hpq => Bool.and_eq_true_iff.2 hpq
  | vector hitems ih =>
    refine .under (c := Value.vector) (.forall₂ ih) hitems Sound.of_vector equal_vector ?_
    exact fun _ _ _ hyz => beqItems_iff.2 hyz
  | set helements hd ih =>
    refine .under (c := fun ys => Value.set ⟨ys⟩) ((EquivalenceAt.covers ih helements hd).imp And.left) ⟨helements, hd⟩
      Sound.of_set equal_set ?_
    exact fun _ _ _ hyz => equal_set_iff.2 hyz
  | @map entries hkeys hvalues hd ihk ihv =>
    have hentries : SoundEntries entries := ⟨fun e he => ⟨hkeys e he, hvalues e he⟩, hd⟩
    have hequiv := fun e he => And.intro (ihk e he) (ihv e he)
    have hcovers := EquivalenceAt.covers (fun e he => .prod (ihk e he) (ihv e he)) hentries.sound
      (hd.imp fun hne hef => hne hef.1)
    refine .under (c := fun es => Value.map ⟨es⟩) (hcovers.imp SoundEntries.sound) hentries Sound.of_map equal_map ?_
    exact fun hy hz hxy hyz => equal_map_of_covers hentries hequiv hy hz hxy hyz
  | setForm hitems ih =>
    refine .under (c := Value.setForm) (.forall₂ ih) hitems Sound.of_setForm equal_setForm ?_
    exact fun _ _ _ hyz => beqItems_iff.2 hyz
  | mapForm hkeys hvalues ihk ihv =>
    refine .under (c := Value.mapForm) (.forall₂ fun e he => .prod (ihk e he) (ihv e he))
      (fun e he => ⟨hkeys e he, hvalues e he⟩) Sound.of_mapForm equal_mapForm ?_
    exact fun _ _ _ hyz => beqEntries_iff.2 hyz
  | @record variant values hvalues ih =>
    refine .under (c := fun p : Variant × List Value => Value.record p.1 p.2) (x := (variant, values))
      (.prod (equivalenceAt_variant variant) (.forall₂ ih)) ⟨trivial, hvalues⟩ (fun h => ⟨trivial, Sound.of_record h⟩)
      equal_record ?_
    exact fun _ _ _ hyz => Bool.and_eq_true_iff.2 ⟨hyz.1, beqItems_iff.2 hyz.2⟩

end Value

end MiniLisp
