import MiniLisp.Proofs.Collection.FiniteSet
import MiniLisp.Proofs.Value.Map

/-!
# Equal values are hashed alike

A hasher takes in a value piece by piece: what kind of value it is, then what it holds (`Value.hashInput`). Of a set or a map,
whose elements have no order, it takes in their number and the sum of numbers that a second hasher makes of the elements one by
one. Equality is an equivalence among the values whose sets and maps were made by the operations on them (`Value.Formed`), and
equal ones give a hasher the same pieces (`equality_respected_by_hashing`): equal sets hold equal elements in some order
(`Injects.exists_perm`), and a sum does not depend on the order.
-/

namespace MiniLisp

/-- A piece of what a hasher takes in. -/
inductive HashInput where
  | kind (index : Nat)
  | flag (b : Bool)
  | word (n : Int64)
  | integer (n : Int)
  | rational (q : Rat)
  | bits (n : UInt64)
  | text (s : String)
  | symbol (s : Symbol)
  | count (n : Nat)
  | identity (n : Nat)

/-- A hasher: it takes in one piece after another, and what it gives in the end depends on nothing else. -/
structure Hasher where
  State : Type
  start : State
  write : State → HashInput → State
  finish : State → UInt64

/-- The number that a hasher makes of some pieces. -/
def Hasher.digest (h : Hasher) (pieces : List HashInput) : UInt64 := h.finish (pieces.foldl h.write h.start)

/-- A sum of words, in which what does not fit is dropped. -/
def sumWords (words : List UInt64) : UInt64 := words.foldl (· + ·) 0

/-- The sum of words does not depend on their order. -/
theorem sumWords_perm {xs ys : List UInt64} (h : xs.Perm ys) : sumWords xs = sumWords ys := by
  refine h.foldl_eq' (fun x _ y _ acc => ?_) 0
  rw [UInt64.add_assoc, UInt64.add_comm x y, ← UInt64.add_assoc]

namespace Value

/-- What a hasher takes in of a value without parts. -/
def Atom.hashInput : Atom → List HashInput
  | .nil => [.kind 0]
  | .bool b => [.kind 1, .flag b]
  | .int n => [.kind 2, .word n]
  | .big n => [.kind 3, .integer n]
  | .ratio q => [.kind 4, .rational q]
  | .float bits => [.kind 5, .bits bits]
  | .str s => [.kind 6, .text s]
  | .sym s => [.kind 7, .symbol s]
  | .closure id => [.kind 14, .identity id]
  | .macroFn id => [.kind 15, .identity id]
  | .native p => [.kind 16, .text p.name]
  | .module frame => [.kind 17, .identity frame]
  | .constructor typeName tag => [.kind 19, .symbol typeName, .symbol tag]

mutual

/-- What a hasher takes in of a value. The elements of sets and maps go through a hasher of their own. -/
def hashInput (element : Hasher) : Value → List HashInput
  | .pair h t => .kind 8 :: (hashInput element h ++ hashInput element t)
  | .vector xs => .kind 9 :: .count xs.length :: hashInputs element xs
  | .set ⟨xs⟩ => [.kind 10, .count xs.length, .bits (sumWords (digests element xs))]
  | .map ⟨es⟩ => [.kind 11, .count es.length, .bits (sumWords (entryDigests element es))]
  | .setForm xs => .kind 12 :: .count xs.length :: hashInputs element xs
  | .mapForm es => .kind 13 :: .count es.length :: entryHashInputs element es
  | .record variant xs =>
    .kind 18 :: .symbol variant.typeName :: .symbol variant.tag :: .count xs.length :: hashInputs element xs
  | v => (v.atom?.map Atom.hashInput).getD []

/-- What it takes in of several values, one after another. -/
def hashInputs (element : Hasher) : List Value → List HashInput
  | [] => []
  | x :: xs => hashInput element x ++ hashInputs element xs

/-- What it takes in of several entries, each key before its value. -/
def entryHashInputs (element : Hasher) : List (Value × Value) → List HashInput
  | [] => []
  | (k, v) :: es => hashInput element k ++ hashInput element v ++ entryHashInputs element es

/-- The numbers of several values, each for itself. -/
def digests (element : Hasher) : List Value → List UInt64
  | [] => []
  | x :: xs => element.digest (hashInput element x) :: digests element xs

/-- The numbers of several entries, each for itself. -/
def entryDigests (element : Hasher) : List (Value × Value) → List UInt64
  | [] => []
  | (k, v) :: es => element.digest (hashInput element k ++ hashInput element v) :: entryDigests element es

end

/-- The number that a hasher makes of a value. -/
def hash (element h : Hasher) (v : Value) : UInt64 := h.digest (v.hashInput element)

variable {element : Hasher}

/-- What a hasher takes in of an entry. -/
def entryHashInput (element : Hasher) (e : Value × Value) : List HashInput := hashInput element e.1 ++ hashInput element e.2

/-- The input of several items is that of each, one after the other. -/
theorem hashInputs_eq (xs : List Value) : hashInputs element xs = (xs.map (hashInput element)).flatten := by
  induction xs with
  | nil => rfl
  | cons x xs ih => simp [hashInputs, ih]

/-- So is the input of several entries. -/
theorem entryHashInputs_eq (es : List (Value × Value)) :
    entryHashInputs element es = (es.map (entryHashInput element)).flatten := by
  induction es with
  | nil => rfl
  | cons e es ih => simp [entryHashInputs, entryHashInput, ih]

theorem digests_eq (xs : List Value) : digests element xs = (xs.map (hashInput element)).map element.digest := by
  induction xs with
  | nil => rfl
  | cons x xs ih => simp [digests, ih]

theorem entryDigests_eq (es : List (Value × Value)) :
    entryDigests element es = (es.map (entryHashInput element)).map element.digest := by
  induction es with
  | nil => rfl
  | cons e es ih => simp [entryDigests, entryHashInput, ih]

/-- The input of an atom is that of the atom alone. -/
theorem hashInput_of_atom {v : Value} {a : Atom} (h : v.atom? = some a) : hashInput element v = a.hashInput := by
  cases v with
  | pair | vector | set | map | setForm | mapForm | record => cases h
  | _ => simp [hashInput, h]

/-! ## Equal values -/

/-- Two lists whose elements are related one by one have the same image under a function that does not tell related things
apart. -/
theorem map_eq_of_forall₂ {α β : Type} {r : α → α → Prop} {good : α → Prop} {f : α → β} {xs ys : List α}
    (hf : ∀ x ∈ xs, ∀ y, good y → r x y → f x = f y) (hys : ∀ y ∈ ys, good y) (h : List.Forall₂ r xs ys) :
    xs.map f = ys.map f := by
  induction h with
  | nil => rfl
  | @cons x y xs ys hxy _ ih =>
    obtain ⟨hx, hxs⟩ := List.forall_mem_cons.1 hf
    obtain ⟨hy, hys⟩ := List.forall_mem_cons.1 hys
    rw [List.map_cons, List.map_cons, hx y hy hxy, ih hxs hys]

/-- The images of lists that cover one another are the same in some order. -/
theorem map_perm_of_covers {α β : Type} {r : α → α → Prop} {good : α → Prop} {f : α → β} {xs ys : List α}
    (hf : ∀ x ∈ xs, ∀ y, good y → r x y → f x = f y) (hys : ∀ y ∈ ys, good y) (hi : Injects r xs ys) (hd : Distinct r xs)
    (hc : Covers r xs ys) : (xs.map f).Perm (ys.map f) := by
  obtain ⟨zs, hperm, hzs⟩ := hi.exists_perm hd hc
  have hgood : ∀ z ∈ zs, good z := fun z hz => hys z (hperm.mem_iff.1 hz)
  rw [map_eq_of_forall₂ hf hgood hzs]
  exact hperm.map f

/-- Equal entries give the same input if their keys and values do. -/
theorem entryHashInput_eq {e f : Value × Value} (hkey : ∀ b, Sound b → Equal e.1 b → hashInput element e.1 = hashInput element b)
    (hvalue : ∀ b, Sound b → Equal e.2 b → hashInput element e.2 = hashInput element b) (hf : Sound f.1 ∧ Sound f.2)
    (h : EqualEntry e f) : entryHashInput element e = entryHashInput element f := by
  rw [entryHashInput, hkey f.1 hf.1 h.1, hvalue f.2 hf.2 h.2, entryHashInput]

/-- Of equal values, a hasher takes in the same. -/
theorem Sound.hashInput_eq {a : Value} (ha : Sound a) : ∀ b, Sound b → Equal a b → hashInput element a = hashInput element b := by
  -- By induction on what makes the first value sound, which speaks of every element of its sets and maps.
  induction ha with
  | @atom v a h =>
    intro b _ hab
    rw [hashInput_of_atom h, hashInput_of_atom (((equal_iff_of_atom h).1 hab).symm.trans h)]
  | @pair h t _ _ ihh iht =>
    intro b hb hab
    obtain ⟨q, rfl, hhead, htail⟩ := equal_pair (p := (h, t)) hab
    obtain ⟨hh, ht⟩ := hb.of_pair
    simp only [hashInput, ihh _ hh hhead, iht _ ht htail]
  | @vector xs _ ih =>
    intro b hb hab
    obtain ⟨ys, rfl, hxy⟩ := equal_vector hab
    simp only [hashInput, hashInputs_eq, map_eq_of_forall₂ ih hb.of_vector hxy, hxy.length_eq]
  | @set xs hxs hd ih =>
    intro b hb hab
    obtain ⟨ys, rfl, hc⟩ := equal_set hab
    have hys := hb.of_set.1
    have hi : Injects Equal xs ys := injects_of_equivalenceAt (fun x hx => (hxs x hx).equivalenceAt) hxs hys
    have hperm := (map_perm_of_covers ih hys hi hd hc).map element.digest
    simp only [hashInput, digests_eq, sumWords_perm hperm, hc.length]
  | @map es hkeys hvalues hd ihk ihv =>
    intro b hb hab
    obtain ⟨fs, rfl, hc⟩ := equal_map hab
    have hfs := hb.of_map.sound
    have hes : ∀ e ∈ es, Sound e.1 ∧ Sound e.2 := fun e he => ⟨hkeys e he, hvalues e he⟩
    have hi : Injects EqualEntry es fs :=
      injects_of_equivalenceAt (fun e he => .prod (hkeys e he).equivalenceAt (hvalues e he).equivalenceAt) hes hfs
    have hdistinct : Distinct EqualEntry es := hd.imp fun hne hef => hne hef.1
    have hentry := fun e he f hf => entryHashInput_eq (f := f) (ihk e he) (ihv e he) hf
    have hperm := (map_perm_of_covers hentry hfs hi hdistinct hc).map element.digest
    simp only [hashInput, entryDigests_eq, sumWords_perm hperm, hc.length]
  | @setForm xs _ ih =>
    intro b hb hab
    obtain ⟨ys, rfl, hxy⟩ := equal_setForm hab
    simp only [hashInput, hashInputs_eq, map_eq_of_forall₂ ih hb.of_setForm hxy, hxy.length_eq]
  | @mapForm es _ _ ihk ihv =>
    intro b hb hab
    obtain ⟨fs, rfl, hef⟩ := equal_mapForm hab
    have hentry := fun e he f hf => entryHashInput_eq (f := f) (ihk e he) (ihv e he) hf
    simp only [hashInput, entryHashInputs_eq, map_eq_of_forall₂ hentry hb.of_mapForm hef, hef.length_eq]
  | @record variant xs _ ih =>
    intro b hb hab
    obtain ⟨⟨other, ys⟩, rfl, hsame, hxy⟩ := equal_record (p := (variant, xs)) hab
    obtain ⟨htype, htag⟩ : variant.typeName = other.typeName ∧ variant.tag = other.tag := by simpa [Variant.same] using hsame
    simp only [hashInput, hashInputs_eq, map_eq_of_forall₂ ih hb.of_record hxy, hxy.length_eq, htype, htag]

/-! ## Values whose sets and maps were made by their own operations -/

/-- A value in which every set was made from the empty set by insertions and erasures, and so was every map, at any depth. -/
inductive Formed : Value → Prop where
  | atom {v : Value} {a : Atom} (h : v.atom? = some a) : Formed v
  | pair {h t : Value} (hh : Formed h) (ht : Formed t) : Formed (.pair h t)
  | vector {items : List Value} (hitems : ∀ x ∈ items, Formed x) : Formed (.vector items)
  | setForm {items : List Value} (hitems : ∀ x ∈ items, Formed x) : Formed (.setForm items)
  | mapForm {entries : List (Value × Value)} (hkeys : ∀ e ∈ entries, Formed e.1) (hvalues : ∀ e ∈ entries, Formed e.2) :
      Formed (.mapForm entries)
  | record {variant : Variant} {values : List Value} (hvalues : ∀ x ∈ values, Formed x) : Formed (.record variant values)
  | emptySet : Formed (.set .empty)
  | insertElement {s : FiniteSet Value} {x : Value} (hs : Formed (.set s)) (hx : Formed x) : Formed (.set (s.insert x))
  | eraseElement {s : FiniteSet Value} (x : Value) (hs : Formed (.set s)) : Formed (.set (s.erase x))
  | emptyMap : Formed (.map .empty)
  | insertEntry {m : OrderedMap Value Value} {key value : Value} (hm : Formed (.map m)) (hkey : Formed key)
      (hvalue : Formed value) : Formed (.map (m.insert key value))
  | eraseEntry {m : OrderedMap Value Value} (key : Value) (hm : Formed (.map m)) : Formed (.map (m.erase key))

/-- The set of some elements is made of the empty one by insertions. -/
theorem Formed.setOf {xs : List Value} (hxs : ∀ x ∈ xs, Formed x) : Formed (.set (.ofList xs)) := by
  have hfold : ∀ s : FiniteSet Value, Formed (.set s) → Formed (.set (s.insertAll xs)) := by
    induction xs with
    | nil => exact fun s hs => hs
    | cons x xs ih =>
      obtain ⟨hx, hxs⟩ := List.forall_mem_cons.1 hxs
      exact fun s hs => ih hxs _ (.insertElement hs hx)
  exact hfold _ .emptySet

/-- The operations on sets and maps keep elements and keys distinct. -/
theorem Formed.sound {v : Value} (h : Formed v) : Sound v := by
  induction h with
  | atom h => exact .atom h
  | pair _ _ ihh iht => exact .pair ihh iht
  | vector _ ih => exact .vector ih
  | setForm _ ih => exact .setForm ih
  | mapForm _ _ ihk ihv => exact .mapForm ihk ihv
  | record _ ih => exact .record ih
  | emptySet => exact .set (List.forall_mem_nil _) .nil
  | @insertElement s x _ _ ihs ihx =>
    obtain ⟨helements, hd⟩ := ihs.of_set
    refine .set (fun y hy => ?_) (FiniteSet.distinct_insertElement equivalenceOn_sound ihx helements hd)
    rcases FiniteSet.mem_insertElement hy with rfl | hmem
    · exact ihx
    · exact helements y hmem
  | eraseElement x _ ihs =>
    obtain ⟨helements, hd⟩ := ihs.of_set
    exact .set (fun y hy => helements y (List.mem_filter.1 hy).1) (List.Pairwise.filter _ hd)
  | emptyMap => exact .map (List.forall_mem_nil _) (List.forall_mem_nil _) .nil
  | @insertEntry m key value _ _ _ ihm ihk ihv =>
    obtain ⟨hentries, hd⟩ := ihm.of_map
    have hinserted : ∀ e ∈ OrderedMap.insertEntry key value m.entries, Sound e.1 ∧ Sound e.2 := by
      intro e he
      rcases OrderedMap.mem_insertEntry he with rfl | hmem
      · exact ⟨ihk, ihv⟩
      · exact hentries e hmem
    exact .map (fun e he => (hinserted e he).1) (fun e he => (hinserted e he).2)
      (OrderedMap.distinct_insertEntry equivalenceOn_sound ihk value (fun e he => (hentries e he).1) hd)
  | eraseEntry key _ ihm =>
    obtain ⟨hentries, hd⟩ := ihm.of_map
    exact .map (fun e he => (hentries e (List.mem_filter.1 he).1).1) (fun e he => (hentries e (List.mem_filter.1 he).1).2)
      (List.Pairwise.filter _ hd)

/-- Among the values that the operations on sets and maps make, equality is an equivalence, and equal values give every hasher the
same to take in, so that they have the same hash. -/
theorem equality_respected_by_hashing :
    (Equivalence fun a b : { v : Value // v.Formed } => Equal a.1 b.1) ∧
      ∀ a b : Value, a.Formed → b.Formed → Equal a b → ∀ element : Hasher,
        a.hashInput element = b.hashInput element ∧ ∀ h : Hasher, a.hash element h = b.hash element h := by
  refine ⟨⟨fun a => ?_, fun {a b} hab => ?_, fun {a b c} hab hbc => ?_⟩, fun a b ha hb hab element => ?_⟩
  · exact a.2.sound.equivalenceAt.refl
  · exact a.2.sound.equivalenceAt.symm b.2.sound hab
  · exact a.2.sound.equivalenceAt.trans b.2.sound c.2.sound hab hbc
  · have hinput : a.hashInput element = b.hashInput element := ha.sound.hashInput_eq b hb.sound hab
    exact ⟨hinput, fun h => congrArg h.digest hinput⟩

/-- Two sets that hold a set and a flag, in different orders inside and outside. -/
theorem equality_respected_by_hashing_nested :
    let a : Value := .set (.ofList [.bool true, .set (.ofList [.nil, .sym "x"])])
    let b : Value := .set (.ofList [.set (.ofList [.sym "x", .nil]), .bool true])
    a.Formed ∧ b.Formed ∧ Equal a b ∧ ∀ element h : Hasher, a.hash element h = b.hash element h := by
  intro a b
  have hnil : Formed .nil := .atom rfl
  have hsym : Formed (.sym "x") := .atom rfl
  have hflag : Formed (.bool true) := .atom rfl
  have hinner : Formed (.set (.ofList [.nil, .sym "x"])) := .setOf (by simp [hnil, hsym])
  have hinner' : Formed (.set (.ofList [.sym "x", .nil])) := .setOf (by simp [hnil, hsym])
  have ha : a.Formed := .setOf (by simp [hflag, hinner])
  have hb : b.Formed := .setOf (by simp [hflag, hinner'])
  have hab : Equal a b := rfl
  exact ⟨ha, hb, hab, fun element => (equality_respected_by_hashing.2 a b ha hb hab element).2⟩

end Value

end MiniLisp
