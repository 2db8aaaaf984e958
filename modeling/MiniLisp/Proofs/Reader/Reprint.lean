import MiniLisp.Proofs.Reader.Freestanding
import MiniLisp.Proofs.Reader.RoundTrip

/-!
# Reprinting: what is read, printed, and read again

Every value that is read is made of what its atoms and strings stand for (`parse_made`). An atom stands for a readable value,
unless it is a float or one of its shorthands holds a name that stands for something else by itself: in `a.1` the field is the
symbol `1`, and it is printed like the number (`readAtom_reprintable`). Without these, a text and what is printed for its forms
read as the same forms (`reprinted_reads_back`).
-/

namespace MiniLisp

namespace Value

mutual

/-- The symbols in a form. -/
def symbols : Value → List Symbol
  | .sym s => [s]
  | .pair h t => h.symbols ++ t.symbols
  | .vector xs => symbolsIn xs
  | .setForm xs => symbolsIn xs
  | .mapForm es => symbolsInEntries es
  | _ => []

/-- The symbols in forms. -/
def symbolsIn : List Value → List Symbol
  | [] => []
  | x :: xs => x.symbols ++ symbolsIn xs

/-- The symbols in entries. -/
def symbolsInEntries : List (Value × Value) → List Symbol
  | [] => []
  | (k, v) :: es => k.symbols ++ (v.symbols ++ symbolsInEntries es)

end

/-- The symbols of an item are among those of all items. -/
theorem mem_symbolsIn {x : Value} {xs : List Value} (h : x ∈ xs) : x.symbols ⊆ symbolsIn xs := by
  induction xs with
  | nil => cases h
  | cons y ys ih =>
    intro name hname
    rw [symbolsIn, List.mem_append]
    rcases List.mem_cons.mp h with rfl | h
    · exact .inl hname
    · exact .inr (ih h hname)

/-- The symbols of an entry are among those of all entries. -/
theorem mem_symbolsInEntries {entry : Value × Value} {es : List (Value × Value)} (h : entry ∈ es) :
    entry.1.symbols ⊆ symbolsInEntries es ∧ entry.2.symbols ⊆ symbolsInEntries es := by
  induction es with
  | nil => cases h
  | cons e es ih =>
    obtain ⟨k, v⟩ := e
    rcases List.mem_cons.mp h with rfl | h
    · constructor <;> intro name hname <;> simp [symbolsInEntries, hname]
    · obtain ⟨hk, hv⟩ := ih h
      constructor <;> intro name hname
      · simp [symbolsInEntries, hk hname]
      · simp [symbolsInEntries, hv hname]

/-- The symbols of an item are among those of the list. -/
theorem mem_symbols_list {x : Value} {xs : List Value} (h : x ∈ xs) : x.symbols ⊆ (list xs).symbols := by
  induction xs with
  | nil => cases h
  | cons y ys ih =>
    intro name hname
    have hlist : (list (y :: ys)).symbols = y.symbols ++ (list ys).symbols := rfl
    rw [hlist, List.mem_append]
    rcases List.mem_cons.mp h with rfl | h
    · exact .inl hname
    · exact .inr (ih h hname)

end Value

namespace Reader

/-! ## What a form is made of -/

/-- A property of values that the groups and marks of a form keep. -/
structure Kept (P : Value → Prop) : Prop where
  sym : ∀ name ∈ ["quote", "quasiquote", "unquote", "unquote-splicing", "@"], P (.sym name)
  list : ∀ values, (∀ v ∈ values, P v) → P (.list values)
  vector : ∀ values, (∀ v ∈ values, P v) → P (.vector values)
  setForm : ∀ values, (∀ v ∈ values, P v) → P (.setForm values)
  mapForm : ∀ entries, (∀ entry ∈ entries, P entry.1) → (∀ entry ∈ entries, P entry.2) → P (.mapForm entries)

/-- The value of an item, if it has one, has a property. -/
def Item.Has (P : Value → Prop) (item : Item) : Prop := ∀ v, item = .ok v → P v

/-- All items of what is open have a property. -/
def Pending.Has (P : Value → Prop) : Pending → Prop
  | .group _ _ items => ∀ item ∈ items, Item.Has P item
  | .mark _ => True

/-- Everything that is open, and the form if it is finished, has a property. -/
structure OpenHas (P : Value → Prop) (next : List Pending × Option Item) : Prop where
  stack : ∀ p ∈ next.1, Pending.Has P p
  finished : ∀ item, next.2 = some item → Item.Has P item

section Made

variable {P : Value → Prop}

/-- What is kept by reading is kept behind a mark. -/
theorem Kept.wrap (hP : Kept P) (m : Mark) {v : Value} (h : P v) : P (.wrap m.head v) := by
  refine hP.list _ fun x hx => ?_
  simp only [List.mem_cons, List.not_mem_nil, or_false] at hx
  rcases hx with rfl | rfl
  · exact hP.sym _ (by cases m <;> decide)
  · exact h

/-- What is kept by reading is kept in a group. -/
theorem Kept.group (hP : Kept P) (b : Bracket) (span : Span) {items : List Item} (h : ∀ item ∈ items, Item.Has P item) :
    Item.Has P (groupItem b span items) := by
  intro v hv
  cases hs : sequenceItems items with
  | error f => simp [groupItem, hs, bind, Except.bind] at hv
  | ok values =>
    have hvalues : ∀ v ∈ values, P v := by
      intro w hw
      obtain rfl := eq_map_of_sequenceItems hs
      exact h (.ok w) (List.mem_map_of_mem hw) w rfl
    simp only [groupItem, hs, bind, Except.bind] at hv
    cases b with
    | list => cases hv; exact hP.list values hvalues
    | vector => cases hv; exact hP.vector values hvalues
    | hashVector => cases hv; exact hP.vector values hvalues
    | set => cases hv; exact hP.setForm values hvalues
    | map =>
      simp only at hv
      split at hv
      · cases hv
        refine hP.mapForm _ (fun entry hentry => ?_) fun entry hentry => ?_
        · exact hvalues _ (mem_pairUp hentry).1
        · exact hvalues _ (mem_pairUp hentry).2
      · cases hv

/-- It is kept by what an item completes. -/
theorem OpenHas.complete (hP : Kept P) {item : Item} {stack : List Pending} (hi : Item.Has P item)
    (hs : ∀ p ∈ stack, Pending.Has P p) : OpenHas P (complete item stack) := by
  fun_induction Reader.complete item stack with
  | case1 item =>
    refine ⟨by simp, fun done h => ?_⟩
    cases h
    exact hi
  | case2 item m stack ih =>
    refine ih ?_ fun p hp => hs p (List.mem_cons_of_mem _ hp)
    intro v hv
    cases item with
    | error => cases hv
    | ok w =>
      cases hv
      exact hP.wrap m (hi w rfl)
  | case3 item b start items stack =>
    refine ⟨fun p hp => ?_, by simp⟩
    rcases List.mem_cons.mp hp with rfl | hp
    · exact List.forall_mem_cons.mpr ⟨hi, hs _ List.mem_cons_self⟩
    · exact hs p (List.mem_cons_of_mem _ hp)

/-- It is kept by what is settled. -/
theorem settle_has (hP : Kept P) {stack : List Pending} (hs : ∀ p ∈ stack, Pending.Has P p) :
    ∀ p ∈ settle stack, Pending.Has P p := by
  match stack with
  | .mark .splice :: stack =>
    have hat : Item.Has P (.ok (.wrap "unquote" (.sym "@"))) := by
      rintro _ ⟨⟩
      exact hP.wrap .unquote (hP.sym _ (by decide))
    exact (OpenHas.complete hP hat fun p hp => hs p (List.mem_cons_of_mem _ hp)).stack
  | [] | .group .. :: _ | .mark .quote :: _ | .mark .quasiquote :: _ | .mark .unquote :: _ => exact hs

/-- What one lexeme keeps: all that is open has the property, if the literal has it. -/
theorem feed_has (hP : Kept P) {l : Lexeme} {stack : List Pending} {next : List Pending × Option Item}
    (h : feed stack l = some next) (hatom : ∀ text v, l.token = .atom text → readAtom text = .ok v → P v)
    (hstring : ∀ raw v, l.token = .string raw → readString raw = .ok v → P v) (hs : ∀ p ∈ stack, Pending.Has P p) :
    OpenHas P next := by
  have hliteral {read : Except ErrorKind Value} (span : Span) (hread : ∀ v, read = .ok v → P v) :
      Item.Has P (literalItem span read) := by
    intro v hv
    cases read with
    | error => cases hv
    | ok w => cases hv; exact hread _ rfl
  obtain ⟨token, span⟩ := l
  cases token with
  | stray => cases h
  | opener b =>
    cases h
    exact ⟨List.forall_mem_cons.mpr ⟨List.forall_mem_nil _, hs⟩, by simp⟩
  | mark m =>
    cases h
    exact ⟨List.forall_mem_cons.mpr ⟨trivial, hs⟩, by simp⟩
  | atom text =>
    cases h
    exact .complete hP (hliteral span fun v => hatom text v rfl) hs
  | string raw =>
    cases h
    exact .complete hP (hliteral span fun v => hstring raw v rfl) hs
  | closer c =>
    have hsettled := settle_has hP hs
    simp only [feed] at h
    rcases hst : settle stack with _ | ⟨⟨b, start, items⟩ | m, stack'⟩
    · simp [hst] at h
    · rw [hst] at hsettled
      obtain ⟨hitems, hstack⟩ := List.forall_mem_cons.mp hsettled
      simp only [hst] at h
      split at h
      · cases h
        exact .complete hP (hP.group b _ fun item hi => hitems item (List.mem_reverse.mp hi)) hstack
      · cases h
    · simp [hst] at h

/-- A form that is built correctly has the property, if its literals have it. -/
theorem parse_made (hP : Kept P) {stop : Nat} {ls : List Lexeme} {next : List Pending × Option Item} {item : Item}
    (h : parse stop next.1 next.2 ls = .ok item) (hn : OpenHas P next)
    (hatoms : ∀ l ∈ ls, ∀ text v, l.token = .atom text → readAtom text = .ok v → P v)
    (hstrings : ∀ l ∈ ls, ∀ raw v, l.token = .string raw → readString raw = .ok v → P v) : Item.Has P item := by
  induction ls generalizing next with
  | nil =>
    obtain ⟨stack, finished⟩ := next
    cases finished with
    | none => cases h
    | some done =>
      cases h
      exact hn.finished _ rfl
  | cons l ls ih =>
    obtain ⟨stack, finished⟩ := next
    cases finished with
    | some done => cases h
    | none =>
      obtain ⟨hatom, hatoms⟩ := List.forall_mem_cons.mp hatoms
      obtain ⟨hstring, hstrings⟩ := List.forall_mem_cons.mp hstrings
      obtain ⟨next, hfeed, hrest⟩ := feed_of_parse h
      exact ih hrest (feed_has hP hfeed hatom hstring hn.stack) hatoms hstrings

end Made

/-! ## Atoms -/

/-- Whether a name, where it stands alone, is not taken for a number or one of the words for other values. -/
def standsForItself (name : Symbol) : Bool :=
  !startsNumber name.toList && name != "true" && name != "false" && name != "nil"

/-- A value can be read back once its symbols stand for themselves. -/
def Reprintable (v : Value) : Prop := (∀ name ∈ v.symbols, standsForItself name = true) → Readable v

/-- The text of a symbol that stands for itself is the name of a symbol. -/
theorem symbolName_of_standsForItself {cs : List Char} (hne : cs ≠ []) (hs : ∀ c ∈ cs, isSymbolChar c = true)
    (hdots : '.' ∈ cs → cs = ['.'] ∨ cs = ['.', '.'] ∨ cs = ['.', '.', '.'])
    (h : standsForItself (String.ofList cs) = true) : SymbolName (String.ofList cs) := by
  simp only [standsForItself, String.toList_ofList, Bool.and_eq_true, Bool.not_eq_true', bne_iff_ne, ne_eq] at h
  obtain ⟨⟨⟨hstart, htrue⟩, hfalse⟩, hnil⟩ := h
  constructor
  case ne_nil => rwa [String.toList_ofList]
  case isSymbolChar => rwa [String.toList_ofList]
  case not_word => exact ⟨htrue, hfalse, hnil⟩
  case not_digit =>
    intro c rest hc
    rw [String.toList_ofList] at hc
    cases hd : c.isDigit with
    | false => rfl
    | true =>
      rw [hc, startsNumber_of_isDigit hd] at hstart
      cases hstart
  case not_minus_digit =>
    intro c rest hc
    rw [String.toList_ofList] at hc
    rw [hc] at hstart
    exact hstart
  case dots =>
    rw [String.toList_ofList]
    intro hdot
    rcases hdots hdot with rfl | rfl | rfl
    · exact .inl rfl
    · exact .inr (.inl rfl)
    · exact .inr (.inr rfl)

/-- A symbol that stands for itself can be printed and read again. -/
theorem Reprintable.sym {cs : List Char} (hne : cs ≠ []) (hs : ∀ c ∈ cs, isSymbolChar c = true)
    (hdots : '.' ∈ cs → cs = ['.'] ∨ cs = ['.', '.'] ∨ cs = ['.', '.', '.']) : Reprintable (.sym (String.ofList cs)) := by
  intro hnames
  exact .sym (symbolName_of_standsForItself hne hs hdots (hnames _ (List.mem_singleton.mpr rfl)))

/-- A word of the language is a symbol that stands for itself. -/
theorem Reprintable.word {name : Symbol} (hne : name.toList ≠ []) (hs : name.toList.all isSymbolChar = true)
    (hdot : name.toList.contains '.' = false) : Reprintable (.sym name) := by
  rw [← @String.ofList_toList name]
  refine .sym hne (List.all_eq_true.mp hs) fun h => ?_
  simp [h] at hdot

/-- To be printable is kept by reading. -/
theorem reprintable_kept : Kept Reprintable := by
  constructor
  case sym =>
    intro name hname
    simp only [List.mem_cons, List.not_mem_nil, or_false] at hname
    rcases hname with rfl | rfl | rfl | rfl | rfl
    all_goals exact .word (by decide) (by decide) (by decide)
  case list =>
    intro values h hnames
    exact .list fun v hv => h v hv fun name hname => hnames name (Value.mem_symbols_list hv hname)
  case vector =>
    intro values h hnames
    exact .vector fun v hv => h v hv fun name hname => hnames name (Value.mem_symbolsIn hv hname)
  case setForm =>
    intro values h hnames
    exact .setForm fun v hv => h v hv fun name hname => hnames name (Value.mem_symbolsIn hv hname)
  case mapForm =>
    intro entries hkeys hvalues hnames
    refine .mapForm (fun entry hentry => hkeys entry hentry ?_) fun entry hentry => hvalues entry hentry ?_
    · exact fun name hname => hnames name ((Value.mem_symbolsInEntries hentry).1 hname)
    · exact fun name hname => hnames name ((Value.mem_symbolsInEntries hentry).2 hname)

/-- A text has a piece, whatever dots are in it. -/
theorem splitDots_ne_nil (text : List Char) : splitDots text ≠ [] := by
  cases text with
  | nil => simp [splitDots]
  | cons c cs =>
    rw [splitDots]
    grind

/-- Each piece is made of characters of the text, and has no dot. -/
theorem mem_splitDots {text piece : List Char} (h : piece ∈ splitDots text) : ∀ c ∈ piece, c ∈ text ∧ c ≠ '.' := by
  induction text generalizing piece with
  | nil =>
    simp only [splitDots, List.mem_singleton] at h
    simp [h]
  | cons d text ih =>
    intro c hc
    rw [splitDots] at h
    split at h
    · rename_i first pieces hpieces
      rw [hpieces] at ih
      split at h
      · rcases List.mem_cons.mp h with rfl | h
        · cases hc
        · exact ⟨List.mem_cons_of_mem _ (ih h c hc).1, (ih h c hc).2⟩
      · rename_i hd
        rcases List.mem_cons.mp h with rfl | h
        · rcases List.mem_cons.mp hc with rfl | hc
          · exact ⟨List.mem_cons_self, by simpa using hd⟩
          · have hfirst := ih List.mem_cons_self c hc
            exact ⟨List.mem_cons_of_mem _ hfirst.1, hfirst.2⟩
        · have hrest := ih (List.mem_cons_of_mem _ h) c hc
          exact ⟨List.mem_cons_of_mem _ hrest.1, hrest.2⟩
    · rename_i hnil
      exact absurd hnil (splitDots_ne_nil text)

/-- The access to a field can be reprinted, if what it is an access to can. -/
theorem Reprintable.fieldAccess {target : Value} (h : Reprintable target) {field : List Char} (hne : field ≠ [])
    (hs : ∀ c ∈ field, isSymbolChar c = true) (hdot : '.' ∉ field) : Reprintable (fieldAccess target field) := by
  have hfield : Reprintable (.sym (String.ofList field)) := .sym hne hs fun hmem => absurd hmem hdot
  have hchars : ∀ c ∈ ['.'], isSymbolChar c = true := List.forall_mem_singleton.mpr (by decide)
  refine reprintable_kept.list _ fun v hv => ?_
  simp only [List.mem_cons, List.not_mem_nil, or_false] at hv
  rcases hv with rfl | rfl | rfl
  · exact .sym (List.cons_ne_nil '.' []) hchars fun _ => .inl rfl
  · exact h
  · exact reprintable_kept.wrap .quote hfield

/-- Access to fields of a printable value is printable. -/
theorem Reprintable.fields {target : Value} (h : Reprintable target) {fields : List (List Char)}
    (hfields : ∀ field ∈ fields, field ≠ [] ∧ (∀ c ∈ field, isSymbolChar c = true) ∧ '.' ∉ field) :
    Reprintable (fields.foldl Reader.fieldAccess target) := by
  induction fields generalizing target with
  | nil => exact h
  | cons field fields ih =>
    obtain ⟨⟨hne, hs, hdot⟩, hfields⟩ := List.forall_mem_cons.mp hfields
    exact ih (h.fieldAccess hne hs hdot) hfields

/-- Dots that are not taken for the end of a name are at most three. -/
theorem eq_dots {text : List Char} (hne : text ≠ []) (hall : ∀ c ∈ text, c = '.')
    (h : 3 < text.length → ¬"...".toList <:+ text) : text = ['.'] ∨ text = ['.', '.'] ∨ text = ['.', '.', '.'] := by
  have htext : text = List.replicate text.length '.' := List.eq_replicate_of_mem hall
  match hlen : text.length with
  | 0 => exact absurd (List.length_eq_zero_iff.mp hlen) hne
  | 1 => rw [htext, hlen]; exact .inl rfl
  | 2 => rw [htext, hlen]; exact .inr (.inl rfl)
  | 3 => rw [htext, hlen]; exact .inr (.inr rfl)
  | n + 4 =>
    refine absurd ⟨List.replicate (n + 1) '.', ?_⟩ (h (by omega))
    rw [htext, hlen, show "...".toList = List.replicate 3 '.' from rfl, List.replicate_append_replicate]

/-- What a symbol is read as can be printed and read again. -/
theorem readSymbol_reprintable {text : List Char} {v : Value} (hne : text ≠ []) (hs : ∀ c ∈ text, isSymbolChar c = true)
    (h : readSymbol text = .ok v) : Reprintable v := by
  unfold readSymbol at h
  simp only at h
  split at h
  · cases h
    exact fun _ => .nil
  split at h
  · rename_i hrest
    simp only [Bool.and_eq_true, decide_eq_true_eq] at hrest
    split at h
    · cases h
    · rename_i hdot
      cases h
      have hname : Reprintable (.sym (String.ofList (text.take (text.length - 3)))) := by
        refine .sym ?_ (fun c hc => hs c (List.mem_of_mem_take hc)) fun hmem => ?_
        · have hlen := hrest.1
          simp only [ne_eq, List.take_eq_nil_iff, hne, or_false]
          omega
        · simp [hmem] at hdot
      refine reprintable_kept.list _ fun v hv => ?_
      simp only [List.mem_cons, List.not_mem_nil, or_false] at hv
      rcases hv with rfl | rfl
      · exact .word (by decide) (by decide) (by decide)
      · exact hname
  rename_i hrest
  split at h
  · split at h
    · rename_i first fields hpieces
      split at h
      · cases h
      · rename_i hempty
        cases h
        simp only [Bool.or_eq_true, not_or, Bool.not_eq_true, List.isEmpty_eq_false_iff, List.any_eq_false] at hempty
        have hpiece (piece : List Char) (hmem : piece ∈ splitDots text) :
            (∀ c ∈ piece, isSymbolChar c = true) ∧ '.' ∉ piece :=
          ⟨fun c hc => hs c (mem_splitDots hmem c hc).1, fun hdot => (mem_splitDots hmem '.' hdot).2 rfl⟩
        rw [hpieces] at hpiece
        obtain ⟨hfirst, hfields⟩ := List.forall_mem_cons.mp hpiece
        refine .fields (.sym hempty.1 hfirst.1 fun hdot => absurd hdot hfirst.2) fun field hfield => ⟨?_, hfields field hfield⟩
        simpa using hempty.2 field hfield
    · cases h
  · rename_i hdotted
    cases h
    refine .sym hne hs fun hdot => eq_dots hne ?_ ?_
    · intro c hc
      have hall : text.all (· == '.') = true := by simpa [hdot] using hdotted
      exact beq_iff_eq.mp (List.all_eq_true.mp hall c hc)
    · simpa using hrest

/-- An atom stands for a value that can be reprinted, unless it is a float. -/
theorem readAtom_reprintable {text : List Char} {v : Value} (hne : text ≠ []) (hs : ∀ c ∈ text, isSymbolChar c = true)
    (h : readAtom text = .ok v) (hfloat : ∀ x, v ≠ .num (.float x)) : Reprintable v := by
  unfold readAtom at h
  split at h
  · obtain ⟨n, rfl⟩ : ∃ n, v = .num n := by
      unfold readNumber at h
      grind
    intro _
    refine .num ?_
    cases n with
    | float x => exact absurd rfl (hfloat x)
    | _ => rfl
  split at h
  · cases h
    exact fun _ => .bool true
  split at h
  · cases h
    exact fun _ => .bool false
  · exact readSymbol_reprintable hne hs h

/-! ## Texts -/

/-- Whether a lexeme is the literal of a float. -/
def Lexeme.isFloat (l : Lexeme) : Bool :=
  match l.token with
  | .atom text =>
    match readAtom text with
    | .ok (.num (.float _)) => true
    | _ => false
  | _ => false

/-- An atom is a run of symbol characters. -/
theorem lex_atoms {mode : LexMode} {text : List Char} : ∀ offset, ∀ l ∈ lex mode offset text, ∀ atom, l.token = .atom atom →
    atom ≠ [] ∧ ∀ c ∈ atom, isSymbolChar c = true := by
  induction mode, text using lex_induction with
  | nil mode => exact fun _ _ h => nomatch h
  | cons mode c cs ih =>
    intro offset l hl
    rw [lex_cons, LexMove.run, List.mem_append] at hl
    rcases hl with hl | hl
    · revert hl
      apply lexMove_induction fun m => l ∈ m.lexemes offset → ∀ atom, l.token = .atom atom →
        atom ≠ [] ∧ ∀ c ∈ atom, isSymbolChar c = true
      case atom =>
        intro _ hc hl atom hatom
        obtain rfl := List.mem_singleton.mp hl
        obtain rfl : c :: cs.takeWhile isSymbolChar = atom := by simpa using hatom
        exact ⟨by simp, List.forall_mem_cons.mpr ⟨hc, fun d hd => List.mem_takeWhile_imp hd⟩⟩
      case string =>
        intro _ _ hl atom hatom
        obtain rfl := List.mem_singleton.mp hl
        cases hatom
      case bracket =>
        intro _ _ _ hl atom hatom
        unfold bracketMove at hl
        split at hl
        all_goals
          obtain rfl := List.mem_singleton.mp hl
          simp only [charToken] at hatom
          grind
      all_goals
        intros
        contradiction
    · exact ih _ l hl

/-- The forms of a text without floats can be reprinted. -/
theorem Reads.reprintable {c d : Cursor} {forms : List (Value × Span)} (h : Reads c forms d)
    (hfloat : ∀ l ∈ lex .code c.offset c.rest, l.isFloat = false) : ∀ form ∈ forms, Reprintable form.1 := by
  induction h with
  | done c => exact nofun
  | @next c d _ value span _ hread _ ih =>
    obtain ⟨extent, hscan, hr, hvalue⟩ := extent_of_readForm hread
    rw [lex_of_extent hscan hr hvalue, List.forall_mem_append] at hfloat
    obtain ⟨hfloat, hrest⟩ := hfloat
    refine List.forall_mem_cons.mpr ⟨?_, ih hrest⟩
    have hparse := parse_of_readExtent hvalue
    refine @parse_made _ reprintable_kept _ _ ([], none) _ hparse ⟨nofun, nofun⟩ (fun l hl text v hatom hread => ?_)
      (fun l hl raw v hstring hread => ?_) value rfl
    · obtain ⟨hne, hs⟩ := lex_atoms _ l hl text hatom
      refine readAtom_reprintable hne hs hread fun x hx => ?_
      have hnot := hfloat l hl
      simp [Lexeme.isFloat, hatom, hread, hx] at hnot
    · cases hu : unescape raw with
      | error => simp [readString, hu, Except.map] at hread
      | ok cs =>
        obtain rfl : Value.str (String.ofList cs) = v := by simpa [readString, hu, Except.map] using hread
        exact fun _ => .str _

/-- Reading a text gives values exactly if its items are the forms of these. -/
theorem readText_eq_ok_iff (text : String) (values : List Value) :
    readText text = .ok values ↔ (items text.toList).map (·.1.value?) = values.map some := by
  unfold readText readAll results
  change (((items text.toList).map _).mapM _ = _) ↔ _
  generalize items text.toList = reads
  induction reads generalizing values with
  | nil => cases values <;> simp [pure, Except.pure]
  | cons read reads ih =>
    obtain ⟨item, next⟩ := read
    rw [List.map_cons, List.mapM_cons, List.map_cons]
    cases item with
    | fault f => cases values <;> simp [ReadItem.result, ReadItem.value?, Except.map, bind, Except.bind]
    | form value span =>
      have hstep (rest : Except Error (List Value)) :
          ((Except.ok value : Except Error Value) >>= fun v => rest >>= fun vs => pure (v :: vs)) =
            rest.map (value :: ·) := by
        cases rest <;> rfl
      refine (Eq.congr_left (hstep _)).trans ?_
      constructor
      · intro h
        cases hrest : List.mapM (m := Except Error) _ _ with
        | error e => rw [hrest] at h; cases h
        | ok vs =>
          rw [hrest] at h
          cases h
          exact congrArg _ ((ih vs).mp hrest)
      · intro h
        rw [eq_comm, List.map_eq_cons_iff] at h
        obtain ⟨v, vs, rfl, hv, hvs⟩ := h
        cases hv
        rw [(ih vs).mpr hvs.symm]
        rfl

/-- Values with a blank between any two are their texts with these blanks. -/
theorem spread_spaced (values : List Value) :
    spread (spaced values) = [' '].intercalate (values.map fun v => v.print.toList) := by
  fun_induction spaced values with
  | case1 => rfl
  | case2 value => simp [spread]
  | case3 value values hne ih =>
    obtain ⟨next, values, rfl⟩ := List.exists_cons_of_ne_nil hne
    simp only [spread, ih, List.map_cons, List.intercalate_cons_cons, List.append_assoc]

/-- Printed values, joined with single blanks, are read as these values if each of them is the form of its own text. -/
theorem readText_intercalate {values : List Value} (h : ∀ v ∈ values, Readable v) :
    readText (" ".intercalate (values.map Value.print)) = .ok values := by
  have htext : (" ".intercalate (values.map Value.print)).toList = spread (spaced values) := by
    rw [String.toList_intercalate, List.map_map, spread_spaced]
    rfl
  have hforms : ∀ entry ∈ spaced values, IsFormOf entry.1.print.toList entry.1 := by
    intro entry hentry
    have hmem : entry.1 ∈ (spaced values).map (·.1) := List.mem_map_of_mem hentry
    rw [map_fst_spaced] at hmem
    exact (h entry.1 hmem).legible.isForm
  obtain ⟨d, hreads, hd⟩ := @reads_spread [] nofun _ hforms (trivia_spaced values) (gap_spaced values) 0
  have hend : readForm d = none := by
    refine (readForm_none_iff d).mpr ((skipTrivia_end_iff d.offset d.rest).mp ?_)
    change d.skip.rest = []
    rw [hd]
    rfl
  rw [List.append_nil] at hreads
  rw [readText_eq_ok_iff, htext]
  change (itemsAt ⟨0, spread (spaced values)⟩).map _ = _
  rw [hreads.itemsAt, itemsAt_none hend, List.append_nil, List.map_map]
  calc (spreadForms 0 (spaced values)).map _
    _ = ((spreadForms 0 (spaced values)).map (·.1)).map some := (List.map_map ..).symm
    _ = values.map some := by rw [map_fst_spreadForms, map_fst_spaced]

/-- The text of a form reads as that form alone. -/
theorem results_print (name : String) {form : Value} (h : Readable form) :
    ∃ span, results ⟨name, form.print⟩ = [.ok (form, span)] := by
  have hread : readText form.print = .ok [form] := by
    have hall : ∀ v ∈ [form], Readable v := List.forall_mem_singleton.2 h
    have hone := readText_intercalate hall
    rwa [List.map_singleton, String.intercalate_singleton] at hone
  rw [readText_eq_ok_iff, List.map_singleton] at hread
  obtain ⟨⟨item, next⟩, hitems, hvalue⟩ := List.map_eq_singleton_iff.1 hread
  cases item with
  | fault f => cases hvalue
  | form value span =>
    cases hvalue
    refine ⟨span, ?_⟩
    show (items form.print.toList).map _ = _
    rw [hitems]
    rfl

/-- What the reader produces survives printing: if a text without a float literal is read as some forms, and all symbols in them
stand for themselves, then the printed forms, joined with single blanks, are read as the same forms. -/
theorem reprinted_reads_back (text : String) (values : List Value) (hread : readText text = .ok values)
    (hfloat : ∀ l ∈ lex .code 0 text.toList, l.isFloat = false)
    (hnames : ∀ v ∈ values, ∀ name ∈ v.symbols, standsForItself name = true) :
    readText (" ".intercalate (values.map Value.print)) = .ok values := by
  obtain ⟨forms, d, hreads, rfl, -⟩ := reads_of_itemsAt ((readText_eq_ok_iff text values).mp hread)
  have hforms := hreads.reprintable hfloat
  refine readText_intercalate fun v hv => ?_
  obtain ⟨form, hform, rfl⟩ := List.mem_map.mp hv
  exact hforms form hform (hnames form.1 hv)

/-- A field of a variable, in the shorthand and as it is printed. -/
theorem reprinted_reads_back_field :
    readText "a.b" = .ok [fieldAccess (.sym "a") ['b']] ∧ readText "(. a (quote b))" = .ok [fieldAccess (.sym "a") ['b']] := by
  have hread : readText "a.b" = .ok [fieldAccess (.sym "a") ['b']] :=
    (readText_eq_ok_iff _ _).mpr (show (items ['a', '.', 'b']).map _ = _ from rfl)
  have hprint : " ".intercalate ([fieldAccess (.sym "a") ['b']].map Value.print) = "(. a (quote b))" := by decide +kernel
  refine ⟨hread, hprint ▸ reprinted_reads_back "a.b" _ hread ?_ ?_⟩
  · decide +kernel
  · decide +kernel

/-- A field with the name `1` is printed like one that is the number, and so it is read. -/
theorem number_field_reads_back_apart :
    readText "a.1" = .ok [fieldAccess (.sym "a") ['1']] ∧
      " ".intercalate ([fieldAccess (.sym "a") ['1']].map Value.print) = "(. a (quote 1))" ∧
      readText "(. a (quote 1))" = .ok [.list [.sym ".", .sym "a", .wrap "quote" (.num (.int 1))]] := by
  refine ⟨(readText_eq_ok_iff _ _).mpr (show (items ['a', '.', '1']).map _ = _ from rfl), by decide +kernel, ?_⟩
  refine (readText_eq_ok_iff _ _).mpr ?_
  change (items ['(', '.', ' ', 'a', ' ', '(', 'q', 'u', 'o', 't', 'e', ' ', '1', ')', ')']).map _ = _
  rfl

end Reader

end MiniLisp
