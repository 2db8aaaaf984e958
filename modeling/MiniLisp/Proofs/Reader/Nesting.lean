import MiniLisp.Proofs.Reader.Composition

/-!
# Nesting: what reads at the top level reads the same in a group

At the top level a form ends where the scanner finds its extent; in a group it ends where its lexemes end. The two agree: a form
that is read at the top level is passed over by the scanner of a group around it, and its lexemes add its value to the group
(`Nests`, `nests_of_readForm`). So forms that can be read one after the other (`Reads`) can be put in any brackets
(`readForm_group`).
-/

namespace MiniLisp.Reader

/-! ## Forms one after the other -/

/-- Reading from one place to another gives these forms, one after the other and without a fault. -/
inductive Reads : Cursor → List (Value × Span) → Cursor → Prop where
  | done (c : Cursor) : Reads c [] c
  | next {c d e : Cursor} {value : Value} {span : Span} {forms : List (Value × Span)} :
      readForm c = some (.form value span, d) → Reads d forms e → Reads c ((value, span) :: forms) e

/-- What is read at one place is read at another, with its spans moved. -/
theorem Reads.shift {c d : Cursor} {forms : List (Value × Span)} (h : Reads c forms d) (k : Nat) :
    Reads (c.shift k) (forms.map fun form => (form.1, form.2.shift k)) (d.shift k) := by
  induction h with
  | done c => exact .done _
  | @next c d _ value span _ hread _ ih =>
    have hread' : readForm (c.shift k) = some (.form value (span.shift k), d.shift k) := by
      rw [readForm_shift, hread]
      rfl
    exact .next hread' ih

/-- What is read is read also with more text behind it, if that begins apart. -/
theorem Reads.append {c d : Cursor} {forms : List (Value × Span)} (h : Reads c forms d) {e : Char} (he : isFollower e = true)
    (more : List Char) : Reads (c.append (e :: more)) forms (d.append (e :: more)) := by
  induction h with
  | done c => exact .done _
  | next hread _ ih => exact .next (readForm_append he more hread rfl) ih

/-- These forms are then the first items, each with the end of its span as the position behind it. -/
theorem Reads.itemsAt {c d : Cursor} {forms : List (Value × Span)} (h : Reads c forms d) :
    itemsAt c = (forms.map fun form => (.form form.1 form.2, form.2.stop)) ++ Reader.itemsAt d := by
  induction h with
  | done c => rfl
  | next hread _ ih =>
    have hstop := (readForm_step hread).form _ _ rfl
    rw [itemsAt_some hread, ih, ← hstop]
    rfl

/-! ## A form in a group -/

/-- Nothing goes on behind a quote or a closer. -/
theorem joins_of_closing {a : Char} (h : a = '\x22' ∨ isCloser a = true) (d : Char) : joins a d = false := by
  simp only [isCloser, Bool.or_eq_true, beq_iff_eq] at h
  rcases h with rfl | (rfl | rfl) | rfl <;> rfl

/-- What ends an atom does not stand in one. -/
theorem isSymbolChar_of_isTerminator {d : Char} (h : isTerminator d = true) : isSymbolChar d = false := by
  simp only [isTerminator, isBlank, isOpener, isCloser, Bool.or_eq_true, beq_iff_eq] at h
  rcases h with (((((((((rfl | rfl) | rfl) | rfl) | (rfl | rfl) | rfl) | (rfl | rfl) | rfl) | rfl) | rfl) | rfl) | rfl) | rfl
  all_goals decide

/-- Nothing goes on into what ends an atom, unless a hash stands before it. -/
theorem joins_of_terminator {a d : Char} (ha : a ≠ '#') (h : isTerminator d = true) : joins a d = false := by
  have hd : d ≠ '@' := by
    rintro rfl
    exact absurd h (by decide)
  simp [joins, isSymbolChar_of_isTerminator h, hd, ha]

/-- What is behind a form that is read cannot belong to the last lexeme of the form. -/
theorem apart_of_ending {text rest : List Char} {offset stop : Nat} {stack : List Pending} {item : Item}
    (hclosed : Context.code.after text = .code) (hend : Ending text rest)
    (hparse : parse stop stack none (lex .code offset text) = .ok item) : Apart text rest := by
  intro a ha d hd
  obtain ⟨before, rfl⟩ := List.getLast?_eq_some_iff.mp ha
  rcases hend with ⟨before', e, heq, he⟩ | hterm
  · obtain ⟨-, hae⟩ := List.append_inj' heq rfl
    cases hae
    exact joins_of_closing he d
  · refine joins_of_terminator ?_ (hterm d hd)
    rintro rfl
    obtain ⟨l, hl, hstray⟩ := stray_of_number_sign offset hclosed
    exact not_stray_of_parse hparse l hl hstray

/-- What is read in an extent is what its lexemes are parsed as. -/
theorem parse_of_readExtent {extent : List Char} {span : Span} {value : Value} (h : readExtent extent span = .ok value) :
    parse span.stop [] none (lex .code span.start extent) = .ok (.ok value) := by
  unfold readExtent at h
  split at h
  · rename_i item hparse
    rw [hparse, h]
  · cases h

/-- What stands between two places counts in a group as these values: the scanner of a group passes over it, and its lexemes add
the values to the innermost group. -/
structure Nests (c : Cursor) (values : List Value) (d : Cursor) : Prop where
  passed : ∃ text, c.Reaches text d ∧ Passed text
  parsed : ∀ stop b start items outer, parse stop (.group b start items :: outer) none (lex .code c.offset c.rest) =
    parse stop (.group b start ((values.map .ok).reverse ++ items) :: outer) none (lex .code d.offset d.rest)

namespace Nests

theorem refl (c : Cursor) : Nests c [] c := ⟨⟨[], .refl c, .of_flat rfl⟩, fun _ _ _ _ _ => rfl⟩

/-- Of two texts after each other, the values of the first come first. -/
theorem trans {c d e : Cursor} {values more : List Value} (h : Nests c values d) (h' : Nests d more e) :
    Nests c (values ++ more) e := by
  obtain ⟨text, hr, hp⟩ := h.passed
  obtain ⟨text', hr', hp'⟩ := h'.passed
  refine ⟨⟨text ++ text', hr.trans hr', hp.append hp'⟩, fun stop b start items outer => ?_⟩
  rw [h.parsed, h'.parsed]
  simp

/-- Trivia before a form count for nothing. -/
theorem skip {c : Cursor} (h : c.skip.rest ≠ []) : Nests c [] c.skip := by
  obtain ⟨trivia, y, hr, hflat, hy⟩ := skipTrivia_reaches false c.offset c.rest
  obtain rfl : y = .code := hy h
  have hlex : lex .code c.offset c.rest = lex .code c.skip.offset c.skip.rest := lex_skipTrivia false c.offset c.rest
  exact ⟨⟨trivia, hr, .of_flat hflat⟩, fun _ _ _ _ _ => by rw [hlex]; rfl⟩

/-- The text of a form counts as its value. -/
theorem extent {start stop : Cursor} {text : List Char} {value : Value} (hscan : scanForm start = .ok stop)
    (hr : start.Reaches text stop) (hread : readExtent text ⟨start.offset, stop.offset⟩ = .ok value) :
    Nests start [value] stop := by
  obtain ⟨-, hclosed, hpassed, hend⟩ := scanForm_extent hscan hr
  have hparse := parse_of_readExtent hread
  -- the last lexeme of the form does not reach into what is behind it, so that all of them are those of the form alone
  have hlex : lex .code start.offset start.rest = lex .code start.offset text ++ lex .code stop.offset stop.rest := by
    rw [hr.1, hr.2, lex_code_append _ hclosed (apart_of_ending hclosed hend hparse)]
  refine ⟨⟨text, hr, hpassed⟩, fun stop' b start' items outer => ?_⟩
  rw [hlex]
  exact parse_append hparse stop' (.group b start' items :: outer) (lex .code stop.offset stop.rest)

end Nests

/-- A form that is read at the top level counts in a group as its value. -/
theorem nests_of_readForm {c d : Cursor} {value : Value} {span : Span} (h : readForm c = some (.form value span, d)) :
    Nests c [value] d := by
  obtain ⟨hne, ⟨f, -, hitem, -⟩ | ⟨extent, hscan, hr, hitem⟩⟩ := readForm_cases h
  · cases hitem
  · cases hread : readExtent extent ⟨c.skip.offset, d.offset⟩ with
    | error f =>
      rw [hread] at hitem
      cases hitem
    | ok v =>
      rw [hread] at hitem
      cases hitem
      exact (Nests.skip hne).trans (.extent hscan hr hread)

/-- Forms one after the other count as their values. -/
theorem Reads.nests {c d : Cursor} {forms : List (Value × Span)} (h : Reads c forms d) : Nests c (forms.map (·.1)) d := by
  induction h with
  | done c => exact .refl c
  | next hread _ ih => exact (nests_of_readForm hread).trans ih

/-- The same with the trivia behind them, up to what comes next. -/
theorem Reads.nests_skip {c d e : Cursor} {forms : List (Value × Span)} (h : Reads c forms d) (hskip : d.skip = e)
    (hne : e.rest ≠ []) : Nests c (forms.map (·.1)) e := by
  subst hskip
  rw [← List.append_nil (forms.map (·.1))]
  exact h.nests.trans (.skip hne)

/-! ## Groups -/

/-- The characters of a bracket that opens a group. -/
def Bracket.opening : Bracket → List Char
  | .list => ['(']
  | .vector => ['[']
  | .hashVector => ['#', '[']
  | .set => ['#', '\x7b']
  | .map => ['\x7b']

/-- The scanner of a group begins behind the bracket. -/
theorem scanForm_opening (b : Bracket) (offset : Nat) (rest : List Char) :
    ∃ opening, scanForm ⟨offset, b.opening ++ rest⟩ =
      scanGroup opening b.closer [] .code (offset + byteLength b.opening) rest := by
  cases b <;> exact ⟨_, rfl⟩

/-- Where a group opens, the opener is the first lexeme. -/
theorem lex_opening (b : Bracket) (offset : Nat) (rest : List Char) :
    lex .code offset (b.opening ++ rest) =
      ⟨.opener b, ⟨offset, offset + byteLength b.opening⟩⟩ :: lex .code (offset + byteLength b.opening) rest := by
  cases b <;> rfl

/-- What closes a bracket is a closer of one byte. -/
theorem Bracket.isCloser_closer (b : Bracket) : isCloser b.closer = true ∧ b.closer.utf8Size = 1 := by
  cases b <;> decide

/-- A closer is one lexeme. -/
theorem lex_closer (b : Bracket) (offset : Nat) :
    lex .code offset [b.closer] = [⟨.closer b.closer, ⟨offset, offset + 1⟩⟩] := by
  cases b <;> rfl

/-- A bracket stands where the form that it begins is found. -/
theorem skip_opening (b : Bracket) (offset : Nat) (rest : List Char) :
    (⟨offset, b.opening ++ rest⟩ : Cursor).skip = ⟨offset, b.opening ++ rest⟩ := by
  cases b <;> rfl

/-- A bracket, the lexemes of values and the closer give the group of the values. -/
theorem parse_group (b : Bracket) {offset stop : Nat} {body : List Char} {values : List Value}
    (h : Nests ⟨offset + byteLength b.opening, body⟩ values ⟨stop, [b.closer]⟩) :
    parse (stop + 1) [] none (lex .code offset (b.opening ++ body)) =
      .ok (groupItem b ⟨offset, stop + 1⟩ (values.map .ok)) :=
  calc parse (stop + 1) [] none (lex .code offset (b.opening ++ body))
    _ = parse (stop + 1) [.group b offset []] none (lex .code (offset + byteLength b.opening) body) := by
      rw [lex_opening, parse_cons]
      rfl
    _ = parse (stop + 1) [.group b offset ((values.map .ok).reverse ++ [])] none
          [⟨.closer b.closer, ⟨stop, stop + 1⟩⟩] := by
      rw [h.parsed, lex_closer]
    _ = .ok (groupItem b ⟨offset, stop + 1⟩ (values.map .ok)) := by
      simp [settle, complete, parse]

/-- What counts as these values behind a bracket, up to its closer, is read as one group of them. -/
theorem readForm_group (b : Bracket) {offset stop : Nat} {body : List Char} {values : List Value}
    (h : Nests ⟨offset + byteLength b.opening, body⟩ values ⟨stop, [b.closer]⟩) :
    readForm ⟨offset, b.opening ++ body⟩ =
      some (.ofItem ⟨offset, stop + 1⟩ (groupItem b ⟨offset, stop + 1⟩ (values.map .ok)), ⟨stop + 1, []⟩) := by
  obtain ⟨hcloser, hlen⟩ := b.isCloser_closer
  obtain ⟨text, ⟨hbody, hstop⟩, hpassed⟩ := h.passed
  simp only at hbody hstop
  have hscan : scanForm ⟨offset, b.opening ++ body⟩ = .ok ⟨stop + 1, []⟩ := by
    obtain ⟨opening, hopening⟩ := scanForm_opening b offset body
    rw [hopening, hbody, hpassed, ← hstop, scanGroup_closer _ _ _ _ hcloser, hlen]
    rfl
  have hwhole : (⟨offset, b.opening ++ body⟩ : Cursor).Reaches (b.opening ++ body) ⟨stop + 1, []⟩ := by
    refine ⟨by simp, ?_⟩
    simp only [hbody, byteLength_append, byteLength_cons, byteLength_nil, hlen, hstop]
    omega
  have hskip : (⟨offset, b.opening ++ body⟩ : Cursor).skip = ⟨offset, b.opening ++ body⟩ := skip_opening b offset body
  have hne : b.opening ++ body ≠ [] := by simp [hbody]
  have hread := @readForm_of_ok ⟨offset, b.opening ++ body⟩ ⟨stop + 1, []⟩ (b.opening ++ body)
    (by rwa [hskip]) (by rwa [hskip]) (by rwa [hskip])
  rw [hread, hskip, readExtent, parse_group b h]

/-- Values in a sequence are a sequence of values. -/
theorem sequenceItems_ok (values : List Value) : sequenceItems (values.map .ok) = .ok values := by
  induction values with
  | nil => rfl
  | cons value values ih =>
    rw [List.map_cons, sequenceItems, ih]
    rfl

/-- A sequence of values has a value for each item. -/
theorem eq_map_of_sequenceItems {items : List Item} {values : List Value} (h : sequenceItems items = .ok values) :
    items = values.map .ok := by
  induction items generalizing values with
  | nil => cases h; rfl
  | cons item items ih =>
    cases item with
    | error f => cases h
    | ok v =>
      cases hs : sequenceItems items with
      | error f => simp [sequenceItems, hs, bind, Except.bind] at h
      | ok vs =>
        obtain rfl : v :: vs = values := by simpa [sequenceItems, hs, bind, Except.bind, pure, Except.pure] using h
        rw [ih hs]
        rfl

/-! ## Texts without faults -/

/-- The value of an item that is a form. -/
def ReadItem.value? : ReadItem → Option Value
  | .form value _ => some value
  | .fault _ => none

/-- Where all that is read are values, they are the forms of the text, and nothing is left. -/
theorem reads_of_itemsAt {c : Cursor} {values : List Value} (h : (itemsAt c).map (·.1.value?) = values.map some) :
    ∃ forms d, Reads c forms d ∧ forms.map (·.1) = values ∧ readForm d = none := by
  induction c using items_induction generalizing values with
  | none c hc =>
    rw [itemsAt_none hc, List.map_nil, eq_comm, List.map_eq_nil_iff] at h
    subst h
    exact ⟨[], c, .done c, rfl, hc⟩
  | some c item next hc ih =>
    rw [itemsAt_some hc, List.map_cons, eq_comm, List.map_eq_cons_iff] at h
    obtain ⟨value, values, rfl, hvalue, hvalues⟩ := h
    obtain ⟨forms, d, hreads, rfl, hd⟩ := ih hvalues.symm
    cases item with
    | fault f => cases hvalue
    | form v span =>
      cases hvalue
      exact ⟨(value, span) :: forms, d, .next hc hreads, rfl, hd⟩

/-- What reads at the top level reads the same inside a list: if a text reads as forms without a fault, then the text in
parentheses, with a newline before the last of them, reads as one form that takes it up whole, the proper list of the forms. -/
theorem reads_same_in_list (text : List Char) (values : List Value) (h : (items text).map (·.1.value?) = values.map some) :
    let whole := '(' :: (text ++ ['\n', ')'])
    items whole = [(.form (.list values) ⟨0, byteLength whole⟩, byteLength whole)] ∧
      (values = [] → Value.list values = .nil) := by
  intro whole
  obtain ⟨forms, d, hreads, rfl, hd⟩ := reads_of_itemsAt h
  have hinside : Reads ⟨1, text ++ ['\n', ')']⟩ (forms.map fun form => (form.1, form.2.shift 1))
      ((d.shift 1).append ['\n', ')']) := (hreads.shift 1).append (by decide) [')']
  have hskip : ((d.shift 1).append ['\n', ')']).skip = ⟨d.offset + 1 + byteLength d.rest + 1, [')']⟩ :=
    skipTrivia_newline [')'] ((skipTrivia_end_iff _ _).mpr ((readForm_none_iff d).mp hd))
  have hread : readForm (.ofText whole) = _ := @readForm_group .list 0 _ _ _ (hinside.nests_skip hskip (by simp))
  rw [groupItem, sequenceItems_ok, List.map_map] at hread
  obtain ⟨all, -, hall, hlen⟩ := (readForm_step hread).forward
  have hwhole : whole = all := hall.trans (List.append_nil all)
  rw [← hwhole] at hlen
  refine ⟨?_, fun hnil => by rw [hnil]; rfl⟩
  have hend : readForm ⟨d.offset + 1 + byteLength d.rest + 1 + 1, []⟩ = none := (readForm_none_iff _).mpr (.closed .nil)
  change itemsAt (.ofText whole) = _
  simp only [Cursor.ofText, Nat.zero_add] at hlen
  rw [itemsAt_some hread, itemsAt_none hend, hlen]
  rfl

/-- A quoted symbol with an open comment behind it. -/
theorem reads_same_in_list_quoted :
    items "('a;b\n)".toList = [(.form (.list [.wrap "quote" (.sym "a")]) ⟨0, 7⟩, 7)] :=
  (reads_same_in_list "'a;b".toList [.wrap "quote" (.sym "a")] rfl).1

end MiniLisp.Reader
