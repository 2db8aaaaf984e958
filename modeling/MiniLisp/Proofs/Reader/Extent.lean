import MiniLisp.Proofs.Reader.Group

/-!
# Extents: what the scanner of a form depends on, and where it stops

The extent of a form depends on the form alone: on no byte before it (`scanForm_shift`), and on nothing behind it, unless it was
the end of the text that stopped the scanner (`scanForm_append`). A form that was found at the top level of a text is passed over
when it stands inside a group (`scanForm_ok`); and a failure shows a place within the text that was passed (`scanForm_error`).
-/

namespace MiniLisp.Reader

/-! ## Symbols and numbers -/

/-- Where an atom ends does not depend on where it begins. -/
theorem scanAtom_shift (k offset : Nat) (cs : List Char) : scanAtom (offset + k) cs = (scanAtom offset cs).shift k := by
  fun_induction scanAtom offset cs <;> simp_all [scanAtom, Cursor.shift, Nat.add_right_comm]

/-- A terminator ends a symbol or number as the end of the text does. -/
theorem scanAtom_append {d : Char} (hd : isTerminator d = true) (more : List Char) (offset : Nat) (cs : List Char) :
    scanAtom offset (cs ++ d :: more) = (scanAtom offset cs).append (d :: more) := by
  fun_induction scanAtom offset cs <;> simp_all [scanAtom, Cursor.append]

/-- A symbol or number holds no terminator, and ends at one or at the end of the text. -/
theorem scanAtom_reaches (offset : Nat) (cs : List Char) :
    ∃ text, (⟨offset, cs⟩ : Cursor).Reaches text (scanAtom offset cs) ∧ (∀ c ∈ text, isTerminator c = false) ∧
      ∀ d ∈ (scanAtom offset cs).rest.head?, isTerminator d = true := by
  fun_induction scanAtom offset cs with
  | case1 offset => exact ⟨[], .refl _, by simp, by simp⟩
  | case2 offset c cs hc => exact ⟨[], .refl _, by simp, by simpa using hc⟩
  | case3 offset c cs hc ih =>
    obtain ⟨text, hr, ht, hd⟩ := ih
    exact ⟨c :: text, hr.cons, by simpa [hc] using ht, hd⟩

/-- Outside of strings and comments, what is no terminator is no bracket and begins nothing. -/
theorem isPlain_of_not_terminator {c : Char} (h : isTerminator c = false) : Context.isPlain c = true := by
  simp only [isTerminator, Bool.or_eq_false_iff] at h
  simp [Context.isPlain, h]

/-- A text without terminators opens nothing. -/
theorem flat_of_no_terminator {text : List Char} (h : ∀ c ∈ text, isTerminator c = false) : Context.Flat .code text .code := by
  induction text with
  | nil => rfl
  | cons c text ih =>
    have hc : Context.isPlain c = true := isPlain_of_not_terminator (h c (List.mem_cons_self ..))
    exact .plain hc (ih fun d hd => h d (List.mem_cons_of_mem _ hd))

/-! ## What follows the marks of a form -/

/-- The scan of a group does not depend on its place. -/
theorem scanOpened_shift (k : Nat) (delimiter : Char) (width offset : Nat) (rest : List Char) :
    scanOpened delimiter width (offset + k) rest = Scan.shift k (scanOpened delimiter width offset rest) := by
  unfold scanOpened
  rw [← scanGroup_shift k]
  simp [Span.shift, Mode.shift, Nat.add_right_comm]

/-- The ways in which what follows the marks of a form begins. -/
inductive Body : List Char → Prop where
  | string (cs : List Char) : Body ('\x22' :: cs)
  | hashed {b : Char} (cs : List Char) (hb : b = '[' ∨ b = '\x7b') : Body ('#' :: b :: cs)
  | closer {d : Char} (cs : List Char) (hd : isCloser d = true) : Body (d :: cs)
  | group {d : Char} (cs : List Char) (hd : isOpener d = true) : Body (d :: cs)
  | atom {d : Char} (cs : List Char) (hq : d ≠ '\x22') (hc : isCloser d = false) (ho : isOpener d = false)
      (hh : ∀ b cs', d = '#' → cs = b :: cs' → b ≠ '[' ∧ b ≠ '\x7b') : Body (d :: cs)

/-- A form begins in one of five ways. -/
theorem body_cases (d : Char) (cs : List Char) : Body (d :: cs) := by
  by_cases hq : d = '\x22'
  · exact hq ▸ .string cs
  by_cases hc : isCloser d = true
  · exact .closer cs hc
  by_cases ho : isOpener d = true
  · exact .group cs ho
  by_cases hh : d = '#' ∧ ∃ b cs', cs = b :: cs' ∧ (b = '[' ∨ b = '\x7b')
  · obtain ⟨rfl, b, cs', rfl, hb⟩ := hh
    exact .hashed cs' hb
  · refine .atom cs hq (by simpa using hc) (by simpa using ho) fun b cs' hd hcs => ?_
    constructor
    · rintro rfl
      exact hh ⟨hd, _, cs', hcs, .inl rfl⟩
    · rintro rfl
      exact hh ⟨hd, _, cs', hcs, .inr rfl⟩

/-- A hash and a bracket open a group of two characters' width. -/
theorem scanBody_hashed (offset : Nat) {b : Char} (cs : List Char) (hb : b = '[' ∨ b = '\x7b') :
    scanBody ⟨offset, '#' :: b :: cs⟩ = scanOpened b 2 offset cs := by
  rcases hb with rfl | rfl <;> rfl

/-- A closer without an opener is refused. -/
theorem scanBody_closer (offset : Nat) {d : Char} (cs : List Char) (hd : isCloser d = true) :
    scanBody ⟨offset, d :: cs⟩ = .error ⟨.unmatchedDelimiter d, ⟨offset, offset + 1⟩, ⟨offset + 1, cs⟩⟩ := by
  simp only [isCloser, Bool.or_eq_true, beq_iff_eq] at hd
  rcases hd with (rfl | rfl) | rfl <;> rfl

/-- An opener opens a group. -/
theorem scanBody_group (offset : Nat) {d : Char} (cs : List Char) (hd : isOpener d = true) :
    scanBody ⟨offset, d :: cs⟩ = scanOpened d 1 offset cs := by
  simp only [isOpener, Bool.or_eq_true, beq_iff_eq] at hd
  rcases hd with (rfl | rfl) | rfl <;> rfl

/-- Anything else is an atom. -/
theorem scanBody_atom (offset : Nat) {d : Char} (cs : List Char) (hq : d ≠ '\x22') (hc : isCloser d = false)
    (ho : isOpener d = false) (hh : ∀ b cs', d = '#' → cs = b :: cs' → b ≠ '[' ∧ b ≠ '\x7b') :
    scanBody ⟨offset, d :: cs⟩ = .ok (scanAtom offset (d :: cs)) := by
  unfold scanBody
  split
  · rename_i h
    cases h
    exact absurd rfl hq
  · rename_i h
    cases h
    exact absurd rfl (hh _ _ rfl rfl).1
  · rename_i h
    cases h
    exact absurd rfl (hh _ _ rfl rfl).2
  · rename_i h
    cases h
    rw [hc, ho]
    rfl
  · rename_i h
    cases h

/-- The opener of a group takes as many bytes as it has characters. -/
theorem byteLength_opener {d : Char} (hd : isOpener d = true) : byteLength ([] ++ [d]) = 1 := by
  obtain ⟨-, -, hw⟩ := not_quote_of_bracket (.inl hd)
  simp [hw]

theorem byteLength_hashed {b : Char} (hb : b = '[' ∨ b = '\x7b') : byteLength (['#'] ++ [b]) = 2 := by
  rcases hb with rfl | rfl <;> rfl

/-- What stands behind a hash is an opener. -/
theorem isOpener_of_hashed {b : Char} (hb : b = '[' ∨ b = '\x7b') : isOpener b = true := by
  rcases hb with rfl | rfl <;> rfl

/-- The scan of a form does not depend on its place. -/
theorem scanBody_shift (k : Nat) (c : Cursor) : scanBody (c.shift k) = Scan.shift k (scanBody c) := by
  obtain ⟨offset, rest⟩ := c
  cases rest with
  | nil => rfl
  | cons d cs =>
    show scanBody ⟨offset + k, d :: cs⟩ = _
    cases body_cases d cs with
    | string cs =>
      show scanString (offset + k) false (offset + k + 1) cs = Scan.shift k (scanString offset false (offset + 1) cs)
      rw [← scanString_shift, Nat.add_right_comm]
    | hashed cs hb => rw [scanBody_hashed _ _ hb, scanBody_hashed _ _ hb, scanOpened_shift]
    | closer cs hd =>
      rw [scanBody_closer _ _ hd, scanBody_closer _ _ hd]
      simp [Scan.shift, Failure.shift, Span.shift, Cursor.shift, Nat.add_right_comm]
    | group cs hd => rw [scanBody_group _ _ hd, scanBody_group _ _ hd, scanOpened_shift]
    | atom cs hq hc ho hh => rw [scanBody_atom _ _ hq hc ho hh, scanBody_atom _ _ hq hc ho hh, scanAtom_shift, Scan.shift]

/-- The characters that may follow a form without changing its extent: the terminators with which no vector or set can begin. -/
def isFollower (c : Char) : Bool := isTerminator c && !isOpener c

/-- A form that is settled is not changed by what follows it. -/
theorem scanBody_append {e : Char} (he : isFollower e = true) (more : List Char) {c : Cursor} (hne : c.rest ≠ [])
    (h : Scan.Settled (scanBody c)) : scanBody (c.append (e :: more)) = Scan.append (e :: more) (scanBody c) := by
  obtain ⟨offset, rest⟩ := c
  simp only [isFollower, Bool.and_eq_true, Bool.not_eq_true'] at he
  obtain ⟨het, heo⟩ := he
  cases rest with
  | nil => exact absurd rfl hne
  | cons d cs =>
    show scanBody ⟨offset, d :: (cs ++ e :: more)⟩ = _
    cases body_cases d cs with
    | string cs => exact scanString_append (e :: more) h
    | @hashed b cs hb =>
      have hd : isOpener b = true := isOpener_of_hashed hb
      rw [scanBody_hashed _ _ hb] at h ⊢
      rw [List.cons_append, scanBody_hashed _ _ hb]
      exact scanGroup_append (e :: more) hd h
    | closer cs hd =>
      rw [scanBody_closer _ _ hd, scanBody_closer _ _ hd]
      rfl
    | group cs hd =>
      rw [scanBody_group _ _ hd] at h ⊢
      rw [scanBody_group _ _ hd]
      exact scanGroup_append (e :: more) hd h
    | atom cs hq hc ho hh =>
      have hh' : ∀ b cs', d = '#' → cs ++ e :: more = b :: cs' → b ≠ '[' ∧ b ≠ '\x7b' := by
        intro b cs' hd hcs
        cases cs with
        | nil =>
          cases hcs
          constructor
          · rintro rfl
            cases heo
          · rintro rfl
            cases heo
        | cons x xs =>
          cases hcs
          exact hh b xs hd rfl
      rw [scanBody_atom _ _ hq hc ho hh', scanBody_atom _ _ hq hc ho hh]
      exact congrArg Except.ok (scanAtom_append het more offset (d :: cs))

/-- A form ends where its text does: behind a quote or a closer, or before a terminator or the end of the text. -/
def Ending (text rest : List Char) : Prop :=
  (∃ before d, text = before ++ [d] ∧ (d = '\x22' ∨ isCloser d = true)) ∨ ∀ d ∈ rest.head?, isTerminator d = true

/-- A group is passed over from its opener on, because the scan of its inside is the same in other groups. -/
theorem scanOpened_ok {marks : List Char} {b : Char} {offset : Nat} {cs : List Char} {stop : Cursor} (hb : isOpener b = true)
    (hm : Context.Flat .code marks .code) (h : scanOpened b (byteLength (marks ++ [b])) offset cs = .ok stop) :
    ∃ text, (⟨offset, marks ++ b :: cs⟩ : Cursor).Reaches text stop ∧ text ≠ [] ∧ Context.code.after text = .code ∧
      Passed text ∧ Ending text stop.rest := by
  obtain ⟨text, closer, hr, hcl, ha, hall⟩ := scanGroup_ok h
  obtain ⟨hbs, hbq, -⟩ := not_quote_of_bracket (.inl hb)
  obtain ⟨hcs, hcq, -⟩ := not_quote_of_bracket (.inr hcl)
  have hstart : (⟨offset, marks ++ b :: cs⟩ : Cursor).Reaches (marks ++ [b]) ⟨offset + byteLength (marks ++ [b]), cs⟩ :=
    ⟨by simp, rfl⟩
  refine ⟨_, hstart.trans hr, by simp, ?_, ?_, .inl ⟨_, closer, (List.append_assoc ..).symm, .inr hcl⟩⟩
  · have ha' : Context.code.after text = .code := ha
    simp [hm.after_eq, Context.step, hbs, hbq, ha', hcs, hcq]
  · intro opening expected outer offset' rest
    have he := hall opening (expected :: outer) .code (offset' + byteLength marks + b.utf8Size) rest rfl
    rw [show marks ++ [b] ++ (text ++ [closer]) ++ rest = marks ++ (b :: (text ++ closer :: rest)) by simp,
      Passed.of_flat hm, scanGroup_opener _ _ _ _ _ hb, ← List.nil_append (expected :: outer), he, leave]
    simp only [byteLength_append, byteLength_cons, byteLength_nil, Nat.add_assoc, Nat.add_zero]

/-- A complaint about a group is about a place in it. -/
theorem scanOpened_error {start : Cursor} {text marks : List Char} {b : Char} {offset : Nat} {cs : List Char} {f : Failure}
    (h : scanOpened b (byteLength (marks ++ [b])) offset cs = .error f)
    (hr : start.Reaches text ⟨offset, marks ++ b :: cs⟩) : f.Sound start := by
  have hb : (⟨offset, marks ++ b :: cs⟩ : Cursor).Reaches (marks ++ [b]) ⟨offset + byteLength (marks ++ [b]), cs⟩ :=
    ⟨by simp, rfl⟩
  exact scanGroup_error h (hr.trans hb) (by simp) hr.sees (Nat.le_add_right _ _) (Nat.le_refl _) trivial

/-- What follows the marks of a form leaves no string or comment open, and is passed over in a group. -/
theorem scanBody_ok {c stop : Cursor} {d : Char} {cs : List Char} (hcs : c.rest = d :: cs) (hm : isMark d = false)
    (hs : d ≠ ';') (h : scanBody c = .ok stop) :
    ∃ text, c.Reaches text stop ∧ text ≠ [] ∧ Context.code.after text = .code ∧ Passed text ∧ Ending text stop.rest := by
  obtain ⟨offset, rest⟩ := c
  cases hcs
  cases body_cases d cs with
  | string cs =>
    obtain ⟨text, hr, hf⟩ := scanString_ok h
    have hf' : Context.Flat .code ('\x22' :: (text ++ ['\x22'])) .code := ⟨fun _ => by decide, hf⟩
    have hr' : (⟨offset, '\x22' :: cs⟩ : Cursor).Reaches ('\x22' :: (text ++ ['\x22'])) stop := Cursor.Reaches.cons hr
    exact ⟨_, hr', by simp, hf'.after_eq, .of_flat hf', .inl ⟨'\x22' :: text, '\x22', rfl, .inl rfl⟩⟩
  | @hashed b cs hb =>
    rw [scanBody_hashed _ _ hb] at h
    have hf : Context.Flat .code ['#'] .code := .plain (by decide) rfl
    exact scanOpened_ok (isOpener_of_hashed hb) hf (byteLength_hashed hb ▸ h)
  | closer cs hd =>
    rw [scanBody_closer _ _ hd] at h
    cases h
  | group cs hd =>
    rw [scanBody_group _ _ hd] at h
    have hf : Context.Flat .code [] .code := rfl
    exact scanOpened_ok hd hf (byteLength_opener hd ▸ h)
  | atom cs hq hc ho hh =>
    rw [scanBody_atom _ _ hq hc ho hh] at h
    cases h
    have hd : isTerminator d = false := by
      simp only [isMark, Bool.or_eq_false_iff] at hm
      simp [isTerminator, hm, ho, hc, hq, hs]
    obtain ⟨text, hr, ht, hrest⟩ := scanAtom_reaches (offset + d.utf8Size) cs
    have ha : scanAtom offset (d :: cs) = scanAtom (offset + d.utf8Size) cs := by simp [scanAtom, hd]
    have hf : Context.Flat .code (d :: text) .code := flat_of_no_terminator (by simpa [hd] using ht)
    rw [ha]
    exact ⟨d :: text, hr.cons, by simp, hf.after_eq, .of_flat hf, .inr hrest⟩

/-- A complaint about a form is about a place in it. -/
theorem scanBody_error {start c : Cursor} {text : List Char} {f : Failure} (h : scanBody c = .error f)
    (hr : start.Reaches text c) : f.Sound start := by
  obtain ⟨offset, rest⟩ := c
  cases rest with
  | nil => cases h
  | cons d cs =>
    cases body_cases d cs with
    | string cs =>
      have hb : (⟨offset, '\x22' :: cs⟩ : Cursor).Reaches ['\x22'] ⟨offset + 1, cs⟩ := ⟨rfl, rfl⟩
      exact scanString_error h (hr.trans hb) (by simp) hr.sees (Nat.le_add_right _ _)
    | @hashed b cs hb =>
      rw [scanBody_hashed _ _ hb] at h
      have hr' : start.Reaches text ⟨offset, ['#'] ++ b :: cs⟩ := hr
      exact scanOpened_error (byteLength_hashed hb ▸ h) hr'
    | closer cs hd =>
      rw [scanBody_closer _ _ hd] at h
      cases h
      obtain ⟨-, -, hw⟩ := not_quote_of_bracket (.inr hd)
      have hb : (⟨offset, d :: cs⟩ : Cursor).Reaches [d] ⟨offset + 1, cs⟩ := ⟨rfl, by simp [hw]⟩
      exact ⟨⟨_, by simp, hr.trans hb⟩, hr.sees, Nat.le_add_right _ _, Nat.le_refl _, rfl⟩
    | group cs hd =>
      rw [scanBody_group _ _ hd] at h
      have hr' : start.Reaches text ⟨offset, [] ++ d :: cs⟩ := hr
      exact scanOpened_error (byteLength_opener hd ▸ h) hr'
    | atom cs hq hc ho hh =>
      rw [scanBody_atom _ _ hq hc ho hh] at h
      cases h

/-! ## Forms -/

/-- The extent of a form does not depend on the bytes before it. -/
theorem scanForm_shift (k : Nat) (start : Cursor) : scanForm (start.shift k) = Scan.shift k (scanForm start) := by
  unfold scanForm
  rw [Cursor.offset_shift, Cursor.rest_shift, skipMarks_shift]
  cases skipMarks false start.offset start.rest with
  | ok body => exact scanBody_shift k body
  | error stop => rfl

/-- The extent of a form does not depend on what follows it, unless the end of the text is to blame for its failure. -/
theorem scanForm_append {e : Char} (he : isFollower e = true) (more : List Char) {start : Cursor}
    (h : Scan.Settled (scanForm start)) :
    scanForm (start.append (e :: more)) = Scan.append (e :: more) (scanForm start) := by
  unfold scanForm at h ⊢
  rw [Cursor.offset_append, Cursor.rest_append]
  cases hm : skipMarks false start.offset start.rest with
  | ok body =>
    rw [hm] at h
    rw [skipMarks_append (e :: more) hm]
    obtain ⟨_, -, -, c, rest, hb, -⟩ := skipMarks_reaches hm
    exact scanBody_append he more (by simp [hb]) h
  | error stop =>
    rw [hm] at h
    cases h _ rfl

/-- A form leaves no string or comment open, and is passed over where it stands in a group. -/
theorem scanForm_ok {start stop : Cursor} (h : scanForm start = .ok stop) :
    ∃ text, start.Reaches text stop ∧ text ≠ [] ∧ Context.code.after text = .code ∧ Passed text ∧ Ending text stop.rest := by
  unfold scanForm at h
  split at h
  · rename_i body hm
    obtain ⟨marks, hr, hf, c, rest, hb, hmark, hsemi⟩ := skipMarks_reaches hm
    have hf : Context.Flat .code marks .code := hf
    obtain ⟨text, hr', hne, ha, hp, he⟩ := scanBody_ok hb hmark hsemi h
    refine ⟨marks ++ text, hr.trans hr', by simp [hne], by simp [hf.after_eq, ha], (Passed.of_flat hf).append hp, ?_⟩
    rcases he with ⟨before, d, rfl, hd⟩ | hrest
    · exact .inl ⟨marks ++ before, d, (List.append_assoc ..).symm, hd⟩
    · exact .inr hrest
  · cases h

/-- The text that a scan has passed is that of a form. -/
theorem scanForm_extent {start stop : Cursor} {extent : List Char} (h : scanForm start = .ok stop)
    (hr : start.Reaches extent stop) :
    extent ≠ [] ∧ Context.code.after extent = .code ∧ Passed extent ∧ Ending extent stop.rest := by
  obtain ⟨text, htext, hfacts⟩ := scanForm_ok h
  exact htext.unique hr ▸ hfacts

/-- The failure of a form shows a place between the start of the form and the place where reading goes on. -/
theorem scanForm_error {start : Cursor} {f : Failure} (hne : start.rest ≠ []) (h : scanForm start = .error f) :
    f.Sound start := by
  unfold scanForm at h
  split at h
  · rename_i body hm
    obtain ⟨marks, hr, -⟩ := skipMarks_reaches hm
    exact scanBody_error h hr
  · rename_i stop hm
    cases h
    have hr : start.Reaches start.rest ⟨stop, []⟩ := skipMarks_end hm
    exact ⟨⟨_, hne, hr⟩, (Cursor.Reaches.refl start).sees, hr.offset_le, Nat.le_refl _, rfl⟩

end MiniLisp.Reader
