import MiniLisp.Proofs.Reader.Place

/-!
# Strings and groups: how far they reach

The scanner of a group goes from character to character, and at each it is at an opener, at a closer, or at something that is no
bracket (`bracket_cases`): there is one equation for each. What it passed over in one group it passes over in any other
(`scanGroup_ok`), and a failure shows a place that it has passed (`scanGroup_error`).
-/

namespace MiniLisp

/-- The causes for which the end of the text is to blame: a string or a group that is still open there, or marks without a form. -/
def ErrorKind.endsInput : ErrorKind → Bool
  | .unterminatedString => true
  | .unmatchedDelimiter delimiter => isOpener delimiter
  | .unexpectedToken _ found => found == "end of input"
  | _ => false

namespace Reader

/-- The same failure, counted from a point `k` bytes earlier. -/
def Failure.shift (f : Failure) (k : Nat) : Failure := ⟨f.kind, f.span.shift k, f.resume.shift k⟩

/-- The same failure in a text that goes on with `more`. -/
def Failure.append (f : Failure) (more : List Char) : Failure := ⟨f.kind, f.span, f.resume.append more⟩

/-- A failure of the scan of a form at `start`: reading goes on behind it, and the place to show is between the two. -/
structure Failure.Sound (start : Cursor) (f : Failure) : Prop where
  resume : ∃ text, text ≠ [] ∧ start.Reaches text f.resume
  sees : start.Sees f.span.start
  start_le : f.span.start ≤ f.span.stop
  stop_le : f.span.stop ≤ f.resume.offset
  category : f.kind.category = .parse

/-- Where a scan stops, or why it fails. -/
abbrev Scan := Except Failure Cursor

namespace Scan

def shift (k : Nat) : Scan → Scan
  | .ok stop => .ok (stop.shift k)
  | .error f => .error (f.shift k)

def append (more : List Char) : Scan → Scan
  | .ok stop => .ok (stop.append more)
  | .error f => .error (f.append more)

/-- It was not the end of the text that stopped the scan. -/
def Settled (r : Scan) : Prop := ∀ f, r = .error f → f.kind.endsInput = false

end Scan

/-! ## Strings -/

/-- Where a string ends does not depend on where it begins. -/
theorem scanString_shift (k opened : Nat) (escaped : Bool) (offset : Nat) (cs : List Char) :
    scanString (opened + k) escaped (offset + k) cs = Scan.shift k (scanString opened escaped offset cs) := by
  fun_induction scanString opened escaped offset cs <;>
    simp_all [scanString, unterminated, Scan.shift, Failure.shift, Span.shift, Cursor.shift, Nat.add_right_comm]

/-- A string that is settled is not changed by what follows it. -/
theorem scanString_append (more : List Char) {opened : Nat} {escaped : Bool} {offset : Nat} {cs : List Char}
    (h : Scan.Settled (scanString opened escaped offset cs)) :
    scanString opened escaped offset (cs ++ more) = Scan.append more (scanString opened escaped offset cs) := by
  fun_induction scanString opened escaped offset cs with
  | case1 escaped offset => cases h _ rfl
  | case2 offset c cs ih => simp_all [scanString]
  | case3 escaped offset c cs he hc ih => simp_all [scanString]
  | case4 escaped offset c cs he hc hq => simp_all [scanString, Scan.append, Cursor.append]
  | case5 escaped offset c cs he hc hq ih => simp_all [scanString]

/-- A string ends at a quote, and what is in it up to there belongs to it. -/
theorem scanString_ok {opened : Nat} {escaped : Bool} {offset : Nat} {cs : List Char} {stop : Cursor}
    (h : scanString opened escaped offset cs = .ok stop) :
    ∃ text, (⟨offset, cs⟩ : Cursor).Reaches (text ++ ['\x22']) stop ∧
      Context.Flat (if escaped then .escape else .string) (text ++ ['\x22']) .code := by
  fun_induction scanString opened escaped offset cs with
  | case1 escaped offset => cases h
  | case2 offset c cs ih =>
    obtain ⟨text, hr, hf⟩ := ih h
    exact ⟨c :: text, hr.cons, (fun hx => by cases hx), hf⟩
  | case3 escaped offset c cs he hc ih =>
    obtain ⟨text, hr, hf⟩ := ih h
    refine ⟨c :: text, hr.cons, ?_⟩
    simp_all [Context.Flat, Context.step]
  | case4 escaped offset c cs he hc hq =>
    cases h
    have hq : c = '\x22' := by simpa using hq
    subst hq
    refine ⟨[], (Cursor.Reaches.refl _).cons, ?_⟩
    simp_all [Context.Flat, Context.step]
  | case5 escaped offset c cs he hc hq ih =>
    obtain ⟨text, hr, hf⟩ := ih h
    refine ⟨c :: text, hr.cons, ?_⟩
    simp_all [Context.Flat, Context.step]

/-- A string without an end reaches to the end of the text. -/
theorem scanString_error {start : Cursor} {text : List Char} {opened : Nat} {escaped : Bool} {offset : Nat} {cs : List Char}
    {f : Failure} (h : scanString opened escaped offset cs = .error f) (hr : start.Reaches text ⟨offset, cs⟩)
    (hne : text ≠ []) (hs : start.Sees opened) (hle : opened ≤ offset) : f.Sound start := by
  fun_induction scanString opened escaped offset cs generalizing text with
  | case1 escaped offset =>
    cases h
    exact ⟨⟨text, hne, hr⟩, hs, hle, Nat.le_refl _, rfl⟩
  | case2 offset c cs ih => exact ih h (hr.trans (Cursor.Reaches.refl _).cons) (by simp) (by omega)
  | case3 escaped offset c cs he hc ih => exact ih h (hr.trans (Cursor.Reaches.refl _).cons) (by simp) (by omega)
  | case4 escaped offset c cs he hc hq => cases h
  | case5 escaped offset c cs he hc hq ih => exact ih h (hr.trans (Cursor.Reaches.refl _).cons) (by simp) (by omega)

/-! ## Groups -/

namespace Mode

def context : Mode → Context
  | .code => .code
  | .comment => .comment
  | .string _ => .string
  | .escape _ => .escape

def shift (k : Nat) : Mode → Mode
  | .code => .code
  | .comment => .comment
  | .string opened => .string (opened + k)
  | .escape opened => .escape (opened + k)

/-- The mode behind a character at `offset` that is no bracket. -/
def step (offset : Nat) (c : Char) : Mode → Mode
  | .code => if c == ';' then .comment else if c == '\x22' then .string offset else .code
  | .comment => if c == '\n' then .code else .comment
  | .string opened => if c == '\x5c' then .escape opened else if c == '\x22' then .code else .string opened
  | .escape opened => .string opened

/-- Outside strings and comments the mode is that of code. -/
theorem eq_code_of_context {mode : Mode} (h : mode.context = .code) : mode = .code := by
  cases mode <;> first | rfl | cases h

/-- The mode of the scan follows the context of the text. -/
theorem context_step (offset : Nat) (c : Char) (mode : Mode) : (mode.step offset c).context = mode.context.step c := by
  cases mode <;> grind [step, context, Context.step]

/-- A step of the mode does not depend on the place. -/
theorem step_shift (k offset : Nat) (c : Char) (mode : Mode) :
    (mode.shift k).step (offset + k) c = (mode.step offset c).shift k := by
  cases mode <;> grind [step, shift]

/-- A string that is open has begun at a place that was seen. -/
def Open (start : Cursor) (offset : Nat) : Mode → Prop
  | .string opened | .escape opened => start.Sees opened ∧ opened ≤ offset
  | _ => True

/-- An open string keeps its beginning. -/
theorem Open.step {start : Cursor} {offset : Nat} {mode : Mode} (h : mode.Open start offset) (hs : start.Sees offset) (c : Char) :
    (mode.step offset c).Open start (offset + c.utf8Size) := by
  cases mode <;> grind [Mode.step, Open]

end Mode

/-- No bracket begins a comment or a string. -/
theorem not_quote_of_bracket {c : Char} (h : isOpener c = true ∨ isCloser c = true) :
    (c == ';') = false ∧ (c == '\x22') = false ∧ c.utf8Size = 1 := by
  simp only [isOpener, isCloser, Bool.or_eq_true, beq_iff_eq] at h
  rcases h with ((rfl | rfl) | rfl) | ((rfl | rfl) | rfl) <;> decide

theorem isOpener_of_isCloser {c : Char} (h : isCloser c = true) : isOpener c = false := by
  simp only [isCloser, Bool.or_eq_true, beq_iff_eq] at h
  rcases h with (rfl | rfl) | rfl <;> decide

/-- Go on behind a group, in the groups around it. -/
def leave (opening : Opening) (around : List Char) (offset : Nat) (rest : List Char) : Scan :=
  match around with
  | [] => .ok ⟨offset, rest⟩
  | expected :: outer => scanGroup opening expected outer .code offset rest

/-- At a character the scanner of a group is at an opener, at a closer, or at something that is no bracket. -/
theorem bracket_cases (mode : Mode) (c : Char) :
    (mode = .code ∧ isOpener c = true) ∨ (mode = .code ∧ isCloser c = true) ∨
      (mode.context = .code → isOpener c = false ∧ isCloser c = false) := by
  by_cases hm : mode = .code
  · cases ho : isOpener c with
    | true => exact .inl ⟨hm, rfl⟩
    | false =>
      cases hc : isCloser c with
      | true => exact .inr (.inl ⟨hm, rfl⟩)
      | false => exact .inr (.inr fun _ => ⟨rfl, rfl⟩)
  · exact .inr (.inr fun h => absurd (Mode.eq_code_of_context h) hm)

section Steps

variable (opening : Opening) (expected : Char) (outer : List Char) (offset : Nat) {c : Char} (cs : List Char)

/-- An opener in code opens a group inside. -/
theorem scanGroup_opener (hc : isOpener c = true) :
    scanGroup opening expected outer .code offset (c :: cs) =
      scanGroup opening (closerFor c) (expected :: outer) .code (offset + c.utf8Size) cs := by
  obtain ⟨hs, hq, -⟩ := not_quote_of_bracket (.inl hc)
  simp [scanGroup, hc, hs, hq]

/-- The closer that is waited for ends the group. -/
theorem scanGroup_closer (hc : isCloser c = true) :
    scanGroup opening c outer .code offset (c :: cs) = leave opening outer (offset + c.utf8Size) cs := by
  obtain ⟨hs, hq, -⟩ := not_quote_of_bracket (.inr hc)
  cases outer <;> simp [scanGroup, leave, isOpener_of_isCloser hc, hc, hs, hq]

/-- Another closer is refused. -/
theorem scanGroup_mismatch (hc : isCloser c = true) (hne : c ≠ expected) :
    scanGroup opening expected outer .code offset (c :: cs) = .error (mismatched expected c offset cs) := by
  obtain ⟨hs, hq, -⟩ := not_quote_of_bracket (.inr hc)
  simp [scanGroup, isOpener_of_isCloser hc, hc, hs, hq, hne]

/-- Any other character moves the mode on. -/
theorem scanGroup_other {mode : Mode} (hc : mode.context = .code → isOpener c = false ∧ isCloser c = false) :
    scanGroup opening expected outer mode offset (c :: cs) =
      scanGroup opening expected outer (mode.step offset c) (offset + c.utf8Size) cs := by
  cases mode with
  | code =>
    obtain ⟨ho, hcl⟩ := hc rfl
    simp only [scanGroup, ho, hcl, Mode.step]
    grind
  | comment => rfl
  | string opened =>
    simp only [scanGroup, Mode.step]
    grind
  | escape opened => rfl

end Steps

/-- The scan of a group does not depend on its place. -/
theorem scanGroup_shift (k : Nat) (opening : Opening) (expected : Char) (outer : List Char) (mode : Mode) (offset : Nat)
    (cs : List Char) :
    scanGroup ⟨opening.delimiter, opening.span.shift k⟩ expected outer (mode.shift k) (offset + k) cs =
      Scan.shift k (scanGroup opening expected outer mode offset cs) := by
  induction cs generalizing expected outer mode offset with
  | nil => cases mode <;> rfl
  | cons c cs ih =>
    have hadd : offset + k + c.utf8Size = offset + c.utf8Size + k := by omega
    rcases bracket_cases mode c with ⟨rfl, hc⟩ | ⟨rfl, hc⟩ | hc
    · rw [scanGroup_opener _ _ _ _ _ hc, Mode.shift, scanGroup_opener _ _ _ _ _ hc, hadd]
      exact ih _ _ .code _
    · by_cases he : c = expected
      · subst he
        rw [scanGroup_closer _ _ _ _ hc, Mode.shift, scanGroup_closer _ _ _ _ hc, hadd]
        cases outer with
        | nil => rfl
        | cons next outer => exact ih _ _ .code _
      · rw [scanGroup_mismatch _ _ _ _ _ hc he, Mode.shift, scanGroup_mismatch _ _ _ _ _ hc he]
        simp [mismatched, Scan.shift, Failure.shift, Span.shift, Cursor.shift, Nat.add_right_comm]
    · have hc' : (mode.shift k).context = .code → isOpener c = false ∧ isCloser c = false := by
        cases mode <;> exact hc
      rw [scanGroup_other _ _ _ _ _ hc, scanGroup_other _ _ _ _ _ hc', Mode.step_shift, hadd]
      exact ih _ _ _ _

/-- A group that is settled is not changed by what follows it. -/
theorem scanGroup_append (more : List Char) {opening : Opening} {expected : Char} {outer : List Char} {mode : Mode}
    {offset : Nat} {cs : List Char} (hd : isOpener opening.delimiter = true)
    (h : Scan.Settled (scanGroup opening expected outer mode offset cs)) :
    scanGroup opening expected outer mode offset (cs ++ more) =
      Scan.append more (scanGroup opening expected outer mode offset cs) := by
  induction cs generalizing expected outer mode offset with
  | nil =>
    -- The end of the text is to blame, whatever is open there.
    cases mode with
    | string opened => cases h _ rfl
    | escape opened => cases h _ rfl
    | _ =>
      have := h _ rfl
      simp [unclosed, ErrorKind.endsInput, hd] at this
  | cons c cs ih =>
    rw [List.cons_append]
    rcases bracket_cases mode c with ⟨rfl, hc⟩ | ⟨rfl, hc⟩ | hc
    · rw [scanGroup_opener _ _ _ _ _ hc] at h ⊢
      rw [scanGroup_opener _ _ _ _ _ hc]
      exact ih h
    · by_cases he : c = expected
      · subst he
        rw [scanGroup_closer _ _ _ _ hc] at h ⊢
        rw [scanGroup_closer _ _ _ _ hc]
        cases outer with
        | nil => rfl
        | cons next outer => exact ih h
      · rw [scanGroup_mismatch _ _ _ _ _ hc he, scanGroup_mismatch _ _ _ _ _ hc he]
        rfl
    · rw [scanGroup_other _ _ _ _ _ hc] at h ⊢
      rw [scanGroup_other _ _ _ _ _ hc]
      exact ih h

/-- The scanner of a group passes over a text without brackets, and only its mode changes. -/
theorem scanGroup_flat {x y : Context} {text : List Char} (h : Context.Flat x text y) (opening : Opening) (expected : Char)
    (outer : List Char) {mode : Mode} (hm : mode.context = x) (offset : Nat) (rest : List Char) :
    ∃ mode', mode'.context = y ∧ scanGroup opening expected outer mode offset (text ++ rest) =
      scanGroup opening expected outer mode' (offset + byteLength text) rest := by
  induction text generalizing x mode offset with
  | nil => exact ⟨mode, hm.trans h, rfl⟩
  | cons c text ih =>
    obtain ⟨hc, h⟩ := h
    rw [← hm] at hc h
    obtain ⟨mode', hm', he⟩ := ih h (Mode.context_step offset c mode) (offset + c.utf8Size)
    refine ⟨mode', hm', ?_⟩
    rw [List.cons_append, scanGroup_other _ _ _ _ _ hc, he, byteLength_cons, Nat.add_assoc]

/-- A text that the scanner of a group passes over, whatever groups are open. -/
def Passed (text : List Char) : Prop :=
  ∀ opening expected outer offset rest, scanGroup opening expected outer .code offset (text ++ rest) =
    scanGroup opening expected outer .code (offset + byteLength text) rest

/-- A text that opens nothing is passed. -/
theorem Passed.of_flat {text : List Char} (h : Context.Flat .code text .code) : Passed text := by
  intro opening expected outer offset rest
  have hcode : Mode.code.context = .code := rfl
  obtain ⟨mode, hm, he⟩ := scanGroup_flat h opening expected outer hcode offset rest
  rw [he, Mode.eq_code_of_context hm]

/-- Texts that are passed are passed one after the other. -/
theorem Passed.append {text more : List Char} (h : Passed text) (h' : Passed more) : Passed (text ++ more) := by
  intro opening expected outer offset rest
  rw [List.append_assoc, h, h', byteLength_append, Nat.add_assoc]

/-- A group ends at a closer, outside of strings and comments; and what is in it up to there is passed over in the same way
wherever the group stands. -/
theorem scanGroup_ok {opening : Opening} {expected : Char} {outer : List Char} {mode : Mode} {offset : Nat} {cs : List Char}
    {stop : Cursor} (h : scanGroup opening expected outer mode offset cs = .ok stop) :
    ∃ text closer, (⟨offset, cs⟩ : Cursor).Reaches (text ++ [closer]) stop ∧ isCloser closer = true ∧
      mode.context.after text = .code ∧
      ∀ opening' around mode' offset' rest, mode'.context = mode.context →
        scanGroup opening' expected (outer ++ around) mode' offset' (text ++ closer :: rest) =
          leave opening' around (offset' + byteLength (text ++ [closer])) rest := by
  induction cs generalizing expected outer mode offset with
  | nil => cases mode <;> cases h
  | cons c cs ih =>
    rcases bracket_cases mode c with ⟨rfl, hc⟩ | ⟨rfl, hc⟩ | hc
    · rw [scanGroup_opener _ _ _ _ _ hc] at h
      obtain ⟨text, closer, hr, hcl, ha, hall⟩ := ih h
      obtain ⟨hs, hq, -⟩ := not_quote_of_bracket (.inl hc)
      refine ⟨c :: text, closer, hr.cons, hcl, ?_, ?_⟩
      · simpa [Mode.context, Context.step, hs, hq] using ha
      · intro opening' around mode' offset' rest hm
        simp only [Mode.eq_code_of_context hm, List.cons_append, byteLength_cons, ← Nat.add_assoc]
        rw [scanGroup_opener _ _ _ _ _ hc]
        exact hall opening' around .code _ rest rfl
    · by_cases he : c = expected
      · subst he
        rw [scanGroup_closer _ _ _ _ hc] at h
        obtain ⟨hs, hq, -⟩ := not_quote_of_bracket (.inr hc)
        cases outer with
        | nil =>
          cases h
          refine ⟨[], c, (Cursor.Reaches.refl _).cons, hc, rfl, ?_⟩
          intro opening' around mode' offset' rest hm
          rw [Mode.eq_code_of_context hm]
          exact scanGroup_closer _ _ _ _ hc
        | cons next outer =>
          obtain ⟨text, closer, hr, hcl, ha, hall⟩ := ih h
          refine ⟨c :: text, closer, hr.cons, hcl, ?_, ?_⟩
          · simpa [Mode.context, Context.step, hs, hq] using ha
          · intro opening' around mode' offset' rest hm
            simp only [Mode.eq_code_of_context hm, List.cons_append, byteLength_cons, ← Nat.add_assoc]
            rw [scanGroup_closer _ _ _ _ hc]
            exact hall opening' around .code _ rest rfl
      · rw [scanGroup_mismatch _ _ _ _ _ hc he] at h
        cases h
    · rw [scanGroup_other _ _ _ _ _ hc] at h
      obtain ⟨text, closer, hr, hcl, ha, hall⟩ := ih h
      refine ⟨c :: text, closer, hr.cons, hcl, ?_, ?_⟩
      · rw [Context.after_cons, ← Mode.context_step offset]
        exact ha
      · intro opening' around mode' offset' rest hm
        have hm' : (mode'.step offset' c).context = (mode.step offset c).context := by
          rw [Mode.context_step, Mode.context_step, hm]
        simp only [List.cons_append, byteLength_cons, ← Nat.add_assoc]
        rw [scanGroup_other _ _ _ _ _ (hm ▸ hc)]
        exact hall opening' around _ _ rest hm'

/-- The failure of a group shows its outermost opener, a string in it, or a closer in it. -/
theorem scanGroup_error {start : Cursor} {passed : List Char} {opening : Opening} {expected : Char} {outer : List Char}
    {mode : Mode} {offset : Nat} {cs : List Char} {f : Failure}
    (h : scanGroup opening expected outer mode offset cs = .error f) (hr : start.Reaches passed ⟨offset, cs⟩)
    (hne : passed ≠ []) (ho : start.Sees opening.span.start) (hle : opening.span.start ≤ opening.span.stop)
    (hle' : opening.span.stop ≤ offset) (hm : mode.Open start offset) : f.Sound start := by
  induction cs generalizing expected outer mode offset passed with
  | nil =>
    cases mode with
    | string opened =>
      cases h
      exact ⟨⟨passed, hne, hr⟩, hm.1, hm.2, Nat.le_refl _, rfl⟩
    | escape opened =>
      cases h
      exact ⟨⟨passed, hne, hr⟩, hm.1, hm.2, Nat.le_refl _, rfl⟩
    | _ =>
      cases h
      exact ⟨⟨passed, hne, hr⟩, ho, hle, hle', rfl⟩
  | cons c cs ih =>
    have hr' : start.Reaches (passed ++ [c]) ⟨offset + c.utf8Size, cs⟩ := hr.trans (Cursor.Reaches.refl _).cons
    have hne' : passed ++ [c] ≠ [] := by simp
    have hle'' : opening.span.stop ≤ offset + c.utf8Size := Nat.le_add_right_of_le hle'
    rcases bracket_cases mode c with ⟨rfl, hc⟩ | ⟨rfl, hc⟩ | hc
    · rw [scanGroup_opener _ _ _ _ _ hc] at h
      exact ih h hr' hne' hle'' trivial
    · by_cases he : c = expected
      · subst he
        rw [scanGroup_closer _ _ _ _ hc] at h
        cases outer with
        | nil => cases h
        | cons next outer => exact ih h hr' hne' hle'' trivial
      · rw [scanGroup_mismatch _ _ _ _ _ hc he] at h
        cases h
        obtain ⟨-, -, hw⟩ := not_quote_of_bracket (.inr hc)
        rw [hw] at hr'
        exact ⟨⟨_, hne', hr'⟩, hr.sees, Nat.le_add_right _ _, Nat.le_refl _, rfl⟩
    · rw [scanGroup_other _ _ _ _ _ hc] at h
      exact ih h hr' hne' hle'' (hm.step hr.sees c)

end Reader

end MiniLisp
