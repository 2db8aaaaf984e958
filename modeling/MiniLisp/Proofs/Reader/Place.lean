import MiniLisp.Reader.Extent

/-!
# Places: how the scanners move over a text

A scanner goes from one place of a text to a later one, over the characters between them (`Cursor.Reaches`). So a position that
it finds is never inside a character, and never behind the end of the text. This module has these facts for blanks, comments and
quoting marks: where they end does not depend on the bytes before them, nor on the text behind the form that they lead to.
-/

namespace MiniLisp.Reader

namespace Cursor

/-- The same place, counted from a point `k` bytes earlier. -/
def shift (c : Cursor) (k : Nat) : Cursor := ⟨c.offset + k, c.rest⟩

/-- The same place in a text that goes on with `more`. -/
def append (c : Cursor) (more : List Char) : Cursor := ⟨c.offset, c.rest ++ more⟩

/-- The place `d` is behind the characters `text` that stand at `c`. -/
def Reaches (c : Cursor) (text : List Char) (d : Cursor) : Prop :=
  c.rest = text ++ d.rest ∧ d.offset = c.offset + byteLength text

/-- A position at or behind a place that does not lie inside a character, nor behind the end of the text. -/
def Sees (c : Cursor) (position : Nat) : Prop := ∃ text d, c.Reaches text d ∧ d.offset = position

@[simp]
theorem offset_shift (c : Cursor) (k : Nat) : (c.shift k).offset = c.offset + k := rfl

@[simp]
theorem rest_shift (c : Cursor) (k : Nat) : (c.shift k).rest = c.rest := rfl

@[simp]
theorem offset_append (c : Cursor) (more : List Char) : (c.append more).offset = c.offset := rfl

@[simp]
theorem rest_append (c : Cursor) (more : List Char) : (c.append more).rest = c.rest ++ more := rfl

variable {c d e : Cursor} {text more : List Char}

namespace Reaches

theorem refl (c : Cursor) : c.Reaches [] c := ⟨rfl, rfl⟩

theorem trans (h : c.Reaches text d) (h' : d.Reaches more e) : c.Reaches (text ++ more) e := by
  obtain ⟨hr, ho⟩ := h
  obtain ⟨hr', ho'⟩ := h'
  constructor
  · rw [hr, hr', List.append_assoc]
  · rw [ho', ho, byteLength_append, Nat.add_assoc]

/-- Over one character, and from there on. -/
theorem cons {offset : Nat} {x : Char} {cs : List Char} (h : (⟨offset + x.utf8Size, cs⟩ : Cursor).Reaches text d) :
    (⟨offset, x :: cs⟩ : Cursor).Reaches (x :: text) d := by
  have hx : (⟨offset, x :: cs⟩ : Cursor).Reaches [x] ⟨offset + x.utf8Size, cs⟩ := ⟨rfl, rfl⟩
  exact hx.trans h

/-- There is one text between two places. -/
theorem unique {text' : List Char} (h : c.Reaches text d) (h' : c.Reaches text' d) : text = text' :=
  List.append_cancel_right (h.1.symm.trans h'.1)

theorem offset_le (h : c.Reaches text d) : c.offset ≤ d.offset := by
  rw [h.2]
  exact Nat.le_add_right _ _

/-- Over some characters the position moves forward. -/
theorem offset_lt (h : c.Reaches text d) (hne : text ≠ []) : c.offset < d.offset := by
  obtain ⟨x, cs, rfl⟩ := List.exists_cons_of_ne_nil hne
  have hx : 0 < x.utf8Size := x.utf8Size_pos
  rw [h.2, byteLength_cons]
  omega

theorem sees (h : c.Reaches text d) : c.Sees d.offset := ⟨text, d, h, rfl⟩

/-- What is reached is reached also with more text behind it. -/
theorem append (h : c.Reaches text d) (more : List Char) : (c.append more).Reaches text (d.append more) := by
  refine ⟨?_, h.2⟩
  rw [rest_append, h.1, List.append_assoc]
  rfl

end Reaches

theorem Sees.le {position : Nat} (h : c.Sees position) : c.offset ≤ position := by
  obtain ⟨_, _, hr, rfl⟩ := h
  exact hr.offset_le

/-- What a later place sees, an earlier one does. -/
theorem Sees.of_reaches {position : Nat} (h : d.Sees position) (hr : c.Reaches text d) : c.Sees position := by
  obtain ⟨_, e, he, rfl⟩ := h
  exact (hr.trans he).sees

/-- What is seen is seen also with more text behind it. -/
theorem Sees.append {position : Nat} (h : c.Sees position) (more : List Char) : (c.append more).Sees position := by
  obtain ⟨text, d, hr, rfl⟩ := h
  exact ⟨text, d.append more, hr.append more, rfl⟩

/-- The bytes from a place to a later one are the characters between the two. -/
theorem Reaches.takeBytes (h : c.Reaches text d) : MiniLisp.takeBytes (d.offset - c.offset) c.rest = text := by
  have hlen : d.offset - c.offset = byteLength text := by
    rw [h.2]
    omega
  rw [hlen, h.1, takeBytes_append]

/-- What is seen lies within the text. -/
theorem Sees.le_stop {position : Nat} (h : c.Sees position) : position ≤ c.offset + byteLength c.rest := by
  obtain ⟨text, d, hr, rfl⟩ := h
  rw [hr.2, hr.1, byteLength_append]
  omega

/-- The text before a position that is not inside a character is as long as the position says. -/
theorem Sees.takeBytes {position : Nat} (h : c.Sees position) :
    byteLength (MiniLisp.takeBytes (position - c.offset) c.rest) = position - c.offset := by
  obtain ⟨text, d, hr, rfl⟩ := h
  rw [hr.takeBytes, hr.2, Nat.add_sub_cancel_left]

end Cursor

/-! ## Contexts -/

/-- What the next character of a text belongs to. -/
inductive Context where
  | code | comment | string | escape
  deriving DecidableEq, Repr

namespace Context

/-- The context behind one more character. -/
def step (x : Context) (c : Char) : Context :=
  match x with
  | .code => if c == ';' then .comment else if c == '\x22' then .string else .code
  | .comment => if c == '\n' then .code else .comment
  | .string => if c == '\x5c' then .escape else if c == '\x22' then .code else .string
  | .escape => .string

/-- The context behind a text. -/
def after (x : Context) (text : List Char) : Context := text.foldl step x

@[simp]
theorem after_nil (x : Context) : x.after [] = x := rfl

@[simp]
theorem after_cons (x : Context) (c : Char) (text : List Char) : x.after (c :: text) = (x.step c).after text := rfl

/-- The context after two texts is that after the second, from where the first has led. -/
@[simp]
theorem after_append (x : Context) (text more : List Char) : x.after (text ++ more) = (x.after text).after more := by
  simp [after]

/-- In a comment or not. -/
def ofTrivia (inComment : Bool) : Context := if inComment then .comment else .code

/-- The text leads from one context to another, and has no bracket outside its strings and comments. -/
def Flat (x : Context) (text : List Char) (y : Context) : Prop :=
  match text with
  | [] => x = y
  | c :: text => (x = .code → isOpener c = false ∧ isCloser c = false) ∧ Flat (x.step c) text y

/-- In a comment nothing is a bracket, and only a newline ends it. -/
theorem Flat.comment {c : Char} {text : List Char} {y : Context} (h : Flat (.ofTrivia (c != '\n')) text y) :
    Flat (.ofTrivia true) (c :: text) y := by
  have hs : (ofTrivia true).step c = .ofTrivia (c != '\n') := by
    by_cases hc : c = '\n' <;> simp [ofTrivia, step, hc]
  refine ⟨(fun hx => by cases hx), ?_⟩
  rw [hs]
  exact h

/-- The characters that begin or end no bracket, string or comment. -/
def isPlain (c : Char) : Bool := !(isOpener c || isCloser c || c == ';' || c == '\x22')

/-- A plain character of code keeps a text flat. -/
theorem Flat.plain {c : Char} {text : List Char} {y : Context} (hc : isPlain c = true) (h : Flat .code text y) :
    Flat .code (c :: text) y := by
  simp only [isPlain, Bool.not_eq_true', Bool.or_eq_false_iff] at hc
  obtain ⟨⟨⟨ho, hcl⟩, hs⟩, hq⟩ := hc
  refine ⟨fun _ => ⟨ho, hcl⟩, ?_⟩
  simpa [step, hs, hq] using h

/-- The start of a comment. -/
theorem Flat.semicolon {text : List Char} {y : Context} (h : Flat (.ofTrivia true) text y) : Flat .code (';' :: text) y :=
  ⟨fun _ => by decide, h⟩

/-- A flat text leads where it says. -/
theorem Flat.after_eq {x y : Context} {text : List Char} (h : Flat x text y) : x.after text = y := by
  induction text generalizing x with
  | nil => exact h
  | cons c text ih => exact ih h.2

end Context

/-! ## Blanks, comments and marks -/

/-- The characters that stand before a form, outside of comments: blanks and quoting marks. -/
def isMark (c : Char) : Bool := isBlank c || c == '\x27' || c == '\x60' || c == ','

theorem isPlain_of_isMark {c : Char} (h : isMark c = true) : Context.isPlain c = true := by
  simp only [isMark, isBlank, Bool.or_eq_true, beq_iff_eq] at h
  rcases h with (((((rfl | rfl) | rfl) | rfl) | rfl) | rfl) | rfl <;> decide

/-- What is skipped does not depend on the place. -/
theorem skipTrivia_shift (k : Nat) (inComment : Bool) (offset : Nat) (cs : List Char) :
    skipTrivia inComment (offset + k) cs = (skipTrivia inComment offset cs).shift k := by
  fun_induction skipTrivia inComment offset cs <;> simp_all [skipTrivia, Cursor.shift, Nat.add_right_comm]

/-- What follows a form does not change where the form begins. -/
theorem skipTrivia_append (more : List Char) {inComment : Bool} {offset : Nat} {cs : List Char}
    (h : (skipTrivia inComment offset cs).rest ≠ []) :
    skipTrivia inComment offset (cs ++ more) = (skipTrivia inComment offset cs).append more := by
  fun_induction skipTrivia inComment offset cs with
  | case1 inComment offset => exact absurd rfl h
  | case2 offset c cs ih => simp_all [skipTrivia]
  | case3 inComment offset c cs hin hb ih => simp_all [skipTrivia]
  | case4 inComment offset c cs hin hb hc ih => simp_all [skipTrivia]
  | case5 inComment offset c cs hin hb hc => simp_all [skipTrivia, Cursor.append]

/-- A newline ends whatever comment is open where a text without forms ends. -/
theorem skipTrivia_newline (more : List Char) {inComment : Bool} {offset : Nat} {cs : List Char}
    (h : (skipTrivia inComment offset cs).rest = []) :
    skipTrivia inComment offset (cs ++ '\n' :: more) = skipTrivia false (offset + byteLength cs + 1) more := by
  fun_induction skipTrivia inComment offset cs with
  | case1 inComment offset => cases inComment <;> simp [skipTrivia, isBlank, show '\n'.utf8Size = 1 from rfl]
  | case2 offset c cs ih => simp_all [skipTrivia, Nat.add_assoc]
  | case3 inComment offset c cs hin hb ih => simp_all [skipTrivia, Nat.add_assoc]
  | case4 inComment offset c cs hin hb hc ih => simp_all [skipTrivia, Nat.add_assoc]
  | case5 inComment offset c cs hin hb hc => cases h

/-- Trivia are flat; and a form that they lead to is outside of comments. -/
theorem skipTrivia_reaches (inComment : Bool) (offset : Nat) (cs : List Char) :
    ∃ text y, (⟨offset, cs⟩ : Cursor).Reaches text (skipTrivia inComment offset cs) ∧
      Context.Flat (.ofTrivia inComment) text y ∧ ((skipTrivia inComment offset cs).rest ≠ [] → y = .code) := by
  fun_induction skipTrivia inComment offset cs with
  | case1 inComment offset => exact ⟨[], _, .refl _, rfl, fun h => absurd rfl h⟩
  | case2 offset c cs ih =>
    obtain ⟨text, y, hr, hf, hy⟩ := ih
    exact ⟨c :: text, y, hr.cons, hf.comment, hy⟩
  | case3 inComment offset c cs hin hb ih =>
    obtain ⟨text, y, hr, hf, hy⟩ := ih
    have hin : inComment = false := by simpa using hin
    have hp : Context.isPlain c = true := isPlain_of_isMark (by simp [isMark, hb])
    subst hin
    exact ⟨c :: text, y, hr.cons, hf.plain hp, hy⟩
  | case4 inComment offset c cs hin hb hc ih =>
    obtain ⟨text, y, hr, hf, hy⟩ := ih
    have hin : inComment = false := by simpa using hin
    have hc : c = ';' := by simpa using hc
    subst hin hc
    exact ⟨';' :: text, y, hr.cons, hf.semicolon, hy⟩
  | case5 inComment offset c cs hin hb hc =>
    have hin : inComment = false := by simpa using hin
    subst hin
    exact ⟨[], _, .refl _, rfl, fun _ => rfl⟩

/-- Blanks, and comments that a newline ends. -/
inductive Trivia : List Char → Prop where
  | nil : Trivia []
  | blank {c : Char} {cs : List Char} : isBlank c = true → Trivia cs → Trivia (c :: cs)
  | comment {body cs : List Char} : '\n' ∉ body → Trivia cs → Trivia (';' :: (body ++ '\n' :: cs))

/-- Trivia and perhaps one last comment, which the end of the text ends. -/
inductive OnlyTrivia : List Char → Prop where
  | closed {cs : List Char} : Trivia cs → OnlyTrivia cs
  | comment {cs body : List Char} : Trivia cs → '\n' ∉ body → OnlyTrivia (cs ++ ';' :: body)

/-- A semicolon begins a comment that is skipped. -/
theorem skipTrivia_semicolon (offset : Nat) (cs : List Char) :
    skipTrivia false offset (';' :: cs) = skipTrivia true (offset + 1) cs := rfl

/-- A comment without a line break goes to the end. -/
theorem skipTrivia_comment {body : List Char} (h : '\n' ∉ body) (offset : Nat) :
    skipTrivia true offset body = ⟨offset + byteLength body, []⟩ := by
  induction body generalizing offset with
  | nil => rfl
  | cons c body ih =>
    have hc : (c != '\n') = true := by
      rw [bne_iff_ne]
      rintro rfl
      exact h List.mem_cons_self
    rw [skipTrivia, if_pos rfl, hc, ih fun hm => h (List.mem_cons_of_mem _ hm), byteLength_cons, Nat.add_assoc]

/-- Trivia are passed over, whatever stands behind them. -/
theorem skipTrivia_of_trivia {trivia : List Char} (h : Trivia trivia) (offset : Nat) (cs : List Char) :
    skipTrivia false offset (trivia ++ cs) = skipTrivia false (offset + byteLength trivia) cs := by
  induction h generalizing offset with
  | nil => rfl
  | blank hb _ ih => simp [skipTrivia, hb, ih, Nat.add_assoc]
  | @comment body _ hbody _ ih =>
    rw [List.cons_append, List.append_assoc, List.cons_append, skipTrivia_semicolon,
      skipTrivia_newline _ (by rw [skipTrivia_comment hbody]), ih]
    simp only [byteLength_cons, byteLength_append, show ';'.utf8Size = 1 from rfl, show '\n'.utf8Size = 1 from rfl]
    congr 1
    omega

/-- A blank may stand before blanks and comments. -/
theorem OnlyTrivia.blank {c : Char} {cs : List Char} (hb : isBlank c = true) (h : OnlyTrivia cs) : OnlyTrivia (c :: cs) := by
  cases h with
  | closed h => exact .closed (.blank hb h)
  | comment h hbody => exact @OnlyTrivia.comment (c :: _) _ (.blank hb h) hbody

/-- So may a comment with its line break. -/
theorem OnlyTrivia.newline {body cs : List Char} (hbody : '\n' ∉ body) (h : OnlyTrivia cs) :
    OnlyTrivia (';' :: (body ++ '\n' :: cs)) := by
  cases h with
  | closed h => exact .closed (.comment hbody h)
  | @comment cs last h hlast =>
    have hsplit : ';' :: (body ++ '\n' :: (cs ++ ';' :: last)) = ';' :: (body ++ '\n' :: cs) ++ ';' :: last := by simp
    rw [hsplit]
    exact .comment (.comment hbody h) hlast

/-- A text without forms is trivia, or part of a comment and trivia behind it. -/
theorem onlyTrivia_of_skipTrivia {inComment : Bool} {offset : Nat} {cs : List Char}
    (h : (skipTrivia inComment offset cs).rest = []) :
    if inComment then '\n' ∉ cs ∨ ∃ body rest, cs = body ++ '\n' :: rest ∧ '\n' ∉ body ∧ OnlyTrivia rest
    else OnlyTrivia cs := by
  fun_induction skipTrivia inComment offset cs with
  | case1 inComment offset =>
    split
    · exact .inl List.not_mem_nil
    · exact .closed .nil
  | case2 offset c cs ih =>
    have ih := ih h
    by_cases hc : c = '\n'
    · subst hc
      exact .inr ⟨[], cs, rfl, List.not_mem_nil, ih⟩
    · rw [if_pos (by simpa using hc)] at ih
      rcases ih with hcs | ⟨body, rest, rfl, hbody, hrest⟩
      · exact .inl (by simp [hcs, Ne.symm hc])
      · exact .inr ⟨c :: body, rest, rfl, by simp [hbody, Ne.symm hc], hrest⟩
  | case3 inComment offset c cs hin hb ih =>
    rw [if_neg hin]
    exact .blank hb (ih h)
  | case4 inComment offset c cs hin hb hc ih =>
    obtain rfl : c = ';' := by simpa using hc
    rw [if_neg hin]
    rcases ih h with hcs | ⟨body, rest, rfl, hbody, hrest⟩
    · exact @OnlyTrivia.comment [] cs .nil hcs
    · exact hrest.newline hbody
  | case5 inComment offset c cs hin hb hc => cases h

/-- There is no further form exactly where only trivia are left. -/
theorem skipTrivia_end_iff (offset : Nat) (cs : List Char) : (skipTrivia false offset cs).rest = [] ↔ OnlyTrivia cs := by
  constructor
  · exact onlyTrivia_of_skipTrivia
  · intro h
    cases h with
    | closed h =>
      rw [← List.append_nil cs, skipTrivia_of_trivia h]
      rfl
    | @comment cs body h hbody =>
      rw [skipTrivia_of_trivia h, skipTrivia_semicolon, skipTrivia_comment hbody]

/-- Which marks are skipped does not depend on the place. -/
theorem skipMarks_shift (k : Nat) (inComment : Bool) (offset : Nat) (cs : List Char) :
    skipMarks inComment (offset + k) cs =
      match skipMarks inComment offset cs with
      | .ok body => .ok (body.shift k)
      | .error stop => .error (stop + k) := by
  fun_induction skipMarks inComment offset cs <;> simp_all [skipMarks, Cursor.shift, Nat.add_right_comm]

/-- What follows a form does not change where its marks end. -/
theorem skipMarks_append (more : List Char) {inComment : Bool} {offset : Nat} {cs : List Char} {body : Cursor}
    (h : skipMarks inComment offset cs = .ok body) :
    skipMarks inComment offset (cs ++ more) = .ok (body.append more) := by
  -- A comma and an at sign are not torn apart by the end of the text: behind a comma there is more of the form.
  have hpast {inComment : Bool} {offset : Nat} {c : Char} {cs : List Char}
      (hn : ∀ cs', c = ',' → cs = '@' :: cs' → False) (h : skipMarks inComment offset cs = .ok body) :
      ∀ cs', c = ',' → cs ++ more = '@' :: cs' → False := by
    intro cs' hc he
    cases cs with
    | nil => cases h
    | cons d ds =>
      injection he with hd _
      exact hn ds hc (by rw [hd])
  fun_induction skipMarks inComment offset cs with
  | case1 inComment offset => cases h
  | case2 inComment offset cs ih => simpa [skipMarks] using ih h
  | case3 offset c cs hn ih =>
    rw [List.cons_append, skipMarks.eq_3 _ _ _ _ (hpast hn h), if_pos rfl]
    exact ih h
  | case4 inComment offset c cs hn hin hc ih =>
    rw [List.cons_append, skipMarks.eq_3 _ _ _ _ (hpast hn h), if_neg hin, if_pos hc]
    exact ih h
  | case5 inComment offset c cs hn hin hc hs ih =>
    rw [List.cons_append, skipMarks.eq_3 _ _ _ _ (hpast hn h), if_neg hin, if_neg hc, if_pos hs]
    exact ih h
  | case6 inComment offset c cs hn hin hc hs =>
    cases h
    have hc' : ∀ cs', c = ',' → cs ++ more = '@' :: cs' → False := fun _ he _ => hc (by simp [he])
    rw [List.cons_append, skipMarks.eq_3 _ _ _ _ hc', if_neg hin, if_neg hc, if_neg hs]
    rfl

/-- Marks are flat and lead to a character that is none of them, outside of comments. -/
theorem skipMarks_reaches {inComment : Bool} {offset : Nat} {cs : List Char} {body : Cursor}
    (h : skipMarks inComment offset cs = .ok body) :
    ∃ text, (⟨offset, cs⟩ : Cursor).Reaches text body ∧ Context.Flat (.ofTrivia inComment) text .code ∧
      ∃ c rest, body.rest = c :: rest ∧ isMark c = false ∧ c ≠ ';' := by
  fun_induction skipMarks inComment offset cs with
  | case1 inComment offset => cases h
  | case2 inComment offset cs ih =>
    obtain ⟨text, hr, hf, hb⟩ := ih h
    have hw : (⟨offset, ',' :: '@' :: cs⟩ : Cursor).Reaches [',', '@'] ⟨offset + 2, cs⟩ := ⟨rfl, rfl⟩
    refine ⟨_, hw.trans hr, ?_, hb⟩
    cases inComment with
    | false => exact .plain (by decide) (.plain (by decide) hf)
    | true => exact .comment (.comment hf)
  | case3 offset c cs hn ih =>
    obtain ⟨text, hr, hf, hb⟩ := ih h
    exact ⟨c :: text, hr.cons, hf.comment, hb⟩
  | case4 inComment offset c cs hn hin hc ih =>
    obtain ⟨text, hr, hf, hb⟩ := ih h
    have hin : inComment = false := by simpa using hin
    subst hin
    exact ⟨c :: text, hr.cons, hf.plain (isPlain_of_isMark hc), hb⟩
  | case5 inComment offset c cs hn hin hc hs ih =>
    obtain ⟨text, hr, hf, hb⟩ := ih h
    have hin : inComment = false := by simpa using hin
    have hs : c = ';' := by simpa using hs
    subst hin hs
    exact ⟨';' :: text, hr.cons, hf.semicolon, hb⟩
  | case6 inComment offset c cs hn hin hc hs =>
    cases h
    have hin : inComment = false := by simpa using hin
    subst hin
    exact ⟨[], .refl _, rfl, c, cs, rfl, by simpa [isMark] using hc, by simpa using hs⟩

/-- Marks without a form lead to the end of the text. -/
theorem skipMarks_end {inComment : Bool} {offset : Nat} {cs : List Char} {stop : Nat}
    (h : skipMarks inComment offset cs = .error stop) : (⟨offset, cs⟩ : Cursor).Reaches cs ⟨stop, []⟩ := by
  fun_induction skipMarks inComment offset cs with
  | case1 inComment offset =>
    cases h
    exact .refl _
  | case2 inComment offset cs ih =>
    have hw : (⟨offset, ',' :: '@' :: cs⟩ : Cursor).Reaches [',', '@'] ⟨offset + 2, cs⟩ := ⟨rfl, rfl⟩
    exact hw.trans (ih h)
  | case3 offset c cs hn ih => exact (ih h).cons
  | case4 inComment offset c cs hn hin hc ih => exact (ih h).cons
  | case5 inComment offset c cs hn hin hc hs ih => exact (ih h).cons
  | case6 inComment offset c cs hn hin hc hs => cases h

end MiniLisp.Reader
