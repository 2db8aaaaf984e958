import MiniLisp.Proofs.Reader.Literal

/-!
# Balance: which groups and marks are open

The scanner of a group counts brackets only; the lexemes of a form leave a stack of groups and marks that wait for more. Both
open and close the same groups: where the lexemes of a text close a group, the scanner finds its end (`closes_of_parse`), and the
marks before a form are those that the scanner passes over (`lex_skipMarks`).
-/

namespace MiniLisp.Reader

/-! ## Groups that are open -/

/-- The closers that the open groups wait for, innermost first. -/
def openClosers (stack : List Pending) : List Char :=
  stack.filterMap fun
    | .group b _ _ => some b.closer
    | .mark _ => none

theorem openClosers_append (stack base : List Pending) :
    openClosers (stack ++ base) = openClosers stack ++ openClosers base := List.filterMap_append

/-- An item is the whole form exactly where no group is open. -/
theorem complete_closers (item : Item) (stack : List Pending) :
    openClosers (complete item stack).1 = openClosers stack ∧
      ((complete item stack).2 = none ↔ openClosers stack ≠ []) := by
  fun_induction complete item stack with
  | case1 => simp [openClosers]
  | case2 item m stack ih => exact ih
  | case3 => simp [openClosers]

/-- To settle what is finished closes no group. -/
theorem settle_closers (stack : List Pending) : openClosers (settle stack) = openClosers stack := by
  match stack with
  | .mark .splice :: stack => exact (complete_closers _ stack).1
  | [] | .group .. :: _ | .mark .quote :: _ | .mark .quasiquote :: _ | .mark .unquote :: _ => rfl

/-- A closer that can follow closes the innermost group. -/
theorem feed_closer {stack : List Pending} {c : Char} {span : Span} {next : List Pending × Option Item}
    (h : feed stack ⟨.closer c, span⟩ = some next) :
    ∃ outer, openClosers stack = c :: outer ∧ openClosers next.1 = outer ∧ (next.2 = none ↔ outer ≠ []) := by
  have hclosers := settle_closers stack
  simp only [feed] at h
  rcases hs : settle stack with _ | ⟨⟨b, start, items⟩ | m, stack'⟩
  · simp [hs] at h
  · simp only [hs] at h
    split at h
    · rename_i hc
      cases h
      have hcomplete := complete_closers (groupItem b ⟨start, span.stop⟩ items.reverse) stack'
      rw [hs] at hclosers
      refine ⟨openClosers stack', ?_, hcomplete⟩
      rw [← hclosers, beq_iff_eq.mp hc]
      rfl
    · cases h
  · simp [hs] at h

/-- A lexeme that is no bracket leaves the same groups open. -/
theorem feed_flat {stack : List Pending} {l : Lexeme} {next : List Pending × Option Item} (h : feed stack l = some next)
    (ho : ∀ b, l.token ≠ .opener b) (hc : ∀ c, l.token ≠ .closer c) : openClosers next.1 = openClosers stack := by
  obtain ⟨token, span⟩ := l
  cases token with
  | opener b => exact absurd rfl (ho b)
  | closer c => exact absurd rfl (hc c)
  | stray => cases h
  | mark m => cases h; rfl
  | _ => cases h; exact (complete_closers _ stack).1

/-- A form is finished only where no group is open; where none is and the form is not finished, a mark or a bracket came last. -/
theorem feed_finished {stack : List Pending} {l : Lexeme} {next : List Pending × Option Item} (h : feed stack l = some next) :
    (next.2 ≠ none → openClosers next.1 = []) ∧ (next.2 = none → openClosers next.1 = [] → ∃ m, l.token = .mark m) := by
  have hcomplete (item : Item) (stack : List Pending) :
      ((complete item stack).2 ≠ none → openClosers (complete item stack).1 = []) ∧
        ((complete item stack).2 = none → openClosers (complete item stack).1 ≠ []) := by
    obtain ⟨hsame, hiff⟩ := complete_closers item stack
    rw [hsame, ne_eq, hiff]
    exact ⟨Decidable.not_not.mp, id⟩
  obtain ⟨token, span⟩ := l
  cases token with
  | stray => cases h
  | opener b => cases h; exact ⟨fun hne => absurd rfl hne, fun _ hnil => nomatch hnil⟩
  | mark m => cases h; exact ⟨fun hne => absurd rfl hne, fun _ _ => ⟨m, rfl⟩⟩
  | closer c =>
    obtain ⟨outer, -, hnext, hiff⟩ := feed_closer h
    rw [hnext, ne_eq, hiff]
    exact ⟨Decidable.not_not.mp, fun hne hnil => absurd hnil hne⟩
  | _ =>
    cases h
    exact ⟨(hcomplete _ stack).1, fun hnone hnil => absurd hnil ((hcomplete _ stack).2 hnone)⟩

/-- While a group is open, what is open around it does not help a lexeme to follow. -/
theorem feed_of_append {stack base : List Pending} {l : Lexeme} {next : List Pending × Option Item}
    (hopen : openClosers stack ≠ []) (h : feed (stack ++ base) l = some next) :
    ∃ own, feed stack l = some own ∧ next = rebase base own := by
  have hown : ∃ own, feed stack l = some own := by
    obtain ⟨token, span⟩ := l
    cases token with
    | stray => cases h
    | closer c =>
      have hne : settle stack ≠ [] := by
        intro hs
        rw [← settle_closers, hs] at hopen
        exact hopen rfl
      simp only [feed, settle_append base hne] at h ⊢
      rcases hs : settle stack with _ | ⟨⟨b, start, items⟩ | m, stack'⟩
      · exact absurd hs hne
      · simp only [hs, List.cons_append] at h ⊢
        split at h
        · rename_i hc
          exact ⟨_, if_pos hc⟩
        · cases h
      · simp [hs] at h
    | _ => exact ⟨_, rfl⟩
  obtain ⟨own, hown⟩ := hown
  rw [feed_append base hown] at h
  exact ⟨own, hown, (Option.some.inj h).symm⟩

/-- The first lexeme of a form that is built correctly can follow. -/
theorem feed_of_parse {stop : Nat} {stack : List Pending} {l : Lexeme} {ls : List Lexeme} {item : Item}
    (h : parse stop stack none (l :: ls) = .ok item) :
    ∃ next, feed stack l = some next ∧ parse stop next.1 next.2 ls = .ok item := by
  rw [parse_cons] at h
  cases hf : feed stack l with
  | none => simp [hf] at h
  | some next => exact ⟨next, rfl, by simpa only [hf] using h⟩

/-- A finished form is followed by nothing. -/
theorem eq_nil_of_parse_some {stop : Nat} {stack : List Pending} {done item : Item} {ls : List Lexeme}
    (h : parse stop stack (some done) ls = .ok item) : ls = [] := by
  cases ls with
  | nil => rfl
  | cons => cases h

/-- A lexeme that can be fed is parsed by going on with what it leaves. -/
theorem parse_feed {stack : List Pending} {l : Lexeme} {next : List Pending × Option Item} (h : feed stack l = some next)
    (stop : Nat) (ls : List Lexeme) : parse stop stack none (l :: ls) = parse stop next.1 next.2 ls := by
  rw [parse_cons, h]

/-- A form does not end in a mark. -/
theorem last_of_parse {stop : Nat} {stack : List Pending} {ls : List Lexeme} {item : Item}
    (h : parse stop stack none ls = .ok item) : ∃ l ∈ ls.getLast?, ∀ m, l.token ≠ .mark m := by
  induction ls generalizing stack with
  | nil => cases h
  | cons l ls ih =>
    obtain ⟨⟨own, finished⟩, hfeed, hrest⟩ := feed_of_parse h
    cases ls with
    | nil =>
      refine ⟨l, rfl, fun m hm => ?_⟩
      obtain ⟨token, span⟩ := l
      cases hm
      cases hfeed
      cases hrest
    | cons l' ls =>
      cases finished with
      | some done => cases hrest
      | none => exact ih hrest

/-! ## Groups: the scanner and the lexemes -/

/-- What a step over a text does to its brackets. -/
inductive BracketMove (x : Context) : LexMove → Prop where
  | flat {m : LexMove} : Context.Flat x m.used m.mode.context →
      (∀ l ∈ m.token, (∀ b, l.1 ≠ .opener b) ∧ ∀ c, l.1 ≠ .closer c) → BracketMove x m
  | opener {b : Bracket} {rest : List Char} : x = .code →
      BracketMove x ⟨some (.opener b, byteLength b.opening), .code, b.opening, rest⟩
  | closer {c : Char} {rest : List Char} : x = .code → isCloser c = true →
      BracketMove x ⟨some (.closer c, c.utf8Size), .code, [c], rest⟩

/-- Of each character of code it is known what it does to the brackets. -/
theorem bracketMove_cases {c : Char} (cs : List Char) (hs : c ≠ ';') (hq : c ≠ '\x22') :
    BracketMove .code (bracketMove c cs) := by
  unfold bracketMove
  split
  · exact @BracketMove.opener .code .hashVector _ rfl
  · exact @BracketMove.opener .code .set _ rfl
  · exact .flat (.plain (by decide) (.plain (by decide) rfl)) (by simp)
  · by_cases ho : isOpener c = true
    · simp only [isOpener, Bool.or_eq_true, beq_iff_eq] at ho
      rcases ho with (rfl | rfl) | rfl
      · exact @BracketMove.opener .code .list _ rfl
      · exact @BracketMove.opener .code .vector _ rfl
      · exact @BracketMove.opener .code .map _ rfl
    by_cases hc : isCloser c = true
    · have htoken : charToken c = .closer c := by
        simp only [isCloser, Bool.or_eq_true, beq_iff_eq] at hc
        rcases hc with (rfl | rfl) | rfl <;> rfl
      rw [htoken]
      exact .closer rfl hc
    · have hplain : Context.isPlain c = true := by simp [Context.isPlain, ho, hc, hs, hq]
      refine .flat (.plain hplain rfl) ?_
      simp only [isOpener, Bool.or_eq_true, beq_iff_eq, not_or] at ho
      simp only [Option.mem_some_iff, forall_eq', charToken]
      grind

/-- So it is of each character in each mode. -/
theorem lexMove_cases (mode : LexMode) (c : Char) (cs : List Char) : BracketMove mode.context (lexMove mode c cs) := by
  have hsymbol (h : isSymbolChar c = true) : Context.isPlain c = true :=
    isPlain_of_not_terminator (isTerminator_of_isSymbolChar h)
  apply lexMove_induction (BracketMove mode.context)
  case within =>
    intro hm next _ hnext
    exact .flat ⟨fun hcode => absurd hcode hm, hnext.symm⟩ (by simp [LexMove.skip])
  case atom =>
    intro hm hs
    rw [hm]
    exact .flat (.plain (hsymbol hs) rfl) (by simp)
  case inside =>
    intro hm hs
    rw [hm]
    exact .flat (.plain (hsymbol hs) rfl) (by simp [LexMove.skip])
  case blank =>
    intro hm hb
    rw [hm]
    exact .flat (.plain (isPlain_of_isMark (by simp [isMark, hb])) rfl) (by simp [LexMove.skip])
  case comment =>
    rintro hm rfl
    rw [hm]
    exact .flat ⟨fun _ => by decide, rfl⟩ (by simp [LexMove.skip])
  case string =>
    rintro hm rfl
    rw [hm]
    exact .flat ⟨fun _ => by decide, rfl⟩ (by simp)
  case bracket =>
    intro hm hs hq
    rw [hm]
    exact bracketMove_cases cs hs hq

/-- At a place in a group the scanner finds the end of the group, and the lexemes up to there are those that finish the form for
which the group and some marks are open. -/
def Closes (opening : Opening) (expected : Char) (outer : List Char) (scanning : Mode) (mode : LexMode) (stack : List Pending)
    (c : Cursor) : Prop :=
  ∃ stop text block item, scanGroup opening expected outer scanning c.offset c.rest = .ok stop ∧ c.Reaches text stop ∧
    lex mode c.offset c.rest = block ++ lex .code stop.offset stop.rest ∧ ∀ k, parse k stack none block = .ok item

/-- The scan of a group goes into a group inside. -/
theorem scanGroup_opening (opening : Opening) (expected : Char) (outer : List Char) (b : Bracket) (offset : Nat)
    (rest : List Char) : scanGroup opening expected outer .code offset (b.opening ++ rest) =
      scanGroup opening b.closer (expected :: outer) .code (offset + byteLength b.opening) rest := by
  cases b <;> rfl

/-- A step over a part of the text that neither the scanner nor the lexemes are finished with. -/
theorem Closes.of_move {opening : Opening} {expected expected' : Char} {outer outer' : List Char} {scanning scanning' : Mode}
    {mode : LexMode} {stack stack' : List Pending} {offset : Nat} {m : LexMove} {text : List Char}
    (hused : m.used ++ m.rest = text) (hlex : lex mode offset text = m.run offset)
    (hscan : scanGroup opening expected outer scanning offset text =
      scanGroup opening expected' outer' scanning' (offset + byteLength m.used) m.rest)
    (hparse : ∀ k block, parse k stack none (m.lexemes offset ++ block) = parse k stack' none block)
    (h : Closes opening expected' outer' scanning' m.mode stack' ⟨offset + byteLength m.used, m.rest⟩) :
    Closes opening expected outer scanning mode stack ⟨offset, text⟩ := by
  obtain ⟨stop, passed, block, item, hstop, hreaches, hblock, hitem⟩ := h
  have hstart : (⟨offset, text⟩ : Cursor).Reaches m.used ⟨offset + byteLength m.used, m.rest⟩ := ⟨hused.symm, rfl⟩
  refine ⟨stop, _, m.lexemes offset ++ block, item, hscan.trans hstop, hstart.trans hreaches, ?_, fun k => ?_⟩
  · rw [hlex, LexMove.run, hblock, List.append_assoc]
  · rw [hparse, hitem]

/-- If the lexemes of a text close the groups that are open before it, and more around them, then the scanner of the groups finds
the same end of the first of them: at every step either no bracket is passed, or both open the same group, or both close one. -/
theorem closes_of_parse {opening : Opening} {stop : Nat} {base : List Pending} {more : List Lexeme} {item : Item}
    (hmore : ∀ stack, openClosers stack ≠ [] → parse stop (stack ++ base) none more ≠ .ok item) (mode : LexMode)
    (cs : List Char) :
    ∀ {scanning : Mode} {stack : List Pending} {expected : Char} {outer : List Char} (offset : Nat),
      scanning.context = mode.context → openClosers stack = expected :: outer →
      parse stop (stack ++ base) none (lex mode offset cs ++ more) = .ok item →
      Closes opening expected outer scanning mode stack ⟨offset, cs⟩ := by
  induction mode, cs using lex_induction with
  | nil mode =>
    intro scanning stack expected outer offset _ hopen h
    exact absurd h (hmore stack (by simp [hopen]))
  | cons mode c cs ih =>
    intro scanning stack expected outer offset hmode hopen h
    have hne : openClosers stack ≠ [] := by simp [hopen]
    obtain ⟨hused, -⟩ := lexMove_used mode c cs
    have hcases := lexMove_cases mode c cs
    have hlex := lex_cons mode offset c cs
    rw [hlex, LexMove.run] at h
    generalize lexMove mode c cs = m at *
    cases hcases with
    | flat hflat htoken =>
      obtain ⟨scanning', hmode', hscan⟩ := scanGroup_flat hflat opening expected outer hmode offset m.rest
      rw [hused] at hscan
      cases ht : m.token with
      | none =>
        have hnone : m.lexemes offset = [] := by simp [LexMove.lexemes, ht]
        rw [hnone, List.nil_append] at h
        refine .of_move hused hlex hscan (fun k block => ?_) (ih _ hmode' hopen h)
        rw [hnone, List.nil_append]
      | some token =>
        obtain ⟨hopener, hcloser⟩ := htoken token ht
        have hone : m.lexemes offset = [⟨token.1, ⟨offset, offset + token.2⟩⟩] := by simp [LexMove.lexemes, ht]
        rw [hone, List.singleton_append, List.cons_append] at h
        obtain ⟨next, hfeed, hrest⟩ := feed_of_parse h
        obtain ⟨⟨own, finished⟩, hown, rfl⟩ := feed_of_append hne hfeed
        have hsame : openClosers own = openClosers stack := feed_flat hown hopener hcloser
        cases finished with
        | some done => exact absurd (hsame.symm.trans ((feed_finished hown).1 (by simp))) hne
        | none =>
          refine .of_move hused hlex hscan (fun k block => ?_) (ih _ hmode' (hsame.trans hopen) hrest)
          rw [hone, List.singleton_append, parse_feed hown]
    | @opener b rest hcode =>
      obtain rfl : scanning = .code := Mode.eq_code_of_context (hmode.trans hcode)
      have hscan := scanGroup_opening opening expected outer b offset rest
      rw [hused] at hscan
      rw [LexMove.lexemes, List.singleton_append, List.cons_append] at h
      obtain ⟨next, hfeed, hrest⟩ := feed_of_parse h
      cases hfeed
      have hnext : openClosers (.group b offset [] :: stack) = b.closer :: expected :: outer := congrArg (b.closer :: ·) hopen
      exact .of_move hused hlex hscan (fun k block => rfl) (ih _ rfl hnext hrest)
    | @closer d rest hcode hd =>
      obtain rfl : scanning = .code := Mode.eq_code_of_context (hmode.trans hcode)
      rw [LexMove.lexemes, List.singleton_append, List.cons_append] at h
      obtain ⟨next, hfeed, hrest⟩ := feed_of_parse h
      obtain ⟨⟨own, finished⟩, hown, rfl⟩ := feed_of_append hne hfeed
      obtain ⟨outer', hclosers, hnext, hiff⟩ := feed_closer hown
      obtain ⟨rfl, rfl⟩ : d = expected ∧ outer' = outer := by simpa using hclosers.symm.trans hopen
      have hscan := scanGroup_closer opening outer' offset rest hd
      have htext : d :: rest = c :: cs := hused
      rw [htext] at hscan
      cases outer' with
      | nil =>
        cases finished with
        | none => exact absurd rfl (hiff.mp rfl)
        | some done =>
          refine ⟨⟨offset + d.utf8Size, rest⟩, [d], [⟨.closer d, ⟨offset, offset + d.utf8Size⟩⟩], done, hscan, ⟨hused.symm, rfl⟩,
            hlex, fun k => ?_⟩
          rw [parse_feed hown]
          rfl
      | cons next outer =>
        obtain rfl : finished = none := hiff.mpr (by simp)
        refine .of_move hused hlex hscan (fun k block => ?_) (ih _ rfl hnext hrest)
        rw [LexMove.lexemes, List.singleton_append, parse_feed hown]

/-! ## Marks -/

/-- Lexemes that are all marks. -/
def OnlyMarks (ls : List Lexeme) : Prop := ∀ l ∈ ls, ∃ m, l.token = .mark m

/-- A place before a form, from which the scanner of marks goes on: the lexemes from there are marks, and then those of the
form. -/
def MarksBefore (found : Except Nat Cursor) (ls : List Lexeme) : Prop :=
  ∃ marks, OnlyMarks marks ∧ ls = match found with
    | .ok body => marks ++ lex .code body.offset body.rest
    | .error _ => marks

/-- A mark may stand before other marks. -/
theorem MarksBefore.cons {found : Except Nat Cursor} {ls : List Lexeme} (h : MarksBefore found ls) (m : Mark) (span : Span) :
    MarksBefore found (⟨.mark m, span⟩ :: ls) := by
  obtain ⟨marks, hmarks, rfl⟩ := h
  refine ⟨⟨.mark m, span⟩ :: marks, List.forall_mem_cons.mpr ⟨⟨m, rfl⟩, hmarks⟩, ?_⟩
  cases found <;> rfl

/-- The scanner of marks passes over the lexemes that are marks, and no others. -/
theorem lex_skipMarks (inComment : Bool) (offset : Nat) (cs : List Char) :
    MarksBefore (skipMarks inComment offset cs) (lex (.ofTrivia inComment) offset cs) := by
  fun_induction skipMarks inComment offset cs with
  | case1 inComment offset => exact ⟨[], List.forall_mem_nil _, rfl⟩
  | case2 inComment offset cs ih =>
    cases inComment with
    | true => exact ih
    | false => exact ih.cons .splice ⟨offset, offset + 2⟩
  | case3 offset c cs hn ih =>
    have hmode : (if c == '\n' then LexMode.code else .comment) = .ofTrivia (c != '\n') := by
      cases h : c == '\n' <;> simp [LexMode.ofTrivia, h, bne]
    rw [← hmode] at ih
    exact ih
  | case4 inComment offset c cs hn hin hc ih =>
    obtain rfl : inComment = false := by simpa using hin
    simp only [isBlank, Bool.or_eq_true, beq_iff_eq] at hc
    rcases hc with (((((rfl | rfl) | rfl) | rfl) | rfl) | rfl) | rfl
    · exact ih
    · exact ih
    · exact ih
    · exact ih
    · exact ih.cons .quote ⟨offset, offset + 1⟩
    · exact ih.cons .quasiquote ⟨offset, offset + 1⟩
    · have hlex : lex .code offset (',' :: cs) = ⟨.mark .unquote, ⟨offset, offset + 1⟩⟩ :: lex .code (offset + 1) cs := by
        have hmove : bracketMove ',' cs = ⟨some (.mark .unquote, 1), .code, [','], cs⟩ :=
          bracketMove.eq_4 ',' cs (by simp) (by simp) hn
        exact (lex_bracket rfl offset cs (by decide) (by decide) (by decide) (by decide)).trans (by rw [hmove]; rfl)
      exact hlex ▸ ih.cons .unquote ⟨offset, offset + 1⟩
  | case5 inComment offset c cs hn hin hc hs ih =>
    obtain rfl : inComment = false := by simpa using hin
    obtain rfl : c = ';' := by simpa using hs
    exact ih
  | case6 inComment offset c cs hn hin hc hs =>
    obtain rfl : inComment = false := by simpa using hin
    exact ⟨[], List.forall_mem_nil _, rfl⟩

/-- The text at a place that is neither blank nor in a comment begins with a lexeme. -/
theorem lex_skip_ne_nil {c : Cursor} (h : c.skip.rest ≠ []) : lex .code c.skip.offset c.skip.rest ≠ [] := by
  have hhead (inComment : Bool) (offset : Nat) (cs : List Char) :
      ∀ d ∈ (skipTrivia inComment offset cs).rest.head?, isBlank d = false ∧ d ≠ ';' := by
    fun_induction skipTrivia inComment offset cs with
    | case1 => simp
    | case5 inComment offset c cs _ hb hs => simp_all
    | _ => assumption
  obtain ⟨d, cs, hcs⟩ := List.exists_cons_of_ne_nil h
  obtain ⟨hb, hs⟩ := hhead false c.offset c.rest d (by change d ∈ c.skip.rest.head?; rw [hcs]; rfl)
  rw [hcs, lex_cons, lexMove, codeMove]
  split
  · simp [LexMove.run, LexMove.lexemes]
  rw [if_neg (by simp [hb]), if_neg (by simpa using hs)]
  split
  · simp [LexMove.run, LexMove.lexemes]
  · unfold bracketMove
    split <;> simp [LexMove.run, LexMove.lexemes]

/-- Marks wait for their form, whatever is open before them. -/
theorem parse_marks {marks : List Lexeme} (h : OnlyMarks marks) :
    ∃ waiting, openClosers waiting = [] ∧
      ∀ stop stack ls, parse stop stack none (marks ++ ls) = parse stop (waiting ++ stack) none ls := by
  induction marks with
  | nil => exact ⟨[], rfl, fun _ _ _ => rfl⟩
  | cons l marks ih =>
    obtain ⟨⟨m, hm⟩, hmarks⟩ := List.forall_mem_cons.mp h
    obtain ⟨waiting, hclosers, hparse⟩ := ih hmarks
    refine ⟨waiting ++ [.mark m], ?_, fun stop stack ls => ?_⟩
    · rw [openClosers_append, hclosers]
      rfl
    · have hfeed : feed stack l = some (.mark m :: stack, none) := by simp [feed, hm]
      rw [List.cons_append, parse_feed hfeed, hparse, List.append_assoc]
      rfl

/-- Before a closer, marks without a form can stand only if the last of them is a splicing mark. -/
theorem last_of_parse_closer {marks : List Lexeme} (h : OnlyMarks marks) (hne : marks ≠ []) {stop : Nat} {stack : List Pending}
    {c : Char} {span : Span} {item : Item} (hparse : parse stop stack none (marks ++ [⟨.closer c, span⟩]) = .ok item) :
    ∃ l ∈ marks.getLast?, l.token = .mark .splice := by
  obtain ⟨before, l, rfl⟩ : ∃ before l, marks = before ++ [l] := ⟨_, _, (List.dropLast_concat_getLast hne).symm⟩
  obtain ⟨m, hm⟩ := h l (by simp)
  obtain ⟨waiting, -, hwaiting⟩ := parse_marks fun l' hl' => h l' (List.mem_append_left _ hl')
  have hfeed : feed (waiting ++ stack) l = some (.mark m :: (waiting ++ stack), none) := by simp [feed, hm]
  rw [List.append_assoc, hwaiting, List.singleton_append, parse_feed hfeed] at hparse
  obtain ⟨next, hnext, -⟩ := feed_of_parse hparse
  cases m with
  | splice => exact ⟨l, by simp, hm⟩
  | _ => cases hnext

end MiniLisp.Reader
