import MiniLisp.Proofs.Reader.Balance

/-!
# Free-standing lexemes: what can stand outside of all brackets

In a group the lexemes alone decide where a form ends; at the top level the scanner of extents does, and it sees less. It takes a
symbol or number to reach up to the next terminator, so that it tears a `#[`, or a `#` before a brace, apart that follows one
directly; and it takes a `,@` for a mark where only the end of the text follows. Lexemes without the two are free-standing
(`Freestanding`), and what is read at the top level is (`freestanding_of_reads`).
-/

namespace MiniLisp.Reader

/-! ## Lexemes outside of brackets -/

/-- The brackets that begin with a number sign. -/
def Bracket.isHashed : Bracket → Bool
  | .hashVector | .set => true
  | _ => false

/-- Whether a bracket with a number sign stands directly behind a symbol or number, outside of all brackets. There are `depth`
groups open before the lexemes, and if the lexeme before them is a symbol or number, it ends at `atomStop`. -/
def touchesAtom (depth : Nat) (atomStop : Option Nat) : List Lexeme → Bool
  | [] => false
  | l :: ls =>
    match l.token with
    | .opener b => (depth == 0 && b.isHashed && atomStop == some l.span.start) || touchesAtom (depth + 1) none ls
    | .closer _ => touchesAtom (depth - 1) none ls
    | .atom _ => touchesAtom depth (some l.span.stop) ls
    | _ => touchesAtom depth none ls

/-- Lexemes that can stand at the top level as they can stand in a group: none of the brackets outside of all others touches a
symbol or number with its number sign, and the last lexeme is no splicing mark. -/
structure Freestanding (ls : List Lexeme) : Prop where
  apart : touchesAtom 0 none ls = false
  last : ∀ l ∈ ls.getLast?, l.token ≠ .mark .splice

/-- Less stands directly behind nothing than behind a symbol or number. -/
theorem touchesAtom_none {depth : Nat} {atomStop : Option Nat} {ls : List Lexeme}
    (h : touchesAtom depth atomStop ls = false) : touchesAtom depth none ls = false := by
  cases ls with
  | nil => rfl
  | cons l ls =>
    obtain ⟨token, span⟩ := l
    cases token <;> simp_all [touchesAtom]

/-- Where no hashed opener follows at once, it does not matter that an atom has ended there. -/
theorem touchesAtom_of_ne {depth : Nat} {atomStop : Option Nat} {ls : List Lexeme} (h : touchesAtom depth none ls = false)
    (hne : ∀ l ∈ ls.head?, ∀ b, l.token = .opener b → b.isHashed = true → atomStop ≠ some l.span.start) :
    touchesAtom depth atomStop ls = false := by
  cases ls with
  | nil => rfl
  | cons l ls =>
    have hl := hne l rfl
    obtain ⟨token, span⟩ := l
    cases token <;> simp_all [touchesAtom]

/-- The end of the last lexeme, if it is a symbol or number. -/
def atomEnd (ls : List Lexeme) : Option Nat :=
  ls.getLast?.bind fun l =>
    match l.token with
    | .atom _ => some l.span.stop
    | _ => none

/-! ## The lexemes of one form -/

/-- A lexeme on the outermost level counts, one inside a group does not. -/
theorem touchesAtom_feed {stack : List Pending} {l : Lexeme} {next : List Pending × Option Item} (h : feed stack l = some next)
    {atomStop : Option Nat} (hstop : openClosers stack = [] → atomStop = none) (ls : List Lexeme) :
    touchesAtom (openClosers stack).length atomStop (l :: ls) = touchesAtom (openClosers next.1).length (atomEnd [l]) ls := by
  have hflat := feed_flat h
  obtain ⟨token, span⟩ := l
  cases token with
  | stray => cases h
  | opener b =>
    cases h
    have hfirst : ((openClosers stack).length == 0 && b.isHashed && atomStop == some span.start) = false := by
      cases hs : openClosers stack with
      | nil => simp [hstop hs]
      | cons => rfl
    simp only [touchesAtom, hfirst, Bool.false_or]
    rfl
  | closer c =>
    obtain ⟨outer, hopen, hnext, -⟩ := feed_closer h
    rw [hopen, hnext]
    rfl
  | _ =>
    rw [hflat (fun _ => nofun) (fun _ => nofun)]
    rfl

/-- Behind a form it only matters whether its last lexeme is a symbol or number: a form touches nothing itself. -/
theorem touchesAtom_of_parse {stop : Nat} {stack : List Pending} {ls : List Lexeme} {item : Item}
    (h : parse stop stack none ls = .ok item) {atomStop : Option Nat} (hstop : openClosers stack = [] → atomStop = none)
    (more : List Lexeme) :
    touchesAtom (openClosers stack).length atomStop (ls ++ more) = touchesAtom 0 (atomEnd ls) more := by
  induction ls generalizing stack atomStop with
  | nil => cases h
  | cons l ls ih =>
    obtain ⟨⟨own, finished⟩, hfeed, hrest⟩ := feed_of_parse h
    obtain ⟨hdone, hgoes⟩ := feed_finished hfeed
    rw [List.cons_append, touchesAtom_feed hfeed hstop]
    cases finished with
    | some done =>
      obtain rfl := eq_nil_of_parse_some hrest
      rw [hdone nofun]
      rfl
    | none =>
      have hne : ls ≠ [] := by
        rintro rfl
        cases hrest
      have hlast : atomEnd (l :: ls) = atomEnd ls := by
        obtain ⟨l', ls', rfl⟩ := List.exists_cons_of_ne_nil hne
        rfl
      rw [hlast]
      refine ih hrest fun hnil => ?_
      obtain ⟨m, hm⟩ := hgoes rfl hnil
      simp [atomEnd, hm]

/-- What stands behind a form can stand at the top level if all can. -/
theorem Freestanding.of_parse {stop : Nat} {ls more : List Lexeme} {item : Item} (h : Freestanding (ls ++ more))
    (hparse : parse stop [] none ls = .ok item) : Freestanding more := by
  have htouch : touchesAtom 0 none (ls ++ more) = _ := touchesAtom_of_parse hparse (fun _ => rfl) more
  refine ⟨touchesAtom_none (htouch.symm.trans h.apart), fun l hl => h.last l ?_⟩
  rw [List.getLast?_append, hl]
  rfl

/-- Marks before a form touch nothing. -/
theorem touchesAtom_marks {marks : List Lexeme} (h : OnlyMarks marks) (ls : List Lexeme) :
    touchesAtom 0 none (marks ++ ls) = touchesAtom 0 none ls := by
  induction marks with
  | nil => rfl
  | cons l marks ih =>
    obtain ⟨⟨m, hm⟩, hmarks⟩ := List.forall_mem_cons.mp h
    rw [List.cons_append, touchesAtom, hm]
    exact ih hmarks

/-- Whether a hash touches an atom does not depend on the place. -/
theorem touchesAtom_shift (k : Nat) (depth : Nat) (atomStop : Option Nat) (ls : List Lexeme) :
    touchesAtom depth (atomStop.map (· + k)) (ls.map (Lexeme.shift k)) = touchesAtom depth atomStop ls := by
  induction ls generalizing depth atomStop with
  | nil => rfl
  | cons l ls ih =>
    obtain ⟨token, span⟩ := l
    cases token with
    | opener b =>
      have hstart : (atomStop.map (· + k) == some (span.start + k)) = (atomStop == some span.start) := by
        cases atomStop with
        | none => rfl
        | some p => simp
      have hrest := ih (depth + 1) none
      simp only [List.map_cons, touchesAtom, Lexeme.shift, Span.shift, hstart] at hrest ⊢
      exact congrArg _ hrest
    | atom text => exact ih depth (some span.stop)
    | closer c => exact ih (depth - 1) none
    | _ => exact ih depth none

/-- Nor does it whether all hashes stand free. -/
theorem Freestanding.shift {ls : List Lexeme} (h : Freestanding ls) (k : Nat) : Freestanding (ls.map (Lexeme.shift k)) := by
  refine ⟨(touchesAtom_shift k 0 none ls).trans h.apart, fun l hl => ?_⟩
  rw [List.getLast?_map, Option.mem_def, Option.map_eq_some_iff] at hl
  obtain ⟨l', hl', rfl⟩ := hl
  exact h.last l' hl'

/-! ## What is read at the top level -/

theorem byteLength_eq_zero {text : List Char} (h : byteLength text = 0) : text = [] := by
  cases text with
  | nil => rfl
  | cons c cs =>
    have hpos := c.utf8Size_pos
    rw [byteLength_cons] at h
    omega

/-- A symbol or number that takes up the whole of a text ends in one of its characters. -/
theorem symbol_of_lexMove {mode : LexMode} {c : Char} {cs text : List Char} :
    (lexMove mode c cs).token = some (.atom text, byteLength (c :: cs)) → ∃ a ∈ (c :: cs).getLast?, isSymbolChar a = true := by
  apply lexMove_induction fun m => m.token = some (.atom text, byteLength (c :: cs)) →
    ∃ a ∈ (c :: cs).getLast?, isSymbolChar a = true
  case atom =>
    intro _ hc h
    have hlen : byteLength (c :: cs.takeWhile isSymbolChar) = byteLength (c :: cs) := by
      injection h with h
      injection h
    have hsplit : cs.takeWhile isSymbolChar ++ cs.dropWhile isSymbolChar = cs := List.takeWhile_append_dropWhile
    have hrest : cs.dropWhile isSymbolChar = [] := by
      have hsum := congrArg byteLength hsplit
      rw [byteLength_append] at hsum
      rw [byteLength_cons, byteLength_cons] at hlen
      exact byteLength_eq_zero (by omega)
    have hall : ∀ a ∈ c :: cs, isSymbolChar a = true := by
      rw [hrest, List.append_nil] at hsplit
      exact List.forall_mem_cons.mpr ⟨hc, List.takeWhile_eq_self_iff.mp hsplit⟩
    exact ⟨_, List.getLast?_eq_some_getLast (List.cons_ne_nil c cs), hall _ (List.getLast_mem _)⟩
  case bracket =>
    intro _ _ _ h
    unfold bracketMove at h
    split at h
    case h_4 =>
      simp only [charToken, Option.some.injEq, Prod.mk.injEq] at h
      grind
    all_goals cases h
  case string =>
    intro _ _ h
    simp at h
  all_goals
    intros
    contradiction

/-- A text that ends with a symbol or number ends in one of its characters. -/
theorem symbol_of_atomEnd {mode : LexMode} {text : List Char} :
    ∀ offset, atomEnd (lex mode offset text) = some (offset + byteLength text) → ∃ a ∈ text.getLast?, isSymbolChar a = true := by
  induction mode, text using lex_induction with
  | nil mode => exact fun _ h => nomatch h
  | cons mode c cs ih =>
    intro offset h
    obtain ⟨hused, -⟩ := lexMove_used mode c cs
    rw [lex_cons, LexMove.run] at h
    cases hrest : lex (lexMove mode c cs).mode (offset + byteLength (lexMove mode c cs).used) (lexMove mode c cs).rest with
    | nil =>
      rw [hrest, List.append_nil, LexMove.lexemes] at h
      cases ht : (lexMove mode c cs).token with
      | none => simp [ht, atomEnd] at h
      | some token =>
        obtain ⟨token, width⟩ := token
        cases token with
        | atom atom =>
          obtain rfl : width = byteLength (c :: cs) := by simpa [ht, atomEnd] using h
          exact symbol_of_lexMove ht
        | _ => simp [ht, atomEnd] at h
    | cons l ls =>
      have hlast (before : List Lexeme) : atomEnd (before ++ l :: ls) = atomEnd (l :: ls) := by
        rw [atomEnd, List.getLast?_append, List.getLast?_eq_some_getLast (List.cons_ne_nil l ls)]
        rfl
      rw [hrest, hlast, ← hrest, ← hused, byteLength_append, ← Nat.add_assoc] at h
      obtain ⟨a, ha, hsymbol⟩ := ih _ h
      refine ⟨a, ?_, hsymbol⟩
      rw [← hused, List.getLast?_append, ha]
      rfl

/-- No lexeme begins before its text, and a bracket with a number sign begins where that stands. -/
theorem lex_start {mode : LexMode} {text : List Char} :
    ∀ offset, ∀ l ∈ lex mode offset text, offset ≤ l.span.start ∧
      ∀ b, l.token = .opener b → b.isHashed = true → l.span.start = offset → text.head? = some '#' := by
  induction mode, text using lex_induction with
  | nil mode => exact fun _ _ h => nomatch h
  | cons mode c cs ih =>
    intro offset l hl
    obtain ⟨hused, hne⟩ := lexMove_used mode c cs
    rw [lex_cons, LexMove.run, List.mem_append] at hl
    rcases hl with hl | hl
    · cases ht : (lexMove mode c cs).token with
      | none => simp [LexMove.lexemes, ht] at hl
      | some move =>
        obtain rfl : l = ⟨move.1, ⟨offset, offset + move.2⟩⟩ := by simpa [LexMove.lexemes, ht] using hl
        refine ⟨Nat.le_refl _, fun b hb hhashed _ => ?_⟩
        have hcases := lexMove_cases mode c cs
        generalize lexMove mode c cs = m at *
        cases hcases with
        | flat _ htoken => exact absurd hb ((htoken move ht).1 b)
        | @opener b' rest _ =>
          cases ht
          cases hb
          cases b with
          | hashVector | set =>
            cases hused
            rfl
          | _ => cases hhashed
        | closer _ _ =>
          cases ht
          cases hb
    · have hlt : offset < l.span.start := by
        have hle := (ih _ l hl).1
        have hreach : (⟨offset, c :: cs⟩ : Cursor).Reaches (lexMove mode c cs).used
            ⟨offset + byteLength (lexMove mode c cs).used, (lexMove mode c cs).rest⟩ := ⟨hused.symm, rfl⟩
        exact Nat.lt_of_lt_of_le (hreach.offset_lt hne) hle
      exact ⟨Nat.le_of_lt hlt, fun _ _ _ heq => absurd heq.symm (Nat.ne_of_lt hlt)⟩

/-- An atom ends within the text. -/
theorem atomEnd_le {mode : LexMode} {text : List Char} {offset position : Nat} (hclosed : mode.context.after text = .code)
    (h : atomEnd (lex mode offset text) = some position) : position ≤ offset + byteLength text := by
  obtain ⟨l, hl, hstop⟩ := Option.bind_eq_some_iff.mp h
  have hle := (lex_covers offset hclosed l (List.mem_of_getLast? hl)).2.2
  split at hstop
  · cases hstop
    exact hle
  · cases hstop

/-- A form that is read has an extent, whose text is read as its value. -/
theorem extent_of_readForm {c d : Cursor} {value : Value} {span : Span} (h : readForm c = some (.form value span, d)) :
    ∃ extent, scanForm c.skip = .ok d ∧ c.skip.Reaches extent d ∧ readExtent extent ⟨c.skip.offset, d.offset⟩ = .ok value := by
  obtain ⟨-, ⟨f, -, hitem, -⟩ | ⟨extent, hscan, hr, hitem⟩⟩ := readForm_cases h
  · cases hitem
  · refine ⟨extent, hscan, hr, ?_⟩
    cases hread : readExtent extent ⟨c.skip.offset, d.offset⟩ with
    | error f => simp [hread, ReadItem.ofItem] at hitem
    | ok v =>
      rw [hread] at hitem
      cases hitem
      rfl

/-- Its lexemes are those of its text, and come before those of what follows it. -/
theorem lex_of_extent {c d : Cursor} {extent : List Char} {value : Value} (hscan : scanForm c.skip = .ok d)
    (hr : c.skip.Reaches extent d) (hread : readExtent extent ⟨c.skip.offset, d.offset⟩ = .ok value) :
    lex .code c.offset c.rest = lex .code c.skip.offset extent ++ lex .code d.offset d.rest := by
  obtain ⟨-, hclosed, -, hend⟩ := scanForm_extent hscan hr
  have hapart := apart_of_ending hclosed hend (parse_of_readExtent hread)
  have hskip : lex .code c.offset c.rest = lex .code c.skip.offset c.skip.rest := lex_skipTrivia false c.offset c.rest
  rw [hskip, hr.1, hr.2, lex_code_append _ hclosed hapart]

/-- What is read at the top level can stand there: a symbol or number ends where the scanner finds a terminator. -/
theorem freestanding_of_reads {c d : Cursor} {forms : List (Value × Span)} (h : Reads c forms d)
    (hd : lex .code d.offset d.rest = []) : Freestanding (lex .code c.offset c.rest) := by
  induction h with
  | done c =>
    rw [hd]
    exact ⟨rfl, nofun⟩
  | @next c d _ value span _ hread _ ih =>
    obtain ⟨extent, hscan, hr, hread⟩ := extent_of_readForm hread
    obtain ⟨-, hclosed, -, hend⟩ := scanForm_extent hscan hr
    have hparse := parse_of_readExtent hread
    obtain ⟨htouch, hlast⟩ := ih hd
    rw [lex_of_extent hscan hr hread]
    constructor
    · have hblock : touchesAtom 0 none (lex .code c.skip.offset extent ++ lex .code d.offset d.rest) = _ :=
        touchesAtom_of_parse hparse (fun _ => rfl) _
      rw [hblock]
      refine touchesAtom_of_ne htouch fun l hl b hb hhashed hstop => ?_
      obtain ⟨hle, hsign⟩ := lex_start d.offset l (List.mem_of_head? hl)
      have heq : l.span.start = d.offset := Nat.le_antisymm (hr.2 ▸ @atomEnd_le .code _ _ _ hclosed hstop) hle
      rw [heq, hr.2] at hstop
      obtain ⟨a, ha, hsymbol⟩ := symbol_of_atomEnd _ hstop
      have hsign := hsign b hb hhashed heq
      rcases hend with ⟨before, x, rfl, hx⟩ | hterm
      · obtain rfl : x = a := by simpa using ha
        simp only [isCloser, Bool.or_eq_true, beq_iff_eq] at hx
        rcases hx with rfl | (rfl | rfl) | rfl <;> exact absurd hsymbol (by decide)
      · exact absurd (hterm '#' hsign) (by decide)
    · intro l hl
      rw [List.getLast?_append] at hl
      cases hrest : (lex .code d.offset d.rest).getLast? with
      | some last =>
        rw [hrest] at hl hlast
        exact hlast l hl
      | none =>
        rw [hrest] at hl
        obtain ⟨last, hlast, hmark⟩ := last_of_parse hparse
        rw [hlast] at hl
        cases hl
        exact hmark .splice

end MiniLisp.Reader
