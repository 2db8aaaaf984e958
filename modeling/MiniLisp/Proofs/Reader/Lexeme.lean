import MiniLisp.Proofs.Reader.Extent
import MiniLisp.Reader.Lexeme

/-!
# Lexemes: how a text is cut, piece by piece

Cutting a text goes step by step, and a step looks neither at the bytes before the text nor, where the text leaves no string or
comment open, behind its end (`LexMove`). So the lexemes of two texts that stand one behind the other are those of the first and
then those of the second, unless one lexeme could reach over the seam (`lex_append`); and every lexeme lies within its text
(`lex_covers`).
-/

namespace MiniLisp.Reader

/-- The same lexeme, counted from a point `k` bytes earlier. -/
def Lexeme.shift (k : Nat) (l : Lexeme) : Lexeme := ⟨l.token, l.span.shift k⟩

/-- A span that begins between characters of the text at a place, and ends in that text. -/
def Cursor.Covers (c : Cursor) (s : Span) : Prop :=
  c.Sees s.start ∧ s.start ≤ s.stop ∧ s.stop ≤ c.offset + byteLength c.rest

def LexMode.context : LexMode → Context
  | .code | .atom => .code
  | .comment => .comment
  | .string => .string
  | .escape => .escape

/-! ## Steps -/

/-- One step of cutting a text: the token that begins there, if any, and its length in bytes; the mode in which to go on; the
characters that are done with, and those behind them. -/
structure LexMove where
  token : Option (Token × Nat)
  mode : LexMode
  used : List Char
  rest : List Char

namespace LexMove

/-- The lexeme of a step that is taken at a position. -/
def lexemes (m : LexMove) (offset : Nat) : List Lexeme :=
  match m.token with
  | some (token, width) => [⟨token, ⟨offset, offset + width⟩⟩]
  | none => []

/-- The same step in a text that goes on with `more`. -/
def append (m : LexMove) (more : List Char) : LexMove := { m with rest := m.rest ++ more }

/-- A step at a position and all that come after it. -/
def run (m : LexMove) (offset : Nat) : List Lexeme := m.lexemes offset ++ lex m.mode (offset + byteLength m.used) m.rest

/-- A step over one character with which no lexeme begins. -/
def skip (mode : LexMode) (c : Char) (cs : List Char) : LexMove := ⟨none, mode, [c], cs⟩

end LexMove

/-- The step at a character outside of atoms, strings, comments and blanks. -/
def bracketMove (c : Char) (cs : List Char) : LexMove :=
  match c, cs with
  | '#', '[' :: cs => ⟨some (.opener .hashVector, 2), .code, ['#', '['], cs⟩
  | '#', '\x7b' :: cs => ⟨some (.opener .set, 2), .code, ['#', '\x7b'], cs⟩
  | ',', '@' :: cs => ⟨some (.mark .splice, 2), .code, [',', '@'], cs⟩
  | c, cs => ⟨some (charToken c, c.utf8Size), .code, [c], cs⟩

/-- The step at a character outside of strings and comments. -/
def codeMove (inAtom : Bool) (c : Char) (cs : List Char) : LexMove :=
  if isSymbolChar c then
    if inAtom then .skip .atom c cs
    else
      let text := c :: cs.takeWhile isSymbolChar
      ⟨some (.atom text, byteLength text), .atom, [c], cs⟩
  else if isBlank c then .skip .code c cs
  else if c == ';' then .skip .comment c cs
  else if c == '\x22' then
    let raw := stringBody false cs
    ⟨some (.string raw, byteLength raw + 2), .string, [c], cs⟩
  else bracketMove c cs

/-- The step at a character. -/
def lexMove (mode : LexMode) (c : Char) (cs : List Char) : LexMove :=
  match mode with
  | .comment => .skip (if c == '\n' then .code else .comment) c cs
  | .escape => .skip .string c cs
  | .string => .skip (if c == '\x5c' then .escape else if c == '\x22' then .code else .string) c cs
  | .code => codeMove false c cs
  | .atom => codeMove true c cs

/-- A character of code that begins neither an atom, a string nor a comment is a bracket, a mark or nothing. -/
theorem lex_bracket {mode : LexMode} (hm : mode.context = .code) (offset : Nat) {c : Char} (cs : List Char)
    (hs : ¬isSymbolChar c = true) (hb : ¬isBlank c = true) (hc : ¬(c == ';') = true) (hq : ¬(c == '\x22') = true) :
    lex mode offset (c :: cs) = (bracketMove c cs).run offset := by
  have hmode : lex mode offset (c :: cs) = lex .code offset (c :: cs) := by
    cases mode with
    | code => rfl
    | atom =>
      unfold lex
      simp only [hs, hb, hc, hq]
      rfl
    | _ => cases hm
  rw [hmode]
  unfold bracketMove
  split
  · rfl
  · rfl
  · rfl
  · rename_i hv hset hsplice
    unfold lex
    simp only [hs, hb, hc, hq]
    grind [LexMove.run, LexMove.lexemes, byteLength]

/-- Cutting a text goes step by step. -/
theorem lex_cons (mode : LexMode) (offset : Nat) (c : Char) (cs : List Char) :
    lex mode offset (c :: cs) = (lexMove mode c cs).run offset := by
  cases mode with
  | comment => rfl
  | string => rfl
  | escape => rfl
  | _ =>
    unfold lexMove codeMove
    by_cases hs : isSymbolChar c = true
    · unfold lex
      simp [hs, LexMove.run, LexMove.lexemes, LexMove.skip]
    by_cases hb : isBlank c = true
    · unfold lex
      simp [hs, hb, LexMove.run, LexMove.lexemes, LexMove.skip]
    by_cases hc : (c == ';') = true
    · unfold lex
      simp [hs, hb, hc, LexMove.run, LexMove.lexemes, LexMove.skip]
    by_cases hq : (c == '\x22') = true
    · unfold lex
      simp [hs, hb, hc, hq, LexMove.run, LexMove.lexemes, Nat.add_assoc]
    · simp only [hs, hb, hc, hq]
      exact lex_bracket rfl offset cs hs hb hc hq

/-- The cases that a property of steps has to be shown for: inside of a comment or string, where no lexeme begins, and the kinds
of characters outside of them. -/
theorem lexMove_induction (P : LexMove → Prop) (mode : LexMode) (c : Char) (cs : List Char)
    (within : mode.context ≠ .code → ∀ next, next ≠ .atom → next.context = mode.context.step c → P (.skip next c cs))
    (atom : mode.context = .code → isSymbolChar c = true →
      P ⟨some (.atom (c :: cs.takeWhile isSymbolChar), byteLength (c :: cs.takeWhile isSymbolChar)), .atom, [c], cs⟩)
    (inside : mode.context = .code → isSymbolChar c = true → P (.skip .atom c cs))
    (blank : mode.context = .code → isBlank c = true → P (.skip .code c cs))
    (comment : mode.context = .code → c = ';' → P (.skip .comment c cs))
    (string : mode.context = .code → c = '\x22' →
      P ⟨some (.string (stringBody false cs), byteLength (stringBody false cs) + 2), .string, [c], cs⟩)
    (bracket : mode.context = .code → c ≠ ';' → c ≠ '\x22' → P (bracketMove c cs)) : P (lexMove mode c cs) := by
  have hcode (inAtom : Bool) (hm : mode.context = .code) : P (codeMove inAtom c cs) := by
    unfold codeMove
    split
    · rename_i hs
      split
      · exact inside hm hs
      · exact atom hm hs
    split
    · rename_i hb
      exact blank hm hb
    split
    · rename_i hc
      exact comment hm (by simpa using hc)
    rename_i hc
    split
    · rename_i hq
      exact string hm (by simpa using hq)
    · rename_i hq
      exact bracket hm (by simpa using hc) (by simpa using hq)
  cases mode with
  | code => exact hcode false rfl
  | atom => exact hcode true rfl
  | comment =>
    refine within (by decide) _ (by grind) ?_
    simp only [LexMode.context, Context.step]
    grind
  | string =>
    refine within (by decide) _ (by grind) ?_
    simp only [LexMode.context, Context.step]
    grind
  | escape => exact within (by decide) .string (by decide) rfl

/-- A move takes at least one character, and leaves the rest. -/
theorem bracketMove_used (c : Char) (cs : List Char) :
    (bracketMove c cs).used ++ (bracketMove c cs).rest = c :: cs ∧ (bracketMove c cs).used ≠ [] := by
  unfold bracketMove
  split <;> exact ⟨rfl, by simp⟩

/-- A step divides the text into some characters and the rest. -/
theorem lexMove_used (mode : LexMode) (c : Char) (cs : List Char) :
    (lexMove mode c cs).used ++ (lexMove mode c cs).rest = c :: cs ∧ (lexMove mode c cs).used ≠ [] := by
  apply lexMove_induction fun m => m.used ++ m.rest = c :: cs ∧ m.used ≠ []
  case bracket => exact fun _ _ _ => bracketMove_used c cs
  all_goals
    intros
    exact ⟨rfl, by simp [LexMove.skip]⟩

/-- From step to step one arrives at the end of the text. -/
theorem lex_induction {motive : LexMode → List Char → Prop} (nil : ∀ mode, motive mode [])
    (cons : ∀ mode c cs, motive (lexMove mode c cs).mode (lexMove mode c cs).rest → motive mode (c :: cs))
    (mode : LexMode) (text : List Char) : motive mode text := by
  cases text with
  | nil => exact nil mode
  | cons c cs =>
    obtain ⟨hu, hne⟩ := lexMove_used mode c cs
    have hlt : (lexMove mode c cs).rest.length < (c :: cs).length := by
      have hlen := congrArg List.length hu
      have hpos := List.length_pos_iff.mpr hne
      rw [List.length_append] at hlen
      omega
    exact cons mode c cs (lex_induction nil cons _ _)
termination_by text.length
decreasing_by exact hlt

/-- Code goes on behind a character that begins neither a comment nor a string. -/
theorem Context.step_code {c : Char} (hs : c ≠ ';') (hq : c ≠ '\x22') : Context.code.step c = .code := by
  simp [Context.step, hs, hq]

/-- The context behind a step is that behind the characters it is done with. -/
theorem lexMove_context (mode : LexMode) (c : Char) (cs : List Char) :
    (lexMove mode c cs).mode.context = mode.context.after (lexMove mode c cs).used := by
  have hsymbol (h : isSymbolChar c = true) : Context.code.step c = .code := by
    refine Context.step_code ?_ ?_
    · rintro rfl
      exact absurd h (by decide)
    · rintro rfl
      exact absurd h (by decide)
  apply lexMove_induction fun m => m.mode.context = mode.context.after m.used
  case within => exact fun _ _ _ h => h
  case atom =>
    intro hm hs
    rw [hm]
    exact (hsymbol hs).symm
  case inside =>
    intro hm hs
    rw [hm]
    exact (hsymbol hs).symm
  case blank =>
    intro hm hb
    simp only [isBlank, Bool.or_eq_true, beq_iff_eq] at hb
    rw [hm]
    rcases hb with ((rfl | rfl) | rfl) | rfl <;> rfl
  case comment =>
    rintro hm rfl
    rw [hm]
    rfl
  case string =>
    rintro hm rfl
    rw [hm]
    rfl
  case bracket =>
    intro hm hs hq
    rw [hm]
    unfold bracketMove
    split
    · rfl
    · rfl
    · rfl
    · simp [LexMode.context, Context.step_code hs hq]

/-! ## Where a text stands -/

/-- The lexemes of a move do not depend on its place. -/
theorem LexMove.lexemes_shift (k : Nat) (m : LexMove) (offset : Nat) :
    m.lexemes (offset + k) = (m.lexemes offset).map (Lexeme.shift k) := by
  unfold lexemes
  split
  · simp [Lexeme.shift, Span.shift, Nat.add_right_comm]
  · rfl

/-- The position of a text moves its lexemes, and changes nothing else in them. -/
theorem lex_shift (k : Nat) (mode : LexMode) (text : List Char) :
    ∀ offset, lex mode (offset + k) text = (lex mode offset text).map (Lexeme.shift k) := by
  induction mode, text using lex_induction with
  | nil mode => exact fun _ => rfl
  | cons mode c cs ih =>
    intro offset
    rw [lex_cons, lex_cons, LexMove.run, LexMove.run, List.map_append, LexMove.lexemes_shift, Nat.add_right_comm, ih]

/-- The mode of a text between lexemes, which begins inside of a comment or not. -/
def LexMode.ofTrivia (inComment : Bool) : LexMode := if inComment then .comment else .code

/-- Blanks and comments before the first lexeme count for nothing. -/
theorem lex_skipTrivia (inComment : Bool) (offset : Nat) (cs : List Char) :
    lex (.ofTrivia inComment) offset cs =
      lex .code (skipTrivia inComment offset cs).offset (skipTrivia inComment offset cs).rest := by
  induction cs generalizing inComment offset with
  | nil => rfl
  | cons c cs ih =>
    cases inComment with
    | true =>
      have hmode : (if c == '\n' then LexMode.code else .comment) = .ofTrivia (c != '\n') := by
        cases h : c == '\n' <;> simp [LexMode.ofTrivia, h, bne]
      simp only [skipTrivia, if_true, ← ih, ← hmode]
      rfl
    | false =>
      by_cases hb : isBlank c = true
      · simp only [skipTrivia, hb, Bool.false_eq_true, if_true, if_false, ← ih]
        rw [lex_cons]
        simp only [isBlank, Bool.or_eq_true, beq_iff_eq] at hb
        rcases hb with ((rfl | rfl) | rfl) | rfl <;> rfl
      · by_cases hc : c = ';'
        · subst hc
          simp only [skipTrivia, hb, Bool.false_eq_true, if_false, beq_self_eq_true, if_true, ← ih]
          rfl
        · simp [skipTrivia, hb, hc, LexMode.ofTrivia]

/-! ## Seams -/

/-- The text between the quotes of a string ends where the string is closed. -/
theorem stringBody_closed (more : List Char) {escaped : Bool} {cs : List Char}
    (h : (if escaped then Context.escape else Context.string).after cs = .code) :
    stringBody escaped (cs ++ more) = stringBody escaped cs ∧ byteLength (stringBody escaped cs) + 1 ≤ byteLength cs := by
  induction cs generalizing escaped with
  | nil => cases escaped <;> cases h
  | cons c cs ih =>
    cases escaped with
    | true =>
      have hstep (xs : List Char) : stringBody true (c :: xs) = c :: stringBody false xs := rfl
      obtain ⟨heq, hle⟩ := @ih false h
      rw [List.cons_append, hstep, hstep, heq, byteLength_cons, byteLength_cons]
      exact ⟨rfl, by omega⟩
    | false =>
      by_cases hq : c = '\x22'
      · subst hq
        have hstep (xs : List Char) : stringBody false ('\x22' :: xs) = [] := rfl
        have hpos := Char.utf8Size_pos '\x22'
        rw [List.cons_append, hstep, hstep, byteLength_cons, byteLength_nil]
        exact ⟨rfl, by omega⟩
      · have hstep (xs : List Char) : stringBody false (c :: xs) = c :: stringBody (c == '\x5c') xs := by
          simp [stringBody, hq]
        obtain ⟨heq, hle⟩ := @ih (c == '\x5c') (by grind [Context.step, Context.after_cons])
        rw [List.cons_append, hstep, hstep, heq, byteLength_cons, byteLength_cons]
        exact ⟨rfl, by omega⟩

/-- Whether one lexeme could reach from a character to the next one. -/
def joins (a d : Char) : Bool :=
  (isSymbolChar a && isSymbolChar d) || (a == '#' && (d == '[' || d == '\x7b')) || (a == ',' && d == '@')

/-- No lexeme reaches from a text into what stands behind it. -/
def Apart (text more : List Char) : Prop := ∀ a ∈ text.getLast?, ∀ d ∈ more.head?, joins a d = false

/-- Texts that are apart are so from any later place on. -/
theorem Apart.tail (used : List Char) {rest more : List Char} (h : Apart (used ++ rest) more) : Apart rest more := by
  intro a ha
  exact h a (by rw [List.getLast?_append, ha]; rfl)

/-- Where texts are apart, no atom goes on from the one to the other. -/
theorem Apart.not_symbol {more : List Char} {c d : Char} (h : Apart [c] (d :: more)) (hc : isSymbolChar c = true) :
    isSymbolChar d = false := by
  have hjoins := h c rfl d rfl
  simp only [joins, Bool.or_eq_false_iff, hc, Bool.true_and] at hjoins
  exact hjoins.1.1

/-- So an atom of the first text ends in it. -/
theorem takeWhile_append_of_apart {c : Char} {cs more : List Char} (hc : isSymbolChar c = true) (h : Apart (c :: cs) more) :
    (cs ++ more).takeWhile isSymbolChar = cs.takeWhile isSymbolChar := by
  induction cs generalizing c with
  | nil =>
    cases more with
    | nil => rfl
    | cons d more => simp [h.not_symbol hc]
  | cons d cs ih =>
    simp only [List.cons_append, List.takeWhile_cons]
    split
    · rename_i hd
      rw [ih hd (h.tail [c])]
    · rfl

/-- And a bracket is the same with the second text behind it. -/
theorem bracketMove_append {c : Char} {cs more : List Char} (h : Apart (c :: cs) more) :
    bracketMove c (cs ++ more) = (bracketMove c cs).append more := by
  cases cs with
  | nil =>
    cases more with
    | nil => simp [LexMove.append]
    | cons d more =>
      have hjoins := h c rfl d rfl
      simp only [joins, Bool.or_eq_false_iff] at hjoins
      unfold bracketMove
      grind [LexMove.append]
  | cons d cs =>
    unfold bracketMove
    grind [LexMove.append]

/-- A step looks at nothing behind its text, if no lexeme reaches over the seam. -/
theorem lexMove_append {mode : LexMode} {c : Char} {cs more : List Char} (hclosed : mode.context.after (c :: cs) = .code)
    (h : Apart (c :: cs) more) : lexMove mode c (cs ++ more) = (lexMove mode c cs).append more := by
  have hcode (inAtom : Bool) (hclosed : Context.code.after (c :: cs) = .code) :
      codeMove inAtom c (cs ++ more) = (codeMove inAtom c cs).append more := by
    unfold codeMove
    split
    · rename_i hs
      rw [takeWhile_append_of_apart hs h]
      split <;> rfl
    split
    · rfl
    split
    · rfl
    split
    · rename_i hq
      obtain rfl : c = '\x22' := by simpa using hq
      rw [(@stringBody_closed more false cs hclosed).1]
      rfl
    · exact bracketMove_append h
  cases mode with
  | code => exact hcode false hclosed
  | atom => exact hcode true hclosed
  | _ => rfl

/-- A step that leads into an atom is one over a single symbol character. -/
theorem lexMove_atom {mode : LexMode} {c : Char} {cs : List Char} :
    (lexMove mode c cs).mode = .atom → isSymbolChar c = true ∧ (lexMove mode c cs).rest = cs := by
  apply lexMove_induction fun m => m.mode = .atom → isSymbolChar c = true ∧ m.rest = cs
  case within => exact fun _ _ hne _ h => absurd h hne
  case atom => exact fun _ hs _ => ⟨hs, rfl⟩
  case inside => exact fun _ hs _ => ⟨hs, rfl⟩
  case bracket =>
    intro _ _ _ h
    unfold bracketMove at h
    split at h <;> cases h
  all_goals
    intros
    contradiction

/-- Where no atom goes on, the lexer is in code. -/
theorem lex_atom_of_not_symbol (offset : Nat) {text : List Char} (h : ∀ d ∈ text.head?, isSymbolChar d = false) :
    lex .atom offset text = lex .code offset text := by
  cases text with
  | nil => rfl
  | cons d text => rw [lex_cons, lex_cons, lexMove, lexMove, codeMove, codeMove, h d rfl]; rfl

/-- The lexemes of two texts that stand one behind the other. The second begins a lexeme of its own, also where the first is
empty and an atom has come before it. -/
theorem lex_append {more : List Char} {mode : LexMode} {text : List Char} :
    ∀ offset, mode.context.after text = .code → Apart text more →
      (mode = .atom → text = [] → ∀ d ∈ more.head?, isSymbolChar d = false) →
      lex mode offset (text ++ more) = lex mode offset text ++ lex .code (offset + byteLength text) more := by
  induction mode, text using lex_induction with
  | nil mode =>
    intro offset hclosed _ hatom
    cases mode with
    | code => rfl
    | atom => exact lex_atom_of_not_symbol offset (hatom rfl rfl)
    | _ => cases hclosed
  | cons mode c cs ih =>
    intro offset hclosed hapart _
    obtain ⟨hused, -⟩ := lexMove_used mode c cs
    have hlen : byteLength (c :: cs) = byteLength (lexMove mode c cs).used + byteLength (lexMove mode c cs).rest := by
      rw [← byteLength_append, hused]
    rw [List.cons_append, lex_cons, lex_cons, lexMove_append hclosed hapart]
    rw [← hused, Context.after_append, ← lexMove_context] at hclosed
    -- an atom that the first text ends with is not gone on with in the second
    have htail : (lexMove mode c cs).mode = .atom → (lexMove mode c cs).rest = [] →
        ∀ d ∈ more.head?, isSymbolChar d = false := by
      intro hmode hrest d hd
      obtain ⟨hc, hcs⟩ := lexMove_atom hmode
      obtain rfl : cs = [] := hcs.symm.trans hrest
      obtain ⟨more', rfl⟩ := List.head?_eq_some_iff.mp hd
      exact hapart.not_symbol hc
    have hrest := ih (offset + byteLength (lexMove mode c cs).used) hclosed (Apart.tail _ (hused ▸ hapart)) htail
    simp only [LexMove.run, LexMove.append, LexMove.lexemes, List.append_assoc] at hrest ⊢
    rw [hrest, hlen, Nat.add_assoc]

/-- Between lexemes only the two characters at the seam matter. -/
theorem lex_code_append (offset : Nat) {text more : List Char} (hclosed : Context.code.after text = .code)
    (hapart : Apart text more) :
    lex .code offset (text ++ more) = lex .code offset text ++ lex .code (offset + byteLength text) more :=
  lex_append offset hclosed hapart (fun h => nomatch h)

/-- A number sign at the end of a text is a lexeme with which nothing can begin. -/
theorem stray_of_number_sign (offset : Nat) {before : List Char} (hclosed : Context.code.after (before ++ ['#']) = .code) :
    ∃ l ∈ lex .code offset (before ++ ['#']), l.token = .stray := by
  have hcode : Context.code.after before = .code := by
    rw [Context.after_append] at hclosed
    revert hclosed
    cases Context.code.after before <;> decide
  have hapart : Apart before ['#'] := by
    intro a _ d hd
    obtain rfl : d = '#' := by simpa using hd.symm
    have hsign : isSymbolChar '#' = false := by decide
    simp [joins, hsign]
  rw [lex_code_append offset hcode hapart]
  exact ⟨_, List.mem_append_right _ (List.mem_singleton.mpr rfl), rfl⟩

/-! ## Within the text -/

/-- The beginning of a text is no longer than the text. -/
theorem byteLength_takeWhile_le (p : Char → Bool) (cs : List Char) : byteLength (cs.takeWhile p) ≤ byteLength cs := by
  have hsplit : cs.takeWhile p ++ cs.dropWhile p = cs := List.takeWhile_append_dropWhile
  calc byteLength (cs.takeWhile p)
    _ ≤ byteLength (cs.takeWhile p) + byteLength (cs.dropWhile p) := Nat.le_add_right _ _
    _ = byteLength cs := by rw [← byteLength_append, hsplit]

/-- A bracket is no wider than the text. -/
theorem bracketMove_width {c : Char} {cs : List Char} {token : Token} {width : Nat}
    (h : (bracketMove c cs).token = some (token, width)) : width ≤ byteLength (c :: cs) := by
  unfold bracketMove at h
  split at h
  case h_4 =>
    cases h
    exact Nat.le_add_right _ _
  all_goals
    cases h
    rw [byteLength_cons, byteLength_cons, ← Nat.add_assoc]
    exact Nat.le_add_right 2 _

/-- The lexeme of a step ends in the text, if the text leaves no string open. -/
theorem lexMove_width {mode : LexMode} {c : Char} {cs : List Char} (hclosed : mode.context.after (c :: cs) = .code)
    {token : Token} {width : Nat} : (lexMove mode c cs).token = some (token, width) → width ≤ byteLength (c :: cs) := by
  apply lexMove_induction fun m => m.token = some (token, width) → width ≤ byteLength (c :: cs)
  case atom =>
    rintro _ _ ⟨⟩
    exact Nat.add_le_add_left (byteLength_takeWhile_le _ _) _
  case string =>
    rintro hm rfl ⟨⟩
    rw [hm] at hclosed
    have hbody := (@stringBody_closed [] false cs hclosed).2
    have hquote : Char.utf8Size '\x22' = 1 := rfl
    rw [byteLength_cons]
    omega
  case bracket => exact fun _ _ _ => bracketMove_width
  all_goals
    intros
    contradiction

/-- The lexemes of a text that leaves no string open lie in that text. -/
theorem lex_covers {mode : LexMode} {text : List Char} :
    ∀ offset, mode.context.after text = .code → ∀ l ∈ lex mode offset text, (⟨offset, text⟩ : Cursor).Covers l.span := by
  induction mode, text using lex_induction with
  | nil mode => exact fun _ _ _ hl => nomatch hl
  | cons mode c cs ih =>
    intro offset hclosed l hl
    have hused := (lexMove_used mode c cs).1
    rw [lex_cons, LexMove.run, List.mem_append] at hl
    rcases hl with hl | hl
    · cases ht : (lexMove mode c cs).token with
      | none => simp [LexMove.lexemes, ht] at hl
      | some move =>
        obtain rfl : l = ⟨move.1, ⟨offset, offset + move.2⟩⟩ := by simpa [LexMove.lexemes, ht] using hl
        have hwidth := lexMove_width hclosed ht
        exact ⟨(Cursor.Reaches.refl _).sees, Nat.le_add_right _ _, Nat.add_le_add_left hwidth _⟩
    · rw [← hused, Context.after_append, ← lexMove_context] at hclosed
      obtain ⟨hsees, hle, hstop⟩ := ih _ hclosed l hl
      have hreach : (⟨offset, c :: cs⟩ : Cursor).Reaches (lexMove mode c cs).used
          ⟨offset + byteLength (lexMove mode c cs).used, (lexMove mode c cs).rest⟩ := ⟨hused.symm, rfl⟩
      refine ⟨hsees.of_reaches hreach, hle, ?_⟩
      rw [← hused, byteLength_append, ← Nat.add_assoc]
      exact hstop

/-- The lexemes of such a text begin one behind the other. -/
theorem lex_ordered {mode : LexMode} {text : List Char} :
    ∀ offset, mode.context.after text = .code →
      (lex mode offset text).Pairwise fun l l' => l.span.start ≤ l'.span.start := by
  induction mode, text using lex_induction with
  | nil mode => exact fun _ _ => .nil
  | cons mode c cs ih =>
    intro offset hclosed
    rw [← (lexMove_used mode c cs).1, Context.after_append, ← lexMove_context] at hclosed
    rw [lex_cons, LexMove.run]
    cases ht : (lexMove mode c cs).token with
    | none =>
      simp only [LexMove.lexemes, ht, List.nil_append]
      exact ih _ hclosed
    | some move =>
      simp only [LexMove.lexemes, ht, List.singleton_append]
      refine .cons (fun l hl => ?_) (ih _ hclosed)
      have hle := (lex_covers _ hclosed l hl).1.le
      exact Nat.le_trans (Nat.le_add_right _ _) hle

end MiniLisp.Reader
