import Mathlib.Data.List.TakeWhile
import MiniLisp.Proofs.Number.Literal
import MiniLisp.Proofs.Reader.Nesting
import MiniLisp.Value.Printer

/-!
# Literals: the text of a number, a symbol or a string reads back

The leaves of data. The text of an exact number is made of symbol characters and begins like a number; a symbol that can be read
back is one whose name is taken for nothing else (`SymbolName`); and in a printed string every character that would end the
string, or would not stand for itself in it, is escaped (`escapeChar_cases`). A text that is one run of symbol characters, or one
string, is one form (`readForm_atom`, `readForm_string`).
-/

namespace MiniLisp.Reader

/-! ## Numbers -/

/-- Digits may stand in a symbol. -/
theorem isSymbolChar_of_isDigit {c : Char} (h : c.isDigit = true) : isSymbolChar c = true := by
  simp [isSymbolChar, Char.isAlphanum, h]

/-- So may all that is in the text of an integer. -/
theorem isSymbolChar_of_mem_integerText {n : Int} {c : Char} (h : c ∈ integerText n) : isSymbolChar c = true := by
  rcases mem_integerText h with h | rfl
  · exact isSymbolChar_of_isDigit h
  · decide

/-- So may all that is in the text of an exact number. -/
theorem isSymbolChar_of_mem_text {n : Number} (hn : n.toRat?.isSome) {c : Char} (h : c ∈ n.text.toList) :
    isSymbolChar c = true := by
  rcases Number.text_cases hn with ⟨a, htext, -⟩ | ⟨a, b, htext, -, -⟩
  · exact isSymbolChar_of_mem_integerText (htext ▸ h)
  · rw [htext, List.mem_append, List.mem_cons] at h
    rcases h with h | rfl | h
    · exact isSymbolChar_of_mem_integerText h
    · decide
    · exact isSymbolChar_of_mem_integerText h

/-- A text that begins with a digit is taken for a number. -/
theorem startsNumber_of_isDigit {d : Char} (h : d.isDigit = true) (cs : List Char) : startsNumber (d :: cs) = true := by
  unfold startsNumber
  split
  · rename_i heq
    injection heq with hd
    rw [hd] at h
    exact absurd h (by decide)
  · rename_i heq
    injection heq with hd
    exact hd ▸ h
  · rename_i heq
    cases heq

/-- A text that begins with an integer is taken for a number. -/
theorem startsNumber_integerText (n : Int) (rest : List Char) : startsNumber (integerText n ++ rest) = true := by
  have hdigits (m : Nat) : ∃ d ds, Nat.toDigits 10 m = d :: ds ∧ d.isDigit = true := by
    obtain ⟨d, ds, h⟩ := List.exists_cons_of_ne_nil (@Nat.toDigits_ne_nil m 10)
    exact ⟨d, ds, h, isDigit_of_mem_toDigits (h ▸ List.mem_cons_self)⟩
  by_cases hn : 0 ≤ n
  · obtain ⟨d, ds, h, hd⟩ := hdigits n.toNat
    rw [integerText_of_nonneg hn, h]
    exact startsNumber_of_isDigit hd _
  · obtain ⟨d, ds, h, hd⟩ := hdigits (-n).toNat
    rw [integerText_of_neg (by omega), h]
    exact hd

/-- The text of an exact number is read as that number. -/
theorem readAtom_number {n : Number} (hn : n.toRat?.isSome) : readAtom n.text.toList = .ok (.num n) := by
  have hstart : startsNumber n.text.toList = true := by
    rcases Number.text_cases hn with ⟨a, htext, -⟩ | ⟨a, b, htext, -, -⟩
    · rw [htext, ← List.append_nil (integerText a)]
      exact startsNumber_integerText a []
    · rw [htext]
      exact startsNumber_integerText a _
  rw [readAtom, if_pos hstart, readNumber, parseExactChars_text hn]

/-- The text of an exact number is not empty. -/
theorem text_ne_nil {n : Number} (hn : n.toRat?.isSome) : n.text.toList ≠ [] := by
  intro h
  have hread := readAtom_number hn
  rw [h] at hread
  cases hread

/-! ## Symbols -/

/-- A name that is read as the symbol with that name: not empty, made of symbol characters, not begun like a number, none of the
three words that stand for other values, and without dots unless it is one, two or three of them. -/
structure SymbolName (name : String) : Prop where
  ne_nil : name.toList ≠ []
  isSymbolChar : ∀ c ∈ name.toList, isSymbolChar c = true
  not_digit : ∀ c cs, name.toList = c :: cs → c.isDigit = false
  not_minus_digit : ∀ c cs, name.toList = '-' :: c :: cs → c.isDigit = false
  not_word : name ≠ "true" ∧ name ≠ "false" ∧ name ≠ "nil"
  dots : '.' ∈ name.toList → name = "." ∨ name = ".." ∨ name = "..."

/-- One, two and three dots are symbols. -/
theorem readSymbol_dots {name : String} (h : name = "." ∨ name = ".." ∨ name = "...") :
    readSymbol name.toList = .ok (.sym name) := by
  rcases h with rfl | rfl | rfl <;> rfl

/-- A text without dots is a symbol, unless it is `nil`. -/
theorem readSymbol_of_no_dot {text : List Char} (hnil : text ≠ "nil".toList) (hdot : '.' ∉ text) :
    readSymbol text = .ok (.sym (String.ofList text)) := by
  have hsuffix : "...".toList.isSuffixOf text = false := by
    rw [Bool.eq_false_iff, ne_eq, List.isSuffixOf_iff_suffix]
    intro h
    exact hdot (h.subset (by decide))
  have hcontains : text.contains '.' = false := by simpa using hdot
  simp only [readSymbol, beq_eq_false_iff_ne.mpr hnil, hsuffix, hcontains]
  simp

/-- Such a name is read as the symbol with that name. -/
theorem readAtom_symbol {name : String} (h : SymbolName name) : readAtom name.toList = .ok (.sym name) := by
  have hstart : startsNumber name.toList = false := by
    unfold startsNumber
    split
    · rename_i c cs heq
      exact h.not_minus_digit c cs heq
    · rename_i c cs _ heq
      exact h.not_digit c cs heq
    · rfl
  have hword (word : String) (hne : name ≠ word) : name.toList ≠ word.toList := fun heq => hne (String.toList_inj.mp heq)
  obtain ⟨htrue, hfalse, hnil⟩ := h.not_word
  have hread : readSymbol name.toList = .ok (.sym name) := by
    by_cases hdot : '.' ∈ name.toList
    · exact readSymbol_dots (h.dots hdot)
    · rw [readSymbol_of_no_dot (hword _ hnil) hdot, String.ofList_toList]
  simp only [readAtom, hstart, beq_eq_false_iff_ne.mpr (hword _ htrue), beq_eq_false_iff_ne.mpr (hword _ hfalse), hread]
  simp

/-! ## Strings -/

/-- A printed character stands for itself, or is behind a backslash and stands for what it was made from. -/
theorem escapeChar_cases (c : Char) :
    (escapeChar c = [c] ∧ c ≠ '\x5c' ∧ c ≠ '\x22') ∨ ∃ d, escapeChar c = ['\x5c', d] ∧ unescapeChar d = some c := by
  by_cases h : c = '\n' ∨ c = '\t' ∨ c = '\r' ∨ c = '\x00' ∨ c = '\x5c' ∨ c = '\x22'
  · rcases h with rfl | rfl | rfl | rfl | rfl | rfl <;> exact .inr ⟨_, rfl, rfl⟩
  · simp only [not_or] at h
    obtain ⟨hn, ht, hr, hz, hb, hq⟩ := h
    exact .inl ⟨by simp [escapeChar, hn, ht, hr, hz, hb, hq], hb, hq⟩

/-- What is escaped is unescaped to what it was. -/
theorem unescape_escaped (cs : List Char) : unescape (cs.flatMap escapeChar) = .ok cs := by
  induction cs with
  | nil => rfl
  | cons c cs ih =>
    rw [List.flatMap_cons]
    rcases escapeChar_cases c with ⟨hc, hb, -⟩ | ⟨d, hc, hd⟩
    · rw [hc, List.singleton_append, unescape.eq_def]
      split <;> simp_all [Except.map]
    · rw [hc, List.cons_append, List.singleton_append, unescape, hd, ih]
      rfl

/-- The text between the quotes of a printed string is read as that string. -/
theorem readString_escaped (s : String) : readString (s.toList.flatMap escapeChar) = .ok (.str s) := by
  rw [readString, unescape_escaped]
  exact congrArg (fun t => Except.ok (Value.str t)) String.ofList_toList

/-- The scan of an escaped text goes to the quote behind it. -/
theorem scanString_escaped (opened offset : Nat) (cs rest : List Char) :
    scanString opened false offset (cs.flatMap escapeChar ++ '\x22' :: rest) =
      .ok ⟨offset + byteLength (cs.flatMap escapeChar) + 1, rest⟩ := by
  induction cs generalizing offset with
  | nil => rfl
  | cons c cs ih =>
    rw [List.flatMap_cons, List.append_assoc, byteLength_append]
    rcases escapeChar_cases c with ⟨hc, hb, hq⟩ | ⟨d, hc, -⟩
    · simp [hc, scanString, hb, hq, ih, Nat.add_assoc]
    · simp [hc, scanString, ih, Nat.add_assoc]

/-- The body of a string is all that comes before that quote. -/
theorem stringBody_escaped (cs rest : List Char) :
    stringBody false (cs.flatMap escapeChar ++ '\x22' :: rest) = cs.flatMap escapeChar := by
  induction cs with
  | nil => rfl
  | cons c cs ih =>
    rw [List.flatMap_cons, List.append_assoc]
    rcases escapeChar_cases c with ⟨hc, hb, hq⟩ | ⟨d, hc, -⟩
    · simp [hc, stringBody, beq_eq_false_iff_ne.mpr hb, hq, ih]
    · simp [hc, stringBody, ih]

/-- An escaped text holds no lexeme. -/
theorem lex_escaped (offset : Nat) (cs : List Char) : lex .string offset (cs.flatMap escapeChar ++ ['\x22']) = [] := by
  induction cs generalizing offset with
  | nil => rfl
  | cons c cs ih =>
    rw [List.flatMap_cons, List.append_assoc]
    rcases escapeChar_cases c with ⟨hc, hb, hq⟩ | ⟨d, hc, -⟩
    · simp [hc, lex, hb, hq, ih]
    · simp [hc, lex, ih]

/-! ## Forms that are one lexeme -/

/-- What may stand in a symbol ends no atom. -/
theorem isTerminator_of_isSymbolChar {c : Char} (h : isSymbolChar c = true) : isTerminator c = false := by
  cases ht : isTerminator c with
  | false => rfl
  | true => rw [isSymbolChar_of_isTerminator ht] at h; cases h

/-- An atom without terminators behind it goes to the end of the text. -/
theorem scanAtom_of_no_terminator (offset : Nat) {cs : List Char} (h : ∀ c ∈ cs, isTerminator c = false) :
    scanAtom offset cs = ⟨offset + byteLength cs, []⟩ := by
  induction cs generalizing offset with
  | nil => rfl
  | cons c cs ih =>
    obtain ⟨hc, hcs⟩ := List.forall_mem_cons.mp h
    simp [scanAtom, hc, ih _ hcs, Nat.add_assoc]

/-- Within an atom there is no other lexeme. -/
theorem lex_atom_of_symbols (offset : Nat) {cs : List Char} (h : ∀ c ∈ cs, isSymbolChar c = true) :
    lex .atom offset cs = [] := by
  induction cs generalizing offset with
  | nil => rfl
  | cons c cs ih =>
    obtain ⟨hc, hcs⟩ := List.forall_mem_cons.mp h
    rw [lex_cons, lexMove, codeMove, if_pos hc, if_pos rfl]
    exact ih _ hcs

/-- A run of symbol characters is one lexeme. -/
theorem lex_symbols (offset : Nat) {cs : List Char} (hne : cs ≠ []) (h : ∀ c ∈ cs, isSymbolChar c = true) :
    lex .code offset cs = [⟨.atom cs, ⟨offset, offset + byteLength cs⟩⟩] := by
  obtain ⟨c, cs, rfl⟩ := List.exists_cons_of_ne_nil hne
  obtain ⟨hc, hcs⟩ := List.forall_mem_cons.mp h
  have htake : cs.takeWhile isSymbolChar = cs := List.takeWhile_eq_self_iff.mpr hcs
  rw [lex_cons, lexMove, codeMove, if_pos hc, if_neg (by decide), htake, LexMove.run, lex_atom_of_symbols _ hcs]
  rfl

/-- A text with which a body begins, neither trivia nor a mark, is a literal if it is scanned as a whole and is one lexeme. -/
theorem readForm_literal {offset : Nat} {c : Char} {cs : List Char} {token : Token} {read : Except ErrorKind Value}
    (hm : isMark c = false) (hs : c ≠ ';') (hscan : scanBody ⟨offset, c :: cs⟩ = .ok ⟨offset + byteLength (c :: cs), []⟩)
    (hlex : lex .code offset (c :: cs) = [⟨token, ⟨offset, offset + byteLength (c :: cs)⟩⟩])
    (hfeed : ∀ span, feed [] ⟨token, span⟩ = some ([], some (literalItem span read))) :
    readForm ⟨offset, c :: cs⟩ = some (.ofItem ⟨offset, offset + byteLength (c :: cs)⟩
      (literalItem ⟨offset, offset + byteLength (c :: cs)⟩ read), ⟨offset + byteLength (c :: cs), []⟩) := by
  have hskip : (⟨offset, c :: cs⟩ : Cursor).skip = ⟨offset, c :: cs⟩ := by
    have hb : isBlank c = false := by
      simp only [isMark, Bool.or_eq_false_iff] at hm
      exact hm.1.1.1
    simp [Cursor.skip, skipTrivia, hb, hs]
  have hmarks : skipMarks false offset (c :: cs) = .ok ⟨offset, c :: cs⟩ := by
    simp only [isMark] at hm
    unfold skipMarks
    split <;> simp_all
  have hform : scanForm ⟨offset, c :: cs⟩ = .ok ⟨offset + byteLength (c :: cs), []⟩ := by
    simp only [scanForm, hmarks, hscan]
  have hread := @readForm_of_ok ⟨offset, c :: cs⟩ ⟨offset + byteLength (c :: cs), []⟩ (c :: cs)
    (by simp [hskip]) (by rw [hskip, hform]) (by rw [hskip]; exact ⟨by simp, rfl⟩)
  have hparse : parse (offset + byteLength (c :: cs)) [] none (lex .code offset (c :: cs)) =
      .ok (literalItem ⟨offset, offset + byteLength (c :: cs)⟩ read) := by
    rw [hlex, parse_cons, hfeed]
    rfl
  rw [hread, hskip, readExtent, hparse]

/-- A run of symbol characters is the form that it is the literal of. -/
theorem readForm_atom (offset : Nat) {cs : List Char} (hne : cs ≠ []) (hs : ∀ c ∈ cs, isSymbolChar c = true) :
    readForm ⟨offset, cs⟩ = some (.ofItem ⟨offset, offset + byteLength cs⟩
      (literalItem ⟨offset, offset + byteLength cs⟩ (readAtom cs)), ⟨offset + byteLength cs, []⟩) := by
  have hlex := lex_symbols offset hne hs
  have hterm : ∀ c ∈ cs, isTerminator c = false := fun c hc => isTerminator_of_isSymbolChar (hs c hc)
  have hatom := scanAtom_of_no_terminator offset hterm
  obtain ⟨c, cs, rfl⟩ := List.exists_cons_of_ne_nil hne
  have hc := hterm c List.mem_cons_self
  have hsymbol := hs c List.mem_cons_self
  simp only [isTerminator, Bool.or_eq_false_iff, beq_eq_false_iff_ne] at hc
  obtain ⟨⟨⟨⟨⟨⟨⟨hblank, hopener⟩, hcloser⟩, hquote⟩, hsemicolon⟩, htick⟩, hback⟩, hcomma⟩ := hc
  have hmark : isMark c = false := by simp [isMark, hblank, htick, hback, hcomma]
  have hhash : c ≠ '#' := by
    rintro rfl
    exact absurd hsymbol (by decide)
  refine readForm_literal hmark hsemicolon ?_ hlex fun _ => rfl
  rw [scanBody_atom offset cs hquote hcloser hopener (fun _ _ h => absurd h hhash), hatom]

/-- The text of a printed string is the form of that string. -/
theorem readForm_string (offset : Nat) (s : String) :
    readForm ⟨offset, (quoteText s).toList⟩ = some (.form (.str s) ⟨offset, offset + byteLength (quoteText s).toList⟩,
      ⟨offset + byteLength (quoteText s).toList, []⟩) := by
  have htext : (quoteText s).toList = '\x22' :: (s.toList.flatMap escapeChar ++ ['\x22']) := by
    simp [quoteText]
  have hlen : offset + byteLength (quoteText s).toList = offset + 1 + byteLength (s.toList.flatMap escapeChar) + 1 := by
    simp [htext, show '\x22'.utf8Size = 1 from rfl]
    omega
  have hscan : scanBody ⟨offset, (quoteText s).toList⟩ = .ok ⟨offset + byteLength (quoteText s).toList, []⟩ := by
    rw [hlen, htext]
    exact scanString_escaped offset (offset + 1) s.toList []
  have hlex : lex .code offset (quoteText s).toList =
      [⟨.string (s.toList.flatMap escapeChar), ⟨offset, offset + byteLength (quoteText s).toList⟩⟩] := by
    have hmove : lexMove .code '\x22' (s.toList.flatMap escapeChar ++ ['\x22']) =
        ⟨some (.string (s.toList.flatMap escapeChar), byteLength (s.toList.flatMap escapeChar) + 2), .string, ['\x22'],
          s.toList.flatMap escapeChar ++ ['\x22']⟩ := by
      have hbody := stringBody_escaped s.toList []
      simp only [lexMove, codeMove, hbody]
      rfl
    have hstop : offset + (byteLength (s.toList.flatMap escapeChar) + 2) =
        offset + 1 + byteLength (s.toList.flatMap escapeChar) + 1 := by omega
    rw [hlen, htext, lex_cons, hmove, LexMove.run, lex_escaped, ← hstop]
    rfl
  rw [htext] at hscan hlex ⊢
  rw [readForm_literal (by decide) (by decide) hscan hlex fun _ => rfl, readString_escaped]
  rfl

end MiniLisp.Reader
