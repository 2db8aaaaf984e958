import Mathlib.Data.List.TakeDrop
import Mathlib.Data.List.TakeWhile
import MiniLisp.Number.Literal

/-!
# Number literals: the text of an exact number reads back as that number

An integer is written as digits behind a minus sign or none, and a ratio as two integers with a slash between them. So the text
of an exact number is made of few characters (`mem_integerText`), begins like a number, and is taken apart again in one way only
(`parseExactChars_text`).
-/

namespace MiniLisp

/-! ## Integers -/

/-- The characters of the text of an integer. -/
def integerText (n : Int) : List Char := (toString n).toList

/-- The text of an integer that is not negative is its digits. -/
theorem integerText_of_nonneg {n : Int} (h : 0 ≤ n) : integerText n = Nat.toDigits 10 n.toNat := by
  rw [integerText, Int.toString_eq_repr, Int.repr_eq_if, if_pos h, Nat.toList_repr]

/-- The text of a negative integer begins with its sign. -/
theorem integerText_of_neg {n : Int} (h : n < 0) : integerText n = '-' :: Nat.toDigits 10 (-n).toNat := by
  rw [integerText, Int.toString_eq_repr, Int.repr_eq_if, if_neg (by omega), String.toList_append, Nat.toList_repr]
  rfl

theorem integerText_natCast (n : Nat) : integerText n = Nat.toDigits 10 n := integerText_of_nonneg (Int.natCast_nonneg n)

/-- The digits of a number are decimal digits. -/
theorem isDigit_of_mem_toDigits {n : Nat} {c : Char} (h : c ∈ Nat.toDigits 10 n) : c.isDigit = true :=
  Nat.isDigit_of_mem_toDigits (by decide) (by decide) h

/-- The text of an integer has nothing but digits and a sign. -/
theorem mem_integerText {n : Int} {c : Char} (h : c ∈ integerText n) : c.isDigit = true ∨ c = '-' := by
  by_cases hn : 0 ≤ n
  · rw [integerText_of_nonneg hn] at h
    exact .inl (isDigit_of_mem_toDigits h)
  · rw [integerText_of_neg (by omega), List.mem_cons] at h
    exact h.symm.imp_left isDigit_of_mem_toDigits

/-- The digits of a number are read as the number. -/
theorem parseNatural_toDigits (n : Nat) : parseNatural (Nat.toDigits 10 n) = some n := by
  have hempty : (Nat.toDigits 10 n).isEmpty = false := by simp [Nat.toDigits_ne_nil]
  have hall : (Nat.toDigits 10 n).all Char.isDigit = true := List.all_eq_true.mpr fun _ => isDigit_of_mem_toDigits
  have hvalue : digitsValue (Nat.toDigits 10 n) = n := Nat.ofDigitChars_toDigits (by decide) (by decide)
  simp [parseNatural, hempty, hall, hvalue]

/-- Without a minus sign in front, an integer is a natural number. -/
theorem parseInteger_of_digit {cs : List Char} (h : ∀ c ∈ cs.head?, c.isDigit = true) :
    parseInteger cs = (parseNatural cs).map fun n => (n : Int) := by
  unfold parseInteger
  split
  · exact absurd (h '-' rfl) (by decide)
  · rfl

/-- The text of an integer is read as the integer. -/
theorem parseInteger_text (n : Int) : parseInteger (integerText n) = some n := by
  by_cases hn : 0 ≤ n
  · have hdigit : ∀ c ∈ (Nat.toDigits 10 n.toNat).head?, c.isDigit = true :=
      fun c hc => isDigit_of_mem_toDigits (List.mem_of_mem_head? hc)
    rw [integerText_of_nonneg hn, parseInteger_of_digit hdigit, parseNatural_toDigits]
    exact congrArg some (Int.toNat_of_nonneg hn)
  · have hneg : -((-n).toNat : Int) = n := by omega
    rw [integerText_of_neg (by omega), parseInteger, parseNatural_toDigits]
    exact congrArg some hneg

/-- A text that does not begin with a plus sign is a word if it is an integer that fits. -/
theorem parseWord_of_not_plus {cs : List Char} (h : ∀ ds, cs ≠ '+' :: ds) :
    parseWord cs = (parseInteger cs).filter fitsWord := by
  unfold parseWord
  split
  · exact absurd rfl (h _)
  · rfl

/-- What is read as a natural number has nothing but digits. -/
theorem isDigit_of_parseNatural {cs : List Char} {n : Nat} (h : parseNatural cs = some n) {c : Char} (hc : c ∈ cs) :
    c.isDigit = true := by
  simp only [parseNatural, Option.ite_none_right_eq_some, Bool.and_eq_true, List.all_eq_true] at h
  exact h.1.2 c hc

/-- An integer is a natural number, or a minus sign and a natural number. -/
theorem parseInteger_eq_some_iff {cs : List Char} {n : Int} :
    parseInteger cs = some n ↔
      (∃ k : Nat, parseNatural cs = some k ∧ n = k) ∨ ∃ ds, ∃ k : Nat, cs = '-' :: ds ∧ parseNatural ds = some k ∧ n = -k := by
  constructor
  · intro h
    unfold parseInteger at h
    split at h
    · rename_i ds
      cases hk : parseNatural ds with
      | none => simp [hk] at h
      | some k => exact .inr ⟨ds, k, rfl, hk, by simpa [hk] using h.symm⟩
    · cases hk : parseNatural cs with
      | none => simp [hk] at h
      | some k => exact .inl ⟨k, rfl, by simpa [hk] using h.symm⟩
  · rintro (⟨k, hk, rfl⟩ | ⟨ds, k, rfl, hk, rfl⟩)
    · have hdigit : ∀ c ∈ cs.head?, c.isDigit = true := fun c hc => isDigit_of_parseNatural hk (List.mem_of_mem_head? hc)
      rw [parseInteger_of_digit hdigit, hk]
      rfl
    · rw [parseInteger, hk]
      rfl

/-- What reads as an integer is made of digits and minus signs. -/
theorem mem_of_parseInteger {cs : List Char} {n : Int} (h : parseInteger cs = some n) {c : Char} (hc : c ∈ cs) :
    c.isDigit = true ∨ c = '-' := by
  rcases parseInteger_eq_some_iff.1 h with ⟨k, hk, -⟩ | ⟨ds, k, rfl, hk, -⟩
  · exact .inl (isDigit_of_parseNatural hk hc)
  · rcases List.mem_cons.1 hc with hminus | hd
    · exact .inr hminus
    · exact .inl (isDigit_of_parseNatural hk hd)

/-- What is read as an integer has nothing but digits and a sign. -/
theorem not_mem_of_parseInteger {cs : List Char} {n : Int} (h : parseInteger cs = some n) {c : Char}
    (hd : c.isDigit = false) (hm : c ≠ '-') : c ∉ cs := by
  intro hc
  rcases mem_of_parseInteger h hc with hdigit | hminus
  · rw [hd] at hdigit
    cases hdigit
  · exact hm hminus

/-- A character that is not in a text differs from each in it. -/
theorem ne_of_not_mem {c : Char} {cs : List Char} (h : c ∉ cs) : ∀ d ∈ cs, (d != c) = true := by
  intro d hd
  rw [bne_iff_ne]
  rintro rfl
  exact h hd

/-- A text does not begin with a character that is not in it. -/
theorem ne_cons_of_not_mem {c : Char} {cs : List Char} (h : c ∉ cs) (ds : List Char) : cs ≠ c :: ds := by
  rintro rfl
  exact h List.mem_cons_self

/-- What reads as an integer is a word if the integer fits into one. -/
theorem parseWord_of_parseInteger {cs : List Char} {n : Int} (h : parseInteger cs = some n) :
    parseWord cs = if fitsWord n then some n else none := by
  have hplus : '+' ∉ cs := not_mem_of_parseInteger h (by decide) (by decide)
  rw [parseWord_of_not_plus (ne_cons_of_not_mem hplus), h]
  rfl

/-- What reads as an integer is the exact number of that integer, in a word or not. -/
theorem parseExactChars_of_parseInteger {cs : List Char} {n : Int} (h : parseInteger cs = some n) :
    parseExactChars cs = some (.ofInt n) := by
  have hslash := ne_of_not_mem (not_mem_of_parseInteger h (by decide : '/'.isDigit = false) (by decide))
  have hspan : cs.span (· != '/') = (cs, []) := by
    rw [List.span_eq_takeWhile_dropWhile, List.takeWhile_eq_self_iff.mpr hslash, List.dropWhile_eq_nil_iff.mpr hslash]
  unfold parseExactChars
  rw [parseWord_of_parseInteger h]
  by_cases hn : fitsWord n = true
  · rw [if_pos hn]
  · rw [if_neg hn, hspan, h]
    rfl

/-- The text of an integer is an exact literal for it. -/
theorem parseExactChars_integerText (n : Int) : parseExactChars (integerText n) = some (.ofInt n) :=
  parseExactChars_of_parseInteger (parseInteger_text n)

/-! ## Ratios -/

/-- A fraction is not read as an integer. -/
theorem parseInteger_of_slash {cs : List Char} (h : '/' ∈ cs) : parseInteger cs = none := by
  cases hr : parseInteger cs with
  | none => rfl
  | some n => exact absurd h (not_mem_of_parseInteger hr (by decide) (by decide))

/-- Two integers with a slash between them are the exact number of their quotient. -/
theorem parseExactChars_of_quotient {as bs : List Char} {a b : Int} (ha : parseInteger as = some a)
    (hb : parseInteger bs = some b) (hne : b ≠ 0) :
    parseExactChars (as ++ '/' :: bs) = some (.ofRat ((a : Rat) / (b : Rat))) := by
  have hmem : '/' ∈ as ++ '/' :: bs := by simp
  have hplus : '+' ∉ as ++ '/' :: bs := by
    simp [not_mem_of_parseInteger ha (by decide : '+'.isDigit = false) (by decide),
      not_mem_of_parseInteger hb (by decide : '+'.isDigit = false) (by decide)]
  have hslash := ne_of_not_mem (not_mem_of_parseInteger ha (by decide : '/'.isDigit = false) (by decide))
  have hword : parseWord (as ++ '/' :: bs) = none := by
    rw [parseWord_of_not_plus (ne_cons_of_not_mem hplus), parseInteger_of_slash hmem]
    rfl
  have hspan : (as ++ '/' :: bs).span (· != '/') = (as, '/' :: bs) := by
    rw [List.span_eq_takeWhile_dropWhile, List.takeWhile_append_of_pos hslash, List.dropWhile_append_of_pos hslash]
    simp
  unfold parseExactChars
  rw [hword, hspan]
  simp [ha, hb, hne]

/-- The text of a fraction is an exact literal for the quotient. -/
theorem parseExactChars_quotient (a b : Int) (hb : b ≠ 0) :
    parseExactChars (integerText a ++ '/' :: integerText b) = some (.ofRat ((a : Rat) / (b : Rat))) :=
  parseExactChars_of_quotient (parseInteger_text a) (parseInteger_text b) hb

/-! ## Exact numbers -/

namespace Number

/-- An integer that fits into a word is a word. -/
theorem ofInt_of_fits {n : Int} (h : fitsWord n = true) : ofInt n = .int (Int64.ofInt n) := by
  unfold ofInt
  split
  · rfl
  · simp_all

/-- Any other integer is a big one. -/
theorem ofInt_of_outside {n : Int} (h : fitsWord n = false) : ofInt n = .big n h := by
  unfold ofInt
  split
  · simp_all
  · rfl

/-- The integer of a word is that word again. -/
theorem ofInt_toInt (n : Int64) : ofInt n.toInt = .int n := by
  have hfits : fitsWord n.toInt = true := by
    simp only [fitsWord, Bool.and_eq_true, decide_eq_true_eq]
    exact ⟨n.minValue_le_toInt, n.toInt_le⟩
  rw [ofInt_of_fits hfits, Int64.ofInt_toInt]

/-- A rational number that is no integer is a ratio. -/
theorem ofRat_of_proper {q : Rat} (h : q.den ≠ 1) : ofRat q = .ratio q h := dif_neg h

/-- A rational number that is an integer is one. -/
theorem ofRat_intCast (n : Int) : ofRat (n : Rat) = ofInt n := by simp [ofRat]

end Number

/-- The characters of an exact number: those of an integer, or of two with a slash between them. -/
theorem Number.text_cases {n : Number} (h : n.toRat?.isSome) :
    (∃ a, n.text.toList = integerText a ∧ ofInt a = n) ∨
      ∃ a b, n.text.toList = integerText a ++ '/' :: integerText b ∧ b ≠ 0 ∧ ofRat ((a : Rat) / (b : Rat)) = n := by
  cases n with
  | int n => exact .inl ⟨n.toInt, rfl, ofInt_toInt n⟩
  | big n outside => exact .inl ⟨n, rfl, ofInt_of_outside outside⟩
  | ratio q proper =>
    refine .inr ⟨q.num, q.den, ?_, by simp [q.den_nz], ?_⟩
    · rw [integerText_natCast]
      simp [Number.text, integerText]
    · rw [← Rat.divInt_eq_div, Rat.num_divInt_den, ofRat_of_proper proper]
  | float x => cases h

/-- The text of an exact number reads back as that number. -/
theorem parseExactChars_text {n : Number} (h : n.toRat?.isSome) : parseExactChars n.text.toList = some n := by
  rcases Number.text_cases h with ⟨a, htext, hn⟩ | ⟨a, b, htext, hb, hn⟩
  · rw [htext, parseExactChars_integerText, hn]
  · rw [htext, parseExactChars_quotient a b hb, hn]

end MiniLisp
