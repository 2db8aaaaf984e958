import Mathlib.Tactic.Ring
import MiniLisp.Proofs.Number.Canonical

/-!
# The language of exact literals

`ExactLiteral` says which texts are exact literals and what number each of them denotes: an integer of any size behind a minus
sign or none, an integer that fits into a word behind any sign or none, or two integers with a slash between them. Digits count
by their places, so the relation knows nothing of how a text is read.

Reading accepts exactly these texts and gives the number that the text denotes, in its canonical form from the start; and what is
printed for an exact number reads back as that number (`exact_literals_read`).
-/

namespace MiniLisp

/-! ## Digits -/

/-- What a digit counts in the last place. -/
def digitValue (c : Char) : Nat := c.toNat - '0'.toNat

/-- One or more digits, and the natural number that they denote: a digit counts ten times more for each place behind it. -/
inductive Digits : List Char → Nat → Prop where
  | last {c : Char} (hc : c.isDigit = true) : Digits [c] (digitValue c)
  | cons {c : Char} {ds : List Char} {n : Nat} (hc : c.isDigit = true) (hds : Digits ds n) :
      Digits (c :: ds) (digitValue c * 10 ^ ds.length + n)

/-- Digits are read from the left: what was read before moves up by as many places as follow. -/
theorem foldl_digits (cs : List Char) (before : Nat) :
    cs.foldl (fun n c => 10 * n + (c.toNat - '0'.toNat)) before = before * 10 ^ cs.length + digitsValue cs := by
  induction cs generalizing before with
  | nil => simp [digitsValue]
  | cons c cs ih =>
    have hc := ih (c.toNat - '0'.toNat)
    rw [digitsValue, List.foldl_cons, List.foldl_cons, ih, Nat.mul_zero, Nat.zero_add, hc, List.length_cons, Nat.pow_succ]
    ring

/-- A leading digit counts by its place. -/
theorem digitsValue_cons (c : Char) (cs : List Char) :
    digitsValue (c :: cs) = digitValue c * 10 ^ cs.length + digitsValue cs := by
  rw [digitsValue, List.foldl_cons, Nat.mul_zero, Nat.zero_add, foldl_digits]
  rfl

/-- Digits are a numeral for their value. -/
theorem Digits.of_all {cs : List Char} (hne : cs ≠ []) (hall : ∀ c ∈ cs, c.isDigit = true) : Digits cs (digitsValue cs) := by
  induction cs with
  | nil => exact absurd rfl hne
  | cons c cs ih =>
    have hc := hall c List.mem_cons_self
    rw [digitsValue_cons]
    cases cs with
    | nil => simpa [digitsValue] using Digits.last hc
    | cons d ds => exact .cons hc (ih (List.cons_ne_nil d ds) fun e he => hall e (List.mem_cons_of_mem c he))

theorem Digits.ne_nil {cs : List Char} {n : Nat} (h : Digits cs n) : cs ≠ [] := by
  cases h <;> exact List.cons_ne_nil _ _

/-- A numeral has nothing but digits. -/
theorem Digits.isDigit {cs : List Char} {n : Nat} (h : Digits cs n) : ∀ c ∈ cs, c.isDigit = true := by
  induction h with
  | last hc => simpa using hc
  | cons hc _ ih =>
    intro d hd
    rcases List.mem_cons.1 hd with rfl | hd
    · exact hc
    · exact ih d hd

/-- A numeral has one value. -/
theorem Digits.eq_digitsValue {cs : List Char} {n : Nat} (h : Digits cs n) : n = digitsValue cs := by
  induction h with
  | last hc => simp [digitsValue, digitValue]
  | cons hc _ ih => rw [digitsValue_cons, ← ih]

/-- A natural number is read from digits alone, and it is the one that they denote. -/
theorem parseNatural_iff {cs : List Char} {n : Nat} : parseNatural cs = some n ↔ Digits cs n := by
  constructor
  · intro h
    simp only [parseNatural, Option.ite_none_right_eq_some, Bool.and_eq_true, Bool.not_eq_true', List.isEmpty_eq_false_iff,
      List.all_eq_true, Option.some.injEq] at h
    obtain ⟨⟨hne, hall⟩, rfl⟩ := h
    exact .of_all hne hall
  · intro h
    have hempty : cs.isEmpty = false := List.isEmpty_eq_false_iff.2 h.ne_nil
    have hall : cs.all Char.isDigit = true := List.all_eq_true.2 h.isDigit
    simp [parseNatural, hempty, hall, h.eq_digitsValue]

/-! ## Literals -/

/-- Digits behind a minus sign or none, and the integer that they denote. -/
inductive IntegerLiteral : List Char → Int → Prop where
  | unsigned {ds : List Char} {n : Nat} (h : Digits ds n) : IntegerLiteral ds n
  | negative {ds : List Char} {n : Nat} (h : Digits ds n) : IntegerLiteral ('-' :: ds) (-n)

/-- Digits behind a plus sign, a minus sign or none, and the integer that they denote. -/
inductive SignedLiteral : List Char → Int → Prop where
  | integer {cs : List Char} {n : Int} (h : IntegerLiteral cs n) : SignedLiteral cs n
  | positive {ds : List Char} {n : Nat} (h : Digits ds n) : SignedLiteral ('+' :: ds) n

/-- The exact literals, and the rational number that each of them denotes. -/
inductive ExactLiteral : List Char → Rat → Prop where
  /-- An integer that fits into a word, with any sign. -/
  | word {cs : List Char} {n : Int} (h : SignedLiteral cs n) (hfits : -2 ^ 63 ≤ n ∧ n < 2 ^ 63) : ExactLiteral cs n
  /-- An integer of any size. -/
  | integer {cs : List Char} {n : Int} (h : IntegerLiteral cs n) : ExactLiteral cs n
  | quotient {as bs : List Char} {a b : Int} (ha : IntegerLiteral as a) (hb : IntegerLiteral bs b) (hne : b ≠ 0) :
      ExactLiteral (as ++ '/' :: bs) ((a : Rat) / (b : Rat))

/-- An integer is read from an integer literal alone. -/
theorem parseInteger_iff {cs : List Char} {n : Int} : parseInteger cs = some n ↔ IntegerLiteral cs n := by
  rw [parseInteger_eq_some_iff]
  constructor
  · rintro (⟨k, hk, rfl⟩ | ⟨ds, k, rfl, hk, rfl⟩)
    · exact .unsigned (parseNatural_iff.1 hk)
    · exact .negative (parseNatural_iff.1 hk)
  · intro h
    cases h with
    | unsigned h => exact .inl ⟨_, parseNatural_iff.2 h, rfl⟩
    | negative h => exact .inr ⟨_, _, rfl, parseNatural_iff.2 h, rfl⟩

/-- Behind a plus sign, a natural number that fits is a word. -/
theorem parseWord_plus (ds : List Char) :
    parseWord ('+' :: ds) = ((parseNatural ds).map fun k : Nat => (k : Int)).filter fitsWord := by
  cases hk : parseNatural ds with
  | none => simp [parseWord, hk]
  | some k => simp [parseWord, hk]

/-- A word is read from a signed literal whose integer fits, and from nothing else. -/
theorem parseWord_iff {cs : List Char} {n : Int} :
    parseWord cs = some n ↔ SignedLiteral cs n ∧ -2 ^ 63 ≤ n ∧ n < 2 ^ 63 := by
  constructor
  · intro h
    refine ⟨?_, fitsWord_iff.1 (Number.fitsWord_of_parseWord h)⟩
    by_cases hplus : ∃ ds, cs = '+' :: ds
    · obtain ⟨ds, rfl⟩ := hplus
      rw [parseWord_plus] at h
      obtain ⟨k, hk, rfl⟩ := Option.map_eq_some_iff.1 (Option.filter_eq_some_iff.1 h).1
      exact .positive (parseNatural_iff.1 hk)
    · rw [parseWord_of_not_plus fun ds he => hplus ⟨ds, he⟩] at h
      exact .integer (parseInteger_iff.1 (Option.filter_eq_some_iff.1 h).1)
  · rintro ⟨h, hfits⟩
    cases h with
    | integer h => rw [parseWord_of_parseInteger (parseInteger_iff.2 h), if_pos (fitsWord_iff.2 hfits)]
    | positive h =>
      rw [parseWord_plus, parseNatural_iff.2 h]
      exact Option.filter_eq_some_iff.2 ⟨rfl, fitsWord_iff.2 hfits⟩

/-! ## Reading -/

/-- A text is cut at its first slash, if it has one. -/
theorem eq_append_of_span {cs numer denom : List Char} {c : Char} (h : cs.span (· != '/') = (numer, c :: denom)) :
    cs = numer ++ '/' :: denom := by
  rw [List.span_eq_takeWhile_dropWhile] at h
  obtain ⟨hnumer, hrest⟩ := Prod.mk.inj h
  have hc : (c != '/') = false := by
    have hhead := List.head?_dropWhile_not (· != '/') cs
    rw [hrest] at hhead
    exact hhead
  have hslash : c = '/' := by simpa using hc
  rw [← hslash, ← hnumer, ← hrest, List.takeWhile_append_dropWhile]

/-- What is read from a text is a number that the text denotes. -/
theorem ExactLiteral.of_parse {cs : List Char} {n : Number} (h : parseExactChars cs = some n) :
    ∃ q, ExactLiteral cs q ∧ n.toRat? = some q := by
  unfold parseExactChars at h
  split at h
  · rename_i k hword
    cases h
    obtain ⟨hsigned, hfits⟩ := parseWord_iff.1 hword
    exact ⟨k, .word hsigned hfits, Number.toRat?_ofInt k⟩
  · split at h
    · obtain ⟨k, hk, rfl⟩ := Option.map_eq_some_iff.1 h
      exact ⟨k, .integer (parseInteger_iff.1 hk), Number.toRat?_ofInt k⟩
    · rename_i numer c denom hspan
      obtain ⟨a, ha, h⟩ := Option.bind_eq_some_iff.1 h
      obtain ⟨b, hb, h⟩ := Option.bind_eq_some_iff.1 h
      split at h
      · cases h
      · rename_i hzero
        cases h
        have hne : b ≠ 0 := by simpa using hzero
        rw [eq_append_of_span hspan]
        exact ⟨_, .quotient (parseInteger_iff.1 ha) (parseInteger_iff.1 hb) hne, Number.toRat?_ofRat _⟩

/-- What a text denotes is read from it. -/
theorem ExactLiteral.parse {cs : List Char} {q : Rat} (h : ExactLiteral cs q) : parseExactChars cs = some (.ofRat q) := by
  cases h with
  | word h hfits => rw [parseExactChars, parseWord_iff.2 ⟨h, hfits⟩, Number.ofRat_intCast]
  | integer h => rw [parseExactChars_of_parseInteger (parseInteger_iff.2 h), Number.ofRat_intCast]
  | quotient ha hb hne => exact parseExactChars_of_quotient (parseInteger_iff.2 ha) (parseInteger_iff.2 hb) hne

/-- The form that is canonical for a rational number: a word for an integer that fits into one, a big integer for any other
integer, and else a ratio in lowest terms with a positive denominator. -/
structure RawNumber.CanonicalFor (q : Rat) (r : RawNumber) : Prop where
  word : ∀ n : Int, q = n → -2 ^ 63 ≤ n → n < 2 ^ 63 → r = .int (Int64.ofInt n)
  big : ∀ n : Int, q = n → n < -2 ^ 63 ∨ 2 ^ 63 ≤ n → r = .big n
  ratio : (∀ n : Int, q ≠ n) → r = .ratio q ∧ 0 < q.den ∧ q.num.natAbs.Coprime q.den

/-- The number that is made of a rational number is in canonical form. -/
theorem Number.canonicalFor_ofRat (q : Rat) : (ofRat q).raw.CanonicalFor q where
  word n hq hmin hmax := by
    rw [hq, ofRat_intCast, ofInt_of_fits (fitsWord_iff.2 ⟨hmin, hmax⟩), raw]
  big n hq hn := by
    have houtside : fitsWord n = false := by
      rw [← Bool.not_eq_true, fitsWord_iff]
      omega
    rw [hq, ofRat_intCast, ofInt_of_outside houtside, raw]
  ratio hq := by
    have hden : q.den ≠ 1 := fun hden => hq q.num (Rat.ext (by simp) (by simp [hden]))
    rw [ofRat_of_proper hden, raw]
    exact ⟨rfl, q.den_pos, q.reduced⟩

/-- Reading a text as an exact number succeeds for the exact literals and for no other text, gives the number that the literal
denotes and gives it in canonical form, without that form being made afterwards. What is printed for an exact number reads back
as that number. -/
theorem exact_literals_read :
    (∀ text, (parseExact text).isSome = true ↔ ∃ q, ExactLiteral text.toList q) ∧
    (∀ text n q, parseExact text = some n → ExactLiteral text.toList q → n.toRat? = some q ∧ n.raw.CanonicalFor q) ∧
    (∀ text, RawNumber.literal? text.toList = (parseExact text).map Number.raw) ∧
    ∀ n : Number, n.toRat?.isSome = true → parseExact (Value.num n).print = some n := by
  refine ⟨fun text => ?_, fun text n q hn hq => ?_, fun text => ?_, fun n hn => ?_⟩
  · constructor
    · intro h
      obtain ⟨n, hn⟩ := Option.isSome_iff_exists.1 h
      obtain ⟨q, hq, -⟩ := ExactLiteral.of_parse hn
      exact ⟨q, hq⟩
    · rintro ⟨q, hq⟩
      rw [parseExact, hq.parse]
      rfl
  · rw [parseExact, hq.parse] at hn
    obtain rfl := Option.some.inj hn
    exact ⟨Number.toRat?_ofRat q, Number.canonicalFor_ofRat q⟩
  · exact Number.literal?_eq text.toList
  · have hprint : (Value.num n).print = n.text := by simp [Value.print, Value.write, Value.closeTail, Value.openTail]
    rw [hprint]
    exact parseExactChars_text hn

/-- A quotient with a negative divisor, not in lowest terms: it is read in lowest terms, printed so, and read back. -/
theorem exact_literals_read_quotient :
    ∃ n, parseExact "6/-4" = some n ∧ n.toRat? = some (-3 / 2) ∧ n.raw = .ratio (-3 / 2) ∧
      parseExact (Value.num n).print = some n := by
  obtain ⟨haccepted, hread, -, hback⟩ := exact_literals_read
  have hsix : IntegerLiteral ['6'] (6 : Nat) := .unsigned (.last (by decide))
  have hfour : IntegerLiteral ['-', '4'] (-(4 : Nat)) := .negative (.last (by decide))
  have hliteral : ExactLiteral "6/-4".toList (-3 / 2) := by
    have hquotient := ExactLiteral.quotient hsix hfour (by decide)
    have hvalue : (((6 : Nat) : Int) : Rat) / ((-(4 : Nat) : Int) : Rat) = -3 / 2 := by norm_num
    rw [hvalue] at hquotient
    exact hquotient
  obtain ⟨n, hn⟩ := Option.isSome_iff_exists.1 ((haccepted "6/-4").2 ⟨_, hliteral⟩)
  obtain ⟨hrat, hform⟩ := hread "6/-4" n _ hn hliteral
  have hproper : ∀ k : Int, (-3 / 2 : Rat) ≠ k := by
    intro k hk
    have hden : (-3 / 2 : Rat).den = 2 := by decide +kernel
    rw [hk, Rat.den_intCast] at hden
    cases hden
  exact ⟨n, hn, hrat, (hform.ratio hproper).1, hback n (by rw [hrat]; rfl)⟩

end MiniLisp
