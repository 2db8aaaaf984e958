import Mathlib.Data.List.DropRight
import Mathlib.Data.Prod.Lex
import MiniLisp.Proofs.Reader.Composition

/-!
# Lines and columns

Positions are ordered by line and then by column. Each character of a text moves the position forward (`Position.lt_advance`), so
a longer beginning of the text ends at a later position (`Position.lt_after`), and a line and a column tell how far into the
text they are. The same line and column are found by counting the newlines before a place, searching for the last of them and
counting the characters behind it (`Source.position_eq_counted`).
-/

namespace MiniLisp

/-! ## The order of positions -/

namespace Position

/-- The line, and then the column. -/
def key (p : Position) : ℕ ×ₗ ℕ := toLex (p.line, p.column)

instance : Preorder Position := Preorder.lift key

/-- Positions are ordered by line, then by column. -/
theorem lt_iff {p q : Position} : p < q ↔ p.line < q.line ∨ p.line = q.line ∧ p.column < q.column :=
  Prod.Lex.toLex_lt_toLex

/-- Each character leads further on. -/
theorem lt_advance (p : Position) (c : Char) : p < p.advance c := by
  rw [lt_iff, advance]
  split
  · exact .inl (Nat.lt_succ_self _)
  · exact .inr ⟨rfl, Nat.lt_succ_self _⟩

theorem le_after (p : Position) (cs : List Char) : p ≤ p.after cs := by
  induction cs generalizing p with
  | nil => exact le_refl p
  | cons c cs ih => exact (p.lt_advance c).le.trans (ih (p.advance c))

/-- Every run of characters that is not empty moves forward. -/
theorem lt_after (p : Position) {cs : List Char} (h : cs ≠ []) : p < p.after cs := by
  obtain ⟨c, cs, rfl⟩ := List.exists_cons_of_ne_nil h
  exact (p.lt_advance c).trans_le ((p.advance c).le_after cs)

/-- The column counts the characters behind the last newline. -/
theorem column_after (cs : List Char) : (Position.after {} cs).column = (cs.rtakeWhile (· != '\n')).length + 1 := by
  -- From the end of the text, where a newline ends all that was counted before it.
  induction cs using List.reverseRecOn with
  | nil => rfl
  | append_singleton cs c ih =>
    rw [after_append, after_cons, after_nil, advance, List.rtakeWhile_concat]
    by_cases hc : c = '\n'
    · simp [hc]
    · simp [hc, ih]

end Position

/-! ## Three passes over the bytes before a place -/

/-- The characters that lie wholly behind the first `n` bytes. -/
def dropBytes : Nat → List Char → List Char
  | _, [] => []
  | n, c :: cs => if c.utf8Size ≤ n then dropBytes (n - c.utf8Size) cs else c :: cs

/-- A text is what is taken of it and what is dropped. -/
theorem takeBytes_append_dropBytes (n : Nat) (cs : List Char) : takeBytes n cs ++ dropBytes n cs = cs := by
  fun_induction takeBytes n cs with
  | case1 => rfl
  | case2 n c cs h ih => rw [dropBytes, if_pos h, List.cons_append, ih]
  | case3 n c cs h => rw [dropBytes, if_neg h, List.nil_append]

/-- The bytes of the first of two texts are dropped with it. -/
theorem dropBytes_append (as bs : List Char) : dropBytes (byteLength as) (as ++ bs) = bs := by
  have h := takeBytes_append_dropBytes (byteLength as) (as ++ bs)
  rw [takeBytes_append] at h
  exact List.append_cancel_left h

theorem takeBytes_of_le {n : Nat} {cs : List Char} (h : byteLength cs ≤ n) : takeBytes n cs = cs := by
  obtain ⟨k, rfl⟩ := Nat.exists_eq_add_of_le h
  have hall := takeBytes_append_add cs [] k
  rw [List.append_nil] at hall
  rw [hall, takeBytes, List.append_nil]

/-- The byte position where the last line of a text begins: behind its last newline, or at the start if it has none. -/
def lineStart (text : List Char) : Nat := byteLength (text.rdropWhile (· != '\n'))

/-- Behind the start of its last line, a text has the characters since the last line break. -/
theorem dropBytes_lineStart (text : List Char) : dropBytes (lineStart text) text = text.rtakeWhile (· != '\n') := by
  have h := dropBytes_append (text.rdropWhile (· != '\n')) (text.rtakeWhile (· != '\n'))
  rwa [List.rdropWhile_append_rtakeWhile] at h

namespace Source

/-- The line and column of a byte position, found in three passes over the text before it: the newlines are counted, the last of
them is searched for, and the characters behind that are counted. -/
def countedPosition (source : Source) (offset : Nat) : Position :=
  let before := takeBytes (min offset source.content.utf8ByteSize) source.chars
  { line := before.count '\n' + 1, column := (dropBytes (lineStart before) before).length + 1 }

variable {source : Source}

/-- A position past the end is the end. -/
theorem position_min (offset : Nat) : source.position (min offset source.content.utf8ByteSize) = source.position offset := by
  rw [← source.byteLength_chars]
  rcases le_total offset (byteLength source.chars) with h | h
  · rw [min_eq_left h]
  · rw [min_eq_right h, position, position, takeBytes_of_le h, takeBytes_of_le (le_refl _)]

/-- The position is the one that is counted in three passes. -/
theorem position_eq_counted (offset : Nat) : source.position offset = source.countedPosition offset := by
  rw [← position_min, position, countedPosition]
  generalize takeBytes (min offset source.content.utf8ByteSize) source.chars = before
  have hline := Position.line_after before {}
  have hcolumn := Position.column_after before
  rw [← dropBytes_lineStart] at hcolumn
  rw [Nat.add_comm] at hline
  exact congrArg₂ Position.mk hline hcolumn

/-! ## Boundaries -/

/-- The boundaries are where the beginnings of the text end. -/
theorem isBoundary_iff {offset : Nat} :
    source.IsBoundary offset ↔ ∃ before rest, source.chars = before ++ rest ∧ byteLength before = offset := by
  constructor
  · intro h
    obtain ⟨before, rest, hcontent, hoffset⟩ := String.Pos.Raw.isValid_iff_exists_append.mp h
    refine ⟨before.toList, rest.toList, ?_, ?_⟩
    · rw [chars, hcontent, String.toList_append]
    · rw [← utf8ByteSize_ofList, String.ofList_toList, ← String.byteIdx_rawEndPos, ← hoffset]
  · rintro ⟨before, rest, hchars, rfl⟩
    exact Reader.isBoundary_of_sees ⟨before, ⟨byteLength before, rest⟩, ⟨hchars, (Nat.zero_add _).symm⟩, rfl⟩

/-- At a boundary the position is that behind the text before it. -/
theorem position_of_chars {before rest : List Char} (h : source.chars = before ++ rest) :
    source.position (byteLength before) = Position.after {} before := by
  rw [position, h, takeBytes_append]

/-- Of two boundaries the later one has the later position. -/
theorem strictMonoOn_position : StrictMonoOn source.position {offset | source.IsBoundary offset} := by
  intro m hm n hn hlt
  obtain ⟨before, rest, hbefore, rfl⟩ := isBoundary_iff.mp hm
  obtain ⟨longer, rest', hlonger, rfl⟩ := isBoundary_iff.mp hn
  rw [position_of_chars hbefore, position_of_chars hlonger]
  -- Both are beginnings of one text, so the one with more bytes is the other with some characters behind it.
  rcases List.prefix_or_prefix_of_prefix ⟨rest, hbefore.symm⟩ ⟨rest', hlonger.symm⟩ with ⟨between, rfl⟩ | ⟨between, rfl⟩
  · have hne : between ≠ [] := by
      rintro rfl
      simp at hlt
    rw [Position.after_append]
    exact Position.lt_after _ hne
  · rw [byteLength_append] at hlt
    omega

/-- A line and a column identify a boundary between characters. Over the boundaries of a text they increase strictly, lines
before columns, so that no two boundaries have the same. They are one and one at the start; a newline leads to the first column
of the next line, and every other character to the next column; and a position past the end has those of the end. Counting the
newlines, searching for the last one and counting the characters behind it gives the same line and column everywhere. -/
theorem position_identifies_boundary (source : Source) :
    let length := source.content.utf8ByteSize
    StrictMonoOn source.position {offset | source.IsBoundary offset} ∧
    Set.InjOn source.position {offset | source.IsBoundary offset} ∧
    source.position 0 = ⟨1, 1⟩ ∧
    (∀ before c rest, source.chars = before ++ c :: rest →
      let here := source.position (byteLength before)
      source.position (byteLength (before ++ [c])) =
        if c = '\n' then ⟨here.line + 1, 1⟩ else ⟨here.line, here.column + 1⟩) ∧
    (∀ offset, length ≤ offset → source.position offset = source.position length) ∧
    ∀ offset, source.position offset = source.countedPosition offset := by
  intro length
  refine ⟨strictMonoOn_position, strictMonoOn_position.injOn, ?_, ?_, ?_, position_eq_counted⟩
  · exact position_of_chars (List.nil_append source.chars).symm
  · intro before c rest h here
    have hnext : source.chars = (before ++ [c]) ++ rest := by rw [h, List.append_assoc, List.singleton_append]
    have hhere : here = Position.after {} before := position_of_chars h
    rw [position_of_chars hnext, hhere, Position.after_append, Position.after_cons, Position.after_nil, Position.advance]
    simp only [beq_iff_eq]
  · intro offset h
    rw [← position_min offset, min_eq_right h]

/-- An accented letter, an empty line, a character of four bytes and a newline at the end. -/
theorem position_identifies_boundary_multibyte :
    let source : Source := ⟨"input", "é\n\n😀a\n"⟩
    source.IsBoundary 3 ∧ source.IsBoundary 4 ∧ source.position 3 < source.position 4 ∧
    source.position 3 ≠ source.position 4 ∧
    source.chars = ['é', '\n', '\n'] ++ '😀' :: ['a', '\n'] ∧
    source.position 8 = ⟨(source.position 4).line, (source.position 4).column + 1⟩ ∧
    source.chars = ['é', '\n', '\n', '😀', 'a'] ++ '\n' :: [] ∧
    source.position 10 = ⟨(source.position 9).line + 1, 1⟩ ∧
    10 ≤ 12 ∧ source.position 12 = source.position 10 := by
  intro source
  obtain ⟨hmono, hinj, -, hstep, hpast, -⟩ := position_identifies_boundary source
  have h3 : source.IsBoundary 3 := isBoundary_iff.mpr ⟨['é', '\n'], ['\n', '😀', 'a', '\n'], by decide, by decide⟩
  have h4 : source.IsBoundary 4 := isBoundary_iff.mpr ⟨['é', '\n', '\n'], ['😀', 'a', '\n'], by decide, by decide⟩
  have hface : source.chars = ['é', '\n', '\n'] ++ '😀' :: ['a', '\n'] := by decide
  have hlast : source.chars = ['é', '\n', '\n', '😀', 'a'] ++ '\n' :: [] := by decide
  refine ⟨h3, h4, hmono h3 h4 (by decide), fun h => ?_, hface, hstep _ _ _ hface, hlast, hstep _ _ _ hlast, by decide,
    hpast 12 (by decide)⟩
  exact absurd (hinj h3 h4 h) (by decide)

end Source

end MiniLisp
