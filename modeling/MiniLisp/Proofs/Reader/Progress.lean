import MiniLisp.Proofs.Reader.Form
import MiniLisp.Reader.Basic

/-!
# Progress: reading goes forward, and its items tile the source

A read passes the trivia before a form and the text of the form (`readForm_cases`), or, where the form has no extent, goes on
behind the failure. Either way it passes at least one character and shows a place among those it has passed (`readForm_step`).
So reading a text again and again comes to an end, and `items` leaves nothing out (`itemsAt_some`, `itemsAt_none`).
-/

namespace MiniLisp

/-- A position between two characters of a source, in its UTF-8 form, or at one of its ends. -/
def Source.IsBoundary (source : Source) (position : Nat) : Prop := String.Pos.Raw.IsValid source.content ⟨position⟩

theorem utf8ByteSize_ofList (cs : List Char) : (String.ofList cs).utf8ByteSize = byteLength cs := by
  induction cs with
  | nil => rfl
  | cons c cs ih => rw [String.ofList_cons, String.utf8ByteSize_append, String.utf8ByteSize_singleton, ih, byteLength_cons]

/-- The length of a source is that of its characters. -/
theorem Source.byteLength_chars (source : Source) : byteLength source.chars = source.content.utf8ByteSize := by
  rw [← utf8ByteSize_ofList, chars, String.ofList_toList]

namespace Reader

/-- A position that is reached from the start of a source is not inside a character. -/
theorem isBoundary_of_sees {source : Source} {position : Nat} (h : (Cursor.ofText source.chars).Sees position) :
    source.IsBoundary position := by
  obtain ⟨text, d, ⟨hrest, hoffset⟩, rfl⟩ := h
  refine String.Pos.Raw.isValid_iff_exists_append.mpr ⟨String.ofList text, String.ofList d.rest, ?_, ?_⟩
  · rw [← String.ofList_append]
    exact (String.ofList_toList).symm.trans (congrArg String.ofList hrest)
  · rw [String.Pos.Raw.ext_iff, String.byteIdx_rawEndPos, utf8ByteSize_ofList, hoffset]
    exact Nat.zero_add _

/-! ## One read -/

/-- The place that an item shows. -/
def ReadItem.span : ReadItem → Span
  | .form _ span => span
  | .fault f => f.span

/-- What a form with this span, and the value or fault that was found in it, is read as. -/
def ReadItem.ofItem (span : Span) : Item → ReadItem
  | .ok value => .form value span
  | .error f => .fault f

/-- The place where the next form begins. -/
def Cursor.skip (c : Cursor) : Cursor := skipTrivia false c.offset c.rest

/-- To skip blanks and comments is to go on in the text. -/
theorem Cursor.skip_reaches (c : Cursor) : ∃ text, c.Reaches text c.skip := by
  obtain ⟨text, -, h, -⟩ := skipTrivia_reaches false c.offset c.rest
  exact ⟨text, h⟩

/-- There is no further form exactly where only trivia are left. -/
theorem readForm_none_iff (c : Cursor) : readForm c = none ↔ OnlyTrivia c.rest := by
  rw [← skipTrivia_end_iff c.offset, readForm]
  constructor
  · intro h
    by_cases hend : (skipTrivia false c.offset c.rest).rest = []
    · exact hend
    · simp only [List.isEmpty_iff, hend, if_false] at h
      grind
  · intro h
    simp [h]

/-- A form that cannot be scanned is read as the complaint about it, and reading goes on where that says. -/
theorem readForm_of_error {c : Cursor} {f : Failure} (hne : c.skip.rest ≠ []) (h : scanForm c.skip = .error f) :
    readForm c = some (.fault ⟨f.kind, f.span⟩, f.resume) := by
  rw [Cursor.skip] at hne h
  simp only [readForm, List.isEmpty_iff, hne, h, if_false]

/-- A form that can be scanned is read from its extent. -/
theorem readForm_of_ok {c stop : Cursor} {extent : List Char} (hne : c.skip.rest ≠ []) (h : scanForm c.skip = .ok stop)
    (hr : c.skip.Reaches extent stop) :
    readForm c = some (.ofItem ⟨c.skip.offset, stop.offset⟩ (readExtent extent ⟨c.skip.offset, stop.offset⟩), stop) := by
  have htext : c.skip.textUntil stop.offset = extent := hr.takeBytes
  rw [← htext]
  rw [Cursor.skip] at hne h ⊢
  simp only [readForm, List.isEmpty_iff, hne, h, if_false]
  cases readExtent _ _ <;> rfl

/-- What a read has found: a form that has no extent, or one whose text is read. -/
theorem readForm_cases {c next : Cursor} {item : ReadItem} (h : readForm c = some (item, next)) :
    c.skip.rest ≠ [] ∧
      ((∃ f, scanForm c.skip = .error f ∧ item = .fault ⟨f.kind, f.span⟩ ∧ next = f.resume) ∨
        ∃ extent, scanForm c.skip = .ok next ∧ c.skip.Reaches extent next ∧
          item = .ofItem ⟨c.skip.offset, next.offset⟩ (readExtent extent ⟨c.skip.offset, next.offset⟩)) := by
  have hne : c.skip.rest ≠ [] := by
    intro hend
    rw [(readForm_none_iff c).mpr ((skipTrivia_end_iff _ _).mp hend)] at h
    cases h
  refine ⟨hne, ?_⟩
  cases hscan : scanForm c.skip with
  | error f =>
    rw [readForm_of_error hne hscan] at h
    cases h
    exact .inl ⟨f, rfl, rfl, rfl⟩
  | ok stop =>
    obtain ⟨extent, hr, -⟩ := scanForm_ok hscan
    rw [readForm_of_ok hne hscan hr] at h
    cases h
    exact .inr ⟨extent, rfl, hr, rfl⟩

/-- A read at a place: it goes on behind some text, and shows a place in that text; a fault is a parse error. -/
structure ReadStep (c : Cursor) (item : ReadItem) (next : Cursor) : Prop where
  forward : ∃ text, text ≠ [] ∧ c.Reaches text next
  sees : c.Sees item.span.start
  start_le : item.span.start ≤ item.span.stop
  stop_le : item.span.stop ≤ next.offset
  form : ∀ value span, item = .form value span → span.stop = next.offset
  fault : ∀ f, item = .fault f → f.kind.category = .parse

/-- To read a form is to go on by at least one character. -/
theorem readForm_step {c next : Cursor} {item : ReadItem} (h : readForm c = some (item, next)) : ReadStep c item next := by
  obtain ⟨before, hbefore⟩ := c.skip_reaches
  obtain ⟨hne, ⟨f, hscan, rfl, rfl⟩ | ⟨extent, hscan, hr, rfl⟩⟩ := readForm_cases h
  · have hf := scanForm_error hne hscan
    obtain ⟨text, htext, hresume⟩ := hf.resume
    refine ⟨⟨before ++ text, by simp [htext], hbefore.trans hresume⟩, hf.sees.of_reaches hbefore, hf.start_le, hf.stop_le,
      ?_, ?_⟩
    · rintro _ _ ⟨⟩
    · rintro _ ⟨⟩
      exact hf.category
  · obtain ⟨hext, hclosed, -⟩ := scanForm_extent hscan hr
    have hforward : ∃ text, text ≠ [] ∧ c.Reaches text next := ⟨before ++ extent, by simp [hext], hbefore.trans hr⟩
    cases hread : readExtent extent ⟨c.skip.offset, next.offset⟩ with
    | ok value =>
      refine ⟨hforward, hbefore.sees, hr.offset_le, Nat.le_refl _, ?_, ?_⟩
      · rintro _ _ ⟨⟩
        rfl
      · rintro _ ⟨⟩
    | error f =>
      have hnext : next.offset = c.skip.offset + byteLength extent := hr.2
      rw [hnext] at hread
      -- the fault lies in the text of the form, and that text begins at `c.skip`
      obtain ⟨hcategory, hsees, hle, hstop⟩ := readExtent_within hclosed hread
      have hskip : c.skip = (⟨c.skip.offset, extent⟩ : Cursor).append next.rest := by
        rw [Cursor.append, ← hr.1]
      refine ⟨hforward, ?_, hle, hnext ▸ hstop, ?_, ?_⟩
      · refine Cursor.Sees.of_reaches ?_ hbefore
        rw [hskip]
        exact hsees.append next.rest
      · rintro _ _ ⟨⟩
      · rintro _ ⟨⟩
        exact hcategory

/-! ## Reading on -/

/-- The place of a reader after one more read; where there is nothing to read, it stands at the end. -/
def Cursor.advance (c : Cursor) : Cursor :=
  match readForm c with
  | some (_, next) => next
  | none => c.skip

/-- The place of a reader after some more reads. -/
def Cursor.advanceBy : Nat → Cursor → Cursor
  | 0, c => c
  | k + 1, c => advanceBy k c.advance

/-- The reader goes on in the text. -/
theorem Cursor.advance_reaches (c : Cursor) : ∃ text, c.Reaches text c.advance := by
  unfold advance
  split
  · rename_i item next h
    obtain ⟨text, -, hr⟩ := (readForm_step h).forward
    exact ⟨text, hr⟩
  · exact c.skip_reaches

/-- So it does in several steps. -/
theorem Cursor.advanceBy_reaches (k : Nat) (c : Cursor) : ∃ text, c.Reaches text (advanceBy k c) := by
  induction k generalizing c with
  | zero => exact ⟨[], .refl c⟩
  | succ k ih =>
    obtain ⟨text, hr⟩ := c.advance_reaches
    obtain ⟨more, hr'⟩ := ih c.advance
    exact ⟨text ++ more, hr.trans hr'⟩

/-- Steps after steps are as many steps together. -/
theorem Cursor.advanceBy_add (j k : Nat) (c : Cursor) : advanceBy (j + k) c = advanceBy k (advanceBy j c) := by
  induction j generalizing c with
  | zero => rw [Nat.zero_add]; rfl
  | succ j ih => rw [Nat.succ_add]; exact ih c.advance

/-- A reader that has found nothing finds nothing later. -/
theorem readForm_advanceBy_none {c : Cursor} (h : readForm c = none) (k : Nat) : readForm (c.advanceBy k) = none := by
  induction k generalizing c with
  | zero => exact h
  | succ k ih =>
    refine ih ?_
    have hend : c.skip.rest = [] := (skipTrivia_end_iff _ _).mpr ((readForm_none_iff c).mp h)
    rw [Cursor.advance, h, readForm_none_iff, hend]
    exact .closed .nil

/-- After a form less of the text is left. -/
theorem length_lt_of_readForm {c next : Cursor} {item : ReadItem} (h : readForm c = some (item, next)) :
    next.rest.length < c.rest.length := by
  obtain ⟨text, hne, hr⟩ := (readForm_step h).forward
  have := List.length_pos_iff.mpr hne
  rw [hr.1, List.length_append]
  omega

/-- More than enough reads give no more items. -/
theorem itemsFrom_eq {c : Cursor} {n m : Nat} (hn : c.rest.length ≤ n) (hm : c.rest.length ≤ m) :
    itemsFrom c n = itemsFrom c m := by
  induction n generalizing c m with
  | zero =>
    have hnone : readForm c = none := by
      rw [readForm_none_iff, List.length_eq_zero_iff.mp (Nat.le_zero.mp hn)]
      exact .closed .nil
    cases m with
    | zero => rfl
    | succ m => rw [itemsFrom, itemsFrom, hnone]
  | succ n ih =>
    cases hc : readForm c with
    | none =>
      cases m with
      | zero => rw [itemsFrom, itemsFrom, hc]
      | succ m => rw [itemsFrom, itemsFrom, hc]
    | some read =>
      have hlt := length_lt_of_readForm hc
      cases m with
      | zero => omega
      | succ m =>
        have hnext : itemsFrom read.2 n = itemsFrom read.2 m := ih (by omega) (by omega)
        simp only [itemsFrom, hc, hnext]

/-- All items from a place on. -/
def itemsAt (c : Cursor) : List (ReadItem × Nat) := itemsFrom c c.rest.length

/-- Where there is no form, none is left. -/
theorem itemsAt_none {c : Cursor} (h : readForm c = none) : itemsAt c = [] := by
  unfold itemsAt
  cases c.rest.length with
  | zero => rfl
  | succ n => rw [itemsFrom, h]

/-- Where there is a form, it is the first of those that are left. -/
theorem itemsAt_some {c next : Cursor} {item : ReadItem} (h : readForm c = some (item, next)) :
    itemsAt c = (item, next.offset) :: itemsAt next := by
  have hlt := length_lt_of_readForm h
  unfold itemsAt
  obtain ⟨n, hn⟩ : ∃ n, c.rest.length = n + 1 := ⟨c.rest.length - 1, by omega⟩
  have hnext : itemsFrom next n = itemsFrom next next.rest.length := itemsFrom_eq (by omega) (Nat.le_refl _)
  simp only [hn, itemsFrom, h, hnext]

/-- From place to place one arrives where nothing is left to read. -/
theorem items_induction {motive : Cursor → Prop} (none : ∀ c, readForm c = none → motive c)
    (some : ∀ c item next, readForm c = some (item, next) → motive next → motive c) (c : Cursor) : motive c := by
  cases h : readForm c with
  | none => exact none c h
  | some read => exact some c read.1 read.2 h (items_induction none some read.2)
termination_by c.rest.length
decreasing_by exact length_lt_of_readForm h

/-- Each read but the last gives an item, and those are all items. -/
theorem length_itemsAt (c : Cursor) :
    (itemsAt c).length ≤ c.rest.length ∧ ∀ k, readForm (c.advanceBy k) = none ↔ (itemsAt c).length ≤ k := by
  induction c using items_induction with
  | none c h =>
    rw [itemsAt_none h]
    exact ⟨Nat.zero_le _, fun k => ⟨fun _ => Nat.zero_le _, fun _ => readForm_advanceBy_none h k⟩⟩
  | some c item next h ih =>
    obtain ⟨hle, hiff⟩ := ih
    have hlt := length_lt_of_readForm h
    rw [itemsAt_some h, List.length_cons]
    refine ⟨by omega, fun k => ?_⟩
    cases k with
    | zero => simp [Cursor.advanceBy, h]
    | succ k =>
      have hadvance : c.advance = next := by rw [Cursor.advance, h]
      rw [Cursor.advanceBy, hadvance, hiff k]
      omega

/-! ## Sources -/

/-- An item that a reader at `c` has found in a source, before it went on to `next`. -/
structure Tile (source : Source) (c : Cursor) (item : ReadItem) (next : Cursor) : Prop where
  /-- The reader goes forward, and stays in the source. -/
  forward : c.offset < next.offset ∧ next.offset ≤ source.content.utf8ByteSize
  /-- The place that the item shows is between the two positions. -/
  between : c.offset ≤ item.span.start ∧ item.span.start ≤ item.span.stop ∧ item.span.stop ≤ next.offset
  /-- Neither the new position is inside a character, nor the start of what is shown, nor the end of a form. -/
  boundary : source.IsBoundary next.offset ∧ source.IsBoundary item.span.start ∧
    ∀ value span, item = .form value span → source.IsBoundary span.stop
  /-- The text of the form that is taken apart is cut out between characters. -/
  extent : ∀ stop, scanForm c.skip = .ok stop → source.IsBoundary c.skip.offset ∧ source.IsBoundary stop.offset ∧
    byteLength (c.skip.textUntil stop.offset) = stop.offset - c.skip.offset
  /-- An error is a parse error with the source and the span of the item, and its line and column are found by walking over the
  whole of the text before it. -/
  located : ∀ e, item.result source = .error e → e.category = .parse ∧ e.location = some ⟨source, item.span⟩ ∧
    byteLength (takeBytes item.span.start source.chars) = item.span.start

/-- A form that is read in a source is a tile of it. -/
theorem tile_of_readForm {source : Source} {before : List Char} {c next : Cursor} {item : ReadItem}
    (hc : (Cursor.ofText source.chars).Reaches before c) (h : readForm c = some (item, next)) : Tile source c item next := by
  have hstep := readForm_step h
  obtain ⟨text, hne, hr⟩ := hstep.forward
  have hstart : (Cursor.ofText source.chars).Sees item.span.start := hstep.sees.of_reaches hc
  have hnext : (Cursor.ofText source.chars).Sees next.offset := hr.sees.of_reaches hc
  constructor
  case forward =>
    refine ⟨hr.offset_lt hne, ?_⟩
    rw [← source.byteLength_chars, ← Nat.zero_add (byteLength source.chars)]
    exact hnext.le_stop
  case between => exact ⟨hstep.sees.le, hstep.start_le, hstep.stop_le⟩
  case boundary =>
    refine ⟨isBoundary_of_sees hnext, isBoundary_of_sees hstart, fun value span hi => ?_⟩
    rw [hstep.form value span hi]
    exact isBoundary_of_sees hnext
  case extent =>
    intro stop hscan
    obtain ⟨trivia, htrivia⟩ := c.skip_reaches
    obtain ⟨extent, hextent, -⟩ := scanForm_ok hscan
    have hskip := hc.trans htrivia
    refine ⟨isBoundary_of_sees hskip.sees, isBoundary_of_sees (hskip.trans hextent).sees, ?_⟩
    rw [Cursor.textUntil, hextent.takeBytes, hextent.2, Nat.add_sub_cancel_left]
  case located =>
    intro e he
    cases item with
    | form value span => cases he
    | fault f =>
      cases he
      exact ⟨hstep.fault f rfl, rfl, hstart.takeBytes⟩

/-- Reading always goes forward, whatever the text, and its items tile the source. Each call of a reader finds an item in front
of its position and goes on behind it (`Tile`), or finds that only trivia are left; then so do all later calls. There are as
many items as calls that find one, and no more than characters. -/
theorem reading_tiles_source (source : Source) :
    (∀ k, let c := Cursor.advanceBy k (.ofText source.chars)
      (∃ before, source.chars = before ++ c.rest ∧ c.offset = byteLength before) ∧ source.IsBoundary c.offset ∧
      (∀ item next, readForm c = some (item, next) → c.advance = next ∧ Tile source c item next) ∧
      (readForm c = none ↔ OnlyTrivia c.rest) ∧
      (readForm c = none → ∀ j, k ≤ j → readForm (Cursor.advanceBy j (.ofText source.chars)) = none)) ∧
    (items source.chars).length ≤ source.chars.length ∧
    ∀ k, readForm (Cursor.advanceBy k (.ofText source.chars)) = none ↔ (items source.chars).length ≤ k := by
  refine ⟨fun k => ?_, length_itemsAt (.ofText source.chars)⟩
  obtain ⟨before, hc⟩ := Cursor.advanceBy_reaches k (.ofText source.chars)
  refine ⟨⟨before, hc.1, hc.2.trans (Nat.zero_add _)⟩, isBoundary_of_sees hc.sees, fun item next h => ?_,
    readForm_none_iff _, fun h j hj => ?_⟩
  · exact ⟨by rw [Cursor.advance, h], tile_of_readForm hc h⟩
  · obtain ⟨i, rfl⟩ := Nat.exists_eq_add_of_le hj
    rw [Cursor.advanceBy_add]
    exact readForm_advanceBy_none h i

end Reader

end MiniLisp
