import MiniLisp.Proofs.Reader.Progress
import MiniLisp.Session

/-!
# Composition: a text is read line by line

What is read at a place depends neither on the bytes before the place (`readForm_shift`) nor, unless the text ends too early, on
what follows the form (`readForm_append`). So the items of two texts with a newline between them are those of the first and then
those of the second, further on (`items_newline`): a bad form neither hides nor disturbs another one. Running both texts at once
then does what running one after the other does.
-/

namespace MiniLisp

/-- The same position, `n` lines further down. -/
def Position.down (p : Position) (n : Nat) : Position := ⟨p.line + n, p.column⟩

namespace Reader

/-- The same item, counted from a point `k` bytes earlier. -/
def ReadItem.shift (k : Nat) : ReadItem → ReadItem
  | .form value span => .form value (span.shift k)
  | .fault f => .fault (f.shift k)

/-- The same item and the position behind it, counted from a point `k` bytes earlier. -/
def shiftRead (k : Nat) (read : ReadItem × Nat) : ReadItem × Nat := (read.1.shift k, read.2 + k)

/-- Whether the end of the text is to blame for an item: a string or a group is open there, or marks stand without a form. -/
def ReadItem.endsInput : ReadItem → Bool
  | .form .. => false
  | .fault f => f.kind.endsInput

/-! ## One read -/

/-- To skip blanks and comments does not depend on the place. -/
theorem Cursor.skip_shift (c : Cursor) (k : Nat) : (c.shift k).skip = c.skip.shift k := skipTrivia_shift k false c.offset c.rest

/-- What is reached from a place is reached from the place moved. -/
theorem Cursor.Reaches.shift {c d : Cursor} {text : List Char} (h : c.Reaches text d) (k : Nat) :
    (c.shift k).Reaches text (d.shift k) :=
  ⟨h.1, by simp only [offset_shift, h.2, Nat.add_right_comm]⟩

/-- What is made of an item does not depend on the place. -/
theorem ReadItem.ofItem_shift (k : Nat) (span : Span) (item : Item) :
    ReadItem.ofItem (span.shift k) (item.shift k) = (ReadItem.ofItem span item).shift k := by
  cases item <;> rfl

/-- Where a text stands moves what is read in it, and changes nothing else. -/
theorem readForm_shift (k : Nat) (c : Cursor) :
    readForm (c.shift k) = (readForm c).map fun read => (read.1.shift k, read.2.shift k) := by
  cases h : readForm c with
  | none => exact (readForm_none_iff _).mpr ((readForm_none_iff c).mp h)
  | some read =>
    obtain ⟨item, next⟩ := read
    obtain ⟨hne, ⟨f, hscan, rfl, rfl⟩ | ⟨extent, hscan, hr, rfl⟩⟩ := readForm_cases h
    · have hscan' : scanForm (c.shift k).skip = .error (f.shift k) := by
        rw [Cursor.skip_shift, scanForm_shift, hscan]
        rfl
      rw [readForm_of_error (by rwa [Cursor.skip_shift]) hscan']
      rfl
    · have hscan' : scanForm (c.shift k).skip = .ok (next.shift k) := by
        rw [Cursor.skip_shift, scanForm_shift, hscan]
        rfl
      rw [readForm_of_ok (by rwa [Cursor.skip_shift]) hscan' (by rw [Cursor.skip_shift]; exact hr.shift k)]
      rw [Cursor.skip_shift, Option.map_some, ← ReadItem.ofItem_shift, ← readExtent_shift]
      rfl

/-- What follows a form changes nothing in it, unless the text ended in it. -/
theorem readForm_append {e : Char} (he : isFollower e = true) (more : List Char) {c next : Cursor} {item : ReadItem}
    (h : readForm c = some (item, next)) (hi : item.endsInput = false) :
    readForm (c.append (e :: more)) = some (item, next.append (e :: more)) := by
  obtain ⟨hne, hread⟩ := readForm_cases h
  have hskip : (c.append (e :: more)).skip = c.skip.append (e :: more) := skipTrivia_append (e :: more) hne
  have hne' : (c.append (e :: more)).skip.rest ≠ [] := by simp [hskip]
  rcases hread with ⟨f, hscan, rfl, rfl⟩ | ⟨extent, hscan, hr, rfl⟩
  · have hsettled : Scan.Settled (scanForm c.skip) := by
      intro f' hf'
      rw [hscan] at hf'
      cases hf'
      exact hi
    have hscan' : scanForm (c.append (e :: more)).skip = .error (f.append (e :: more)) := by
      rw [hskip, scanForm_append he more hsettled, hscan]
      rfl
    rw [readForm_of_error hne' hscan']
    rfl
  · have hsettled : Scan.Settled (scanForm c.skip) := by
      intro f' hf'
      rw [hscan] at hf'
      cases hf'
    have hscan' : scanForm (c.append (e :: more)).skip = .ok (next.append (e :: more)) := by
      rw [hskip, scanForm_append he more hsettled, hscan]
      rfl
    rw [readForm_of_ok hne' hscan' (by rw [hskip]; exact hr.append (e :: more)), hskip]
    rfl

/-- Blanks and comments before a form do not count. -/
theorem readForm_of_skip {c d : Cursor} (h : c.skip = d.skip) : readForm c = readForm d := by
  unfold Cursor.skip at h
  simp only [readForm, h]

/-- Where only trivia are left, a newline ends them, and reading goes on behind it. -/
theorem readForm_newline (more : List Char) {c : Cursor} (h : readForm c = none) :
    readForm (c.append ('\n' :: more)) = readForm ⟨c.offset + byteLength c.rest + 1, more⟩ :=
  readForm_of_skip (skipTrivia_newline more ((skipTrivia_end_iff _ _).mpr ((readForm_none_iff c).mp h)))

/-! ## All items -/

/-- Where the same form is read, the same forms are left. -/
theorem itemsAt_of_readForm {c d : Cursor} (h : readForm c = readForm d) : itemsAt c = itemsAt d := by
  cases hd : readForm d with
  | none => rw [itemsAt_none hd, itemsAt_none (h.trans hd)]
  | some read => rw [itemsAt_some hd, itemsAt_some (h.trans hd)]

/-- The forms that are left are the same at another place, with their places moved. -/
theorem itemsAt_shift (k : Nat) (c : Cursor) : itemsAt (c.shift k) = (itemsAt c).map (shiftRead k) := by
  induction c using items_induction with
  | none c h =>
    have h' := readForm_shift k c
    rw [h] at h'
    rw [itemsAt_none h, itemsAt_none h']
    rfl
  | some c item next h ih =>
    have h' := readForm_shift k c
    rw [h] at h'
    rw [itemsAt_some h, itemsAt_some h', ih]
    rfl

/-- What the first of two texts ends with does not disturb the second. -/
theorem itemsAt_newline (more : List Char) {c : Cursor} (h : ∀ read ∈ itemsAt c, read.1.endsInput = false) :
    itemsAt (c.append ('\n' :: more)) = itemsAt c ++ itemsAt ⟨c.offset + byteLength c.rest + 1, more⟩ := by
  induction c using items_induction with
  | none c hc =>
    -- a comment may be open here, which the newline ends
    rw [itemsAt_of_readForm (readForm_newline more hc), itemsAt_none hc, List.nil_append]
  | some c item next hc ih =>
    rw [itemsAt_some hc] at h
    obtain ⟨hitem, hrest⟩ := List.forall_mem_cons.mp h
    obtain ⟨text, -, hr⟩ := (readForm_step hc).forward
    have hend : c.offset + byteLength c.rest = next.offset + byteLength next.rest := by
      rw [hr.1, hr.2, byteLength_append, Nat.add_assoc]
    rw [itemsAt_some hc, itemsAt_some (readForm_append (by decide) more hc hitem), ih hrest, hend]
    rfl

/-- A text and another one on the next line are read one after the other. -/
theorem items_newline {text : List Char} (more : List Char) (h : ∀ read ∈ items text, read.1.endsInput = false) :
    items (text ++ '\n' :: more) = items text ++ (items more).map (shiftRead (byteLength text + 1)) := by
  have hstart : (⟨0 + byteLength text + 1, more⟩ : Cursor) = (Cursor.ofText more).shift (byteLength text + 1) := by
    simp only [Cursor.ofText, Cursor.shift, Nat.zero_add]
  calc items (text ++ '\n' :: more)
    _ = itemsAt (.ofText text) ++ itemsAt ⟨0 + byteLength text + 1, more⟩ := itemsAt_newline more h
    _ = items text ++ (items more).map (shiftRead (byteLength text + 1)) := by
      rw [hstart, itemsAt_shift]
      rfl

/-- The places of items lie before the positions behind them, and these in the text. -/
theorem itemsAt_within (c : Cursor) : ∀ read ∈ itemsAt c,
    read.1.span.start ≤ read.1.span.stop ∧ read.1.span.stop ≤ read.2 ∧ read.2 ≤ c.offset + byteLength c.rest := by
  induction c using items_induction with
  | none c h => simp [itemsAt_none h]
  | some c item next h ih =>
    have hstep := readForm_step h
    obtain ⟨text, -, hr⟩ := hstep.forward
    have hend : c.offset + byteLength c.rest = next.offset + byteLength next.rest := by
      rw [hr.1, hr.2, byteLength_append, Nat.add_assoc]
    rw [itemsAt_some h, List.forall_mem_cons, hend]
    exact ⟨⟨hstep.start_le, hstep.stop_le, Nat.le_add_right _ _⟩, ih⟩

end Reader

/-! ## Lines and columns -/

/-- The lines before a position do not change what comes after it. -/
theorem Position.after_down (n : Nat) (cs : List Char) (p : Position) : (p.down n).after cs = (p.after cs).down n := by
  induction cs generalizing p with
  | nil => rfl
  | cons c cs ih =>
    have hstep : (p.down n).advance c = (p.advance c).down n := by
      unfold advance down
      split <;> simp [Nat.add_right_comm]
    rw [after_cons, hstep, ih, after_cons]

/-- A position moves down by one line for each line break. -/
theorem Position.line_after (cs : List Char) (p : Position) : (p.after cs).line = p.line + cs.count '\n' := by
  induction cs generalizing p with
  | nil => rfl
  | cons c cs ih =>
    rw [after_cons, ih, List.count_cons, advance]
    split
    · simp_all
      omega
    · simp_all

/-- Behind a newline, lines are counted on and columns begin anew. -/
theorem Position.after_newline (cs : List Char) :
    Position.after {} (cs ++ ['\n']) = ({} : Position).down (cs.count '\n' + 1) := by
  have hline := Position.line_after cs {}
  simp only [after_append, after_cons, after_nil, advance, beq_self_eq_true, if_true, hline, down]
  simp [Nat.add_assoc]

/-- Bytes beyond the first text are taken from the second one. -/
theorem takeBytes_append_add (as bs : List Char) (n : Nat) :
    takeBytes (byteLength as + n) (as ++ bs) = as ++ takeBytes n bs := by
  induction as with
  | nil => simp
  | cons c cs ih =>
    have hle : c.utf8Size ≤ c.utf8Size + byteLength cs + n := by omega
    have hsub : c.utf8Size + byteLength cs + n - c.utf8Size = byteLength cs + n := by omega
    simp only [List.cons_append, byteLength_cons, takeBytes, hle, if_true, hsub, ih]

/-- Bytes within the first text are taken from it alone. -/
theorem takeBytes_append_of_le {n : Nat} {as : List Char} (bs : List Char) (h : n ≤ byteLength as) :
    takeBytes n (as ++ bs) = takeBytes n as := by
  induction as generalizing n with
  | nil =>
    obtain rfl : n = 0 := Nat.le_zero.mp h
    exact takeBytes_append [] bs
  | cons c cs ih =>
    rw [List.cons_append, takeBytes, takeBytes]
    split
    · rw [ih (by rw [byteLength_cons] at h; omega)]
    · rfl

/-- A text with a newline and another text behind it. -/
def Source.followedBy (source : Source) (more : String) : Source := ⟨source.name, source.content ++ "\n" ++ more⟩

/-- A source that is followed by another text has both, with a line break between them. -/
theorem Source.chars_followedBy (source : Source) (more : String) :
    (source.followedBy more).chars = source.chars ++ '\n' :: more.toList := by
  simp [followedBy, chars]

/-- The first text keeps its lines and columns. -/
theorem Source.position_followedBy {source : Source} (more : String) {offset : Nat} (h : offset ≤ byteLength source.chars) :
    (source.followedBy more).position offset = source.position offset := by
  rw [position, chars_followedBy, takeBytes_append_of_le _ h, position]

/-- The second text has the same columns as alone, and its lines are further down. -/
theorem Source.position_followedBy_add (source : Source) (more : Source) (offset : Nat) :
    (source.followedBy more.content).position (offset + (byteLength source.chars + 1)) =
      (more.position offset).down (source.chars.count '\n' + 1) := by
  have hlen : offset + (byteLength source.chars + 1) = byteLength (source.chars ++ ['\n']) + offset := by
    simp only [byteLength_append, byteLength_cons, byteLength_nil, show '\n'.utf8Size = 1 from rfl]
    omega
  have hchars : (source.followedBy more.content).chars = source.chars ++ ['\n'] ++ more.chars := by
    rw [chars_followedBy, List.append_assoc]
    rfl
  rw [position, hchars, hlen, takeBytes_append_add, Position.after_append, Position.after_newline, Position.after_down,
    position]

/-! ## Running -/

namespace Session

open Reader

/-- What a form has given and the place of the form, as the result of a source: an error is given the place, unless it has one. -/
def placed (source : Source) (outcome : Except Abort Value × Span) : Except Abort Value :=
  match outcome.1 with
  | .error (.error e) => .error (.error (e.orLocatedAt source outcome.2))
  | result => result

/-- The same outcome of a form that stands `k` bytes further on. -/
def shiftOutcome (k : Nat) (outcome : Except Abort Value × Span) : Except Abort Value × Span := (outcome.1, outcome.2.shift k)

/-- Run the items of a text one after the other: what each of them gives, with its place but not yet located in a source, and the
machine that they leave. -/
def runItems (fuel : Nat) (m : Machine) : List (ReadItem × Nat) → List (Except Abort Value × Span) × Machine
  | [] => ([], m)
  | (.fault f, _) :: reads =>
    let rest := runItems fuel m reads
    ((.error (.error (.ofKind f.kind)), f.span) :: rest.1, rest.2)
  | (.form form span, _) :: reads =>
    match evalForm fuel form m with
    | .ok v m =>
      let rest := runItems fuel m reads
      ((.ok v, span) :: rest.1, rest.2)
    | .error e m =>
      let rest := runItems fuel m reads
      ((.error e, span) :: rest.1, rest.2)

/-- Running a source is running its items and locating in it what they give. -/
theorem runEach_eq (fuel : Nat) (source : Source) (m : Machine) :
    runEach fuel source m =
      let run := runItems fuel m (items source.chars)
      (run.1.map (placed source), run.2) := by
  unfold runEach results
  induction items source.chars generalizing m with
  | nil => rfl
  | cons read reads ih =>
    obtain ⟨item, next⟩ := read
    rw [List.map_cons]
    cases item with
    | fault f =>
      have hresult : (ReadItem.fault f).result source = .error (f.toError source) := rfl
      simp only [hresult, runEachForm, runItems, ih]
      rfl
    | form form span =>
      have hresult : (ReadItem.form form span).result source = .ok (form, span) := rfl
      simp only [hresult, runEachForm, runItems, locating]
      cases evalForm fuel form m with
      | ok v m' =>
        simp only [ih]
        rfl
      | error e m' =>
        cases e with
        | error e =>
          simp only [ih]
          rfl
        | outOfFuel =>
          simp only [ih]
          rfl

/-- The forms of two texts are run one after the other. -/
theorem runItems_append (fuel : Nat) (m : Machine) (reads more : List (ReadItem × Nat)) :
    runItems fuel m (reads ++ more) =
      let one := runItems fuel m reads
      let two := runItems fuel one.2 more
      (one.1 ++ two.1, two.2) := by
  fun_induction runItems fuel m reads with
  | case1 => rfl
  | case2 m f next reads rest ih => simp only [List.cons_append, runItems, ih]; rfl
  | case3 m form span next reads v m' h rest ih => simp only [List.cons_append, runItems, h, ih]; rfl
  | case4 m form span next reads e m' h rest ih => simp only [List.cons_append, runItems, h, ih]; rfl

/-- The place of an item does not change what it gives. -/
theorem runItems_shift (fuel k : Nat) (m : Machine) (reads : List (ReadItem × Nat)) :
    runItems fuel m (reads.map (shiftRead k)) =
      let run := runItems fuel m reads
      (run.1.map (shiftOutcome k), run.2) := by
  fun_induction runItems fuel m reads with
  | case1 => rfl
  | case2 m f next reads rest ih =>
    simp only [List.map_cons, shiftRead, ReadItem.shift, runItems, ih]
    rfl
  | case3 m form span next reads v m' h rest ih =>
    simp only [List.map_cons, shiftRead, ReadItem.shift, runItems, h, ih]
    rfl
  | case4 m form span next reads e m' h rest ih =>
    simp only [List.map_cons, shiftRead, ReadItem.shift, runItems, h, ih]
    rfl

/-- Reading is compositional. If the first of two texts does not end within a form, then the items of both, with a newline
between them, are the items of the first and then those of the second further on: by the bytes of the first text and the newline,
and in lines by its newlines and one more, with the same columns. Running both together gives what running first the one and then
the other gives, located in the same way, and leaves the same machine. -/
theorem reading_composes (first second : Source) (h : ∀ read ∈ items first.chars, read.1.endsInput = false) :
    let whole := first.followedBy second.content
    let k := first.content.utf8ByteSize + 1
    items whole.chars = items first.chars ++ (items second.chars).map (shiftRead k) ∧
    (∀ read ∈ items first.chars, ∀ p ∈ [read.1.span.start, read.1.span.stop, read.2], whole.position p = first.position p) ∧
    (∀ p, whole.position (p + k) = (second.position p).down (first.chars.count '\n' + 1)) ∧
    ∀ fuel m,
      let one := runItems fuel m (items first.chars)
      let two := runItems fuel one.2 (items second.chars)
      runEach fuel first m = (one.1.map (placed first), one.2) ∧
      runEach fuel second one.2 = (two.1.map (placed second), two.2) ∧
      runEach fuel whole m = (one.1.map (placed whole) ++ (two.1.map (shiftOutcome k)).map (placed whole), two.2) := by
  intro whole k
  have hk : k = byteLength first.chars + 1 := by rw [first.byteLength_chars]
  have hitems : items whole.chars = items first.chars ++ (items second.chars).map (shiftRead k) := by
    rw [hk, Source.chars_followedBy]
    exact items_newline second.chars h
  refine ⟨hitems, fun read hread p hp => ?_, fun p => ?_, fun fuel m => ⟨runEach_eq .., runEach_eq .., ?_⟩⟩
  · obtain ⟨hstart, hstop, hend⟩ := itemsAt_within (.ofText first.chars) read hread
    refine Source.position_followedBy second.content ?_
    simp only [Cursor.ofText, Nat.zero_add] at hend
    simp only [List.mem_cons, List.not_mem_nil, or_false] at hp
    rcases hp with rfl | rfl | rfl <;> omega
  · rw [hk]
    exact first.position_followedBy_add second p
  · rw [runEach_eq, hitems, runItems_append]
    simp only [runItems_shift, List.map_append]

/-- A stray closer, a symbol and an open comment neither hide nor disturb the list behind them. -/
theorem reading_composes_after_fault :
    items (Source.followedBy ⟨"one", ") a ; b"⟩ "(c)").chars =
      items (Source.mk "one" ") a ; b").chars ++
        (items (Source.mk "two" "(c)").chars).map (shiftRead (") a ; b".utf8ByteSize + 1)) :=
  (reading_composes ⟨"one", ") a ; b"⟩ ⟨"two", "(c)"⟩ (by decide +kernel)).1

end Session

end MiniLisp
