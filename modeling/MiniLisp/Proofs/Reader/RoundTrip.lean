import MiniLisp.Proofs.Reader.Literal

/-!
# Round trip: printed data read back

The text of a readable value is one form by itself, the form of that value (`Readable.legible`). This is shown along the way the
value is built: the leaves are literals, and the elements of a group are printed with a blank between them, so that they are
forms one after the other (`reads_spread`). Printed values with any trivia between them are read in the same way.
-/

namespace MiniLisp.Reader

/-! ## Values in a text -/

/-- A text that is the form of a value, and nothing else. -/
def IsFormOf (text : List Char) (value : Value) : Prop :=
  ∀ offset, readForm ⟨offset, text⟩ =
    some (.form value ⟨offset, offset + byteLength text⟩, ⟨offset + byteLength text, []⟩)

/-- The text of printed values, each with what stands behind it. -/
def spread : List (Value × List Char) → List Char
  | [] => []
  | (value, gap) :: rest => value.print.toList ++ (gap ++ spread rest)

/-- The printed values of such a text, each with the place of its own text. -/
def spreadForms (offset : Nat) : List (Value × List Char) → List (Value × Span)
  | [] => []
  | (value, gap) :: rest =>
    let stop := offset + byteLength value.print.toList
    (value, ⟨offset, stop⟩) :: spreadForms (stop + byteLength gap) rest

/-- Spread forms are the values that were spread. -/
theorem map_fst_spreadForms (offset : Nat) (entries : List (Value × List Char)) :
    (spreadForms offset entries).map (·.1) = entries.map (·.1) := by
  induction entries generalizing offset with
  | nil => rfl
  | cons entry rest ih => exact congrArg (entry.1 :: ·) (ih _)

/-- Blanks and comments may follow a form. -/
theorem Trivia.isFollower {c : Char} {cs : List Char} (h : Trivia (c :: cs)) : isFollower c = true := by
  cases h with
  | blank hb _ =>
    simp only [isBlank, Bool.or_eq_true, beq_iff_eq] at hb
    rcases hb with ((rfl | rfl) | rfl) | rfl <;> decide
  | comment _ _ => decide

/-- A form that is a text by itself is read the same before anything that can follow a form. -/
theorem IsFormOf.before {text : List Char} {value : Value} (h : IsFormOf text value) (offset : Nat) {rest : List Char}
    (hrest : ∀ d ∈ rest.head?, isFollower d = true) :
    readForm ⟨offset, text ++ rest⟩ =
      some (.form value ⟨offset, offset + byteLength text⟩, ⟨offset + byteLength text, rest⟩) := by
  cases rest with
  | nil =>
    rw [List.append_nil]
    exact h offset
  | cons e more => exact readForm_append (hrest e rfl) more (h offset) rfl

/-- Trivia before the next form do not change what is read. -/
theorem Reads.of_skip {c c' d : Cursor} {forms : List (Value × Span)} (h : Reads c' forms d) (hskip : c.skip = c'.skip) :
    ∃ d', Reads c forms d' ∧ d'.skip = d.skip := by
  cases h with
  | done => exact ⟨c, .done c, hskip⟩
  | next hread hrest => exact ⟨d, .next (readForm_of_skip hskip ▸ hread) hrest, rfl⟩

/-- Printed values with trivia between them are read one after the other, if each of them is a form by itself. -/
theorem reads_spread {more : List Char} (hmore : ∀ d ∈ more.head?, isFollower d = true) {entries : List (Value × List Char)}
    (hforms : ∀ entry ∈ entries, IsFormOf entry.1.print.toList entry.1) (htrivia : ∀ entry ∈ entries, Trivia entry.2)
    (hgaps : ∀ entry ∈ entries.dropLast, entry.2 ≠ []) (offset : Nat) :
    ∃ d, Reads ⟨offset, spread entries ++ more⟩ (spreadForms offset entries) d ∧
      d.skip = (⟨offset + byteLength (spread entries), more⟩ : Cursor).skip := by
  induction entries generalizing offset with
  | nil => exact ⟨_, .done _, rfl⟩
  | cons entry rest ih =>
    obtain ⟨value, gap⟩ := entry
    obtain ⟨hform, hforms⟩ := List.forall_mem_cons.mp hforms
    obtain ⟨hgap, htrivia⟩ := List.forall_mem_cons.mp htrivia
    have hfollow : ∀ d ∈ (gap ++ (spread rest ++ more)).head?, isFollower d = true := by
      cases gap with
      | cons c gap =>
        rintro d ⟨⟩
        exact hgap.isFollower
      | nil =>
        -- only the last gap can be empty
        cases rest with
        | nil => exact hmore
        | cons next rest => exact absurd rfl (hgaps (value, []) (by simp))
    have hgaps : ∀ entry ∈ rest.dropLast, entry.2 ≠ [] := by
      cases rest with
      | nil => simp
      | cons next rest => exact (List.forall_mem_cons.mp hgaps).2
    obtain ⟨d, hreads, hd⟩ := ih hforms htrivia hgaps (offset + byteLength value.print.toList + byteLength gap)
    have hskip : (⟨offset + byteLength value.print.toList, gap ++ (spread rest ++ more)⟩ : Cursor).skip =
        (⟨offset + byteLength value.print.toList + byteLength gap, spread rest ++ more⟩ : Cursor).skip :=
      skipTrivia_of_trivia hgap _ _
    obtain ⟨d', hreads', hd'⟩ := hreads.of_skip hskip
    refine ⟨d', ?_, ?_⟩
    · rw [spread, List.append_assoc, List.append_assoc]
      exact .next (hform.before offset hfollow) hreads'
    · rw [hd', hd, spread, byteLength_append, byteLength_append, ← Nat.add_assoc, ← Nat.add_assoc]

/-! ## Groups -/

/-- Values with a blank behind each but the last. -/
def spaced : List Value → List (Value × List Char)
  | [] => []
  | [value] => [(value, [])]
  | value :: values => (value, [' ']) :: spaced values

/-- Values with blanks between them are these values. -/
theorem map_fst_spaced (values : List Value) : (spaced values).map (·.1) = values := by
  fun_induction spaced values with
  | case1 => rfl
  | case2 => rfl
  | case3 value values _ ih => exact congrArg (value :: ·) ih

/-- What lies between them is blanks. -/
theorem trivia_spaced (values : List Value) : ∀ entry ∈ spaced values, Trivia entry.2 := by
  fun_induction spaced values with
  | case1 => simp
  | case2 => simp [Trivia.nil]
  | case3 value values _ ih => exact List.forall_mem_cons.mpr ⟨.blank rfl .nil, ih⟩

/-- There is a blank behind each but the last one. -/
theorem gap_spaced (values : List Value) : ∀ entry ∈ (spaced values).dropLast, entry.2 ≠ [] := by
  fun_induction spaced values with
  | case1 => simp
  | case2 => simp
  | case3 value values hne ih =>
    have hspaced : spaced values ≠ [] := by
      intro h
      have hvalues := map_fst_spaced values
      rw [h] at hvalues
      exact hne hvalues.symm
    rw [List.dropLast_cons_of_ne_nil hspaced]
    exact List.forall_mem_cons.mpr ⟨List.cons_ne_nil _ _, ih⟩

/-- Printed values with blanks between them, in the brackets of a group, are the form of the value of the group. -/
theorem IsFormOf.group (b : Bracket) {values : List Value} {value : Value}
    (h : ∀ v ∈ values, IsFormOf v.print.toList v) (hvalue : ∀ span, groupItem b span (values.map .ok) = .ok value) :
    IsFormOf (b.opening ++ (spread (spaced values) ++ [b.closer])) value := by
  intro offset
  have hfollow : ∀ d ∈ [b.closer].head?, isFollower d = true := by
    rintro d ⟨⟩
    cases b <;> decide
  have hforms : ∀ entry ∈ spaced values, IsFormOf entry.1.print.toList entry.1 := by
    intro entry hentry
    have hmem : entry.1 ∈ (spaced values).map (·.1) := List.mem_map_of_mem hentry
    rw [map_fst_spaced] at hmem
    exact h entry.1 hmem
  obtain ⟨d, hreads, hd⟩ := reads_spread hfollow hforms (trivia_spaced values) (gap_spaced values)
    (offset + byteLength b.opening)
  have hskip : d.skip = ⟨offset + byteLength b.opening + byteLength (spread (spaced values)), [b.closer]⟩ := by
    rw [hd]
    cases b <;> rfl
  have hlen : offset + byteLength (b.opening ++ (spread (spaced values) ++ [b.closer])) =
      offset + byteLength b.opening + byteLength (spread (spaced values)) + 1 := by
    simp only [byteLength_append, byteLength_cons, byteLength_nil, b.isCloser_closer.2]
    omega
  rw [readForm_group b (hreads.nests_skip hskip (by simp)), map_fst_spreadForms, map_fst_spaced, hvalue, hlen]
  rfl

/-! ## Printed values -/

/-- A value whose text is written behind any other text, and is the form of the value. -/
structure Legible (value : Value) : Prop where
  write : ∀ out, (value.write false out).toList = out.toList ++ value.print.toList
  isForm : IsFormOf value.print.toList value

/-- A value is legible if its text is that of a form for it. -/
theorem Legible.of_text {value : Value} {text : List Char}
    (hwrite : ∀ out, (value.write false out).toList = out.toList ++ text) (hform : IsFormOf text value) : Legible value := by
  have hprint : value.print.toList = text := hwrite ""
  exact ⟨by rwa [hprint], by rwa [hprint]⟩

/-- The text of values, each behind a blank. -/
def behind (values : List Value) : List Char := values.flatMap fun value => ' ' :: value.print.toList

/-- The first value comes first, with the others behind it. -/
theorem spread_spaced_cons (value : Value) (values : List Value) :
    spread (spaced (value :: values)) = value.print.toList ++ behind values := by
  induction values generalizing value with
  | nil => simp [spaced, spread, behind]
  | cons next values ih =>
    rw [spaced, spread, ih, behind, behind, List.flatMap_cons]
    · rfl
    · simp

/-- Items are written one after another, with a blank before each but the first. -/
theorem toList_writeItems {values : List Value} (h : ∀ v ∈ values, Legible v) (out : String) :
    (Value.writeItems " " out values).toList = out.toList ++ behind values := by
  induction values generalizing out with
  | nil => simp [Value.writeItems, behind]
  | cons value values ih =>
    obtain ⟨hvalue, hvalues⟩ := List.forall_mem_cons.mp h
    rw [Value.writeItems, ih hvalues, hvalue.write]
    simp [behind]

/-- Values that are written one behind the other have a blank between them. -/
theorem toList_writeItems_spaced {values : List Value} (h : ∀ v ∈ values, Legible v) (out : String) :
    (Value.writeItems "" out values).toList = out.toList ++ spread (spaced values) := by
  cases values with
  | nil => simp [Value.writeItems, spaced, spread]
  | cons value values =>
    obtain ⟨hvalue, hvalues⟩ := List.forall_mem_cons.mp h
    rw [Value.writeItems, toList_writeItems hvalues, hvalue.write, spread_spaced_cons]
    simp

/-- The keys and values of entries, in the order in which they are written. -/
def entryValues (entries : List (Value × Value)) : List Value := entries.flatMap fun entry => [entry.1, entry.2]

/-- Keys and values in a row are paired to the entries that they are of. -/
theorem pairUp_entryValues (entries : List (Value × Value)) : pairUp (entryValues entries) = entries := by
  induction entries with
  | nil => rfl
  | cons entry entries ih => exact congrArg (entry :: ·) ih

/-- Entries are written like their keys and values. -/
theorem writeEntries_eq (gap out : String) (entries : List (Value × Value)) :
    Value.writeEntries gap out entries = Value.writeItems gap out (entryValues entries) := by
  induction entries generalizing gap out with
  | nil => rfl
  | cons entry entries ih =>
    have hvalues : entryValues (entry :: entries) = entry.1 :: entry.2 :: entryValues entries := rfl
    rw [Value.writeEntries, ih, hvalues, Value.writeItems, Value.writeItems]

/-- The tail of a list goes on with the elements that are left, and then closes the list. -/
theorem toList_writeTail {values : List Value} (h : ∀ v ∈ values, Legible v) (out : String) :
    (Value.write true out (.list values)).toList = out.toList ++ behind values ++ [')'] := by
  induction values generalizing out with
  | nil => simp [Value.write, Value.list, Value.listWithTail, behind]
  | cons value values ih =>
    obtain ⟨hvalue, hvalues⟩ := List.forall_mem_cons.mp h
    have hpair : Value.list (value :: values) = .pair value (.list values) := rfl
    rw [hpair, Value.write, ih hvalues, hvalue.write]
    simp [behind]

/-- A value with an atom as its text is legible, if that is read as the value. -/
theorem Legible.atom {value : Value} {text : String} (hne : text.toList ≠ []) (hs : text.toList.all isSymbolChar = true)
    (hwrite : ∀ out, value.write false out = out ++ text) (hread : readAtom text.toList = .ok value) : Legible value := by
  refine .of_text (fun out => by rw [hwrite, String.toList_append]) fun offset => ?_
  rw [readForm_atom offset hne (List.all_eq_true.mp hs), hread]
  rfl

theorem Legible.nil : Legible .nil := .atom (by decide) rfl (fun _ => rfl) rfl

/-- A string is legible, whatever is in it. -/
theorem Legible.string (s : String) : Legible (.str s) :=
  .of_text (fun _ => String.toList_append) (readForm_string · s)

/-- A group of legible values is legible, if its elements are written between its brackets. -/
theorem Legible.group (b : Bracket) {values : List Value} {value : Value} (h : ∀ v ∈ values, Legible v)
    (hvalue : ∀ span, groupItem b span (values.map .ok) = .ok value)
    (hwrite : ∀ out, (value.write false out).toList =
      out.toList ++ (b.opening ++ (spread (spaced values) ++ [b.closer]))) : Legible value :=
  .of_text hwrite (.group b (fun v hv => (h v hv).isForm) hvalue)

/-- A group of values is the list, the vector or the set form of them. -/
theorem groupItem_ok {b : Bracket} {values : List Value} (hb : b ≠ .map) (span : Span) :
    groupItem b span (values.map .ok) = .ok (match b with
      | .list => .list values
      | .vector | .hashVector => .vector values
      | _ => .setForm values) := by
  rw [groupItem, sequenceItems_ok]
  cases b with
  | map => exact absurd rfl hb
  | _ => rfl

/-- A list of legible values is legible. -/
theorem Legible.list {values : List Value} (h : ∀ v ∈ values, Legible v) : Legible (.list values) := by
  cases values with
  | nil => exact .nil
  | cons value values =>
    refine .group .list h (fun _ => groupItem_ok (by decide) _) fun out => ?_
    obtain ⟨hvalue, hvalues⟩ := List.forall_mem_cons.mp h
    have hpair : Value.list (value :: values) = .pair value (.list values) := rfl
    rw [hpair, Value.write, toList_writeTail hvalues, hvalue.write, spread_spaced_cons]
    simp [Bracket.opening, Bracket.closer]

/-- So is a vector of them. -/
theorem Legible.vector {values : List Value} (h : ∀ v ∈ values, Legible v) : Legible (.vector values) := by
  refine .group .vector h (fun _ => groupItem_ok (by decide) _) fun out => ?_
  simp [Value.write, Value.openTail, Value.closeTail, toList_writeItems_spaced h, Bracket.opening, Bracket.closer]

/-- So is a set form of them. -/
theorem Legible.setForm {values : List Value} (h : ∀ v ∈ values, Legible v) : Legible (.setForm values) := by
  refine .group .set h (fun _ => groupItem_ok (by decide) _) fun out => ?_
  simp [Value.write, Value.openTail, Value.closeTail, toList_writeItems_spaced h, Bracket.opening, Bracket.closer]

/-- There are two values for each entry. -/
theorem length_entryValues (entries : List (Value × Value)) : (entryValues entries).length = 2 * entries.length := by
  induction entries with
  | nil => rfl
  | cons entry entries ih =>
    have hvalues : entryValues (entry :: entries) = entry.1 :: entry.2 :: entryValues entries := rfl
    rw [hvalues, List.length_cons, List.length_cons, ih, List.length_cons]
    omega

/-- So is a map form of legible keys and values. -/
theorem Legible.mapForm {entries : List (Value × Value)} (h : ∀ v ∈ entryValues entries, Legible v) :
    Legible (.mapForm entries) := by
  refine .group .map h (fun span => ?_) fun out => ?_
  · have heven : ((entryValues entries).length % 2 == 0) = true := by
      rw [length_entryValues, Nat.mul_mod_right]
      rfl
    rw [groupItem, sequenceItems_ok]
    simp only [bind, Except.bind, heven, if_true, pairUp_entryValues]
    rfl
  · simp [Value.write, Value.openTail, Value.closeTail, writeEntries_eq, toList_writeItems_spaced h, Bracket.opening,
      Bracket.closer]

/-! ## Readable values -/

/-- The data that can be read back: `nil`, booleans, exact numbers, strings, symbols with a name that is taken for nothing else,
and lists, vectors, and the forms of sets and maps of such data. -/
inductive Readable : Value → Prop where
  | nil : Readable .nil
  | bool (b : Bool) : Readable (.bool b)
  | num {n : Number} : n.toRat?.isSome → Readable (.num n)
  | str (s : String) : Readable (.str s)
  | sym {name : String} : SymbolName name → Readable (.sym name)
  | list {values : List Value} : (∀ v ∈ values, Readable v) → Readable (.list values)
  | vector {values : List Value} : (∀ v ∈ values, Readable v) → Readable (.vector values)
  | setForm {values : List Value} : (∀ v ∈ values, Readable v) → Readable (.setForm values)
  | mapForm {entries : List (Value × Value)} : (∀ entry ∈ entries, Readable entry.1) →
      (∀ entry ∈ entries, Readable entry.2) → Readable (.mapForm entries)

/-- The text of a readable value is the form of that value. -/
theorem Readable.legible {value : Value} (h : Readable value) : Legible value := by
  induction h with
  | nil => exact .nil
  | bool b => cases b <;> exact .atom (by decide) rfl (fun _ => rfl) rfl
  | num hn =>
    have hs := List.all_eq_true.mpr fun _ => isSymbolChar_of_mem_text hn
    exact .atom (text_ne_nil hn) hs (fun _ => rfl) (readAtom_number hn)
  | str s => exact .string s
  | sym hname =>
    have hs := List.all_eq_true.mpr hname.isSymbolChar
    exact .atom hname.ne_nil hs (fun _ => rfl) (readAtom_symbol hname)
  | list _ ih => exact .list ih
  | vector _ ih => exact .vector ih
  | setForm _ ih => exact .setForm ih
  | mapForm _ _ ihk ihv =>
    refine .mapForm fun v hv => ?_
    obtain ⟨entry, hentry, hv⟩ := List.mem_flatMap.mp hv
    simp only [List.mem_cons, List.not_mem_nil, or_false] at hv
    rcases hv with rfl | rfl
    · exact ihk entry hentry
    · exact ihv entry hentry

/-- Reading back printed data is the identity: readable values that are printed one after the other, with any trivia before,
between and behind them (and some between any two), are read as these values in this order and without a fault, each at the
place of its own text. -/
theorem printed_reads_back (lead : List Char) (entries : List (Value × List Char)) (hlead : Trivia lead)
    (hreadable : ∀ entry ∈ entries, Readable entry.1) (htrivia : ∀ entry ∈ entries, Trivia entry.2)
    (hgaps : ∀ entry ∈ entries.dropLast, entry.2 ≠ []) :
    items (lead ++ spread entries) =
      (spreadForms (byteLength lead) entries).map fun form => (.form form.1 form.2, form.2.stop) := by
  have hforms : ∀ entry ∈ entries, IsFormOf entry.1.print.toList entry.1 :=
    fun entry hentry => (hreadable entry hentry).legible.isForm
  have hskip : (Cursor.ofText (lead ++ spread entries)).skip = (⟨byteLength lead, spread entries ++ []⟩ : Cursor).skip := by
    rw [List.append_nil, ← Nat.zero_add (byteLength lead)]
    exact skipTrivia_of_trivia hlead 0 (spread entries)
  obtain ⟨d, hreads, hd⟩ := @reads_spread [] (fun _ h => nomatch h) _ hforms htrivia hgaps (byteLength lead)
  obtain ⟨d', hreads', hd'⟩ := hreads.of_skip hskip
  have hend : readForm d' = none := by
    refine (readForm_none_iff d').mpr ((skipTrivia_end_iff d'.offset d'.rest).mp ?_)
    change d'.skip.rest = []
    rw [hd', hd]
    rfl
  change itemsAt (.ofText (lead ++ spread entries)) = _
  rw [hreads'.itemsAt, itemsAt_none hend, List.append_nil]

/-- A comment, then a list of a string and a number, then a symbol. -/
theorem printed_reads_back_list :
    items ";\n(\"a\" 1) b".toList =
      [(.form (.list [.str "a", .num (.int 1)]) ⟨2, 9⟩, 9), (.form (.sym "b") ⟨10, 11⟩, 11)] := by
  have hlead : Trivia ";\n".toList := @Trivia.comment [] [] List.not_mem_nil .nil
  have hlist : Readable (.list [.str "a", .num (.int 1)]) := by
    refine .list fun v hv => ?_
    simp only [List.mem_cons, List.not_mem_nil, or_false] at hv
    rcases hv with rfl | rfl
    · exact .str "a"
    · exact .num rfl
  have hb : Readable (.sym "b") := by
    have hs : "b".toList.all isSymbolChar = true := rfl
    refine .sym ⟨by decide, List.all_eq_true.mp hs, fun c cs h => ?_, fun c cs h => ?_, by decide, by decide⟩
    · cases (show ['b'] = c :: cs from h)
      rfl
    · cases (show ['b'] = '-' :: c :: cs from h)
  have hgaps : ∀ gap ∈ [[' '], []], Trivia gap := by simp [Trivia.nil, Trivia.blank (c := ' ') rfl .nil]
  exact printed_reads_back ";\n".toList [(.list [.str "a", .num (.int 1)], [' ']), (.sym "b", [])] hlead
    (by simp [hlist, hb]) (by simpa using hgaps) (by simp)

end MiniLisp.Reader
