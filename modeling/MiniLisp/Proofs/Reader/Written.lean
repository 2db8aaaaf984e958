import MiniLisp.Proofs.Reader.Reprint

/-!
# Written values: what a text can be read as

The reader gives `nil`, booleans, numbers, strings and symbols, and lists, vectors and set and map forms of what it gives
(`written_of_mem_results`). No set, map, function or record can be written.
-/

namespace MiniLisp

namespace Reader

/-- The values that a text can be read as. -/
inductive Written : Value → Prop where
  | nil : Written .nil
  | bool (b : Bool) : Written (.bool b)
  | num (n : Number) : Written (.num n)
  | str (s : String) : Written (.str s)
  | sym (s : Symbol) : Written (.sym s)
  | list {values : List Value} : (∀ v ∈ values, Written v) → Written (.list values)
  | vector {values : List Value} : (∀ v ∈ values, Written v) → Written (.vector values)
  | setForm {values : List Value} : (∀ v ∈ values, Written v) → Written (.setForm values)
  | mapForm {entries : List (Value × Value)} : (∀ entry ∈ entries, Written entry.1) →
      (∀ entry ∈ entries, Written entry.2) → Written (.mapForm entries)

/-- To be written is kept by reading. -/
theorem written_kept : Kept Written := by
  constructor
  case sym => exact fun name _ => .sym name
  case list => exact fun _ h => .list h
  case vector => exact fun _ h => .vector h
  case setForm => exact fun _ h => .setForm h
  case mapForm => exact fun _ hkeys hvalues => .mapForm hkeys hvalues

/-- What is written may stand behind a mark. -/
theorem Written.wrap (s : Symbol) {v : Value} (h : Written v) : Written (.wrap s v) := by
  refine .list fun x hx => ?_
  simp only [List.mem_cons, List.not_mem_nil, or_false] at hx
  rcases hx with rfl | rfl
  · exact .sym s
  · exact h

/-- Access to a field of what is written can be written. -/
theorem Written.fieldAccess {target : Value} (h : Written target) (field : List Char) : Written (fieldAccess target field) := by
  refine .list fun x hx => ?_
  simp only [List.mem_cons, List.not_mem_nil, or_false] at hx
  rcases hx with rfl | rfl | rfl
  · exact .sym "."
  · exact h
  · exact (Written.sym _).wrap "quote"

/-- So can access to several fields, one after another. -/
theorem Written.fields {target : Value} (h : Written target) (fields : List (List Char)) :
    Written (fields.foldl Reader.fieldAccess target) := by
  induction fields generalizing target with
  | nil => exact h
  | cons field fields ih => exact ih (h.fieldAccess field)

/-- What a symbol is read as can be written. -/
theorem readSymbol_written {text : List Char} {v : Value} (h : readSymbol text = .ok v) : Written v := by
  unfold readSymbol at h
  simp only at h
  split at h
  · cases h
    exact .nil
  split at h
  · split at h
    · cases h
    · cases h
      exact (Written.sym _).wrap "varg"
  split at h
  · split at h
    · split at h
      · cases h
      · cases h
        exact (Written.sym _).fields _
    · cases h
  · cases h
    exact .sym _

/-- So can what any atom is read as. -/
theorem readAtom_written {text : List Char} {v : Value} (h : readAtom text = .ok v) : Written v := by
  unfold readAtom at h
  split at h
  · obtain ⟨n, rfl⟩ : ∃ n, v = .num n := by
      unfold readNumber at h
      grind
    exact .num n
  split at h
  · cases h
    exact .bool true
  split at h
  · cases h
    exact .bool false
  · exact readSymbol_written h

/-- So can a string. -/
theorem readString_written {raw : List Char} {v : Value} (h : readString raw = .ok v) : Written v := by
  cases hu : unescape raw with
  | error e => simp [readString, hu, Except.map] at h
  | ok cs =>
    obtain rfl : Value.str (String.ofList cs) = v := by simpa [readString, hu, Except.map] using h
    exact .str _

/-- Whatever is read can be written. -/
theorem written_of_readForm {c d : Cursor} {value : Value} {span : Span} (h : readForm c = some (.form value span, d)) :
    Written value := by
  obtain ⟨extent, -, -, hvalue⟩ := extent_of_readForm h
  exact @parse_made _ written_kept _ _ ([], none) _ (parse_of_readExtent hvalue) ⟨nofun, nofun⟩
    (fun _ _ _ _ _ hread => readAtom_written hread) (fun _ _ _ _ _ hread => readString_written hread) value rfl

/-- So can each of the forms that are read from a text. -/
theorem written_of_mem_itemsFrom {c : Cursor} {limit position : Nat} {value : Value} {span : Span}
    (h : (.form value span, position) ∈ itemsFrom c limit) : Written value := by
  induction limit generalizing c with
  | zero => cases h
  | succ limit ih =>
    rw [itemsFrom] at h
    split at h
    · cases h
    · rename_i item next hread
      rcases List.mem_cons.1 h with hfirst | hrest
      · cases hfirst
        exact written_of_readForm hread
      · exact ih hrest

/-- Every form that is read from a source is a written value. -/
theorem written_of_mem_results {source : Source} {value : Value} {span : Span} (h : .ok (value, span) ∈ results source) :
    Written value := by
  obtain ⟨⟨item, position⟩, hitem, hresult⟩ := List.mem_map.1 h
  cases item with
  | fault f => cases hresult
  | form v s =>
    cases hresult
    exact written_of_mem_itemsFrom hitem

end Reader

end MiniLisp
