import MiniLisp.Proofs.Reader.Extent

/-!
# Bracketing: the texts that the scanner of a group accepts

The scanner of a group walks over the characters with a stack of closers, a mode and the place of the last quote. The texts that it
accepts have a grammar that knows none of these: trivia, strings, balanced groups and other characters between an opener and its
closer (`IsGroup`). The scan of a group ends with the group that stands there, and where there is none it reports what is first in the
text: a closer that does not match, an open string, or the end of the text while the group is open (`group_ends_where_balanced`).
-/

namespace MiniLisp.Reader

/-! ## The grammar of groups -/

/-- The openers of groups, each with the bracket in it. -/
inductive Opens : List Char → Char → Prop where
  | plain {d : Char} : isOpener d = true → Opens [d] d
  | hashed {d : Char} : d = '[' ∨ d = '\x7b' → Opens ['#', d] d

/-- What can stand between the quotes of a string. A backslash takes the next character with it. -/
inductive StringText : List Char → Prop where
  | nil : StringText []
  | char {c : Char} {cs : List Char} : c ≠ '\x22' → c ≠ '\x5c' → StringText cs → StringText (c :: cs)
  | escaped (c : Char) {cs : List Char} : StringText cs → StringText ('\x5c' :: c :: cs)

/-- What can stand behind the quote of a string that does not end: perhaps the last backslash has nothing to take with it. -/
inductive OpenString : List Char → Prop where
  | text {cs : List Char} : StringText cs → OpenString cs
  | backslash {cs : List Char} : StringText cs → OpenString (cs ++ ['\x5c'])

/-- Trivia, complete strings, balanced groups and characters that are no delimiters, in any order. -/
inductive Balanced : List Char → Prop where
  | nil : Balanced []
  | trivia {text cs : List Char} : Trivia text → Balanced cs → Balanced (text ++ cs)
  | string {text cs : List Char} : StringText text → Balanced cs → Balanced ('\x22' :: text ++ '\x22' :: cs)
  | group {opening inner cs : List Char} {d : Char} : Opens opening d → Balanced inner → Balanced cs →
      Balanced (opening ++ inner ++ closerFor d :: cs)
  | other {c : Char} {cs : List Char} : Context.isPlain c = true → Balanced cs → Balanced (c :: cs)

/-- A balanced text between an opener and its closer. -/
def IsGroup (text : List Char) : Prop :=
  ∃ opening d inner, Opens opening d ∧ Balanced inner ∧ text = opening ++ inner ++ [closerFor d]

/-- Behind an opener with the bracket `d` and the given text, where every closer has matched, the innermost open group is one with
the bracket `d'`. -/
inductive Innermost : Char → List Char → Char → Prop where
  | here {d : Char} {inner : List Char} : Balanced inner → Innermost d inner d
  | inside {d d₁ d' : Char} {inner opening text : List Char} : Balanced inner → Opens opening d₁ → Innermost d₁ text d' →
      Innermost d (inner ++ opening ++ text) d'

/-- What is wrong with the text behind an opener at `offset` whose group does not end in it, as the grammar has it: a closer that is
not that of the innermost open group, the end of the text where a group is open, or a string that does not end. -/
inductive Complaint (opening : List Char) (d : Char) (offset : Nat) : List Char → Failure → Prop where
  | mismatched {text after : List Char} {d' c : Char} : Innermost d text d' → isCloser c = true → c ≠ closerFor d' →
      Complaint opening d offset (text ++ c :: after)
        (mismatched (closerFor d') c (offset + byteLength (opening ++ text)) after)
  | unclosed {text last : List Char} {d' : Char} : Innermost d text d' → OnlyTrivia last →
      Complaint opening d offset (text ++ last)
        (unclosed ⟨d, ⟨offset, offset + byteLength opening⟩⟩ (offset + byteLength (opening ++ text ++ last)))
  | unterminated {text last : List Char} {d' : Char} : Innermost d text d' → OpenString last →
      Complaint opening d offset (text ++ '\x22' :: last)
        (unterminated (offset + byteLength (opening ++ text)) (offset + byteLength (opening ++ text ++ '\x22' :: last)))

namespace OpenString

/-- Any character but a quote and a backslash may stand in a string. -/
theorem char {c : Char} {cs : List Char} (hq : c ≠ '\x22') (hb : c ≠ '\x5c') (h : OpenString cs) : OpenString (c :: cs) := by
  cases h with
  | text ht => exact .text (ht.char hq hb)
  | backslash ht => exact .backslash (ht.char hq hb)

/-- Any character may stand behind a backslash. -/
theorem escaped (c : Char) {cs : List Char} (h : OpenString cs) : OpenString ('\x5c' :: c :: cs) := by
  cases h with
  | text ht => exact .text (ht.escaped c)
  | backslash ht => exact .backslash (ht.escaped c)

end OpenString

/-- A text begins with one opener at most. -/
theorem Opens.unique {opening opening' rest rest' : List Char} {d d' : Char} (h : Opens opening d) (h' : Opens opening' d')
    (heq : opening ++ rest = opening' ++ rest') : opening = opening' ∧ d = d' ∧ rest = rest' := by
  have hash : isOpener '#' = false := rfl
  cases h with
  | plain hd =>
    cases h' with
    | plain hd' =>
      cases heq
      exact ⟨rfl, rfl, rfl⟩
    | hashed hd' =>
      cases heq
      rw [hash] at hd
      cases hd
  | hashed hd =>
    cases h' with
    | plain hd' =>
      cases heq
      rw [hash] at hd'
      cases hd'
    | hashed hd' =>
      cases heq
      exact ⟨rfl, rfl, rfl⟩

theorem isCloser_closerFor (d : Char) : isCloser (closerFor d) = true := by
  unfold closerFor
  split
  · rfl
  · split <;> rfl

namespace Balanced

/-- What is balanced may stand before what is balanced. -/
theorem append {text more : List Char} (h : Balanced text) (h' : Balanced more) : Balanced (text ++ more) := by
  induction h with
  | nil => exact h'
  | trivia ht _ ih =>
    rw [List.append_assoc]
    exact .trivia ht ih
  | string ht _ ih =>
    rw [List.append_assoc, List.cons_append]
    exact .string ht ih
  | group ho hi _ _ ih =>
    rw [List.append_assoc, List.cons_append]
    exact .group ho hi ih
  | other hc _ ih => exact .other hc ih

/-- A string is balanced, whatever is in it. -/
theorem of_string {text : List Char} (h : StringText text) : Balanced ('\x22' :: text ++ ['\x22']) := .string h .nil

/-- What is balanced may stand in a group. -/
theorem of_group {opening inner : List Char} {d : Char} (ho : Opens opening d) (hi : Balanced inner) :
    Balanced (opening ++ inner ++ [closerFor d]) := .group ho hi .nil

end Balanced

/-- More before it that is balanced leaves the innermost group as it is. -/
theorem Innermost.behind {text inner : List Char} {d d' : Char} (hb : Balanced inner) (h : Innermost d text d') :
    Innermost d (inner ++ text) d' := by
  cases h with
  | here hi => exact .here (hb.append hi)
  | inside hi ho ht =>
    rw [← List.append_assoc, ← List.append_assoc]
    exact .inside (hb.append hi) ho ht

/-! ## What the scanner makes of the grammar -/

section Scanning

variable (opening : Opening) (expected : Char) (outer : List Char) (offset : Nat) (rest : List Char)

/-- The scan goes into a group, hashed or not, and waits for its closer. -/
theorem scanGroup_opens {text : List Char} {d : Char} (h : Opens text d) :
    scanGroup opening expected outer .code offset (text ++ rest) =
      scanGroup opening (closerFor d) (expected :: outer) .code (offset + byteLength text) rest := by
  cases h with
  | plain hd => exact scanGroup_opener opening expected outer offset rest hd
  | @hashed d hd =>
    have hhash : scanGroup opening expected outer .code offset ('#' :: d :: rest) =
        scanGroup opening expected outer .code (offset + '#'.utf8Size) (d :: rest) := rfl
    rw [List.cons_append, List.cons_append, List.nil_append, hhash, scanGroup_opener _ _ _ _ _ (isOpener_of_hashed hd)]
    simp only [byteLength_cons, byteLength_nil, Nat.add_assoc, Nat.add_zero]

/-- A semicolon begins a comment. -/
theorem scanGroup_semicolon : scanGroup opening expected outer .code offset (';' :: rest) =
    scanGroup opening expected outer .comment (offset + ';'.utf8Size) rest := rfl

/-- A line break ends a comment. -/
theorem scanGroup_newline : scanGroup opening expected outer .comment offset ('\n' :: rest) =
    scanGroup opening expected outer .code (offset + '\n'.utf8Size) rest := rfl

/-- A quote begins a string, whose beginning is kept for the complaint that it never ends. -/
theorem scanGroup_quote : scanGroup opening expected outer .code offset ('\x22' :: rest) =
    scanGroup opening expected outer (.string offset) (offset + '\x22'.utf8Size) rest := rfl

/-- A quote ends a string. -/
theorem scanGroup_endQuote (opened : Nat) : scanGroup opening expected outer (.string opened) offset ('\x22' :: rest) =
    scanGroup opening expected outer .code (offset + '\x22'.utf8Size) rest := rfl

/-- A backslash in a string takes the next character with it. -/
theorem scanGroup_backslash (opened : Nat) (c : Char) :
    scanGroup opening expected outer (.string opened) offset ('\x5c' :: c :: rest) =
      scanGroup opening expected outer (.string opened) (offset + '\x5c'.utf8Size + c.utf8Size) rest := rfl

/-- A comment goes on until there is a newline. -/
theorem scanGroup_comment {text : List Char} (h : '\n' ∉ text) :
    scanGroup opening expected outer .comment offset (text ++ rest) =
      scanGroup opening expected outer .comment (offset + byteLength text) rest := by
  induction text generalizing offset with
  | nil => rfl
  | cons c text ih =>
    have hc : (c == '\n') = false := by
      rw [beq_eq_false_iff_ne]
      rintro rfl
      exact h List.mem_cons_self
    rw [List.cons_append, scanGroup, if_neg (by simp [hc]), ih _ fun hm => h (List.mem_cons_of_mem _ hm), byteLength_cons,
      Nat.add_assoc]

/-- A string stays open over what can stand in it, and its quote is remembered. -/
theorem scanGroup_stringText {text : List Char} (h : StringText text) (opened : Nat) :
    scanGroup opening expected outer (.string opened) offset (text ++ rest) =
      scanGroup opening expected outer (.string opened) (offset + byteLength text) rest := by
  induction h generalizing offset with
  | nil => rfl
  | char hq hb _ ih =>
    rw [List.cons_append, scanGroup, if_neg (by simpa using hb), if_neg (by simpa using hq), ih, byteLength_cons, Nat.add_assoc]
  | escaped c _ ih =>
    rw [List.cons_append, List.cons_append, scanGroup_backslash, ih]
    simp only [byteLength_cons, Nat.add_assoc]

end Scanning

namespace Passed

/-- A character that is no bracket, quote or semicolon is passed. -/
theorem of_plain {c : Char} (h : Context.isPlain c = true) : Passed [c] := .of_flat (.plain h rfl)

/-- Blanks and comments are passed. -/
theorem of_trivia {text : List Char} (h : Trivia text) : Passed text := by
  induction h with
  | nil => exact .of_flat rfl
  | @blank c cs hb _ ih => exact (of_plain (isPlain_of_isMark (by simp [isMark, hb]))).append ih
  | @comment body cs hb _ ih =>
    intro opening expected outer offset rest
    rw [List.cons_append, List.append_assoc, scanGroup_semicolon, scanGroup_comment _ _ _ _ _ hb, List.cons_append,
      scanGroup_newline, ih]
    simp only [byteLength_cons, byteLength_append, Nat.add_assoc]

/-- A string is passed. -/
theorem of_string {text : List Char} (h : StringText text) : Passed ('\x22' :: text ++ ['\x22']) := by
  intro opening expected outer offset rest
  rw [List.append_assoc, List.cons_append, scanGroup_quote, scanGroup_stringText _ _ _ _ _ h, List.cons_append,
    scanGroup_endQuote]
  simp only [List.nil_append, byteLength_append, byteLength_cons, byteLength_nil, Nat.add_assoc, Nat.add_zero]

/-- A group is passed if what is in it is. -/
theorem of_group {opening inner : List Char} {d : Char} (ho : Opens opening d) (hi : Passed inner) :
    Passed (opening ++ inner ++ [closerFor d]) := by
  intro outermost expected outer offset rest
  rw [List.append_assoc, List.append_assoc, scanGroup_opens _ _ _ _ _ ho, hi, List.cons_append,
    scanGroup_closer _ _ _ _ (isCloser_closerFor d), leave]
  simp only [List.nil_append, byteLength_append, byteLength_cons, byteLength_nil, Nat.add_assoc, Nat.add_zero]

/-- The scanner passes over a balanced text, whatever groups are open. -/
theorem of_balanced {text : List Char} (h : Balanced text) : Passed text := by
  induction h with
  | nil => exact .of_flat rfl
  | trivia ht _ ih => exact (of_trivia ht).append ih
  | string ht _ ih => simpa using (of_string ht).append ih
  | group ho _ _ hi ih => simpa using (of_group ho hi).append ih
  | other hc _ ih => exact (of_plain hc).append ih

end Passed

/-- Over a text in which every closer has matched, the scanner comes to wait for the closer of the innermost group. -/
theorem Innermost.scanGroup {text : List Char} {d d' : Char} (h : Innermost d text d') (opening : Opening) (outer : List Char)
    (offset : Nat) (rest : List Char) :
    ∃ outer', scanGroup opening (closerFor d) outer .code offset (text ++ rest) =
      scanGroup opening (closerFor d') outer' .code (offset + byteLength text) rest := by
  induction h generalizing outer offset with
  | here hi => exact ⟨outer, Passed.of_balanced hi ..⟩
  | @inside d d₁ d' inner opener text hi ho _ ih =>
    obtain ⟨outer', hscan⟩ := ih (closerFor d :: outer) (offset + byteLength inner + byteLength opener)
    refine ⟨outer', ?_⟩
    rw [List.append_assoc, List.append_assoc, Passed.of_balanced hi, scanGroup_opens _ _ _ _ _ ho, hscan]
    simp only [byteLength_append, Nat.add_assoc]

/-- A string that does not end is what the scanner complains about. -/
theorem scanGroup_openString {text : List Char} (h : OpenString text) (opening : Opening) (expected : Char) (outer : List Char)
    (opened offset : Nat) :
    scanGroup opening expected outer (.string opened) offset text = .error (unterminated opened (offset + byteLength text)) := by
  cases h with
  | text ht =>
    rw [← List.append_nil text, scanGroup_stringText _ _ _ _ _ ht, List.append_nil]
    rfl
  | backslash ht =>
    rw [scanGroup_stringText _ _ _ _ _ ht, byteLength_append, ← Nat.add_assoc]
    rfl

/-- Where only trivia are left, the scanner complains about the group. -/
theorem scanGroup_onlyTrivia {text : List Char} (h : OnlyTrivia text) (opening : Opening) (expected : Char) (outer : List Char)
    (offset : Nat) :
    scanGroup opening expected outer .code offset text = .error (unclosed opening (offset + byteLength text)) := by
  cases h with
  | closed ht =>
    rw [← List.append_nil text, Passed.of_trivia ht, List.append_nil]
    rfl
  | @comment cs body ht hb =>
    have hscan := scanGroup_comment opening expected outer (offset + byteLength cs + ';'.utf8Size) [] hb
    rw [Passed.of_trivia ht, scanGroup_semicolon, ← List.append_nil body, hscan]
    simp only [scanGroup, List.append_nil, byteLength_append, byteLength_cons, Nat.add_assoc]

/-- The scan of a group ends behind the closer of a balanced text. -/
theorem scanOpened_of_balanced {inner : List Char} (h : Balanced inner) (d : Char) (width offset : Nat) (after : List Char) :
    scanOpened d width offset (inner ++ closerFor d :: after) =
      .ok ⟨offset + width + byteLength inner + (closerFor d).utf8Size, after⟩ := by
  rw [scanOpened, Passed.of_balanced h, scanGroup_closer _ _ _ _ (isCloser_closerFor d), leave]

/-- The scanner makes the complaint that the grammar has. -/
theorem scanOpened_of_complaint {opening rest : List Char} {d : Char} {offset : Nat} {f : Failure}
    (h : Complaint opening d offset rest f) : scanOpened d (byteLength opening) offset rest = .error f := by
  unfold scanOpened
  cases h with
  | mismatched ht hc hne =>
    obtain ⟨outer, hscan⟩ := ht.scanGroup ⟨d, ⟨offset, offset + byteLength opening⟩⟩ [] (offset + byteLength opening) (_ :: _)
    rw [hscan, scanGroup_mismatch _ _ _ _ _ hc hne, byteLength_append, Nat.add_assoc]
  | unclosed ht hl =>
    obtain ⟨outer, hscan⟩ := ht.scanGroup ⟨d, ⟨offset, offset + byteLength opening⟩⟩ [] (offset + byteLength opening) _
    rw [hscan, scanGroup_onlyTrivia hl]
    simp only [byteLength_append, Nat.add_assoc]
  | unterminated ht hl =>
    obtain ⟨outer, hscan⟩ := ht.scanGroup ⟨d, ⟨offset, offset + byteLength opening⟩⟩ [] (offset + byteLength opening) (_ :: _)
    rw [hscan, scanGroup_quote, scanGroup_openString hl]
    simp only [byteLength_append, byteLength_cons, Nat.add_assoc]

/-! ## Every text has its place in the grammar -/

/-- What stands behind a quote is the text of a string up to the next quote, or a string that does not end. -/
theorem string_cases (cs : List Char) :
    (∃ text after, StringText text ∧ cs = text ++ '\x22' :: after) ∨ OpenString cs := by
  match cs with
  | [] => exact .inr (.text .nil)
  | c :: cs =>
    by_cases hq : c = '\x22'
    · exact .inl ⟨[], cs, .nil, by rw [hq, List.nil_append]⟩
    by_cases hb : c = '\x5c'
    · subst hb
      match cs with
      | [] => exact .inr (.backslash .nil)
      | c :: cs =>
        rcases string_cases cs with ⟨text, after, ht, rfl⟩ | ho
        · exact .inl ⟨_, after, ht.escaped c, rfl⟩
        · exact .inr (ho.escaped c)
    · rcases string_cases cs with ⟨text, after, ht, rfl⟩ | ho
      · exact .inl ⟨_, after, ht.char hq hb, rfl⟩
      · exact .inr (ho.char hq hb)

/-- The text behind an opener with the bracket `d` has its closer, or whoever scans it complains. -/
def Decided (d : Char) (rest : List Char) : Prop :=
  (∃ inner after, Balanced inner ∧ rest = inner ++ closerFor d :: after) ∨
    ∀ opening offset, ∃ f, Complaint opening d offset rest f

namespace Decided

/-- A complaint about what stands further back is one about the whole text. -/
theorem complaint {d d₁ : Char} {front rest opening₁ : List Char} {offset₁ : Nat} {f : Failure}
    (h : Complaint opening₁ d₁ offset₁ rest f)
    (hfront : ∀ {text d'}, Innermost d₁ text d' → Innermost d (front ++ text) d') (opening : List Char) (offset : Nat) :
    ∃ f, Complaint opening d offset (front ++ rest) f := by
  cases h with
  | mismatched ht hc hne =>
    rw [← List.append_assoc]
    exact ⟨_, .mismatched (hfront ht) hc hne⟩
  | unclosed ht hl =>
    rw [← List.append_assoc]
    exact ⟨_, .unclosed (hfront ht) hl⟩
  | unterminated ht hl =>
    rw [← List.append_assoc]
    exact ⟨_, .unterminated (hfront ht) hl⟩

/-- What is decided stays so behind a balanced text. -/
theorem behind {d : Char} {front rest : List Char} (hb : Balanced front) (h : Decided d rest) : Decided d (front ++ rest) := by
  rcases h with ⟨inner, after, hi, rfl⟩ | h
  · exact .inl ⟨front ++ inner, after, hb.append hi, (List.append_assoc ..).symm⟩
  · refine .inr fun opening offset => ?_
    obtain ⟨f, hf⟩ := h opening offset
    exact complaint hf (Innermost.behind hb) opening offset

section Cases

variable {d c : Char} {cs : List Char} (further : ∀ d after, after.length ≤ cs.length → Decided d after)

include further

/-- An opener begins a group inside, and what is wrong in that one is wrong in the group around it. -/
theorem of_opener (hc : isOpener c = true) : Decided d (c :: cs) := by
  rcases further c cs (Nat.le_refl _) with ⟨inner, after, hi, rfl⟩ | h
  · have hd : Decided d after := further d after (by simp; omega)
    simpa using hd.behind (.of_group (.plain hc) hi)
  · refine .inr fun opening offset => ?_
    obtain ⟨f, hf⟩ := h [c] offset
    have hfront {text d'} (ht : Innermost c text d') : Innermost d ([c] ++ text) d' := .inside .nil (.plain hc) ht
    exact complaint hf hfront opening offset

/-- A comment ends at the next newline, or reaches to the end of the text. -/
theorem of_semicolon : Decided d (';' :: cs) := by
  by_cases hn : '\n' ∈ cs
  · obtain ⟨body, after, rfl, hb⟩ := List.eq_append_cons_of_mem hn
    have hd : Decided d after := further d after (by simp; omega)
    simpa using hd.behind (.trivia (.comment hb .nil) .nil)
  · exact .inr fun opening offset => ⟨_, .unclosed (.here .nil) (.comment .nil hn)⟩

/-- A string ends at the next quote that has no backslash, or reaches to the end of the text. -/
theorem of_quote : Decided d ('\x22' :: cs) := by
  rcases string_cases cs with ⟨text, after, ht, rfl⟩ | ho
  · have hd : Decided d after := further d after (by simp; omega)
    simpa using hd.behind (.of_string ht)
  · exact .inr fun opening offset => ⟨_, .unterminated (.here .nil) ho⟩

end Cases

/-- A closer decides the matter. -/
theorem of_closer {d c : Char} {cs : List Char} (hc : isCloser c = true) : Decided d (c :: cs) := by
  by_cases hd : c = closerFor d
  · subst hd
    exact .inl ⟨[], cs, .nil, rfl⟩
  · exact .inr fun opening offset => ⟨_, .mismatched (.here .nil) hc hd⟩

end Decided

/-- The grammar decides every text: at each character something of it begins, or the text is at fault there. -/
theorem decided (d : Char) (cs : List Char) : Decided d cs := by
  induction hn : cs.length using Nat.strongRecOn generalizing d cs with
  | ind n ih =>
    subst hn
    cases cs with
    | nil => exact .inr fun opening offset => ⟨_, .unclosed (.here .nil) (.closed .nil)⟩
    | cons c cs =>
      have further (d : Char) (after : List Char) (hle : after.length ≤ cs.length) : Decided d after :=
        ih after.length (Nat.lt_succ_of_le hle) d after rfl
      by_cases ho : isOpener c = true
      · exact .of_opener further ho
      by_cases hc : isCloser c = true
      · exact .of_closer hc
      by_cases hs : c = ';'
      · exact hs ▸ .of_semicolon further
      by_cases hq : c = '\x22'
      · exact hq ▸ .of_quote further
      · have hp : Context.isPlain c = true := by simp [Context.isPlain, ho, hc, hs, hq]
        exact (further d cs (Nat.le_refl _)).behind (.other hp .nil)

/-! ## The scan of a group -/

/-- The scan of what begins with an opener is that of its group. -/
theorem scanBody_opens {opening : List Char} {d : Char} (h : Opens opening d) (offset : Nat) (rest : List Char) :
    scanBody ⟨offset, opening ++ rest⟩ = scanOpened d (byteLength opening) offset rest := by
  cases h with
  | plain hd => exact byteLength_opener hd ▸ scanBody_group offset rest hd
  | hashed hd => exact byteLength_hashed hd ▸ scanBody_hashed offset rest hd

/-- A group that stands at a place is scanned up to its end. -/
theorem scanOpened_of_group {opening rest group : List Char} {d : Char} (h : Opens opening d) {offset : Nat} {stop : Cursor}
    (hg : IsGroup group) (hr : (⟨offset, opening ++ rest⟩ : Cursor).Reaches group stop) :
    scanOpened d (byteLength opening) offset rest = .ok stop := by
  obtain ⟨opening', d', inner, h', hi, rfl⟩ := hg
  obtain ⟨hrest, hoffset⟩ := hr
  obtain ⟨stopOffset, after⟩ := stop
  have hrest : opening ++ rest = opening' ++ (inner ++ closerFor d' :: after) := by simpa using hrest
  obtain ⟨rfl, rfl, rfl⟩ := h.unique h' hrest
  rw [scanOpened_of_balanced hi]
  simp_all [Nat.add_assoc]

/-- The scan of a group ends exactly behind a balanced group that begins with its opener, of which there is one at most. Otherwise
it reports the first closer that does not match the innermost open group, or its own opener, or the string that does not end,
whichever the text has first. -/
theorem group_ends_where_balanced {opening : List Char} {d : Char} (h : Opens opening d) (offset : Nat) (rest : List Char) :
    scanBody ⟨offset, opening ++ rest⟩ = scanOpened d (byteLength opening) offset rest ∧
      (∀ stop, scanOpened d (byteLength opening) offset rest = .ok stop ↔
        ∃ group, IsGroup group ∧ (⟨offset, opening ++ rest⟩ : Cursor).Reaches group stop) ∧
      (∀ group group' stop stop', IsGroup group → (⟨offset, opening ++ rest⟩ : Cursor).Reaches group stop →
        IsGroup group' → (⟨offset, opening ++ rest⟩ : Cursor).Reaches group' stop' → stop = stop') ∧
      ∀ f, scanOpened d (byteLength opening) offset rest = .error f ↔ Complaint opening d offset rest f := by
  refine ⟨scanBody_opens h offset rest, ?ends, ?unique, ?fails⟩
  case unique =>
    intro group group' stop stop' hg hr hg' hr'
    exact Except.ok.inj ((scanOpened_of_group h hg hr).symm.trans (scanOpened_of_group h hg' hr'))
  case ends =>
    intro stop
    constructor
    · intro hscan
      rcases decided d rest with ⟨inner, after, hi, rfl⟩ | hc
      · rw [scanOpened_of_balanced hi] at hscan
        cases hscan
        refine ⟨opening ++ inner ++ [closerFor d], ⟨opening, d, inner, h, hi, rfl⟩, by simp, ?_⟩
        simp [Nat.add_assoc]
      · obtain ⟨f, hf⟩ := hc opening offset
        rw [scanOpened_of_complaint hf] at hscan
        cases hscan
    · rintro ⟨group, hg, hr⟩
      exact scanOpened_of_group h hg hr
  case fails =>
    intro f
    constructor
    · intro hscan
      rcases decided d rest with ⟨inner, after, hi, rfl⟩ | hc
      · rw [scanOpened_of_balanced hi] at hscan
        cases hscan
      · obtain ⟨f', hf⟩ := hc opening offset
        rw [scanOpened_of_complaint hf] at hscan
        cases hscan
        exact hf
    · exact scanOpened_of_complaint

/-- Brackets in a string and in a comment do not count, and a closer that does not match is reported behind both. -/
theorem group_ends_where_balanced_quoted :
    Opens ['#', '['] '[' ∧
      (∃ group, IsGroup group ∧
        (⟨3, "#[\"]\" ;)\n1] x".toList⟩ : Cursor).Reaches group ⟨14, " x".toList⟩) ∧
      Complaint ['#', '['] '[' 3 "\"]\" ;)\n(1] x".toList (mismatched ')' ']' 14 " x".toList) := by
  have h : Opens ['#', '['] '[' := .hashed (.inl rfl)
  obtain ⟨-, hends, -, -⟩ := group_ends_where_balanced h 3 "\"]\" ;)\n1] x".toList
  obtain ⟨-, -, -, hfails⟩ := group_ends_where_balanced h 3 "\"]\" ;)\n(1] x".toList
  exact ⟨h, (hends _).mp rfl, (hfails _).mp rfl⟩

end MiniLisp.Reader
