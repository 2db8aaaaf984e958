import MiniLisp.Proofs.Reader.Freestanding

/-!
# Unnesting: what reads in a group reads the same at the top level

A form in a group is made of the lexemes that finish it. If these are free-standing, then the scanner of extents finds them at
the top level too: it finds the same string, the same group or the same symbol behind the same marks (`extracts_of_parse`). So a
text reads at the top level as it reads in a list (`reads_same_outside_list`).
-/

namespace MiniLisp.Reader

/-! ## Symbols, numbers and strings -/

/-- Behind an atom the lexer goes on where the symbol characters end. -/
theorem lex_atom_rest (offset : Nat) (cs : List Char) :
    lex .atom offset cs = lex .code (offset + byteLength (cs.takeWhile isSymbolChar)) (cs.dropWhile isSymbolChar) := by
  induction cs generalizing offset with
  | nil => rfl
  | cons c cs ih =>
    by_cases hc : isSymbolChar c = true
    · rw [lex_cons, lexMove, codeMove, if_pos hc, if_pos rfl, List.takeWhile_cons_of_pos hc, List.dropWhile_cons_of_pos hc,
        byteLength_cons, ← Nat.add_assoc, ← ih]
      rfl
    · rw [List.takeWhile_cons_of_neg hc, List.dropWhile_cons_of_neg hc]
      exact lex_atom_of_not_symbol offset (by simpa using hc)

/-- A symbol or number is one lexeme, up to the next character that cannot stand in it. -/
theorem lex_symbol (offset : Nat) {c : Char} (hc : isSymbolChar c = true) (cs : List Char) :
    lex .code offset (c :: cs) =
      ⟨.atom (c :: cs.takeWhile isSymbolChar), ⟨offset, offset + byteLength (c :: cs.takeWhile isSymbolChar)⟩⟩ ::
        lex .code (offset + byteLength (c :: cs.takeWhile isSymbolChar)) (cs.dropWhile isSymbolChar) := by
  rw [lex_cons, lexMove, codeMove, if_pos hc, if_neg (by decide), LexMove.run, lex_atom_rest, Nat.add_assoc]
  rfl

/-- Where a terminator follows the symbol characters, the scanner stops there too. -/
theorem scanAtom_symbols (offset : Nat) {cs : List Char}
    (h : ∀ d ∈ (cs.dropWhile isSymbolChar).head?, isTerminator d = true) :
    scanAtom offset cs = ⟨offset + byteLength (cs.takeWhile isSymbolChar), cs.dropWhile isSymbolChar⟩ := by
  induction cs generalizing offset with
  | nil => rfl
  | cons c cs ih =>
    by_cases hc : isSymbolChar c = true
    · rw [List.dropWhile_cons_of_pos hc] at h ⊢
      rw [List.takeWhile_cons_of_pos hc, scanAtom, isTerminator_of_isSymbolChar hc, ih _ h, byteLength_cons, Nat.add_assoc]
      simp
    · rw [List.dropWhile_cons_of_neg hc] at h ⊢
      simp [scanAtom, h c rfl, List.takeWhile_cons_of_neg hc]

/-- A character that is neither a terminator nor one of symbols begins no lexeme, unless it is the number sign of a bracket. -/
theorem lex_of_plain (offset : Nat) {d : Char} (cs : List Char) (hs : isSymbolChar d = false) (ht : isTerminator d = false) :
    ∃ l ls, lex .code offset (d :: cs) = l :: ls ∧ l.span.start = offset ∧ (l.token = .stray ∨
      (∃ b, l.token = .opener b ∧ b.isHashed = true) ∧ ∃ b cs', d = '#' ∧ cs = b :: cs' ∧ (b = '[' ∨ b = '\x7b')) := by
  simp only [isTerminator, Bool.or_eq_false_iff, beq_eq_false_iff_ne] at ht
  obtain ⟨⟨⟨⟨⟨⟨⟨hblank, hopener⟩, hcloser⟩, hquote⟩, hsemicolon⟩, htick⟩, hback⟩, hcomma⟩ := ht
  have hlex : lex .code offset (d :: cs) = (bracketMove d cs).run offset :=
    lex_bracket rfl offset cs (by simp [hs]) (by simp [hblank]) (by simpa using hsemicolon) (by simpa using hquote)
  rw [hlex]
  unfold bracketMove
  split
  · exact ⟨_, _, rfl, rfl, .inr ⟨⟨.hashVector, rfl, rfl⟩, _, _, rfl, rfl, .inl rfl⟩⟩
  · exact ⟨_, _, rfl, rfl, .inr ⟨⟨.set, rfl, rfl⟩, _, _, rfl, rfl, .inr rfl⟩⟩
  · exact absurd rfl hcomma
  · refine ⟨_, _, rfl, rfl, .inl ?_⟩
    simp only [isOpener, Bool.or_eq_false_iff, beq_eq_false_iff_ne] at hopener
    simp [charToken, hopener, hcloser, htick, hback, hcomma]

/-- Behind a string the lexer goes on where the scan has found its end. -/
theorem lex_scanString {opened : Nat} {escaped : Bool} {offset : Nat} {cs : List Char} {stop : Cursor}
    (h : scanString opened escaped offset cs = .ok stop) :
    lex (if escaped then .escape else .string) offset cs = lex .code stop.offset stop.rest := by
  fun_induction scanString opened escaped offset cs with
  | case1 escaped offset => cases h
  | case2 offset c cs ih => exact ih h
  | case3 escaped offset c cs he hc ih => simpa [lex, he, hc] using ih h
  | case4 escaped offset c cs he hc hq =>
    cases h
    simp [lex, he, hc, hq]
  | case5 escaped offset c cs he hc hq ih => simpa [lex, he, hc, hq] using ih h

/-- A string that is closed in a text has an end. -/
theorem scanString_of_closed {opened : Nat} {escaped : Bool} {offset : Nat} {cs : List Char}
    (h : (if escaped then Context.escape else .string).after cs = .code) :
    ∃ stop, scanString opened escaped offset cs = .ok stop := by
  fun_induction scanString opened escaped offset cs with
  | case1 escaped offset => cases escaped <;> cases h
  | case2 offset c cs ih => exact ih h
  | case3 escaped offset c cs he hc ih => exact ih (by simpa [he, hc, Context.step] using h)
  | case4 escaped offset c cs he hc hq => exact ⟨_, rfl⟩
  | case5 escaped offset c cs he hc hq ih => exact ih (by simpa [he, hc, hq, Context.step] using h)

/-! ## One form -/

/-- What a scan finds at a place: its text holds the lexemes from there up to the place where it stops, and these finish the form
for which some marks wait. -/
def Extracts (waiting : List Pending) (scan : Scan) (c : Cursor) : Prop :=
  ∃ stop text block item, scan = .ok stop ∧ c.Reaches text stop ∧ Apart text stop.rest ∧
    lex .code c.offset c.rest = block ++ lex .code stop.offset stop.rest ∧ ∀ k, parse k waiting none block = .ok item

/-- A text that ends in a quote or a closer is apart from whatever follows. -/
theorem Apart.of_closing {before rest : List Char} {d : Char} (hd : d = '\x22' ∨ isCloser d = true) :
    Apart (before ++ [d]) rest := by
  intro a ha e _
  obtain rfl : d = a := by simpa using ha
  exact joins_of_closing hd e

/-- What stands before does not matter. -/
theorem Apart.prepend (before : List Char) {text rest : List Char} (h : Apart text rest) (hne : text ≠ []) :
    Apart (before ++ text) rest := by
  intro a ha
  rw [List.getLast?_append, List.getLast?_eq_some_getLast hne] at ha
  exact h a (by rw [List.getLast?_eq_some_getLast hne]; exact ha)

/-- An atom is apart from a text that begins with a terminator. -/
theorem Apart.of_symbols {text rest : List Char} (ht : ∀ a ∈ text, isSymbolChar a = true)
    (hr : ∀ d ∈ rest.head?, isTerminator d = true) : Apart text rest := by
  intro a ha d hd
  refine joins_of_terminator ?_ (hr d hd)
  rintro rfl
  exact absurd (ht '#' (List.mem_of_getLast? ha)) (by decide)

/-- An item that only marks wait for is finished at once. -/
theorem parse_literal {waiting : List Pending} (hw : openClosers waiting = []) {l : Lexeme} {item : Item}
    (hfeed : feed waiting l = some (complete item waiting)) : ∃ done, ∀ k, parse k waiting none [l] = .ok done := by
  cases hc : (complete item waiting).2 with
  | none => exact absurd hw ((complete_closers item waiting).2.mp hc)
  | some done =>
    refine ⟨done, fun k => ?_⟩
    rw [parse_feed hfeed, hc]
    rfl

section Body

variable {waiting : List Pending} {stop : Nat} {b : Bracket} {start : Nat} {items : List Item} {e : Char} {span : Span}
  {item : Item}

/-- The closer of a group does not close others that are open in it. -/
theorem parse_closer_ne_ok (stack : List Pending) (h : openClosers stack ≠ []) :
    parse stop (stack ++ [.group b start items]) none [⟨.closer e, span⟩] ≠ .ok item := by
  intro hparse
  obtain ⟨⟨next, finished⟩, hfeed, hrest⟩ := feed_of_parse hparse
  obtain ⟨outer, hclosers, -, hiff⟩ := feed_closer hfeed
  have houter : outer ≠ [] := by
    rintro rfl
    obtain ⟨c, cs, hcs⟩ := List.exists_cons_of_ne_nil h
    rw [openClosers_append, hcs] at hclosers
    have hlength := congrArg List.length hclosers
    simp [openClosers] at hlength
  obtain rfl : finished = none := hiff.mpr houter
  cases hrest

/-- A group that only marks wait for is found by the scanner, if its lexemes are closed in a group around it. -/
theorem extracts_group (hw : openClosers waiting = []) (inner : Bracket) {offset : Nat} {cs : List Char}
    (hparse : parse stop (waiting ++ [.group b start items]) none
      (lex .code offset (inner.opening ++ cs) ++ [⟨.closer e, span⟩]) = .ok item) {opening : Opening} :
    Extracts waiting (scanGroup opening inner.closer [] .code (offset + byteLength inner.opening) cs)
      ⟨offset, inner.opening ++ cs⟩ := by
  have hopener : feed waiting ⟨.opener inner, ⟨offset, offset + byteLength inner.opening⟩⟩ =
      some (.group inner offset [] :: waiting, none) := rfl
  rw [lex_opening, List.cons_append, parse_feed (feed_append _ hopener)] at hparse
  have hstack : openClosers (.group inner offset [] :: waiting) = [inner.closer] := congrArg (inner.closer :: ·) hw
  have hmode : Mode.code.context = LexMode.code.context := rfl
  obtain ⟨stop, text, block, done, hscan, hreaches, hlex, hdone⟩ : Closes opening inner.closer [] .code .code _ _ :=
    closes_of_parse parse_closer_ne_ok .code cs _ hmode hstack hparse
  obtain ⟨before, closer, hreaches', hcloser, -⟩ := scanGroup_ok hscan
  obtain rfl := hreaches.unique hreaches'
  have hstart : (⟨offset, inner.opening ++ cs⟩ : Cursor).Reaches inner.opening ⟨offset + byteLength inner.opening, cs⟩ :=
    ⟨rfl, rfl⟩
  refine ⟨stop, _, ⟨.opener inner, ⟨offset, offset + byteLength inner.opening⟩⟩ :: block, done, hscan, hstart.trans hreaches,
    ?_, ?_, fun k => ?_⟩
  · rw [← List.append_assoc]
    exact .of_closing (.inr hcloser)
  · rw [lex_opening, hlex, List.cons_append]
  · rw [parse_feed hopener, hdone]

/-- A symbol or number that only marks wait for is found by the scanner, if it does not touch a bracket. -/
theorem extracts_atom (hw : openClosers waiting = []) {offset : Nat} {d : Char} {cs : List Char} (hd : isTerminator d = false)
    (hh : ∀ b cs', d = '#' → cs = b :: cs' → b ≠ '[' ∧ b ≠ '\x7b')
    (hstray : ∀ l ∈ lex .code offset (d :: cs), l.token ≠ .stray)
    (htouch : touchesAtom 0 none (lex .code offset (d :: cs)) = false) :
    Extracts waiting (.ok (scanAtom offset (d :: cs))) ⟨offset, d :: cs⟩ := by
  have hsymbol : isSymbolChar d = true := by
    cases hs : isSymbolChar d with
    | true => rfl
    | false =>
      obtain ⟨l, ls, hlex, -, hl | ⟨-, b, cs', rfl, rfl, hb⟩⟩ := lex_of_plain offset cs hs hd
      · exact absurd hl (hstray l (hlex ▸ List.mem_cons_self))
      · obtain ⟨hv, hset⟩ := hh b cs' rfl rfl
        exact absurd hb (by simp [hv, hset])
  have hlex := lex_symbol offset hsymbol cs
  have hterm : ∀ x ∈ (cs.dropWhile isSymbolChar).head?, isTerminator x = true := by
    intro x hx
    cases hterm : isTerminator x with
    | true => rfl
    | false =>
      obtain ⟨rest, hrest⟩ := List.head?_eq_some_iff.mp hx
      have hx : isSymbolChar x = false := by
        have hhead := List.head?_dropWhile_not isSymbolChar cs
        simpa [hrest] using hhead
      obtain ⟨l, ls, hnext, hstart, hl | ⟨⟨b, hb, hhashed⟩, -⟩⟩ :=
        lex_of_plain (offset + byteLength (d :: cs.takeWhile isSymbolChar)) rest hx hterm
      · rw [hlex, hrest, hnext] at hstray
        exact absurd hl (hstray l (by simp))
      · rw [hlex, hrest, hnext] at htouch
        simp [touchesAtom, hb, hhashed, hstart] at htouch
  have hscan : scanAtom offset (d :: cs) = ⟨offset + byteLength (d :: cs.takeWhile isSymbolChar), cs.dropWhile isSymbolChar⟩ := by
    rw [scanAtom_symbols offset (by rwa [List.dropWhile_cons_of_pos hsymbol]), List.takeWhile_cons_of_pos hsymbol,
      List.dropWhile_cons_of_pos hsymbol]
  have hfeed (l : Lexeme) (text : List Char) (hl : l.token = .atom text) :
      feed waiting l = some (complete (literalItem l.span (readAtom text)) waiting) := by
    rw [feed, hl]
  obtain ⟨done, hdone⟩ := parse_literal hw (hfeed ⟨.atom _, _⟩ _ rfl)
  refine ⟨_, d :: cs.takeWhile isSymbolChar, [_], done, congrArg Except.ok hscan, ⟨?_, rfl⟩, ?_, hlex, hdone⟩
  · simp
  · refine .of_symbols (fun a ha => ?_) hterm
    rcases List.mem_cons.mp ha with rfl | ha
    · exact hsymbol
    · exact List.mem_takeWhile_imp ha

/-- A string that only marks wait for is found by the scanner, if it is closed in the text. -/
theorem extracts_string (hw : openClosers waiting = []) {offset : Nat} {cs : List Char}
    (hclosed : Context.code.after ('\x22' :: cs) = .code) :
    Extracts waiting (scanString offset false (offset + 1) cs) ⟨offset, '\x22' :: cs⟩ := by
  obtain ⟨stop, hscan⟩ := @scanString_of_closed offset false (offset + 1) cs hclosed
  obtain ⟨text, hreaches, -⟩ := scanString_ok hscan
  have hstring (l : Lexeme) (raw : List Char) (hl : l.token = .string raw) :
      feed waiting l = some (complete (literalItem l.span (readString raw)) waiting) := by
    rw [feed, hl]
  obtain ⟨done, hdone⟩ := parse_literal hw (hstring ⟨.string _, _⟩ _ rfl)
  have hstart : (⟨offset, '\x22' :: cs⟩ : Cursor).Reaches ['\x22'] ⟨offset + 1, cs⟩ := ⟨rfl, rfl⟩
  refine ⟨stop, _, [_], done, hscan, hstart.trans hreaches, ?_, ?_, hdone⟩
  · rw [← List.append_assoc]
    exact .of_closing (.inl rfl)
  · rw [lex_cons, ← lex_scanString hscan]
    rfl

/-- What follows the marks of a form in a group is found by the scanner as the lexemes have it. -/
theorem extracts_body (hw : openClosers waiting = []) {offset : Nat} {d : Char} {cs : List Char} (hm : isMark d = false)
    (hs : d ≠ ';') (hclosed : Context.code.after (d :: cs) = .code)
    (hparse : parse stop (waiting ++ [.group b start items]) none
      (lex .code offset (d :: cs) ++ [⟨.closer e, span⟩]) = .ok item)
    (htouch : touchesAtom 0 none (lex .code offset (d :: cs)) = false) :
    Extracts waiting (scanBody ⟨offset, d :: cs⟩) ⟨offset, d :: cs⟩ := by
  cases body_cases d cs with
  | string cs => exact extracts_string hw hclosed
  | @hashed c cs hc =>
    rw [scanBody_hashed _ _ hc]
    rcases hc with rfl | rfl
    · exact extracts_group hw .hashVector hparse
    · exact extracts_group hw .set hparse
  | group cs hd =>
    rw [scanBody_group _ _ hd]
    simp only [isOpener, Bool.or_eq_true, beq_iff_eq] at hd
    rcases hd with (rfl | rfl) | rfl
    · exact extracts_group hw .list hparse
    · exact extracts_group hw .vector hparse
    · exact extracts_group hw .map hparse
  | closer cs hd =>
    -- a closer would end the group around them, and its own closer is still to come
    have hlex : lex .code offset (d :: cs) = ⟨.closer d, ⟨offset, offset + 1⟩⟩ :: lex .code (offset + 1) cs := by
      simp only [isCloser, Bool.or_eq_true, beq_iff_eq] at hd
      rcases hd with (rfl | rfl) | rfl <;> rfl
    rw [hlex, List.cons_append] at hparse
    obtain ⟨⟨next, finished⟩, hfeed, hrest⟩ := feed_of_parse hparse
    obtain ⟨outer, hclosers, -, hiff⟩ := feed_closer hfeed
    rw [openClosers_append, hw] at hclosers
    obtain ⟨-, rfl⟩ : b.closer = d ∧ [] = outer := by simpa [openClosers] using hclosers
    cases finished with
    | none => exact absurd rfl (hiff.mp rfl)
    | some done => exact absurd (eq_nil_of_parse_some hrest) (by simp)
  | atom cs hq hc ho hh =>
    rw [scanBody_atom _ _ hq hc ho hh]
    have hd : isTerminator d = false := by
      simp only [isMark, Bool.or_eq_false_iff] at hm
      simp [isTerminator, hm, ho, hc, hq, hs]
    refine extracts_atom hw hd hh (fun l hl => ?_) htouch
    exact not_stray_of_parse hparse l (List.mem_append_left _ hl)

/-- A form that stands in a group is found by the scanner as the lexemes have it, if they can stand at the top level. -/
theorem extracts_of_parse {c : Cursor} (hne : c.skip.rest ≠ []) (hclosed : Context.code.after c.skip.rest = .code)
    (hparse : parse stop [.group b start items] none (lex .code c.skip.offset c.skip.rest ++ [⟨.closer e, span⟩]) = .ok item)
    (hfree : Freestanding (lex .code c.skip.offset c.skip.rest)) : Extracts [] (scanForm c.skip) c.skip := by
  obtain ⟨marks, hmarks, hlex⟩ := lex_skipMarks false c.skip.offset c.skip.rest
  have hlex : lex .code c.skip.offset c.skip.rest = _ := hlex
  unfold scanForm
  cases hskip : skipMarks false c.skip.offset c.skip.rest with
  | error position =>
    simp only [hskip] at hlex
    rw [hlex] at hparse hfree
    obtain ⟨l, hl, hsplice⟩ := last_of_parse_closer hmarks (hlex ▸ lex_skip_ne_nil hne) hparse
    exact absurd hsplice (hfree.last l hl)
  | ok body =>
    simp only [hskip] at hlex
    obtain ⟨before, hreaches, hflat, d, cs, hrest, hmark, hsemicolon⟩ := skipMarks_reaches hskip
    obtain ⟨waiting, hwaiting, hwaits⟩ := parse_marks hmarks
    obtain ⟨offset, rest⟩ := body
    obtain rfl : rest = d :: cs := hrest
    have hbefore : Context.code.after before = .code := hflat.after_eq
    rw [hreaches.1, Context.after_append, hbefore] at hclosed
    rw [hlex, List.append_assoc, hwaits] at hparse
    have htouch := hfree.apart
    rw [hlex, touchesAtom_marks hmarks] at htouch
    obtain ⟨stop, text, block, done, hscan, hreaches', hapart, hblock, hdone⟩ :=
      extracts_body hwaiting hmark hsemicolon hclosed hparse htouch
    have htext : text ≠ [] := by
      rintro rfl
      obtain ⟨hrest, hoffset⟩ := hreaches'
      rw [List.nil_append] at hrest
      rw [hoffset, ← hrest] at hblock
      obtain rfl : block = [] := by simpa using hblock
      cases hdone 0
    refine ⟨stop, before ++ text, marks ++ block, done, hscan, hreaches.trans hreaches', hapart.prepend before htext, ?_,
      fun k => ?_⟩
    · rw [hlex, hblock, List.append_assoc]
    · rw [hwaits, List.append_nil, hdone]

/-- So reading goes on at the top level as it does in the group. -/
theorem readForm_of_parse {c : Cursor} (hne : c.skip.rest ≠ []) (hclosed : Context.code.after c.rest = .code)
    (hfree : Freestanding (lex .code c.offset c.rest))
    (hparse : parse stop [.group b start items] none (lex .code c.offset c.rest ++ [⟨.closer e, span⟩]) = .ok item) :
    ∃ done d, readForm c = some (.ofItem ⟨c.skip.offset, d.offset⟩ done, d) ∧ Context.code.after d.rest = .code ∧
      Freestanding (lex .code d.offset d.rest) ∧
      parse stop [.group b start (done :: items)] none (lex .code d.offset d.rest ++ [⟨.closer e, span⟩]) = .ok item := by
  have hskip : lex .code c.offset c.rest = lex .code c.skip.offset c.skip.rest := lex_skipTrivia false c.offset c.rest
  obtain ⟨trivia, y, hreaches, hflat, hy⟩ := skipTrivia_reaches false c.offset c.rest
  obtain rfl : y = .code := hy hne
  have htrivia : Context.code.after trivia = .code := hflat.after_eq
  have hclosed' : Context.code.after c.skip.rest = .code := by
    have hrest : c.rest = trivia ++ c.skip.rest := hreaches.1
    rwa [hrest, Context.after_append, htrivia] at hclosed
  rw [hskip] at hfree hparse
  obtain ⟨d, text, block, done, hscan, htext, hapart, hblock, hdone⟩ := extracts_of_parse hne hclosed' hparse hfree
  obtain ⟨-, hextent, -⟩ := scanForm_extent hscan htext
  have hlex : lex .code c.skip.offset text = block := by
    have happend := lex_code_append c.skip.offset hextent hapart
    rw [← htext.1, ← htext.2, hblock] at happend
    exact (List.append_cancel_right happend).symm
  have hread : readExtent text ⟨c.skip.offset, d.offset⟩ = done := by
    simp only [readExtent, hlex, hdone]
  refine ⟨done, d, ?_, ?_, ?_, ?_⟩
  · rw [readForm_of_ok hne hscan htext, hread]
  · rwa [htext.1, Context.after_append, hextent] at hclosed'
  · rw [hblock] at hfree
    exact hfree.of_parse (hdone 0)
  · rw [hblock, List.append_assoc, ← List.nil_append [Pending.group b start items], parse_append (hdone 0)] at hparse
    exact hparse

/-- All that stands in a group is read at the top level, one item for each of the group. -/
theorem itemsAt_of_parse {c : Cursor} (hclosed : Context.code.after c.rest = .code)
    (hfree : Freestanding (lex .code c.offset c.rest))
    (hparse : parse stop [.group b start items] none (lex .code c.offset c.rest ++ [⟨.closer e, span⟩]) = .ok item) :
    ∃ done, (itemsAt c).map (·.1.value?) = done.map Except.toOption ∧
      item = groupItem b ⟨start, span.stop⟩ (items.reverse ++ done) := by
  induction c using items_induction generalizing items with
  | none c h =>
    have hend : c.skip.rest = [] := (skipTrivia_end_iff _ _).mpr ((readForm_none_iff c).mp h)
    have hlex : lex .code c.offset c.rest = [] := by
      have hskip : lex .code c.offset c.rest = lex .code c.skip.offset c.skip.rest := lex_skipTrivia false c.offset c.rest
      rw [hskip, hend]
      rfl
    rw [hlex, List.nil_append] at hparse
    refine ⟨[], by rw [itemsAt_none h]; rfl, ?_⟩
    simp only [parse, settle] at hparse
    split at hparse
    · simpa [complete, parse] using hparse.symm
    · cases hparse
  | some c read next h ih =>
    have hne : c.skip.rest ≠ [] := (readForm_cases h).1
    obtain ⟨first, d, hread, hclosed', hfree', hparse'⟩ := readForm_of_parse hne hclosed hfree hparse
    obtain ⟨rfl, rfl⟩ : read = .ofItem ⟨c.skip.offset, d.offset⟩ first ∧ next = d := by simpa using h.symm.trans hread
    obtain ⟨done, hitems, hitem⟩ := ih hclosed' hfree' hparse'
    refine ⟨first :: done, ?_, ?_⟩
    · rw [itemsAt_some h, List.map_cons, List.map_cons, hitems]
      cases first <;> rfl
    · rw [hitem, List.reverse_cons, List.append_assoc]
      rfl

end Body

/-! ## Lists -/

/-- A text that is read as one list: what stands between its brackets leaves nothing open, and its lexemes add the elements. -/
theorem parse_of_list {text : List Char} {values : List Value}
    (h : items ('(' :: (text ++ [')'])) =
      [(.form (.list values) ⟨0, byteLength ('(' :: (text ++ [')']))⟩, byteLength ('(' :: (text ++ [')'])))]) :
    Context.code.after text = .code ∧ ∃ stop span, parse stop [.group .list 0 []] none
      (lex .code 1 text ++ [⟨.closer ')', span⟩]) = .ok (.ok (.list values)) := by
  generalize hwhole : '(' :: (text ++ [')']) = whole at h
  obtain ⟨item, next, hread⟩ : ∃ item next, readForm (.ofText whole) = some (item, next) := by
    cases hread : readForm (.ofText whole) with
    | none => cases (itemsAt_none hread).symm.trans h
    | some read => exact ⟨read.1, read.2, rfl⟩
  have hitems : (item, next.offset) :: itemsAt next = _ := (itemsAt_some hread).symm.trans h
  injection hitems with hhead _
  obtain ⟨rfl, hstop⟩ := Prod.mk.inj hhead
  obtain ⟨extent, hscan, hr, hextent⟩ := extent_of_readForm hread
  subst hwhole
  have hskip : (Cursor.ofText ('(' :: (text ++ [')']))).skip = ⟨0, Bracket.list.opening ++ (text ++ [')'])⟩ := rfl
  rw [hskip] at hscan hr hextent
  -- the form takes up the whole text
  have hend : next.rest = [] := by
    have hsum := congrArg byteLength hr.1
    have hoffset : next.offset = 0 + byteLength extent := hr.2
    have hlen : byteLength ('(' :: (text ++ [')'])) = byteLength extent + byteLength next.rest := by
      rw [← byteLength_append]
      exact hsum
    exact byteLength_eq_zero (by omega)
  obtain rfl : extent = Bracket.list.opening ++ (text ++ [')']) := by simpa [hend] using hr.1.symm
  obtain ⟨opening, hopening⟩ := scanForm_opening .list 0 (text ++ [')'])
  obtain ⟨inside, closer, ⟨hinside, -⟩, -, hclosed, -⟩ := scanGroup_ok (hopening.symm.trans hscan)
  rw [hend, List.append_nil] at hinside
  obtain ⟨rfl, -⟩ := List.append_inj' hinside rfl
  have hclosed : Context.code.after text = .code := hclosed
  have hapart : Apart text [')'] := by
    intro a _ d hd
    obtain rfl : d = ')' := by simpa using hd.symm
    have hsymbol : isSymbolChar ')' = false := by decide
    simp [joins, hsymbol]
  have hparse := parse_of_readExtent hextent
  rw [lex_opening, lex_code_append _ hclosed hapart] at hparse
  exact ⟨hclosed, _, _, hparse⟩

/-- What reads inside a list reads the same at the top level, unless it cannot stand there. Let a text in parentheses read as one
form that takes it up whole, the proper list of some values. Then the text alone reads as these values, in this order and without
a fault, exactly if its lexemes are free-standing. -/
theorem reads_same_outside_list (text : List Char) (values : List Value)
    (h : items ('(' :: (text ++ [')'])) =
      [(.form (.list values) ⟨0, byteLength ('(' :: (text ++ [')']))⟩, byteLength ('(' :: (text ++ [')'])))]) :
    (items text).map (·.1.value?) = values.map some ↔ Freestanding (lex .code 0 text) := by
  constructor
  · intro hitems
    obtain ⟨forms, d, hreads, -, hd⟩ := reads_of_itemsAt hitems
    have hend : d.skip.rest = [] := (skipTrivia_end_iff _ _).mpr ((readForm_none_iff d).mp hd)
    have hskip : lex .code d.offset d.rest = lex .code d.skip.offset d.skip.rest := lex_skipTrivia false d.offset d.rest
    refine @freestanding_of_reads (.ofText text) d forms hreads ?_
    rw [hskip, hend]
    rfl
  · intro hfree
    obtain ⟨hclosed, stop, span, hparse⟩ := parse_of_list h
    have hfree' : Freestanding (lex .code 1 text) := by
      have hshift : lex .code (0 + 1) text = _ := lex_shift 1 .code text 0
      rw [show (1 : Nat) = 0 + 1 from rfl, hshift]
      exact hfree.shift 1
    obtain ⟨done, hitems, hitem⟩ := @itemsAt_of_parse _ _ _ _ _ _ _ ⟨1, text⟩ hclosed hfree' hparse
    have hshift : itemsAt ⟨1, text⟩ = (items text).map (shiftRead 1) := itemsAt_shift 1 (.ofText text)
    have hvalue (read : ReadItem × Nat) : (shiftRead 1 read).1.value? = read.1.value? := by
      obtain ⟨item, position⟩ := read
      cases item <;> rfl
    cases hs : sequenceItems done with
    | error f => simp [groupItem, hs, bind, Except.bind] at hitem
    | ok vs =>
      have hlist : Value.list values = .list vs := by
        simpa [groupItem, hs, bind, Except.bind, pure, Except.pure] using hitem
      obtain rfl : values = vs := by simpa using congrArg Value.toList? hlist
      rw [hshift, List.map_map, eq_map_of_sequenceItems hs, List.map_map] at hitems
      calc (items text).map (·.1.value?)
        _ = (items text).map ((·.1.value?) ∘ shiftRead 1) := List.map_congr_left fun read _ => (hvalue read).symm
        _ = values.map some := hitems

/-- A vector directly behind a symbol, and a splicing mark with its form. -/
theorem reads_same_outside_list_adjacent :
    (items ['a', '[', 'b', ']', ',', '@', 'c']).map (·.1.value?) =
      [some (.sym "a"), some (.vector [.sym "b"]), some (.wrap "unquote-splicing" (.sym "c"))] := by
  have hfree : Freestanding (lex .code 0 ['a', '[', 'b', ']', ',', '@', 'c']) := ⟨by decide +kernel, by decide +kernel⟩
  exact (reads_same_outside_list _ [.sym "a", .vector [.sym "b"], .wrap "unquote-splicing" (.sym "c")] rfl).mpr hfree

/-- With a number sign before its bracket, such a vector is read in a list and not outside. -/
theorem reads_apart_outside_list :
    items ['(', 'a', '#', '[', 'b', ']', ')'] = [(.form (.list [.sym "a", .vector [.sym "b"]]) ⟨0, 7⟩, 7)] ∧
      (items ['a', '#', '[', 'b', ']']).map (·.1.value?) = [none, some (.vector [.sym "b"])] :=
  ⟨rfl, rfl⟩

end MiniLisp.Reader
