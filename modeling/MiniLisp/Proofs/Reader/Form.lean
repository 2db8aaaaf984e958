import MiniLisp.Proofs.Reader.Lexeme
import MiniLisp.Reader.Form

/-!
# Forms: what one lexeme does to what is open

Reading the lexemes of a form goes lexeme by lexeme (`feed`, `parse_cons`). From what one lexeme does follow the facts about
whole forms: their place moves their faults and changes nothing else (`readExtent_shift`); what is read alone is read the same
behind other things that are open (`parse_append`); and a fault is a parse error that lies in the text of its form
(`readExtent_within`).
-/

namespace MiniLisp.Reader

/-- What one lexeme does to what is open: the stack behind it, and the form if it is finished; nothing, if the lexeme cannot
follow. -/
def feed (stack : List Pending) (l : Lexeme) : Option (List Pending × Option Item) :=
  match l.token with
  | .opener b => some (.group b l.span.start [] :: stack, none)
  | .mark m => some (.mark m :: stack, none)
  | .atom text => some (complete (literalItem l.span (readAtom text)) stack)
  | .string raw => some (complete (literalItem l.span (readString raw)) stack)
  | .closer c =>
    match settle stack with
    | .group b start items :: stack =>
      if c == b.closer then some (complete (groupItem b ⟨start, l.span.stop⟩ items.reverse) stack) else none
    | _ => none
  | .stray => none

/-- Lexemes are fed one after another, until one cannot be. -/
theorem parse_cons (stop : Nat) (stack : List Pending) (l : Lexeme) (ls : List Lexeme) :
    parse stop stack none (l :: ls) =
      match feed stack l with
      | some next => parse stop next.1 next.2 ls
      | none => .error l.span.start := by
  rw [parse, feed]
  cases l.token with
  | closer c =>
    simp only
    cases settle stack with
    | nil => rfl
    | cons p stack =>
      cases p with
      | mark m => rfl
      | group b start items => cases h : c == b.closer <;> simp [h]
  | _ => rfl

/-! ## The place of a form -/

def Fault.shift (k : Nat) (f : Fault) : Fault := ⟨f.kind, f.span.shift k⟩

def Item.shift (k : Nat) (item : Item) : Item := item.mapError (Fault.shift k)

def Pending.shift (k : Nat) : Pending → Pending
  | .group b start items => .group b (start + k) (items.map (Item.shift k))
  | .mark m => .mark m

/-- Items in a sequence are moved each. -/
theorem sequenceItems_shift (k : Nat) (items : List Item) :
    sequenceItems (items.map (Item.shift k)) = (sequenceItems items).mapError (Fault.shift k) := by
  induction items with
  | nil => rfl
  | cons item items ih =>
    cases item with
    | error f => rfl
    | ok v =>
      have hcons : ∀ is, sequenceItems (.ok v :: is) = (sequenceItems is).map (v :: ·) := fun _ => rfl
      rw [List.map_cons, hcons]
      change sequenceItems (.ok v :: items.map (Item.shift k)) = _
      rw [hcons, ih]
      cases sequenceItems items <;> rfl

/-- A group that is moved has its items moved. -/
theorem groupItem_shift (k : Nat) (b : Bracket) (span : Span) (items : List Item) :
    groupItem b (span.shift k) (items.map (Item.shift k)) = (groupItem b span items).shift k := by
  unfold groupItem
  rw [sequenceItems_shift]
  cases sequenceItems items with
  | error f => rfl
  | ok values =>
    cases b with
    | map =>
      have hmap (span : Span) (pairs : Bool) :
          (if pairs then .ok (.mapForm (pairUp values)) else .error ⟨.oddMapLiteral values.length, span.shift k⟩ : Item) =
            Item.shift k (if pairs then .ok (.mapForm (pairUp values)) else .error ⟨.oddMapLiteral values.length, span⟩) := by
        cases pairs <;> rfl
      exact hmap span _
    | _ => rfl

/-- What an item completes is moved with it. -/
theorem complete_shift (k : Nat) (item : Item) (stack : List Pending) :
    complete (item.shift k) (stack.map (Pending.shift k)) =
      ((complete item stack).1.map (Pending.shift k), (complete item stack).2.map (Item.shift k)) := by
  fun_induction complete item stack with
  | case1 => rfl
  | case2 item m stack ih =>
    rw [← ih]
    cases item <;> rfl
  | case3 => rfl

/-- What is settled is moved as it is. -/
theorem settle_shift (k : Nat) (stack : List Pending) :
    settle (stack.map (Pending.shift k)) = (settle stack).map (Pending.shift k) := by
  match stack with
  | [] => rfl
  | .group .. :: _ => rfl
  | .mark .splice :: stack => exact congrArg Prod.fst (complete_shift k (.ok (.wrap "unquote" (.sym "@"))) stack)
  | .mark .quote :: _ | .mark .quasiquote :: _ | .mark .unquote :: _ => rfl

/-- A literal that is moved is the same literal elsewhere. -/
theorem literalItem_shift (k : Nat) (span : Span) (read : Except ErrorKind Value) :
    literalItem (span.shift k) read = Item.shift k (literalItem span read) := by
  cases read <;> rfl

/-- A lexeme that is moved does the same elsewhere. -/
theorem feed_shift (k : Nat) (stack : List Pending) (l : Lexeme) :
    feed (stack.map (Pending.shift k)) (l.shift k) =
      (feed stack l).map fun next => (next.1.map (Pending.shift k), next.2.map (Item.shift k)) := by
  obtain ⟨token, span⟩ := l
  cases token with
  | atom text => simp only [feed, Lexeme.shift, literalItem_shift, complete_shift]; rfl
  | string raw => simp only [feed, Lexeme.shift, literalItem_shift, complete_shift]; rfl
  | closer c =>
    simp only [feed, Lexeme.shift, settle_shift]
    cases settle stack with
    | nil => rfl
    | cons p stack =>
      cases p with
      | mark m => rfl
      | group b start items =>
        cases h : c == b.closer with
        | false => simp [Pending.shift, h]
        | true =>
          simp only [List.map_cons, Pending.shift, h, if_true, Option.map_some, ← complete_shift, ← groupItem_shift,
            List.map_reverse]
          rfl
  | _ => rfl

/-- Moved lexemes are parsed as the same item elsewhere. -/
theorem parse_shift (k stop : Nat) (stack : List Pending) (finished : Option Item) (ls : List Lexeme) :
    parse (stop + k) (stack.map (Pending.shift k)) (finished.map (Item.shift k)) (ls.map (Lexeme.shift k)) =
      match parse stop stack finished ls with
      | .ok item => .ok (item.shift k)
      | .error position => .error (position + k) := by
  induction ls generalizing stack finished with
  | nil => cases finished <;> rfl
  | cons l ls ih =>
    cases finished with
    | some item => rfl
    | none =>
      rw [List.map_cons, Option.map_none, parse_cons, parse_cons, feed_shift]
      cases feed stack l with
      | none => rfl
      | some next => exact ih next.1 next.2

/-- A complaint is moved with what it is about. -/
theorem malformed_shift (k : Nat) (extent : List Char) (span : Span) (position : Nat) :
    malformed extent (span.shift k) (position + k) = (malformed extent span position).shift k := by
  have hstart : position + k - (span.start + k) = position - span.start := by omega
  have hstop : min (position + k + 1) (span.stop + k) = min (position + 1) span.stop + k := by omega
  simp only [malformed, Span.shift, Fault.shift, hstart, hstop]

/-- The place of a form moves the place of its fault, and changes nothing else. -/
theorem readExtent_shift (k : Nat) (extent : List Char) (span : Span) :
    readExtent extent (span.shift k) = (readExtent extent span).shift k := by
  have hparse := parse_shift k span.stop [] none (lex .code span.start extent)
  rw [← lex_shift, List.map_nil, Option.map_none] at hparse
  simp only [readExtent]
  rw [show (span.shift k).stop = span.stop + k from rfl, show (span.shift k).start = span.start + k from rfl, hparse]
  cases parse span.stop [] none (lex .code span.start extent) with
  | ok item => rfl
  | error position => simp only [malformed_shift]; rfl

/-! ## What is open around a form -/

/-- A stack and a finished form, in what is open around them. -/
def rebase (base : List Pending) (next : List Pending × Option Item) : List Pending × Option Item :=
  match next.2 with
  | none => (next.1 ++ base, none)
  | some item => complete item base

/-- An item completes what is open on top, whatever lies below. -/
theorem complete_append (base : List Pending) (item : Item) (stack : List Pending) :
    complete item (stack ++ base) = rebase base (complete item stack) := by
  fun_induction complete item stack with
  | case1 => rfl
  | case2 item m stack ih => exact ih
  | case3 => rfl

/-- An item either goes into an open form or is left alone. -/
theorem complete_cases (item : Item) (stack : List Pending) :
    (complete item stack).2 = none ∨ (complete item stack).1 = [] := by
  fun_induction complete item stack with
  | case1 => exact .inr rfl
  | case2 item m stack ih => exact ih
  | case3 => exact .inl rfl

/-- What is settled on top leaves what lies below. -/
theorem settle_append (base : List Pending) {stack : List Pending} (h : settle stack ≠ []) :
    settle (stack ++ base) = settle stack ++ base := by
  match stack with
  | [] => exact absurd rfl h
  | .group .. :: _ => rfl
  | .mark .splice :: stack =>
    have hnone := (complete_cases (.ok (.wrap "unquote" (.sym "@"))) stack).resolve_right h
    simp only [List.cons_append, settle, complete_append, rebase, hnone]
  | .mark .quote :: _ | .mark .quasiquote :: _ | .mark .unquote :: _ => rfl

/-- A lexeme that can follow does the same, whatever is open around. -/
theorem feed_append (base : List Pending) {stack : List Pending} {l : Lexeme} {next : List Pending × Option Item}
    (h : feed stack l = some next) : feed (stack ++ base) l = some (rebase base next) := by
  unfold feed at h ⊢
  cases ht : l.token with
  | closer c =>
    simp only [ht] at h ⊢
    match hs : settle stack with
    | [] => simp [hs] at h
    | .mark m :: _ => simp [hs] at h
    | .group b start items :: stack' =>
      rw [settle_append base (by simp [hs]), hs]
      simp only [hs, List.cons_append] at h ⊢
      split at h
      · rename_i hc
        cases h
        simp only [hc, if_true, complete_append]
      · cases h
  | stray => simp [ht] at h
  | opener b =>
    simp only [ht] at h ⊢
    cases h
    rfl
  | mark m =>
    simp only [ht] at h ⊢
    cases h
    rfl
  | _ =>
    simp only [ht] at h ⊢
    cases h
    rw [complete_append]

/-- A form that is read alone is read the same inside of other things and before other lexemes: it is completed there. -/
theorem parse_append {stop : Nat} {stack : List Pending} {ls : List Lexeme} {item : Item}
    (h : parse stop stack none ls = .ok item) (stop' : Nat) (base : List Pending) (more : List Lexeme) :
    parse stop' (stack ++ base) none (ls ++ more) = parse stop' (complete item base).1 (complete item base).2 more := by
  induction ls generalizing stack with
  | nil => cases h
  | cons l ls ih =>
    rw [parse_cons] at h
    rw [List.cons_append, parse_cons]
    cases hf : feed stack l with
    | none => simp [hf] at h
    | some next =>
      obtain ⟨stack', finished⟩ := next
      simp only [hf, feed_append base hf] at h ⊢
      cases finished with
      | none => exact ih h
      | some done =>
        -- a finished form is followed by no lexeme of its own
        cases ls with
        | nil => cases h; rfl
        | cons => cases h

/-- A form that is built correctly has no lexeme with which nothing can begin. -/
theorem not_stray_of_parse {stop : Nat} {stack : List Pending} {finished : Option Item} {ls : List Lexeme} {item : Item}
    (h : parse stop stack finished ls = .ok item) : ∀ l ∈ ls, l.token ≠ .stray := by
  induction ls generalizing stack finished with
  | nil => exact fun _ hl => nomatch hl
  | cons l ls ih =>
    cases finished with
    | some done => cases h
    | none =>
      rw [parse_cons] at h
      cases hf : feed stack l with
      | none => simp [hf] at h
      | some next =>
        simp only [hf] at h
        intro l' hl' hstray
        rcases List.mem_cons.mp hl' with rfl | hl'
        · simp [feed, hstray] at hf
        · exact ih h l' hl' hstray

/-! ## The place of a fault -/

/-- A parse error that lies in the text at a place. -/
def Fault.Within (c : Cursor) (f : Fault) : Prop := f.kind.category = .parse ∧ c.Covers f.span

/-- The fault of an item, if it has one, lies in the text at a place. -/
def Item.Within (c : Cursor) (item : Item) : Prop := ∀ f, item = .error f → f.Within c

/-- What is open began in the text at a place, before all lexemes that are left, and has only faults in that text. -/
def Pending.Within (c : Cursor) (ls : List Lexeme) : Pending → Prop
  | .group _ start items => c.Sees start ∧ (∀ l ∈ ls, start ≤ l.span.start) ∧ ∀ item ∈ items, Item.Within c item
  | .mark _ => True

/-- A complaint about an atom is a parse error. -/
theorem category_of_readAtom {text : List Char} {kind : ErrorKind} (h : readAtom text = .error kind) :
    kind.category = .parse := by
  unfold readAtom at h
  split at h
  · unfold readNumber at h
    grind [ErrorKind.category]
  split at h
  · cases h
  split at h
  · cases h
  · unfold readSymbol at h
    grind [ErrorKind.category]

/-- What fails after a change failed before it. -/
theorem error_of_map {α β : Type} {f : α → β} {x : Except ErrorKind α} {kind : ErrorKind} (h : x.map f = .error kind) :
    x = .error kind := by
  cases x with
  | ok => cases h
  | error => cases h; rfl

/-- A complaint about an escape is a parse error. -/
theorem category_of_unescape {raw : List Char} {kind : ErrorKind} (h : unescape raw = .error kind) :
    kind.category = .parse := by
  fun_induction unescape raw with
  | case1 => cases h
  | case2 c cs d _ ih => exact ih (error_of_map h)
  | case3 => cases h; rfl
  | case4 => cases h; rfl
  | case5 c cs _ _ ih => exact ih (error_of_map h)

/-- So is a complaint about a string. -/
theorem category_of_readString {raw : List Char} {kind : ErrorKind} (h : readString raw = .error kind) :
    kind.category = .parse :=
  category_of_unescape (error_of_map h)

/-- A literal lies where its text does. -/
theorem Item.Within.literal {c : Cursor} {span : Span} {read : Except ErrorKind Value} (hs : c.Covers span)
    (h : ∀ kind, read = .error kind → kind.category = .parse) : Item.Within c (literalItem span read) := by
  intro f hf
  cases read with
  | ok => cases hf
  | error kind => cases hf; exact ⟨h kind rfl, hs⟩

/-- A form behind a mark lies where the form does. -/
theorem Item.Within.marked {c : Cursor} {item : Item} (h : item.Within c) (m : Mark) : Item.Within c (markItem m item) := by
  intro f hf
  cases item with
  | ok => cases hf
  | error => cases hf; exact h _ rfl

/-- A sequence fails with the failure of one of its items. -/
theorem sequenceItems_error {items : List Item} {f : Fault} (h : sequenceItems items = .error f) : .error f ∈ items := by
  induction items with
  | nil => cases h
  | cons item items ih =>
    cases item with
    | error => cases h; exact List.mem_cons_self
    | ok v =>
      have hitems : sequenceItems items = .error f := by
        cases hs : sequenceItems items with
        | ok vs => simp [sequenceItems, hs, bind, Except.bind, pure, Except.pure] at h
        | error => simpa [sequenceItems, hs, bind, Except.bind] using h
      exact List.mem_cons_of_mem _ (ih hitems)

/-- A group lies where its items do. -/
theorem Item.Within.group {c : Cursor} {span : Span} {items : List Item} (hs : c.Covers span)
    (h : ∀ item ∈ items, Item.Within c item) (b : Bracket) : Item.Within c (groupItem b span items) := by
  intro f hf
  cases hv : sequenceItems items with
  | error =>
    simp only [groupItem, hv, bind, Except.bind, Except.error.injEq] at hf
    exact h _ (sequenceItems_error hv) f (by rw [hf])
  | ok values =>
    simp only [groupItem, hv, bind, Except.bind] at hf
    cases b with
    | map =>
      simp only at hf
      split at hf
      · cases hf
      · cases hf
        exact ⟨rfl, hs⟩
    | _ => cases hf

/-- Everything that is open, and the form if it is finished, has only faults in the text at a place. -/
structure OpenWithin (c : Cursor) (ls : List Lexeme) (next : List Pending × Option Item) : Prop where
  stack : ∀ p ∈ next.1, Pending.Within c ls p
  finished : ∀ item, next.2 = some item → item.Within c

/-- What an item completes lies within the text. -/
theorem OpenWithin.complete {c : Cursor} {ls : List Lexeme} {item : Item} {stack : List Pending} (hi : item.Within c)
    (hs : ∀ p ∈ stack, Pending.Within c ls p) : OpenWithin c ls (complete item stack) := by
  fun_induction Reader.complete item stack with
  | case1 item =>
    refine ⟨fun _ hp => (nomatch hp), fun done h => ?_⟩
    cases h
    exact hi
  | case2 item m stack ih => exact ih (hi.marked m) fun p hp => hs p (List.mem_cons_of_mem _ hp)
  | case3 item b start items stack =>
    obtain ⟨hsees, hle, hitems⟩ := hs _ List.mem_cons_self
    refine ⟨fun p hp => ?_, fun _ h => nomatch h⟩
    rcases List.mem_cons.mp hp with rfl | hp
    · refine ⟨hsees, hle, fun item' h => ?_⟩
      rcases List.mem_cons.mp h with rfl | h
      · exact hi
      · exact hitems item' h
    · exact hs p (List.mem_cons_of_mem _ hp)

/-- What is settled lies within the text. -/
theorem settle_within {c : Cursor} {ls : List Lexeme} {stack : List Pending} (hs : ∀ p ∈ stack, Pending.Within c ls p) :
    ∀ p ∈ settle stack, Pending.Within c ls p := by
  match stack with
  | .mark .splice :: stack =>
    have hat : Item.Within c (.ok (.wrap "unquote" (.sym "@"))) := fun _ h => nomatch h
    exact (OpenWithin.complete hat fun p hp => hs p (List.mem_cons_of_mem _ hp)).stack
  | [] | .group .. :: _ | .mark .quote :: _ | .mark .quasiquote :: _ | .mark .unquote :: _ => exact hs

/-- What is open stays within the text while lexemes are taken. -/
theorem Pending.Within.tail {c : Cursor} {l : Lexeme} {ls : List Lexeme} {p : Pending} (h : p.Within c (l :: ls)) :
    p.Within c ls := by
  cases p with
  | mark => trivial
  | group => exact ⟨h.1, fun l' hl' => h.2.1 l' (List.mem_cons_of_mem _ hl'), h.2.2⟩

/-- What one lexeme keeps: all that is open lies in the text. -/
theorem feed_within {c : Cursor} {l : Lexeme} {ls : List Lexeme} {stack : List Pending} {next : List Pending × Option Item}
    (h : feed stack l = some next) (hl : c.Covers l.span) (ho : ∀ l' ∈ ls, l.span.start ≤ l'.span.start)
    (hs : ∀ p ∈ stack, Pending.Within c (l :: ls) p) : OpenWithin c ls next := by
  have htail : ∀ p ∈ stack, Pending.Within c ls p := fun p hp => (hs p hp).tail
  unfold feed at h
  cases ht : l.token with
  | opener b =>
    simp only [ht, Option.some.injEq] at h
    subst h
    refine ⟨fun p hp => ?_, fun _ h => nomatch h⟩
    rcases List.mem_cons.mp hp with rfl | hp
    · exact ⟨hl.1, ho, fun _ h => nomatch h⟩
    · exact htail p hp
  | mark m =>
    simp only [ht, Option.some.injEq] at h
    subst h
    refine ⟨fun p hp => ?_, fun _ h => nomatch h⟩
    rcases List.mem_cons.mp hp with rfl | hp
    · trivial
    · exact htail p hp
  | atom text =>
    simp only [ht, Option.some.injEq] at h
    subst h
    exact .complete (.literal hl fun _ => category_of_readAtom) htail
  | string raw =>
    simp only [ht, Option.some.injEq] at h
    subst h
    exact .complete (.literal hl fun _ => category_of_readString) htail
  | closer d =>
    have hsettled := settle_within hs
    simp only [ht] at h
    match hst : settle stack with
    | [] => simp [hst] at h
    | .mark m :: _ => simp [hst] at h
    | .group b start items :: stack' =>
      rw [hst] at hsettled
      obtain ⟨hsees, hle, hitems⟩ := hsettled _ List.mem_cons_self
      -- the group began before its closer, which is a lexeme of the text
      have hspan : c.Covers ⟨start, l.span.stop⟩ := ⟨hsees, Nat.le_trans (hle l List.mem_cons_self) hl.2.1, hl.2.2⟩
      simp only [hst] at h
      split at h
      · cases h
        refine .complete (.group hspan (fun item hi => hitems item (List.mem_reverse.mp hi)) b) fun p hp => ?_
        exact (hsettled p (List.mem_cons_of_mem _ hp)).tail
      · cases h
  | stray => simp [ht] at h

/-- What all lexemes of a form keep. A form that is not built correctly goes wrong at a lexeme, or at its end. -/
theorem parse_within {c : Cursor} {stop : Nat} {ls : List Lexeme} {next : List Pending × Option Item}
    (hn : OpenWithin c ls next) (hl : ∀ l ∈ ls, c.Covers l.span)
    (ho : ls.Pairwise fun l l' => l.span.start ≤ l'.span.start) :
    match parse stop next.1 next.2 ls with
    | .ok item => item.Within c
    | .error position => position = stop ∨ ∃ l ∈ ls, position = l.span.start := by
  induction ls generalizing next with
  | nil =>
    obtain ⟨stack, finished⟩ := next
    cases finished with
    | none => exact .inl rfl
    | some item => exact hn.finished item rfl
  | cons l ls ih =>
    obtain ⟨stack, finished⟩ := next
    cases finished with
    | some item => exact .inr ⟨l, List.mem_cons_self, rfl⟩
    | none =>
      rw [parse_cons]
      obtain ⟨hfirst, ho⟩ := List.pairwise_cons.mp ho
      cases hf : feed stack l with
      | none => exact .inr ⟨l, List.mem_cons_self, rfl⟩
      | some next =>
        have hnext := feed_within hf (hl l List.mem_cons_self) hfirst hn.stack
        have hrest := ih hnext (fun l' hl' => hl l' (List.mem_cons_of_mem _ hl')) ho
        simp only
        split
        · rename_i item hp
          simpa only [hp] using hrest
        · rename_i position hp
          simp only [hp] at hrest
          exact hrest.imp_right fun ⟨l', hl', he⟩ => ⟨l', List.mem_cons_of_mem _ hl', he⟩

/-- The fault of a form is a parse error that lies in the text of the form. -/
theorem readExtent_within {extent : List Char} {offset : Nat} {f : Fault} (hclosed : Context.code.after extent = .code)
    (h : readExtent extent ⟨offset, offset + byteLength extent⟩ = .error f) : f.Within ⟨offset, extent⟩ := by
  have hcovers := @lex_covers .code extent offset hclosed
  have hparse := @parse_within ⟨offset, extent⟩ (offset + byteLength extent) _ ([], none)
    ⟨fun _ hp => (nomatch hp), fun _ h => (nomatch h)⟩ hcovers (@lex_ordered .code extent offset hclosed)
  unfold readExtent at h
  cases hp : parse (offset + byteLength extent) [] none (lex .code offset extent) with
  | ok item =>
    simp only [hp] at h hparse
    exact hparse f h
  | error position =>
    simp only [hp, Except.error.injEq] at h hparse
    subst h
    have hsees : (⟨offset, extent⟩ : Cursor).Sees position ∧ position ≤ offset + byteLength extent := by
      rcases hparse with rfl | ⟨l, hl, rfl⟩
      · exact ⟨⟨extent, ⟨offset + byteLength extent, []⟩, ⟨by simp, rfl⟩, rfl⟩, Nat.le_refl _⟩
      · exact ⟨(hcovers l hl).1, Nat.le_trans (hcovers l hl).2.1 (hcovers l hl).2.2⟩
    refine ⟨rfl, hsees.1, ?_, Nat.min_le_right _ _⟩
    exact Nat.le_min.mpr ⟨Nat.le_succ _, hsees.2⟩

end MiniLisp.Reader
