import MiniLisp.Pattern
import MiniLisp.Proofs.Expansion.Code

/-!
# What a symbol means as a pattern

A symbol in a pattern, alone or with names for the fields, is looked at in three ways, one after the other
(`symbol_patterns_classified`). If it is bound to a constructor or to a record, it stands for their variant, whatever else the
word may mean, and matches the records of that variant. Otherwise, if it is a built-in tag, it matches the values of a kind. Any
other symbol is refused, as a variable or as an unknown name.

A record counts in this whether it carries fields or not: a variable that holds a record with fields is taken for the tag of its
variant (`record_variable_taken_for_tag`), although only the record of a variant without fields is what a tag is bound to.
-/

namespace MiniLisp

/-! ## Built-in tags -/

/-- The tags that stand for a kind of values wherever they are not bound to a variant. -/
def builtinTags : List Symbol :=
  ["Nil", "Empty", "Pair", "Cons", "Int", "Ratio", "Float", "Number", "String", "Symbol", "Bool", "Vector", "Set", "Map", "Fn"]

/-- The values of the kind that a built-in tag stands for. -/
inductive OfKind : Symbol → Value → Prop where
  | nil : OfKind "Nil" .nil
  | empty : OfKind "Empty" .nil
  | pair (h t : Value) : OfKind "Pair" (.pair h t)
  | cons (h t : Value) : OfKind "Cons" (.pair h t)
  | int (n : Int64) : OfKind "Int" (.num (.int n))
  | big (n : Int) (outside : fitsWord n = false) : OfKind "Int" (.num (.big n outside))
  | ratio (q : Rat) (proper : q.den ≠ 1) : OfKind "Ratio" (.num (.ratio q proper))
  | float (x : Float) : OfKind "Float" (.num (.float x))
  | number (n : Number) : OfKind "Number" (.num n)
  | string (s : String) : OfKind "String" (.str s)
  | symbol (s : Symbol) : OfKind "Symbol" (.sym s)
  | bool (b : Bool) : OfKind "Bool" (.bool b)
  | vector (items : List Value) : OfKind "Vector" (.vector items)
  | set (s : FiniteSet Value) : OfKind "Set" (.set s)
  | map (m : OrderedMap Value Value) : OfKind "Map" (.map m)
  | closure (f : Lambda Value) : OfKind "Fn" (.closure f)
  | native (p : Primitive) : OfKind "Fn" (.native p)
  | constructor (variant : Variant) : OfKind "Fn" (.constructor variant)

/-- The fields of a value that a built-in tag matches: a pair has its head and its tail, any other value has none. -/
def builtinFields (v : Value) : List (Symbol × Value) := (pairFields? v).getD []

/-- A builtin tag gives the fields of a value of its kind. -/
theorem builtinTag?_of_ofKind {tag : Symbol} {v : Value} (h : OfKind tag v) :
    builtinTag? tag v = some (some (builtinFields v)) := by
  cases h with
  | number n => cases n <;> rfl
  | _ => rfl

/-- A value that a built-in tag does not match is of another kind. -/
theorem ofKind_or_builtinTag? {tag : Symbol} (htag : tag ∈ builtinTags) (v : Value) :
    OfKind tag v ∨ builtinTag? tag v = some none := by
  simp only [builtinTags, List.mem_cons, List.not_mem_nil, or_false] at htag
  rcases htag with rfl | rfl | rfl | rfl | rfl | rfl | rfl | rfl | rfl | rfl | rfl | rfl | rfl | rfl | rfl
  -- A number has a kind of its own for each of its forms.
  all_goals
    cases v with
    | num n => cases n <;> first | exact .inr rfl | exact .inl (by constructor)
    | _ => first | exact .inr rfl | exact .inl (by constructor)

theorem builtinTag?_of_not_mem {tag : Symbol} (h : tag ∉ builtinTags) (v : Value) : builtinTag? tag v = none := by
  simp only [builtinTags, List.mem_cons, List.not_mem_nil, or_false, not_or] at h
  have hkinds : tagKinds? tag = none := by
    unfold tagKinds?
    split <;> simp_all
  simp [builtinTag?, h, hkinds]

/-! ## Symbols that stand for a variant -/

/-- What a symbol is bound to where it stands for a variant in patterns: a constructor or a record. -/
inductive StandsForVariant : Value → Variant → Prop where
  | constructor (variant : Variant) : StandsForVariant (.constructor variant) variant
  | record (variant : Variant) (values : List Value) : StandsForVariant (.record variant values) variant

/-- A value that a variable may hold without being taken for the tag of a variant. -/
def Value.Ordinary (v : Value) : Prop := ∀ variant, ¬StandsForVariant v variant

/-- What stands for a variant is found as that variant. -/
theorem StandsForVariant.declaredVariant? {w : Value} {variant : Variant} (h : StandsForVariant w variant) :
    MiniLisp.declaredVariant? w = some variant := by
  cases h <;> rfl

theorem Value.Ordinary.declaredVariant? {w : Value} (h : w.Ordinary) : MiniLisp.declaredVariant? w = none := by
  cases w with
  | constructor variant => exact absurd (.constructor variant) (h variant)
  | record variant values => exact absurd (.record variant values) (h variant)
  | _ => rfl

/-! ## Patterns of one symbol -/

/-- The pattern `tag`, or `(tag name...)` when there are names for the fields. -/
def tagPattern (tag : Symbol) : Option (List Symbol) → Value
  | none => .sym tag
  | some names => .list (.sym tag :: names.map .sym)

/-- The names in a pattern are symbols. -/
theorem fieldNames_map_sym (names : List Symbol) : fieldNames (names.map .sym) = .ok names := by
  induction names with
  | nil => rfl
  | cons name names ih =>
    have hsym : (Value.sym name).expectSymbol "a field name" = .ok name := rfl
    simp [fieldNames, hsym, ih, bind, Except.bind, pure, Except.pure]

/-- A symbol with names behind it is a tag, unless it is the one that quotes. -/
theorem matchPattern_tagPattern (h : Heap) (env : Env) {tag : Symbol} {names : Option (List Symbol)}
    (hquote : names.isSome → tag ≠ "quote") (v : Value) :
    matchPattern h env (tagPattern tag names) v = matchTag h env tag names v := by
  cases names with
  | none => rfl
  | some names =>
    have hform : (Value.pair (.sym tag) (.list (names.map .sym))).isForm "quote" = false := by
      simpa [Value.isForm, Value.headSymbol?] using hquote rfl
    have hfields : (Value.list (names.map .sym)).expectList "pattern field names" = .ok (names.map .sym) := by
      simp [Value.expectList]
    have htag : (Value.sym tag).expectSymbol "a pattern tag" = .ok tag := rfl
    rw [tagPattern, Value.list_cons, matchPattern]
    simp [hform, htag, hfields, fieldNames_map_sym, bind, Except.bind]

/-- The outcome of a pattern whose tag matches a value with these fields: each name is bound to the field in its place, and
unless there are as many names as fields the pattern is refused. -/
structure BindsFields (names : List Symbol) (values : List Value) (outcome : Except Error (Option (List (Symbol × Value)))) :
    Prop where
  bound : names.length = values.length → outcome = .ok (some (names.zip values))
  refused : names.length ≠ values.length → ∃ e, outcome = .error e ∧ e.kind = .arityMismatch (toString values.length) names.length

/-- Values are bound under the names of the pattern, if it has any, else under those of the fields. -/
theorem bindsFields (tag : Symbol) (fields : List Symbol) (values : List Value) (names : Option (List Symbol)) :
    BindsFields (names.getD fields) values ((bindFields tag fields values names).map some) where
  bound hlength := by simp [bindFields, hlength, Except.map]
  refused hlength := by
    simp only [bindFields, if_neg hlength, Except.map]
    exact ⟨_, rfl, rfl⟩

/-! ## The three meanings of a symbol -/

/-- The outcome of a pattern whose symbol stands for a variant: it matches the records of that variant and nothing else. -/
structure MatchesVariant (variant : Variant) (names : Option (List Symbol)) (v : Value)
    (outcome : Except Error (Option (List (Symbol × Value)))) : Prop where
  same : ∀ own values, v = .record own values → variant.same own = true →
    BindsFields (names.getD variant.fields) values outcome
  other : (∀ own values, v = .record own values → variant.same own = false) → outcome = .ok none

/-- The outcome of a pattern whose symbol stands for a kind: it matches the values of that kind and nothing else. -/
structure MatchesKind (tag : Symbol) (names : Option (List Symbol)) (v : Value)
    (outcome : Except Error (Option (List (Symbol × Value)))) : Prop where
  same : OfKind tag v → BindsFields (names.getD ((builtinFields v).map Prod.fst)) ((builtinFields v).map Prod.snd) outcome
  other : ¬OfKind tag v → outcome = .ok none

section Tags

variable (h : Heap) (env : Env) (names : Option (List Symbol)) (v : Value) {tag : Symbol} (hplain : tag ≠ "t" ∧ tag ≠ "_")
include hplain

/-- A tag that stands for a variant matches as that variant does. -/
theorem matchTag_variant {w : Value} {variant : Variant} (hlookup : h.lookup? env tag = some w)
    (hw : StandsForVariant w variant) : MatchesVariant variant names v (matchTag h env tag names v) := by
  have htag : ¬(tag = "t" ∨ tag = "_") := by simpa [not_or] using hplain
  have hdeclared : (h.lookup? env tag).bind declaredVariant? = some variant := by
    rw [hlookup]
    exact hw.declaredVariant?
  simp only [matchTag, if_neg htag, hdeclared]
  constructor
  case same =>
    rintro own values rfl hsame
    simp only [hsame, if_true]
    exact bindsFields tag variant.fields values names
  case other =>
    intro hother
    cases v with
    | record own values => simp [hother own values rfl]
    | _ => rfl

/-- A symbol that is not bound, or bound to an ordinary value, means what the built-in tag means. -/
theorem matchTag_ordinary (hlookup : ∀ w, h.lookup? env tag = some w → w.Ordinary) :
    matchTag h env tag names v =
      match builtinTag? tag v with
      | none => .error (unknownTag h env tag)
      | some none => .ok none
      | some (some fields) => (bindFields tag (fields.map (·.1)) (fields.map (·.2)) names).map some := by
  have htag : ¬(tag = "t" ∨ tag = "_") := by simpa [not_or] using hplain
  have hdeclared : (h.lookup? env tag).bind declaredVariant? = none := by
    cases hbound : h.lookup? env tag with
    | none => rfl
    | some w => exact (hlookup w hbound).declaredVariant?
  match hbuiltin : builtinTag? tag v with
  | none | some none | some (some fields) => simp only [matchTag, if_neg htag, hdeclared, hbuiltin]

/-- A builtin tag that no variant hides matches the values of its kind. -/
theorem matchTag_kind (hlookup : ∀ w, h.lookup? env tag = some w → w.Ordinary) (hbuiltin : tag ∈ builtinTags) :
    MatchesKind tag names v (matchTag h env tag names v) := by
  rw [matchTag_ordinary h env names v hplain hlookup]
  constructor
  case same =>
    intro hkind
    rw [builtinTag?_of_ofKind hkind]
    exact bindsFields tag _ _ names
  case other =>
    intro hkind
    rw [(ofKind_or_builtinTag? hbuiltin v).resolve_left hkind]

/-- Any other tag is refused as unknown. -/
theorem matchTag_unknown (hlookup : ∀ w, h.lookup? env tag = some w → w.Ordinary) (hbuiltin : tag ∉ builtinTags) :
    matchTag h env tag names v = .error (unknownTag h env tag) := by
  rw [matchTag_ordinary h env names v hplain hlookup, builtinTag?_of_not_mem hbuiltin]

end Tags

/-- A symbol other than the two that match everything, alone or with names for the fields, is classified by what it is bound to
and by the table of built-in tags. Bound to a constructor or to a record, it matches exactly the records of their variant. Bound
to nothing or to an ordinary value, it matches exactly the values of its kind if it is a built-in tag; if it is none, the pattern
is refused as a variable or as an unbound name. Where the pattern matches, it binds the names to the fields in order, or the
fields under their own names, and it is refused when these are not as many as the fields. -/
theorem symbol_patterns_classified (h : Heap) (env : Env) (v : Value) {tag : Symbol} (hplain : tag ≠ "t" ∧ tag ≠ "_")
    (names : Option (List Symbol)) (hquote : names.isSome → tag ≠ "quote") :
    let outcome := matchPattern h env (tagPattern tag names) v
    (∀ w variant, h.lookup? env tag = some w → StandsForVariant w variant → MatchesVariant variant names v outcome) ∧
    ((∀ w, h.lookup? env tag = some w → w.Ordinary) → tag ∈ builtinTags → MatchesKind tag names v outcome) ∧
    (∀ w, h.lookup? env tag = some w → w.Ordinary → tag ∉ builtinTags → ∃ e, outcome = .error e ∧
      e.kind = .typeMismatch "a variant tag" ("`" ++ tag ++ "`, a variable bound to " ++ w.describe)) ∧
    (h.lookup? env tag = none → tag ∉ builtinTags → ∃ e, outcome = .error e ∧ e.kind = .unboundVariable tag) := by
  intro outcome
  have hmatch : outcome = matchTag h env tag names v := matchPattern_tagPattern h env hquote v
  rw [hmatch]
  refine ⟨fun w variant hlookup hw => ?_, fun hlookup hbuiltin => ?_, fun w hlookup hw hbuiltin => ?_, fun hlookup hbuiltin => ?_⟩
  · exact matchTag_variant h env names v hplain hlookup hw
  · exact matchTag_kind h env names v hplain hlookup hbuiltin
  · have hordinary : ∀ w', h.lookup? env tag = some w' → w'.Ordinary := by
      intro w' hw'
      rw [hlookup] at hw'
      cases hw'
      exact hw
    refine ⟨_, matchTag_unknown h env names v hplain hordinary hbuiltin, ?_⟩
    simp [unknownTag, hlookup, Error.withHelp, Error.typeMismatch, Error.ofKind]
  · have hordinary : ∀ w, h.lookup? env tag = some w → w.Ordinary := by simp [hlookup]
    refine ⟨_, matchTag_unknown h env names v hplain hordinary hbuiltin, ?_⟩
    simp [unknownTag, hlookup, Error.withHelp, Error.unboundVariable, Error.ofKind]

/-- The variant `(A x)` of a type `T`. -/
def variantA : Variant := ⟨"T", "A", ["x"]⟩

/-- A heap in which `p` holds the record `(A true)` and `q` holds a truth value. -/
def recordHeap : Heap where
  frames := #[{ bindings := [("p", 0), ("q", 1)] }]
  slots := #[⟨.record variantA [.bool true], false⟩, ⟨.bool true, false⟩]

/-- The four meanings in one heap: `p`, which holds a record, matches another record of the variant and binds its field, and with
two names it is refused; `(Cons a b)` takes a pair apart; `q` is a variable, and `r` is not bound. -/
theorem symbol_patterns_classified_in_heap :
    let env : Env := ⟨0, []⟩
    let v : Value := .record variantA [.bool false]
    ("p" ≠ "t" ∧ "p" ≠ "_" ∧ "Cons" ≠ "quote") ∧
    matchPattern recordHeap env (tagPattern "p" none) v = .ok (some [("x", .bool false)]) ∧
    (∃ e, matchPattern recordHeap env (tagPattern "p" (some ["a", "b"])) v = .error e ∧ e.kind = .arityMismatch "1" 2) ∧
    matchPattern recordHeap env (tagPattern "Cons" (some ["a", "b"])) (.pair v .nil) = .ok (some [("a", v), ("b", .nil)]) ∧
    matchPattern recordHeap env (tagPattern "Cons" none) v = .ok none ∧
    (∃ e, matchPattern recordHeap env (tagPattern "q" none) v = .error e ∧
      e.kind = .typeMismatch "a variant tag" "`q`, a variable bound to bool true") ∧
    ∃ e, matchPattern recordHeap env (tagPattern "r" none) v = .error e ∧ e.kind = .unboundVariable "r" := by
  intro env v
  have hp : recordHeap.lookup? env "p" = some (.record variantA [.bool true]) := rfl
  have hcons : ∀ w, recordHeap.lookup? env "Cons" = some w → w.Ordinary := by
    intro w hw
    cases hw
  have htrue : (Value.bool true).Ordinary := by
    intro variant hstands
    cases hstands
  have hA (names : Option (List Symbol)) :
      MatchesVariant variantA names v (matchPattern recordHeap env (tagPattern "p" names) v) :=
    (symbol_patterns_classified recordHeap env v (by decide) names fun _ => by decide).1 _ _ hp (.record variantA _)
  have hkind (names : Option (List Symbol)) (v : Value) :
      MatchesKind "Cons" names v (matchPattern recordHeap env (tagPattern "Cons" names) v) :=
    (symbol_patterns_classified recordHeap env v (by decide) names fun _ => by decide).2.1 hcons (by decide)
  refine ⟨by decide, ?_, ?_, ?_, ?_, ?_, ?_⟩
  · exact ((hA none).same variantA _ rfl rfl).bound rfl
  · exact ((hA (some ["a", "b"])).same variantA _ rfl rfl).refused (by decide)
  · exact ((hkind (some ["a", "b"]) (.pair v .nil)).same (.cons v .nil)).bound rfl
  · exact (hkind none v).other fun hcons => nomatch builtinTag?_of_ofKind hcons
  · exact (symbol_patterns_classified recordHeap env v (by decide) none (by simp)).2.2.1 (.bool true) rfl htrue (by decide)
  · exact (symbol_patterns_classified recordHeap env v (by decide) none (by simp)).2.2.2 rfl (by decide)

/-- A variable that holds a record with a field is taken for the tag of its variant: `p` matches another record of the variant
and binds its field. A variable that holds anything else is refused. -/
theorem record_variable_taken_for_tag :
    matchPattern recordHeap ⟨0, []⟩ (.sym "p") (.record variantA [.bool false]) = .ok (some [("x", .bool false)]) ∧
      ∃ e, matchPattern recordHeap ⟨0, []⟩ (.sym "q") (.record variantA [.bool false]) = .error e ∧
        e.kind = .typeMismatch "a variant tag" "`q`, a variable bound to bool true" :=
  ⟨rfl, _, rfl, rfl⟩

end MiniLisp
