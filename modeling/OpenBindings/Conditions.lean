import OpenBindings.Bounds

/-! # What soundness of the decider needs

`compat` reads a few keywords and skips the rest, so it is sound only on schemas where what it
skips does not constrain. `WellFormed` asks that every keyword it reads hold a value of the kind
it expects, as in a normalized schema; `OutputLocal` and `InputLocal` ask, at one pair of
compared schemas, what each direction needs: the side an instance is known to satisfy lists its
types (the object, number and string rules are consulted only for listed types), and no keyword
of the side that must be contained constrains where the other side has nothing to compare with.
These are the places the rules skip: outside them the decider is unsound, against its comments
(`Soundness`).
`Aligned` asks one of them at every pair of positions `compat` compares.

Each condition has a checker (`wellFormedCheck`, `outputLocalCheck`, `inputLocalCheck`,
`alignedCheck`) that computes it on concrete schemas, with a lemma that the checker implies it. -/

namespace OpenBindings.SchemaProfile

open CanonicalJson Float64 Normalizer

/-! ### The conditions -/

/-- The keywords holding numeric bounds. -/
def boundKeywords : List String :=
  ["minimum", "maximum", "exclusiveMinimum", "exclusiveMaximum", "minLength", "maxLength",
    "minItems", "maxItems"]

/-- Every keyword the decider compares holds a value of the kind its rules read, as in a
normalized schema, and the schema has no `$ref` or `allOf` left. -/
structure WellFormed (s : JObj) : Prop where
  noRef : lookup s "$ref" = none
  noAllOf : lookup s "allOf" = none
  type : ∀ v, lookup s "type" = some v → ∃ ts, v = strArr ts
  enum : ∀ v, lookup s "enum" = some v → ∃ vs, v = .arr vs
  bounds : ∀ k ∈ boundKeywords, NumOrAbsent s k
  propSchemas : ∀ p v, lookup (objAt s "properties") p = some v → ∃ m, v = .obj m
  items : ∀ v, lookup s "items" = some v → ∃ m, v = .obj m

/-- The property names of a schema. -/
def propNames (s : JObj) (p : String) : Bool := hasKey (objAt s "properties") p

/-- What the output rules need of a target `t` and a candidate `c` compared at one position. -/
structure OutputLocal (t c : JObj) : Prop where
  wf_t : WellFormed t
  wf_c : WellFormed c
  typed : t ≠ [] → c ≠ [] → lookup c "type" ≠ none
  constEnum : ¬ (hasKey t "const" = true ∧ hasKey t "enum" = true)
  union : ¬ (hasKey t "oneOf" = true ∧ hasKey t "anyOf" = true)
  props : (∀ p, propNames t p = true → propNames c p = true) ∨
    lookup c "additionalProperties" = some (.bool false)
  extra : ∀ m, lookup t "additionalProperties" = some (.obj m) →
    ∀ p, propNames c p = true → propNames t p = true

/-- What the input rules need of a target `t` and a candidate `c` compared at one position.
`values`, `lower`, `upper` and `lengths` exclude the candidate-only constraints the input rules
skip (`compat.go:181-213`, `:504-515`, `:655-667`), where the code breaks the promise
`interface ⊆ candidate` of `compat.go:3`. -/
structure InputLocal (t c : JObj) : Prop where
  wf_t : WellFormed t
  wf_c : WellFormed c
  typed : t ≠ [] → c ≠ [] → lookup t "type" ≠ none
  constEnum : ¬ (hasKey c "const" = true ∧ hasKey c "enum" = true)
  union : ¬ (hasKey c "oneOf" = true ∧ hasKey c "anyOf" = true)
  values : (hasKey c "const" || hasKey c "enum") = true → (hasKey t "const" || hasKey t "enum") = true
  lower : (hasKey c "minimum" || hasKey c "exclusiveMinimum") = true →
    (hasKey t "minimum" || hasKey t "exclusiveMinimum") = true
  upper : (hasKey c "maximum" || hasKey c "exclusiveMaximum") = true →
    (hasKey t "maximum" || hasKey t "exclusiveMaximum") = true
  lengths : ∀ k ∈ ["minLength", "maxLength", "minItems", "maxItems"], hasKey c k = true →
    hasKey t k = true
  props : (∀ p, propNames c p = true → propNames t p = true) ∨
    lookup t "additionalProperties" = some (.bool false)

/-- `L` holds at every pair of positions `compat` compares: the two schemas, the two schemas of
a property both declare, the two `additionalProperties` schemas, the two `items` schemas, and
every variant of one union against every variant of the other. -/
inductive Aligned (L : JObj → JObj → Prop) : JObj → JObj → Prop
  | node {t c : JObj} (here : L t c)
    (props : ∀ p tv cv, lookup (objAt t "properties") p = some (.obj tv) →
      lookup (objAt c "properties") p = some (.obj cv) → Aligned L tv cv)
    (additional : ∀ ta ca, lookup t "additionalProperties" = some (.obj ta) →
      lookup c "additionalProperties" = some (.obj ca) → Aligned L ta ca)
    (items : ∀ ti ci, lookup t "items" = some (.obj ti) → lookup c "items" = some (.obj ci) →
      Aligned L ti ci)
    (variants : ∀ vs ws, unionVariants t = some vs → unionVariants c = some ws →
      ∀ v ∈ vs, ∀ w ∈ ws, Aligned L v w) : Aligned L t c

/-! ### The conditions, computed -/

/-- `v` is an array of strings, the form `normalizeType` gives `type`. -/
def isStrArr : JValue → Bool
  | .arr xs => xs.all fun x => match x with
    | .str _ => true
    | _ => false
  | _ => false

theorem eq_strArr_of_isStrArr {v : JValue} (h : isStrArr v = true) : ∃ ts, v = strArr ts := by
  cases v with
  | arr xs =>
    induction xs with
    | nil => exact ⟨[], rfl⟩
    | cons x xs ih =>
      simp only [isStrArr, List.all_cons, Bool.and_eq_true] at h
      cases x with
      | str s =>
        obtain ⟨ts, hts⟩ := ih h.2
        exact ⟨s :: ts, by simp only [strArr, JValue.arr.injEq] at hts ⊢; rw [hts]; rfl⟩
      | _ => exact absurd h.1 Bool.false_ne_true
  | _ => exact absurd h Bool.false_ne_true

/-- The JSON kind of a value, as the checkers test it. -/
def isKind (k : String) : JValue → Bool
  | .arr _ => k == "array"
  | .obj _ => k == "object"
  | .num _ => k == "number"
  | _ => false

theorem eq_arr_of_isKind {v : JValue} (h : isKind "array" v = true) : ∃ vs, v = .arr vs := by
  cases v <;> simp_all [isKind]

theorem eq_obj_of_isKind {v : JValue} (h : isKind "object" v = true) : ∃ m, v = .obj m := by
  cases v <;> simp_all [isKind]

theorem eq_num_of_isKind {v : JValue} (h : isKind "number" v = true) : ∃ f, v = .num f := by
  cases v <;> simp_all [isKind]

/-- `WellFormed`, computed. -/
def wellFormedCheck (s : JObj) : Bool :=
  (lookup s "$ref").isNone && (lookup s "allOf").isNone && (lookup s "type").all isStrArr &&
    (lookup s "enum").all (isKind "array") &&
    boundKeywords.all (fun k => (lookup s k).all (isKind "number")) &&
    (objAt s "properties").all (fun kv => isKind "object" kv.2) &&
    (lookup s "items").all (isKind "object")

theorem WellFormed.of_check {s : JObj} (h : wellFormedCheck s = true) : WellFormed s := by
  simp only [wellFormedCheck, Bool.and_eq_true, Option.isNone_iff_eq_none, List.all_eq_true] at h
  obtain ⟨⟨⟨⟨⟨⟨hr, ha⟩, ht⟩, he⟩, hb⟩, hp⟩, hi⟩ := h
  refine ⟨hr, ha, fun v hv => ?_, fun v hv => ?_, fun k hk v hv => ?_, fun p v hv => ?_,
    fun v hv => ?_⟩
  · rw [hv] at ht; exact eq_strArr_of_isStrArr ht
  · rw [hv] at he; exact eq_arr_of_isKind he
  · have hk := hb k hk; rw [hv] at hk; exact eq_num_of_isKind hk
  · exact eq_obj_of_isKind (hp _ (lookup_eq_some_mem hv))
  · rw [hv] at hi; exact eq_obj_of_isKind hi

/-- A condition on the names of a map, checked member by member, holds of every name it has. -/
theorem of_hasKey_of_all {m : JObj} {q : String → Bool} (h : (m.all fun kv => q kv.1) = true)
    {p : String} (hp : hasKey m p = true) : q p = true := by
  obtain ⟨v, hv⟩ := Option.isSome_iff_exists.1 hp
  exact List.all_eq_true.1 h _ (lookup_eq_some_mem hv)

theorem ne_nil_of_isEmpty {s : JObj} (h : s ≠ []) : s.isEmpty = false := by
  cases s
  · exact absurd rfl h
  · rfl

/-- `OutputLocal`, computed. -/
def outputLocalCheck (t c : JObj) : Bool :=
  wellFormedCheck t && wellFormedCheck c && (t.isEmpty || c.isEmpty || hasKey c "type") &&
    !(hasKey t "const" && hasKey t "enum") && !(hasKey t "oneOf" && hasKey t "anyOf") &&
    ((objAt t "properties").all (fun kv => propNames c kv.1) ||
      decide (lookup c "additionalProperties" = some (.bool false))) &&
    (match lookup t "additionalProperties" with
      | some (.obj _) => (objAt c "properties").all fun kv => propNames t kv.1
      | _ => true)

theorem OutputLocal.of_check {t c : JObj} (h : outputLocalCheck t c = true) : OutputLocal t c := by
  simp only [outputLocalCheck, Bool.and_eq_true, Bool.or_eq_true, decide_eq_true_eq] at h
  obtain ⟨⟨⟨⟨⟨⟨hwt, hwc⟩, hty⟩, hce⟩, hun⟩, hps⟩, hext⟩ := h
  refine ⟨.of_check hwt, .of_check hwc, fun ht hc hn => ?_, fun ⟨h1, h2⟩ => ?_,
    fun ⟨h1, h2⟩ => ?_, hps.imp_left fun hall _ => of_hasKey_of_all hall, fun ma hma _ => ?_⟩
  · simp [ne_nil_of_isEmpty ht, ne_nil_of_isEmpty hc, hasKey, hn] at hty
  · simp [h1, h2] at hce
  · simp [h1, h2] at hun
  · rw [hma] at hext; exact of_hasKey_of_all hext

theorem imp_of_check {a b : Bool} (h : (!a || b) = true) (ha : a = true) : b = true := by
  simpa [ha] using h

/-- `InputLocal`, computed. -/
def inputLocalCheck (t c : JObj) : Bool :=
  wellFormedCheck t && wellFormedCheck c && (t.isEmpty || c.isEmpty || hasKey t "type") &&
    !(hasKey c "const" && hasKey c "enum") && !(hasKey c "oneOf" && hasKey c "anyOf") &&
    (!(hasKey c "const" || hasKey c "enum") || (hasKey t "const" || hasKey t "enum")) &&
    (!(hasKey c "minimum" || hasKey c "exclusiveMinimum") ||
      (hasKey t "minimum" || hasKey t "exclusiveMinimum")) &&
    (!(hasKey c "maximum" || hasKey c "exclusiveMaximum") ||
      (hasKey t "maximum" || hasKey t "exclusiveMaximum")) &&
    ["minLength", "maxLength", "minItems", "maxItems"].all (fun k => !hasKey c k || hasKey t k) &&
    ((objAt c "properties").all (fun kv => propNames t kv.1) ||
      decide (lookup t "additionalProperties" = some (.bool false)))

theorem InputLocal.of_check {t c : JObj} (h : inputLocalCheck t c = true) : InputLocal t c := by
  simp only [inputLocalCheck, Bool.and_eq_true, decide_eq_true_eq] at h
  obtain ⟨⟨⟨⟨⟨⟨⟨⟨⟨hwt, hwc⟩, hty⟩, hce⟩, hun⟩, hvals⟩, hlo⟩, hhi⟩, hlen⟩, hps⟩ := h
  refine ⟨.of_check hwt, .of_check hwc, fun ht hc hn => ?_, fun ⟨h1, h2⟩ => ?_,
    fun ⟨h1, h2⟩ => ?_, imp_of_check hvals, imp_of_check hlo, imp_of_check hhi,
    fun k hk => imp_of_check (List.all_eq_true.1 hlen k hk), ?_⟩
  · simp [ne_nil_of_isEmpty ht, ne_nil_of_isEmpty hc, hasKey, hn] at hty
  · simp [h1, h2] at hce
  · simp [h1, h2] at hun
  · simp only [Bool.or_eq_true, decide_eq_true_eq] at hps
    exact hps.imp_left fun hall _ => of_hasKey_of_all hall

/-- `Aligned`, computed: the local check at every pair of positions `compat` compares, down to
depth `fuel`. -/
def alignedCheck (check : JObj → JObj → Bool) : Nat → JObj → JObj → Bool
  | 0, _, _ => false
  | fuel + 1, t, c =>
    check t c &&
      (objAt t "properties").all (fun kv => match kv.2, lookup (objAt c "properties") kv.1 with
        | .obj tv, some (.obj cv) => alignedCheck check fuel tv cv
        | _, _ => true) &&
      (match lookup t "additionalProperties", lookup c "additionalProperties" with
        | some (.obj ta), some (.obj ca) => alignedCheck check fuel ta ca
        | _, _ => true) &&
      (match lookup t "items", lookup c "items" with
        | some (.obj ti), some (.obj ci) => alignedCheck check fuel ti ci
        | _, _ => true) &&
      (match unionVariants t, unionVariants c with
        | some vs, some ws => vs.all fun v => ws.all fun w => alignedCheck check fuel v w
        | _, _ => true)

theorem Aligned.of_check {L : JObj → JObj → Prop} {check : JObj → JObj → Bool}
    (hL : ∀ t c, check t c = true → L t c) :
    ∀ fuel t c, alignedCheck check fuel t c = true → Aligned L t c
  | 0, _, _, h => absurd h Bool.false_ne_true
  | fuel + 1, t, c, h => by
    simp only [alignedCheck, Bool.and_eq_true, List.all_eq_true] at h
    obtain ⟨⟨⟨⟨hhere, hps⟩, hap⟩, hit⟩, hun⟩ := h
    refine .node (hL t c hhere) (fun p tv cv ht hc => Aligned.of_check hL fuel tv cv ?_)
      (fun ta ca ht hc => Aligned.of_check hL fuel ta ca ?_)
      (fun ti ci ht hc => Aligned.of_check hL fuel ti ci ?_)
      (fun vs ws hvs hws v hv w hw => Aligned.of_check hL fuel v w ?_)
    · have hp := hps _ (lookup_eq_some_mem ht)
      simp only [hc] at hp
      exact hp
    · simp only [ht, hc] at hap; exact hap
    · simp only [ht, hc] at hit; exact hit
    · simp only [hvs, hws, List.all_eq_true] at hun; exact hun v hv w hw

end OpenBindings.SchemaProfile
