import OpenBindings.Meaning

/-! # Normalization keeps the meaning of a schema with references

`normalizeAt` replaces a schema with a `$ref` by the normal form of the schema the reference
resolves to. Where the reference stands alone, with no sibling keyword that validation reads, that
is what the reference means: `validate` applies the referenced schema one level of fuel deeper. So
the source schema gives the normal form's verdicts only with more fuel, one unit for each reference
on the way down, while the normal form, which holds no reference, gives its verdicts from some fuel
on (`Delayed`). Both settle on the same answers, so validity agrees
(`normalize_preserves_validity_refs`).

Each reference is read as `resolveRef` resolves it (`ReadsRefs`): a fragment against `Root`, a
relative reference against the base URL, anything else through the fetcher. `Normalizer.refSchema`
is that reading. Every position of the schema, and of every schema a reference reaches, is plain
(no `$ref` string, no `allOf`) or a lone reference (`RefClosed`); the predicate is inductive, so
every chain of references ends.

The proof follows `normalizeAt` down its fuel: a plain position keeps the keyword steps of
`Meaning`, whose sub-schemas now trail by the fuel spent below (`KeywordsAgree.delayed`), and a
lone reference adds one unit (`Delayed.loneRef`). -/

namespace OpenBindings.SchemaProfile

open CanonicalJson NormM Normalizer

/-! ### Verdicts that settle, and verdicts that trail -/

/-- From fuel `d` on, `r`'s verdicts no longer change, and `s` gives them with `k` more fuel. -/
def Delayed (rd : Reading) (k d : Nat) (r s : JObj) : Prop :=
  (∀ m, d ≤ m → ∀ x, validate rd m r x = validate rd d r x) ∧
    ∀ m, d ≤ m → ∀ x, validate rd (m + k) s x = validate rd m r x

section Delayed

variable {rd : Reading} {k d : Nat} {r s : JObj}

theorem Delayed.mono (h : Delayed rd k d r s) {k' d' : Nat} (hk : k ≤ k') (hd : d ≤ d') :
    Delayed rd k' d' r s := by
  refine ⟨fun m hm x => (h.1 m (hd.trans hm) x).trans (h.1 d' hd x).symm, fun m hm x => ?_⟩
  calc validate rd (m + k') s x = validate rd (m + (k' - k) + k) s x := by
        rw [Nat.add_assoc, Nat.sub_add_cancel hk]
    _ = validate rd (m + (k' - k)) r x := h.2 _ (by omega) x
    _ = validate rd m r x := (h.1 _ (by omega) x).trans (h.1 m (by omega) x).symm

/-- Validity against the settled schema is its verdict at `d`. -/
theorem Delayed.valid_left (h : Delayed rd k d r s) (x : JValue) :
    Valid rd r x ↔ validate rd d r x = true :=
  ⟨fun ⟨n, hn⟩ => (h.1 (max n d) (le_max_right n d) x).symm.trans (hn _ (le_max_left n d)),
    fun hd => ⟨d, fun m hm => (h.1 m hm x).trans hd⟩⟩

/-- Validity against the trailing schema is the same verdict. -/
theorem Delayed.valid_right (h : Delayed rd k d r s) (x : JValue) :
    Valid rd s x ↔ validate rd d r x = true := by
  constructor
  · rintro ⟨n, hn⟩
    rw [← h.1 (max n d) (le_max_right n d) x, ← h.2 _ (le_max_right n d) x]
    exact hn _ (by omega)
  · intro hd
    refine ⟨d + k, fun m hm => ?_⟩
    rw [show m = m - k + k by omega, h.2 _ (by omega) x, h.1 _ (by omega) x, hd]

theorem Delayed.valid_iff (h : Delayed rd k d r s) (x : JValue) : Valid rd r x ↔ Valid rd s x :=
  (h.valid_left x).trans (h.valid_right x).symm

end Delayed

/-! ### A plain position -/

/-- Neither `$ref` nor `allOf` sends validation elsewhere: `$ref` holds no string and there is no
`allOf`. -/
def NoRefAllOf (m : JObj) : Prop := (∀ t, lookup m "$ref" ≠ some (.str t)) ∧ lookup m "allOf" = none

theorem NoRefAllOf.refValid_true {m : JObj} (h : NoRefAllOf m) (refs : String → Option JObj)
    (rec : JObj → JValue → Bool) (x : JValue) : refValid refs rec m x = true := by
  unfold SchemaProfile.refValid
  split
  · exact absurd ‹_› (h.1 _)
  · rfl

theorem NoRefAllOf.allOfValid_true {m : JObj} (h : NoRefAllOf m) (rec : JObj → JValue → Bool)
    (x : JValue) : allOfValid rec m x = true := by
  simp only [allOfValid, h.2]

theorem exists_of_forall₂ {R : JValue → JValue → Prop} :
    ∀ {l l' : List JValue}, List.Forall₂ R l l' → ∀ a ∈ l, ∃ b, R a b
  | _, _, .cons hab _, _, .head _ => ⟨_, hab⟩
  | _, _, .cons _ h, a, .tail _ ha => exists_of_forall₂ h a ha

section Left

variable {R : JValue → JValue → Prop} {a b : Option JValue}

theorem rel_left (h : Option.Rel R a b) : Option.Rel (fun x y => x = y ∧ ∃ c, R x c) a a := by
  cases h with
  | some h => exact .some ⟨rfl, _, h⟩
  | none => exact .none

theorem propsAgree_left (h : Option.Rel (PropsAgree R) a b) :
    Option.Rel (PropsAgree fun x y => x = y ∧ ∃ c, R x c) a a := by
  cases h with
  | some h =>
    obtain ⟨nm, ps, rfl, rfl, hk⟩ := h
    exact .some ⟨nm, nm, rfl, rfl, fun k => rel_left (hk k)⟩
  | none => exact .none

theorem variantsAgree_left (h : Option.Rel (VariantsAgree R) a b) :
    Option.Rel (VariantsAgree fun x y => x = y ∧ ∃ c, R x c) a a := by
  cases h with
  | some h =>
    obtain ⟨xs, ys, rfl, rfl, zs, hperm, hf⟩ := h
    exact .some ⟨xs, xs, rfl, rfl, xs, .refl xs, List.forall₂_same.2 fun x hx =>
      ⟨rfl, exists_of_forall₂ hf x (hperm.subset hx)⟩⟩
  | none => exact .none

/-- The sub-schemas of `r`, each related to itself, where `R` relates them to some sub-schema. -/
theorem KeywordsAgree.left {r s : JObj} (h : KeywordsAgree R r s) :
    KeywordsAgree (fun x y => x = y ∧ ∃ c, R x c) r r where
  type _ := rfl
  required _ := rfl
  kept _ _ := rfl
  properties := propsAgree_left h.properties
  additionalProperties := rel_left h.additionalProperties
  items := rel_left h.items
  oneOf := variantsAgree_left h.oneOf
  anyOf := variantsAgree_left h.anyOf

end Left

/-- A sub-schema value gets the same verdicts from two validation functions that agree on it when
it is a schema object. -/
theorem subschemaValid_congr {rec₁ rec₂ : JObj → JValue → Bool} {a : JValue}
    (h : ∀ m, a = .obj m → ∀ y, rec₁ m y = rec₂ m y) (y : JValue) :
    subschemaValid rec₁ a y = subschemaValid rec₂ a y := by
  cases a with
  | obj m => exact h m rfl y
  | _ => rfl

/-- A plain position whose sub-schemas trail by `k` and settle from `d` trails by `k` and settles
from `d + 1`. -/
theorem KeywordsAgree.delayed {rd : Reading} {k d : Nat} {r s : JObj}
    (h : KeywordsAgree (SameSub (Delayed rd k d)) r s) (hs : NoRefAllOf s) :
    Delayed rd k (d + 1) r s := by
  have hr : NoRefAllOf r :=
    ⟨by rw [h.kept "$ref" (by decide)]; exact hs.1, by rw [h.kept "allOf" (by decide)]; exact hs.2⟩
  refine ⟨fun m hm x => ?_, fun m hm x => ?_⟩
  · obtain ⟨m, rfl⟩ : ∃ m', m = m' + 1 := ⟨m - 1, by omega⟩
    refine h.left.validate_succ (fun a b ⟨hab, c, hac⟩ y => ?_) x
      ((hr.refValid_true _ _ x).trans (hr.refValid_true _ _ x).symm)
      ((hr.allOfValid_true _ x).trans (hr.allOfValid_true _ x).symm)
    subst hab
    refine subschemaValid_congr (fun ma hma y => ?_) y
    rcases hac with ⟨rfl, ha⟩ | ⟨ma', mb, rfl, rfl, hd⟩
    · exact absurd hma (ha ma)
    · cases hma
      exact hd.1 m (by omega) y
  · obtain ⟨m, rfl⟩ : ∃ m', m = m' + 1 := ⟨m - 1, by omega⟩
    rw [show m + 1 + k = m + k + 1 by omega]
    exact (h.validate_succ (fun _ _ hab y => hab.valid (fun _ _ hd y => (hd.2 m (by omega) y).symm) y)
      x ((hr.refValid_true _ _ x).trans (hs.refValid_true _ _ x).symm)
      ((hr.allOfValid_true _ x).trans (hs.allOfValid_true _ x).symm)).symm

/-! ### A lone reference -/

/-- A `$ref` that `normalizeAt` resolves, with no sibling keyword that validation reads. -/
def LoneRef (m : JObj) (ref : String) : Prop :=
  refTarget m = some ref ∧ ∀ k ∈ readKeywords, k ≠ "$ref" → lookup m k = none

theorem lookup_ref_of_refTarget {m : JObj} {ref : String} (h : refTarget m = some ref) :
    lookup m "$ref" = some (.str ref) := by
  unfold refTarget at h
  split at h
  · split at h
    · cases h
    · cases h; assumption
  · cases h

/-- A lone reference validates as the schema it denotes, one level deeper. -/
theorem LoneRef.validate_succ {rd : Reading} {m t : JObj} {ref : String} (hl : LoneRef m ref)
    (ht : rd.refs ref = some t) (f : Nat) (x : JValue) :
    validate rd (f + 1) m x = validate rd f t x := by
  have hn : ∀ k ∈ readKeywords, k ≠ "$ref" → lookup m k = none := hl.2
  simp only [validate, typeValid, requiredValid, plainValid, enumValid, constValid, numberValid,
    lengthValid, boundValid, numKeyword, refValid, allOfValid, propertiesValid,
    additionalPropertiesValid, itemsValid, anyOfValid, oneOfValid, lookup_ref_of_refTarget hl.1, ht,
    hn "type" (by decide) (by decide), hn "required" (by decide) (by decide),
    hn "enum" (by decide) (by decide), hn "const" (by decide) (by decide),
    hn "minimum" (by decide) (by decide), hn "maximum" (by decide) (by decide),
    hn "exclusiveMinimum" (by decide) (by decide), hn "exclusiveMaximum" (by decide) (by decide),
    hn "minLength" (by decide) (by decide), hn "maxLength" (by decide) (by decide),
    hn "minItems" (by decide) (by decide), hn "maxItems" (by decide) (by decide),
    hn "allOf" (by decide) (by decide), hn "properties" (by decide) (by decide),
    hn "additionalProperties" (by decide) (by decide), hn "items" (by decide) (by decide),
    hn "anyOf" (by decide) (by decide), hn "oneOf" (by decide) (by decide)]
  cases x <;> simp

/-- A lone reference trails its schema's normal form by one more unit of fuel. -/
theorem Delayed.loneRef {rd : Reading} {k d : Nat} {r t m : JObj} {ref : String}
    (h : Delayed rd k d r t) (hl : LoneRef m ref) (ht : rd.refs ref = some t) :
    Delayed rd (k + 1) d r m :=
  ⟨h.1, fun n hn x => by rw [← Nat.add_assoc, hl.validate_succ ht, h.2 n hn x]⟩

/-! ### Schemas whose references close -/

/-- Every position is plain (no `$ref` string, no `allOf`, distinct names in `properties`) or a
lone reference whose schema, as `rd` reads it, is again of this kind. -/
inductive RefClosed (rd : Reading) : JObj → Prop
  | plain {m : JObj} : NoRefAllOf m →
    (∀ ps, lookup m "properties" = some (.obj ps) → (ps.map Prod.fst).Nodup) →
    (∀ c, Child c m → RefClosed rd c) → RefClosed rd m
  | ref {m t : JObj} {ref : String} : LoneRef m ref → rd.refs ref = some t → RefClosed rd t →
    RefClosed rd m

/-- `rd` reads every reference as the schema `resolveRef` resolves it to. -/
def ReadsRefs (n : Normalizer) (rd : Reading) : Prop :=
  ∀ ref path st v key st', n.resolveRef ref path st = some (.ok (.obj v, key), st') →
    rd.refs ref = some v

/-- A reference that resolves gives the same value and key whatever is being resolved around it. -/
theorem Normalizer.resolveRef_ok {n : Normalizer} {ref path : String} {st st' : List String}
    {v : JValue} {key : String} (h : n.resolveRef ref path st = some (.ok (v, key), st')) :
    n.resolveRef ref "" [] = some (.ok (v, key), [key]) := by
  revert h
  unfold resolveRef
  dsimp only
  split
  · simp
  split
  · simp
  rename_i u _
  by_cases hk : u.toString ∈ st
  · simp [hk]
  simp only [hk, List.not_mem_nil, if_false]
  split
  · simp
  · simp only [Option.some.injEq, Prod.mk.injEq, Except.ok.injEq]
    rintro ⟨⟨rfl, rfl⟩, -⟩
    exact ⟨⟨rfl, rfl⟩, rfl⟩

/-- The schema `resolveRef` resolves a reference to. -/
def Normalizer.refSchema (n : Normalizer) (ref : String) : Option JObj :=
  match n.resolveRef ref "" [] with
  | some (.ok (.obj v, _), _) => some v
  | _ => none

theorem readsRefs_refSchema (n : Normalizer) {rd : Reading} (h : rd.refs = n.refSchema) :
    ReadsRefs n rd := by
  intro ref path st v key st' hres
  rw [h, Normalizer.refSchema, Normalizer.resolveRef_ok hres]

theorem withCleanup_eq_ok {α : Type} {key : String} {x : NormM α} {st st' : List String} {a : α}
    (h : withCleanup key x st = some (.ok a, st')) : ∃ st'', x st = some (.ok a, st'') := by
  obtain ⟨⟨res, st''⟩, hx, he⟩ := Option.map_eq_some'.1 h
  cases he
  exact ⟨st'', hx⟩

/-- With `fuel` to spend, the normal form of a schema whose references close settles from `fuel`
on, and the schema gives its verdicts with `fuel` more. -/
theorem normalizeAt_delayed {rd : Reading} (n : Normalizer) (hrefs : ReadsRefs n rd) :
    ∀ (fuel : Nat) (s : JObj) (path : String) (st : List String) (r : JObj) (st' : List String),
      RefClosed rd s → n.normalizeAt fuel s path st = some (.ok r, st') → Delayed rd fuel fuel r s
  | 0, _, _, _, _, _, _, h => by cases h
  | fuel + 1, s, path, st, r, st', hs, h => by
    cases gate : assertProfileKeywords s path with
    | error e => simp [normalizeAt, bind_apply, gate] at h
    | ok u =>
      cases hs with
      | plain hno hnd hkids =>
        have noRef : refTarget s = none := by
          unfold refTarget
          split
          · exact absurd ‹_› (hno.1 _)
          · rfl
        rw [normalizeAt_fields n fuel st gate noRef
          ((lookup_stripAnnotations (by decide)).trans hno.2)] at h
        have agree : KeywordsAgree (SameSub (Delayed rd fuel fuel)) r (stripAnnotations s) :=
          normalizeFields_agree (normalizeAt_delayed n hrefs fuel)
            (fun ps hps => hnd ps ((lookup_stripAnnotations (by decide)).symm.trans hps))
            (fun m hm => hkids m (child_of_lookup_eq (fun _ => lookup_stripAnnotations) hm)) h
        exact ((agree.of_lookup_eq fun _ => lookup_stripAnnotations).delayed hno).mono
          (Nat.le_succ fuel) le_rfl
      | ref hl ht htarget =>
        rw [normalizeAt_ref n fuel st gate hl.1] at h
        obtain ⟨⟨v, key⟩, st₁, hres, h⟩ := bind_eq_ok.mp h
        obtain ⟨st₂, h⟩ := withCleanup_eq_ok h
        cases v with
        | obj rm =>
          obtain rfl : _ = rm := Option.some.inj (ht.symm.trans (hrefs _ _ _ _ _ _ hres))
          exact ((normalizeAt_delayed n hrefs fuel _ path st₁ r st₂ htarget h).loneRef hl ht).mono
            le_rfl (Nat.le_succ fuel)
        | _ => cases h

/-- Normalization keeps the meaning of every schema whose positions are plain or lone references
that close, each reference read as `resolveRef` resolves it: an instance is valid against the
result exactly when it is valid against the schema. -/
theorem normalize_preserves_validity_refs (n : Normalizer) (rd : Reading) (hrefs : ReadsRefs n rd)
    (fuel : Nat) (s r : JObj) (hs : RefClosed rd s) (h : n.normalize fuel s = some (.ok r))
    (x : JValue) : Valid rd r x ↔ Valid rd s x := by
  obtain ⟨⟨res, st⟩, hrun, hres⟩ := Option.map_eq_some'.mp h
  cases hres
  exact (normalizeAt_delayed n hrefs fuel s "" [] r st hs hrun).valid_iff x

/-- Normalization keeps the meaning of the schemas it only rewrites: those with no `allOf` and no
`$ref` to resolve at any position, and those whose references stand alone and close, each read as
`resolveRef` resolves it. -/
theorem normalize_keeps_meaning :
    (∀ (n : Normalizer) (rd : Reading) (fuel : Nat) (s r : JObj), AllNodes Plain s →
      n.normalize fuel s = some (.ok r) → ∀ x, Valid rd r x ↔ Valid rd s x) ∧
    ∀ (n : Normalizer) (rd : Reading), ReadsRefs n rd → ∀ (fuel : Nat) (s r : JObj),
      RefClosed rd s → n.normalize fuel s = some (.ok r) → ∀ x, Valid rd r x ↔ Valid rd s x :=
  ⟨normalize_preserves_validity, normalize_preserves_validity_refs⟩

/-- A normalizer whose `Root` defines a non-empty string under `$defs`. -/
def defsNormalizer : Normalizer :=
  { root := .obj [("$defs", .obj [("name", .obj [("type", .str "string"),
      ("minLength", .num ⟨false, 1, 0, rfl⟩)])])] }

/-- `{"properties": {"a": {"$ref": "#/$defs/name"}}}`. -/
def namedProperty : JObj := [("properties", .obj [("a", .obj [("$ref", .str "#/$defs/name")])])]

/-- The schema of `#/$defs/name`. -/
def nameSchema : JObj := [("type", .str "string"), ("minLength", .num ⟨false, 1, 0, rfl⟩)]

/-- `namedProperty` with the reference inlined and normalized. -/
def namedPropertyNormalized : JObj :=
  [("properties", .obj [("a", .obj [("type", .arr [.str "string"]),
    ("minLength", .num ⟨false, 1, 0, rfl⟩)])])]

theorem normalize_keeps_meaning_named :
    AllNodes Plain [("title", .str "t"), ("type", .arr [.str "string", .str "string"])] ∧
    ({} : Normalizer).normalize 1 [("title", .str "t"), ("type", .arr [.str "string", .str "string"])] =
      some (.ok [("type", .arr [.str "string"])]) ∧
    (Valid ⟨fun _ => none, false, false⟩ [("type", .arr [.str "string"])] (.str "a") ↔
      Valid ⟨fun _ => none, false, false⟩
        [("title", .str "t"), ("type", .arr [.str "string", .str "string"])] (.str "a")) ∧
    defsNormalizer.normalize 3 namedProperty = some (.ok namedPropertyNormalized) ∧
    (Valid ⟨defsNormalizer.refSchema, false, false⟩ namedPropertyNormalized (.obj [("a", .str "")]) ↔
      Valid ⟨defsNormalizer.refSchema, false, false⟩ namedProperty (.obj [("a", .str "")])) := by
  have hp : AllNodes Plain [("title", .str "t"), ("type", .arr [.str "string", .str "string"])] :=
    AllNodes.leaf ⟨rfl, rfl, fun _ h => nomatch h⟩ fun m hm => by simp [Child, lookup] at hm
  have hn : ({} : Normalizer).normalize 1
      [("title", .str "t"), ("type", .arr [.str "string", .str "string"])] =
        some (.ok [("type", .arr [.str "string"])]) := by decide
  have hr : defsNormalizer.normalize 3 namedProperty = some (.ok namedPropertyNormalized) := by
    decide
  have ht : defsNormalizer.refSchema "#/$defs/name" = some nameSchema := by decide
  have hl : LoneRef [("$ref", .str "#/$defs/name")] "#/$defs/name" := ⟨by decide, by decide⟩
  have hc : RefClosed ⟨defsNormalizer.refSchema, false, false⟩ namedProperty := by
    refine .plain ⟨fun _ h => (nomatch h), rfl⟩ (fun ps h => by cases h; decide) fun c hc => ?_
    obtain rfl : c = [("$ref", .str "#/$defs/name")] := by
      simpa [Child, namedProperty, lookup] using hc
    refine .ref hl ht (.plain ⟨fun _ h => (nomatch h), rfl⟩ (fun _ h => nomatch h) fun c hc => ?_)
    simp [Child, nameSchema, lookup] at hc
  exact ⟨hp, hn, normalize_keeps_meaning.1 {} _ 1 _ _ hp hn _, hr,
    normalize_keeps_meaning.2 defsNormalizer _ (readsRefs_refSchema defsNormalizer rfl) 3 _ _ hc hr _⟩

end OpenBindings.SchemaProfile
