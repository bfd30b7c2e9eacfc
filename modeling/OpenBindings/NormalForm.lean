import OpenBindings.Schema

/-! # The normal form of `Normalize`'s results

Every schema `Normalize` returns is in the normal form of spec §3 at every schema position: no
annotation keyword, no `$defs`, no `allOf`, `type` and `required` strictly ascending arrays of
non-blank strings, `properties` an object of schemas, `additionalProperties` a boolean or a
schema, `items` a schema, and the variants of `oneOf` and `anyOf` sorted by canonical JSON
(`normalize_normalForm`). The one exception is `$ref`: the normalizer resolves a `$ref` only when
its value is a non-blank string, and keeps any other `$ref` as it is, so `{"$ref": ""}` normalizes
to itself.

The proof follows `normalizeAt`. Each keyword step of `normalizeFields` either leaves the schema
alone or rewrites its own keyword to a value in normal form (`Rewrites`), and touches no other
key; the seven steps together give the normal form, and the `$ref` and `allOf` cases are the
induction hypothesis on the fuel. -/

namespace OpenBindings.SchemaProfile

open CanonicalJson NormM Normalizer

/-- A string set as the normal form stores it: a strictly ascending array of non-blank
strings. -/
def IsStringSet (v : JValue) : Prop :=
  ∃ ts : List String, v = strArr ts ∧ ts.Sorted (· < ·) ∧ ∀ t ∈ ts, isBlank t = false

/-- Union variants as the normal form stores them: objects in non-decreasing order of their
canonical JSON. -/
def IsSortedVariants (v : JValue) : Prop :=
  ∃ ms : List JObj, v = .arr (ms.map .obj) ∧ (ms.map fun m => writeJCS (.obj m)).Sorted (· ≤ ·)

/-- The normal form at one schema position. -/
structure LocalNormal (r : JObj) : Prop where
  dropped : ∀ k ∈ r.map Prod.fst, k ∉ annotationKeywords ∧ k ≠ "$defs" ∧ k ≠ "allOf"
  noRef : refTarget r = none
  type : ∀ v, lookup r "type" = some v → IsStringSet v
  required : ∀ v, lookup r "required" = some v → IsStringSet v
  properties : ∀ v, lookup r "properties" = some v → ∃ ps : JObj, v = .obj ps ∧ ∀ kv ∈ ps, ∃ m, kv.2 = .obj m
  additionalProperties : ∀ v, lookup r "additionalProperties" = some v →
    (∃ b, v = .bool b) ∨ ∃ m, v = .obj m
  items : ∀ v, lookup r "items" = some v → ∃ m, v = .obj m
  unions : ∀ k ∈ ["oneOf", "anyOf"], ∀ v, lookup r k = some v → IsSortedVariants v

/-- Spec §3's normal form, at every schema position. -/
def NormalForm (r : JObj) : Prop := AllNodes LocalNormal r

/-! ### What each keyword step leaves -/

/-- `properties` in normal form, with every property schema normalized. -/
def PropsNormal (v : JValue) : Prop :=
  ∃ ps : JObj, v = .obj ps ∧ ∀ kv ∈ ps, ∃ m, kv.2 = .obj m ∧ NormalForm m

/-- A boolean or a normalized schema. -/
def BoolOrNormal (v : JValue) : Prop := (∃ b, v = .bool b) ∨ ∃ m, v = .obj m ∧ NormalForm m

/-- A normalized schema. -/
def ObjNormal (v : JValue) : Prop := ∃ m, v = .obj m ∧ NormalForm m

/-- Sorted variants, each normalized. -/
def VariantsNormal (v : JValue) : Prop :=
  ∃ ms : List JObj, v = .arr (ms.map .obj) ∧ (ms.map fun m => writeJCS (.obj m)).Sorted (· ≤ ·) ∧
    ∀ m ∈ ms, NormalForm m

/-- A keyword step: the keyword is absent and the schema stays, or its value is replaced by one
satisfying `P`. -/
def Rewrites (k : String) (P : JValue → Prop) (o o' : JObj) : Prop :=
  (lookup o k = none ∧ o' = o) ∨ ∃ v, hasKey o k = true ∧ o' = setField o k v ∧ P v

namespace Rewrites

variable {k : String} {P : JValue → Prop} {o o' : JObj}

theorem keys (h : Rewrites k P o o') : o'.map Prod.fst = o.map Prod.fst := by
  rcases h with ⟨-, rfl⟩ | ⟨v, hk, rfl, -⟩
  · rfl
  · have : k ∈ o.map Prod.fst := by
      by_contra hn
      simp [hasKey, lookup_eq_none_iff.mpr hn] at hk
    rw [keys_setField, if_pos this]

theorem lookup_ne (h : Rewrites k P o o') {j : String} (hj : j ≠ k) : lookup o' j = lookup o j := by
  rcases h with ⟨-, rfl⟩ | ⟨v, -, rfl, -⟩
  · rfl
  · exact lookup_setField_ne _ _ (Ne.symm hj)

theorem lookup_self (h : Rewrites k P o o') : ∀ v, lookup o' k = some v → P v := by
  rcases h with ⟨hn, rfl⟩ | ⟨v, -, rfl, hv⟩
  · simp [hn]
  · simp only [lookup_setField_self, Option.some.injEq]
    rintro _ rfl; exact hv

end Rewrites

theorem hasKey_of_lookup {o : JObj} {k : String} {v : JValue} (h : lookup o k = some v) :
    hasKey o k = true := by simp [hasKey, h]

theorem normalizeTypeField_rewrites {o o' : JObj} {path : String}
    (h : normalizeTypeField o path = .ok o') : Rewrites "type" IsStringSet o o' := by
  unfold normalizeTypeField at h
  split at h
  · cases h; exact .inl ⟨‹_›, rfl⟩
  · split at h
    · cases h
    · cases h
      exact .inr ⟨_, hasKey_of_lookup ‹_›, rfl, _, rfl, normalizeType_ok ‹_›⟩

theorem normalizeRequiredField_rewrites {o o' : JObj} {path : String}
    (h : normalizeRequiredField o path = .ok o') : Rewrites "required" IsStringSet o o' := by
  unfold normalizeRequiredField at h
  split at h
  · cases h; exact .inl ⟨‹_›, rfl⟩
  · split at h
    · cases h
    · cases h
      exact .inr ⟨_, hasKey_of_lookup ‹_›, rfl, _, rfl, normalizeStringSet_ok ‹_›⟩

section Steps

variable {rec : JObj → String → NormM JObj}
  (hrec : ∀ s p st r st', rec s p st = some (.ok r, st') → NormalForm r)
include hrec

theorem normalizeProps_normal (path : String) :
    ∀ (nm props : JObj) {st nm' st'}, normalizeProps rec path nm props st = some (.ok nm', st') →
      (∀ kv ∈ nm, ∃ m, kv.2 = .obj m ∧ NormalForm m) → ∀ kv ∈ nm', ∃ m, kv.2 = .obj m ∧ NormalForm m
  | nm, [], _, _, _, h, hnm => by cases h; exact hnm
  | nm, (k, v) :: rest, st, nm', st', h, hnm => by
    cases v with
    | obj vm =>
      obtain ⟨nv, s₁, hv, hr⟩ := bind_eq_ok.mp h
      refine normalizeProps_normal path _ rest hr fun kv hkv => ?_
      rcases mem_setField hkv with rfl | hkv
      · exact ⟨nv, rfl, hrec _ _ _ _ _ hv⟩
      · exact hnm kv hkv
    | _ => cases h

theorem normalizePropertiesField_rewrites {o o' : JObj} {path : String} {st st' : List String}
    (h : normalizePropertiesField rec o path st = some (.ok o', st')) :
    Rewrites "properties" PropsNormal o o' := by
  cases hp : lookup o "properties" with
  | none => simp [normalizePropertiesField, hp] at h; exact .inl ⟨hp, h.1.symm⟩
  | some v =>
    cases v with
    | obj props =>
      simp only [normalizePropertiesField, hp] at h
      obtain ⟨nm, s₁, hnm, hr⟩ := bind_eq_ok.mp h
      simp only [pure_apply, Option.some.injEq, Prod.mk.injEq, Except.ok.injEq] at hr
      exact .inr ⟨_, hasKey_of_lookup hp, hr.1.symm, nm, rfl,
        normalizeProps_normal hrec path _ _ hnm (by simp)⟩
    | _ => simp [normalizePropertiesField, hp] at h

theorem normalizeAdditionalPropertiesField_rewrites {o o' : JObj} {path : String}
    {st st' : List String} (h : normalizeAdditionalPropertiesField rec o path st = some (.ok o', st')) :
    Rewrites "additionalProperties" BoolOrNormal o o' := by
  cases hp : lookup o "additionalProperties" with
  | none => simp [normalizeAdditionalPropertiesField, hp] at h; exact .inl ⟨hp, h.1.symm⟩
  | some v =>
    cases v with
    | bool x =>
      simp [normalizeAdditionalPropertiesField, hp] at h
      exact .inr ⟨_, hasKey_of_lookup hp, h.1.symm, .inl ⟨x, rfl⟩⟩
    | obj x =>
      simp only [normalizeAdditionalPropertiesField, hp] at h
      obtain ⟨nv, s₁, hnv, hr⟩ := bind_eq_ok.mp h
      simp only [pure_apply, Option.some.injEq, Prod.mk.injEq, Except.ok.injEq] at hr
      exact .inr ⟨_, hasKey_of_lookup hp, hr.1.symm, .inr ⟨nv, rfl, hrec _ _ _ _ _ hnv⟩⟩
    | _ => simp [normalizeAdditionalPropertiesField, hp] at h

theorem normalizeItemsField_rewrites {o o' : JObj} {path : String} {st st' : List String}
    (h : normalizeItemsField rec o path st = some (.ok o', st')) : Rewrites "items" ObjNormal o o' := by
  cases hp : lookup o "items" with
  | none => simp [normalizeItemsField, hp] at h; exact .inl ⟨hp, h.1.symm⟩
  | some v =>
    cases v with
    | obj im =>
      simp only [normalizeItemsField, hp] at h
      obtain ⟨nv, s₁, hnv, hr⟩ := bind_eq_ok.mp h
      simp only [pure_apply, Option.some.injEq, Prod.mk.injEq, Except.ok.injEq] at hr
      exact .inr ⟨_, hasKey_of_lookup hp, hr.1.symm, nv, rfl, hrec _ _ _ _ _ hnv⟩
    | _ => simp [normalizeItemsField, hp] at h

theorem normalizeVariants_normal (path k : String) :
    ∀ (idx : Nat) (items : List JValue) {st vs st'},
      normalizeVariants rec path k idx items st = some (.ok vs, st') → ∀ m ∈ vs, NormalForm m
  | _, [], _, _, _, h => by cases h; simp
  | idx, item :: rest, st, vs, st', h => by
    cases item with
    | obj m =>
      obtain ⟨nv, s₁, hnv, h⟩ := bind_eq_ok.mp h
      obtain ⟨nvs, s₂, hnvs, hr⟩ := bind_eq_ok.mp h
      cases hr
      simp only [List.mem_cons, forall_eq_or_imp]
      exact ⟨hrec _ _ _ _ _ hnv, normalizeVariants_normal path k _ rest hnvs⟩
    | _ => cases h

theorem normalizeUnionField_rewrites {k : String} {o o' : JObj} {path : String}
    {st st' : List String} (h : normalizeUnionField rec k o path st = some (.ok o', st')) :
    Rewrites k VariantsNormal o o' := by
  cases hp : lookup o k with
  | none => simp [normalizeUnionField, hp] at h; exact .inl ⟨hp, h.1.symm⟩
  | some v =>
    cases v with
    | arr arr =>
      simp only [normalizeUnionField, hp] at h
      obtain ⟨vs, s₁, hvs, hr⟩ := bind_eq_ok.mp h
      simp only [pure_apply, Option.some.injEq, Prod.mk.injEq, Except.ok.injEq] at hr
      exact .inr ⟨_, hasKey_of_lookup hp, hr.1.symm, sortVariants vs, rfl, sortVariants_sorted vs,
        fun m hm => normalizeVariants_normal hrec path k _ _ hvs m (mem_sortVariants hm)⟩
    | _ => simp [normalizeUnionField, hp] at h

/-- The keyword steps put a schema in normal form when it has none of the keys they do not
handle: annotations, `$defs`, `allOf`, and a `$ref` to resolve. -/
theorem normalizeFields_normalForm {out r : JObj} {path : String} {st st' : List String}
    (dropped : ∀ k ∈ out.map Prod.fst, k ∉ annotationKeywords ∧ k ≠ "$defs" ∧ k ≠ "allOf")
    (noRef : refTarget out = none)
    (h : normalizeFields rec out path st = some (.ok r, st')) : NormalForm r := by
  obtain ⟨o₁, s₁, h₁, h⟩ := bind_eq_ok.mp h
  obtain ⟨o₂, s₂, h₂, h⟩ := bind_eq_ok.mp h
  obtain ⟨o₃, s₃, h₃, h⟩ := bind_eq_ok.mp h
  obtain ⟨o₄, s₄, h₄, h⟩ := bind_eq_ok.mp h
  obtain ⟨o₅, s₅, h₅, h⟩ := bind_eq_ok.mp h
  obtain ⟨o₆, s₆, h₆, h₇⟩ := bind_eq_ok.mp h
  have R₁ := normalizeTypeField_rewrites (lift_eq_ok h₁)
  have R₂ := normalizeRequiredField_rewrites (lift_eq_ok h₂)
  have R₃ := normalizePropertiesField_rewrites hrec h₃
  have R₄ := normalizeAdditionalPropertiesField_rewrites hrec h₄
  have R₅ := normalizeItemsField_rewrites hrec h₅
  have R₆ := normalizeUnionField_rewrites hrec h₆
  have R₇ := normalizeUnionField_rewrites hrec h₇
  have type : ∀ v, lookup r "type" = some v → IsStringSet v := by
    rw [R₇.lookup_ne (by decide), R₆.lookup_ne (by decide), R₅.lookup_ne (by decide),
      R₄.lookup_ne (by decide), R₃.lookup_ne (by decide), R₂.lookup_ne (by decide)]
    exact R₁.lookup_self
  have required : ∀ v, lookup r "required" = some v → IsStringSet v := by
    rw [R₇.lookup_ne (by decide), R₆.lookup_ne (by decide), R₅.lookup_ne (by decide),
      R₄.lookup_ne (by decide), R₃.lookup_ne (by decide)]
    exact R₂.lookup_self
  have props : ∀ v, lookup r "properties" = some v → PropsNormal v := by
    rw [R₇.lookup_ne (by decide), R₆.lookup_ne (by decide), R₅.lookup_ne (by decide),
      R₄.lookup_ne (by decide)]
    exact R₃.lookup_self
  have ap : ∀ v, lookup r "additionalProperties" = some v → BoolOrNormal v := by
    rw [R₇.lookup_ne (by decide), R₆.lookup_ne (by decide), R₅.lookup_ne (by decide)]
    exact R₄.lookup_self
  have items : ∀ v, lookup r "items" = some v → ObjNormal v := by
    rw [R₇.lookup_ne (by decide), R₆.lookup_ne (by decide)]
    exact R₅.lookup_self
  have unions : ∀ k ∈ ["oneOf", "anyOf"], ∀ v, lookup r k = some v → VariantsNormal v := by
    simp only [List.mem_cons, List.mem_singleton, List.not_mem_nil, or_false, forall_eq_or_imp,
      forall_eq]
    exact ⟨by rw [R₇.lookup_ne (by decide)]; exact R₆.lookup_self, R₇.lookup_self⟩
  have keys : r.map Prod.fst = out.map Prod.fst := by
    rw [R₇.keys, R₆.keys, R₅.keys, R₄.keys, R₃.keys, R₂.keys, R₁.keys]
  have ref : lookup r "$ref" = lookup out "$ref" := by
    rw [R₇.lookup_ne (by decide), R₆.lookup_ne (by decide), R₅.lookup_ne (by decide),
      R₄.lookup_ne (by decide), R₃.lookup_ne (by decide), R₂.lookup_ne (by decide),
      R₁.lookup_ne (by decide)]
  refine AllNodes.node ⟨keys ▸ dropped, by rw [refTarget, ref]; exact noRef, type, required,
    fun v hv => ?_, fun v hv => ?_, fun v hv => ?_, fun k hk v hv => ?_⟩ fun m hm => ?_
  · obtain ⟨ps, rfl, hps⟩ := props v hv
    exact ⟨ps, rfl, fun kv hkv => (hps kv hkv).imp fun _ => And.left⟩
  · exact (ap v hv).imp_right fun ⟨m, hm, _⟩ => ⟨m, hm⟩
  · obtain ⟨m, hm, _⟩ := items v hv
    exact ⟨m, hm⟩
  · obtain ⟨ms, rfl, sorted, _⟩ := unions k hk v hv
    exact ⟨ms, rfl, sorted⟩
  · rcases hm with ⟨ps, k, hps, hmem⟩ | hap | hit | ⟨k, hk, xs, hxs, hmem⟩
    · obtain ⟨ps', hps', hall⟩ := props _ hps
      cases hps'
      obtain ⟨m', hm', hnf⟩ := hall _ hmem
      cases hm'
      exact hnf
    · rcases ap _ hap with ⟨b, hb⟩ | ⟨m', hm', hnf⟩
      · cases hb
      · cases hm'; exact hnf
    · obtain ⟨m', hm', hnf⟩ := items _ hit
      cases hm'; exact hnf
    · obtain ⟨ms, hms, -, hall⟩ := unions k hk _ hxs
      cases hms
      obtain ⟨m', hm', hmm⟩ := List.mem_map.mp hmem
      cases hmm
      exact hall _ hm'

end Steps

/-- Every schema `normalizeAt` returns is in normal form. -/
theorem normalizeAt_normalForm (n : Normalizer) :
    ∀ (fuel : Nat) (schema : JObj) (path : String) (st : List String) (r : JObj)
      (st' : List String), n.normalizeAt fuel schema path st = some (.ok r, st') → NormalForm r
  | 0, _, _, _, _, _, h => by cases h
  | fuel + 1, schema, path, st, r, st', h => by
    have ih := normalizeAt_normalForm n fuel
    cases gate : assertProfileKeywords schema path with
    | error e => simp [normalizeAt, bind_apply, gate] at h
    | ok u =>
      cases hRef : refTarget schema with
      | some ref =>
        rw [normalizeAt_ref n fuel st gate hRef] at h
        obtain ⟨⟨resolved, key⟩, s₁, -, h⟩ := bind_eq_ok.mp h
        obtain ⟨⟨res, s₂⟩, hx, hres⟩ := Option.map_eq_some'.mp h
        simp only [Prod.mk.injEq] at hres
        obtain ⟨rfl, -⟩ := hres
        cases resolved with
        | obj rm => exact ih rm path s₁ r s₂ hx
        | _ => simp at hx
      | none =>
        cases hAllOf : lookup (stripAnnotations schema) "allOf" with
        | some allOf =>
          rw [normalizeAt_allOf n fuel st gate hRef hAllOf] at h
          obtain ⟨merged, s₁, -, h⟩ := bind_eq_ok.mp h
          exact ih merged path s₁ r st' h
        | none =>
          rw [normalizeAt_fields n fuel st gate hRef hAllOf] at h
          refine normalizeFields_normalForm ih (fun k hk => ?_) ?_ h
          · obtain ⟨⟨k, v⟩, hkv, rfl⟩ := List.mem_map.mp hk
            have hkeep := (List.mem_filter.mp hkv).2
            simp only [decide_eq_true_eq] at hkeep
            refine ⟨hkeep.1, hkeep.2, fun hk => ?_⟩
            dsimp only at hk
            subst hk
            exact absurd hAllOf (by simp [lookup_eq_none_iff]; exact ⟨v, hkv⟩)
          · rw [refTarget, stripAnnotations, lookup_filter _ _ (fun _ => rfl)]
            exact hRef

/-- Every successful `Normalize` result is in the normal form of spec §3 at every schema
position, with one exception: a `$ref` whose value is not a non-blank string stays. -/
theorem normalize_normalForm (n : Normalizer) (fuel : Nat) (schema r : JObj)
    (h : n.normalize fuel schema = some (.ok r)) : NormalForm r := by
  obtain ⟨⟨res, st⟩, hrun, hres⟩ := Option.map_eq_some'.mp h
  cases hres
  exact normalizeAt_normalForm n fuel schema "" [] r st hrun

/-- `{"type": "string"}` normalizes to `{"type": ["string"]}`, in normal form. -/
theorem normalize_type_string_normalForm :
    ({} : Normalizer).normalize 1 [("type", .str "string")] = some (.ok [("type", strArr ["string"])]) ∧
      NormalForm [("type", strArr ["string"])] :=
  ⟨by decide, normalize_normalForm {} 1 [("type", .str "string")] _ (by decide)⟩

/-- `{"$ref": ""}` normalizes to itself: a blank `$ref` is not resolved, and stays. -/
theorem normalize_blank_ref_kept :
    ({} : Normalizer).normalize 1 [("$ref", .str "")] = some (.ok [("$ref", .str "")]) := by
  decide

end OpenBindings.SchemaProfile
