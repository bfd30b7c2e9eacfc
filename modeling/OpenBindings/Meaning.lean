import OpenBindings.Validation

/-! # Normalization keeps the meaning of a schema

Where normalization only rewrites (no `allOf` to flatten, no `$ref` to inline), it keeps the
verdicts of `validate` at every position: stripping annotations and `$defs` removes keywords
validation does not read, `type` and `required` become sorted sets of the same names, each
sub-schema is replaced by its normal form, and union variants are reordered, which neither "some
variant" nor "exactly one variant" can see (`normalize_preserves_validity`).

A `$ref` that stands alone keeps its meaning too, read as `resolveRef` resolves it; that needs
validation's fuel to trail, and is proved in `RefMeaning` on the relations of this module, which
take the relation between sub-schemas as a parameter for that reason.

Where `allOf` is flattened, spec §4 step 4 replaces the schema by the merge of its branches and
the keywords beside `allOf` are dropped, so a sibling of `allOf` loses its effect
(`normalize_allOf_drops_sibling`).

The proof follows `normalizeAt`. Each keyword step relates the keyword it rewrites to the old
value and leaves every other key (`KeywordsAgree`), and schemas whose keywords agree give the
same verdicts at every fuel (`KeywordsAgree.sameVerdicts`). -/

namespace OpenBindings.SchemaProfile

open CanonicalJson NormM Normalizer

/-- A position where normalization only rewrites: no `$ref` to inline, no `allOf`, and
`properties`, when it is an object, with distinct names as in a Go map. -/
def Plain (m : JObj) : Prop :=
  refTarget m = none ∧ lookup m "allOf" = none ∧
    ∀ ps, lookup m "properties" = some (.obj ps) → (ps.map Prod.fst).Nodup

/-! ### Agreeing keywords -/

section Agree

variable (R : JValue → JValue → Prop)

/-- Two `properties` objects that give every name related sub-schemas. -/
def PropsAgree (a b : JValue) : Prop :=
  ∃ nm ps, a = .obj nm ∧ b = .obj ps ∧ ∀ k, Option.Rel R (lookup nm k) (lookup ps k)

/-- Two union arrays whose variants are related one for one, in some order. -/
def VariantsAgree (a b : JValue) : Prop :=
  ∃ xs ys, a = .arr xs ∧ b = .arr ys ∧ ∃ zs, xs.Perm zs ∧ List.Forall₂ R zs ys

/-- The keywords `validate` reads as they stand. -/
def keptKeywords : List String :=
  ["$ref", "allOf", "enum", "const", "minimum", "maximum", "exclusiveMinimum", "exclusiveMaximum",
    "minLength", "maxLength", "minItems", "maxItems"]

/-- Every keyword `validate` reads agrees between `r` and `s`: the keywords read as they stand
give the same verdicts, and the sub-schemas are related by `R`. -/
structure KeywordsAgree (r s : JObj) : Prop where
  type : ∀ x, typeValid r x = typeValid s x
  required : ∀ x, requiredValid r x = requiredValid s x
  kept : ∀ k ∈ keptKeywords, lookup r k = lookup s k
  properties : Option.Rel (PropsAgree R) (lookup r "properties") (lookup s "properties")
  additionalProperties :
    Option.Rel R (lookup r "additionalProperties") (lookup s "additionalProperties")
  items : Option.Rel R (lookup r "items") (lookup s "items")
  oneOf : Option.Rel (VariantsAgree R) (lookup r "oneOf") (lookup s "oneOf")
  anyOf : Option.Rel (VariantsAgree R) (lookup r "anyOf") (lookup s "anyOf")

/-- Two sub-schema values with related verdicts: the same value that holds no schema object, or
two schema objects related by `E`. -/
def SameSub (E : JObj → JObj → Prop) (a b : JValue) : Prop :=
  (a = b ∧ ∀ m, a ≠ .obj m) ∨ ∃ ma mb, a = .obj ma ∧ b = .obj mb ∧ E ma mb

variable {R}

theorem typeValid_congr {r s : JObj} (h : lookup r "type" = lookup s "type") (x : JValue) :
    typeValid r x = typeValid s x := by
  unfold typeValid; rw [h]

theorem requiredValid_congr {r s : JObj} (h : lookup r "required" = lookup s "required")
    (x : JValue) : requiredValid r x = requiredValid s x := by
  unfold requiredValid; rw [h]

theorem plainValid_congr {r s : JObj} (h : ∀ k ∈ keptKeywords, lookup r k = lookup s k)
    (x : JValue) : plainValid r x = plainValid s x := by
  unfold plainValid enumValid constValid numberValid lengthValid boundValid numKeyword
  rw [h "enum" (by decide), h "const" (by decide), h "minimum" (by decide),
    h "maximum" (by decide), h "exclusiveMinimum" (by decide), h "exclusiveMaximum" (by decide),
    h "minLength" (by decide), h "maxLength" (by decide), h "minItems" (by decide),
    h "maxItems" (by decide)]

theorem rel_isSome {R : JValue → JValue → Prop} {a b : Option JValue} (h : Option.Rel R a b) :
    a.isSome = b.isSome := by
  cases h <;> rfl

theorem declared_congr {r s : JObj}
    (h : Option.Rel (PropsAgree R) (lookup r "properties") (lookup s "properties")) (k : String) :
    declared r k = declared s k := by
  unfold declared
  generalize lookup r "properties" = a at h ⊢
  generalize lookup s "properties" = b at h ⊢
  cases h with
  | none => rfl
  | some h =>
    obtain ⟨nm, ps, rfl, rfl, hk⟩ := h
    exact rel_isSome (hk k)

/-! The keyword checks of two related schemas agree when each validates its sub-schemas with its
own function, and related sub-schemas get the same answers from the two. -/

section Congr

variable {rec₁ rec₂ : JObj → JValue → Bool}
  (hR : ∀ a b, R a b → ∀ y, subschemaValid rec₁ a y = subschemaValid rec₂ b y)
include hR

theorem elim_subschemaValid {a b : Option JValue} (h : Option.Rel R a b) (y : JValue) :
    a.elim true (fun sub => subschemaValid rec₁ sub y) =
      b.elim true (fun sub => subschemaValid rec₂ sub y) := by
  cases h with
  | some h => exact hR _ _ h y
  | none => rfl

theorem forall₂_any_countP {zs ys : List JValue} (h : List.Forall₂ R zs ys) (x : JValue) :
    zs.any (fun v => subschemaValid rec₁ v x) = ys.any (fun v => subschemaValid rec₂ v x) ∧
      zs.countP (fun v => subschemaValid rec₁ v x) = ys.countP (fun v => subschemaValid rec₂ v x) := by
  induction h with
  | nil => exact ⟨rfl, rfl⟩
  | cons hab _ ih => simp only [List.any_cons, List.countP_cons, hR _ _ hab x, ih.1, ih.2, and_self]

theorem propertiesValid_congr {r s : JObj}
    (h : Option.Rel (PropsAgree R) (lookup r "properties") (lookup s "properties")) (x : JValue) :
    propertiesValid rec₁ r x = propertiesValid rec₂ s x := by
  unfold propertiesValid
  generalize lookup r "properties" = a at h ⊢
  generalize lookup s "properties" = b at h ⊢
  cases h with
  | none => cases x <;> rfl
  | some h =>
    obtain ⟨nm, ps, rfl, rfl, hk⟩ := h
    cases x with
    | obj m => exact congrArg m.all (funext fun kv => elim_subschemaValid hR (hk kv.1) kv.2)
    | _ => rfl

theorem additionalPropertiesValid_congr {r s : JObj}
    (hp : Option.Rel (PropsAgree R) (lookup r "properties") (lookup s "properties"))
    (h : Option.Rel R (lookup r "additionalProperties") (lookup s "additionalProperties"))
    (x : JValue) : additionalPropertiesValid rec₁ r x = additionalPropertiesValid rec₂ s x := by
  unfold additionalPropertiesValid
  simp only [declared_congr hp]
  generalize lookup r "additionalProperties" = a at h ⊢
  generalize lookup s "additionalProperties" = b at h ⊢
  cases h with
  | none => cases x <;> rfl
  | some h =>
    cases x with
    | obj m => exact congrArg m.all (funext fun kv => by rw [hR _ _ h])
    | _ => rfl

theorem itemsValid_congr {r s : JObj} (h : Option.Rel R (lookup r "items") (lookup s "items"))
    (x : JValue) : itemsValid rec₁ r x = itemsValid rec₂ s x := by
  unfold itemsValid
  generalize lookup r "items" = a at h ⊢
  generalize lookup s "items" = b at h ⊢
  cases h with
  | none => cases x <;> rfl
  | some h =>
    cases x with
    | arr xs => exact congrArg xs.all (funext fun y => hR _ _ h y)
    | _ => rfl

/-- Variants related one for one, in some order, give "some variant" and "how many variants"
the same answers. -/
theorem variants_any_countP {xs zs ys : List JValue} (hp : xs.Perm zs)
    (hf : List.Forall₂ R zs ys) (x : JValue) :
    xs.any (fun v => subschemaValid rec₁ v x) = ys.any (fun v => subschemaValid rec₂ v x) ∧
      xs.countP (fun v => subschemaValid rec₁ v x) = ys.countP (fun v => subschemaValid rec₂ v x) := by
  rw [← (forall₂_any_countP hR hf x).1, ← (forall₂_any_countP hR hf x).2, hp.countP_eq]
  exact ⟨Bool.eq_iff_iff.2 (by simp only [List.any_eq_true, hp.mem_iff]), rfl⟩

theorem anyOfValid_congr {r s : JObj}
    (h : Option.Rel (VariantsAgree R) (lookup r "anyOf") (lookup s "anyOf")) (x : JValue) :
    anyOfValid rec₁ r x = anyOfValid rec₂ s x := by
  unfold anyOfValid
  generalize lookup r "anyOf" = a at h ⊢
  generalize lookup s "anyOf" = b at h ⊢
  cases h with
  | none => rfl
  | some h =>
    obtain ⟨xs, ys, rfl, rfl, zs, hp, hf⟩ := h
    exact (variants_any_countP hR hp hf x).1

theorem oneOfValid_congr {r s : JObj}
    (h : Option.Rel (VariantsAgree R) (lookup r "oneOf") (lookup s "oneOf")) (asAnyOf : Bool)
    (x : JValue) : oneOfValid asAnyOf rec₁ r x = oneOfValid asAnyOf rec₂ s x := by
  unfold oneOfValid
  generalize lookup r "oneOf" = a at h ⊢
  generalize lookup s "oneOf" = b at h ⊢
  cases h with
  | none => rfl
  | some h =>
    obtain ⟨xs, ys, rfl, rfl, zs, hp, hf⟩ := h
    dsimp only
    rw [(variants_any_countP hR hp hf x).1, (variants_any_countP hR hp hf x).2]

end Congr

/-- One level of validation agrees on schemas whose keywords agree, each validating its
sub-schemas at its own fuel, when related sub-schemas get the same verdicts at those fuels and the
two read `$ref` and `allOf` alike. -/
theorem KeywordsAgree.validate_succ {rd : Reading} {f₁ f₂ : Nat} {r s : JObj}
    (h : KeywordsAgree R r s)
    (hR : ∀ a b, R a b → ∀ y,
      subschemaValid (validate rd f₁) a y = subschemaValid (validate rd f₂) b y) (x : JValue)
    (href : refValid rd.refs (validate rd f₁) r x = refValid rd.refs (validate rd f₂) s x)
    (hall : allOfValid (validate rd f₁) r x = allOfValid (validate rd f₂) s x) :
    validate rd (f₁ + 1) r x = validate rd (f₂ + 1) s x := by
  simp only [validate, h.type x, h.required x, plainValid_congr h.kept x, href, hall,
    propertiesValid_congr hR h.properties, additionalPropertiesValid_congr hR h.properties
      h.additionalProperties, itemsValid_congr hR h.items, anyOfValid_congr hR h.anyOf,
    oneOfValid_congr hR h.oneOf]

/-- Sub-schema values related by `SameSub E` get the same verdicts from two validation functions
that agree on the schema objects `E` relates. -/
theorem SameSub.valid {E : JObj → JObj → Prop} {rec₁ rec₂ : JObj → JValue → Bool}
    (hE : ∀ ma mb, E ma mb → ∀ y, rec₁ ma y = rec₂ mb y) {a b : JValue} (h : SameSub E a b)
    (y : JValue) : subschemaValid rec₁ a y = subschemaValid rec₂ b y := by
  rcases h with ⟨rfl, ha⟩ | ⟨ma, mb, rfl, rfl, h⟩
  · cases a with
    | obj m => exact absurd rfl (ha m)
    | _ => rfl
  · exact hE ma mb h y

/-- Schemas whose keywords agree, with sub-schemas of the same verdicts, give the same verdicts at
every fuel. -/
theorem KeywordsAgree.sameVerdicts {rd : Reading} {r s : JObj}
    (h : KeywordsAgree (SameSub (SameVerdicts rd)) r s) : SameVerdicts rd r s := by
  intro fuel x
  cases fuel with
  | zero => rfl
  | succ fuel =>
    exact h.validate_succ (fun _ _ hab => hab.valid fun _ _ hm => hm fuel) x
      (by simp only [refValid, h.kept "$ref" (by decide)])
      (by simp only [allOfValid, h.kept "allOf" (by decide)])

/-- The keys `validate` reads. -/
def readKeywords : List String :=
  keptKeywords ++ ["type", "required", "properties", "additionalProperties", "items", "oneOf", "anyOf"]

/-- Agreement carries over to a schema with the same value at every key `validate` reads. -/
theorem KeywordsAgree.of_lookup_eq {r s t : JObj} (h : KeywordsAgree R r s)
    (e : ∀ k ∈ readKeywords, lookup s k = lookup t k) : KeywordsAgree R r t where
  type x := (h.type x).trans (typeValid_congr (e _ (by decide)) x)
  required x := (h.required x).trans (requiredValid_congr (e _ (by decide)) x)
  kept k hk := (h.kept k hk).trans (e k (List.mem_append_left _ hk))
  properties := e "properties" (by decide) ▸ h.properties
  additionalProperties := e "additionalProperties" (by decide) ▸ h.additionalProperties
  items := e "items" (by decide) ▸ h.items
  oneOf := e "oneOf" (by decide) ▸ h.oneOf
  anyOf := e "anyOf" (by decide) ▸ h.anyOf

end Agree

/-! ### What each keyword step keeps -/

section Steps

variable {P : JObj → Prop} {E : JObj → JObj → Prop}

theorem nonBlankStrings_eq_map : ∀ {xs : List JValue} {ss : List String},
    nonBlankStrings xs = some ss → xs = ss.map .str
  | [], _, h => by cases h; rfl
  | .str x :: rest, ss, h => by
    simp only [nonBlankStrings] at h
    split at h
    · cases h
    · obtain ⟨ss', hr, rfl⟩ := Option.map_eq_some'.mp h
      rw [nonBlankStrings_eq_map hr]; rfl
  | .null :: _, _, h | .bool _ :: _, _, h | .num _ :: _, _, h | .arr _ :: _, _, h
  | .obj _ :: _, _, h => by cases h

theorem normalizeTypeField_agree {o o' : JObj} {path : String}
    (h : normalizeTypeField o path = .ok o') :
    (∀ x, typeValid o' x = typeValid o x) ∧ ∀ j ≠ "type", lookup o' j = lookup o j := by
  unfold normalizeTypeField at h
  split at h
  · cases h; exact ⟨fun _ => rfl, fun _ _ => rfl⟩
  · rename_i t ht
    split at h
    · cases h
    · cases h
      refine ⟨fun x => ?_, fun j hj => lookup_setField_ne _ _ (Ne.symm hj)⟩
      rename_i types htypes
      unfold typeValid
      rw [lookup_setField_self, ht]
      unfold normalizeType at htypes
      split at htypes
      · split at htypes
        · cases htypes
        · cases htypes; simp [strArr]
      · split at htypes
        · cases htypes
          rename_i hss
          rw [nonBlankStrings_eq_map hss]
          exact Bool.eq_iff_iff.2 (by simp [strArr, List.any_eq_true])
        · cases htypes
      · cases htypes

theorem normalizeRequiredField_agree {o o' : JObj} {path : String}
    (h : normalizeRequiredField o path = .ok o') :
    (∀ x, requiredValid o' x = requiredValid o x) ∧ ∀ j ≠ "required", lookup o' j = lookup o j := by
  unfold normalizeRequiredField at h
  split at h
  · cases h; exact ⟨fun _ => rfl, fun _ _ => rfl⟩
  · rename_i v hv
    split at h
    · cases h
    · cases h
      refine ⟨fun x => ?_, fun j hj => lookup_setField_ne _ _ (Ne.symm hj)⟩
      rename_i req hreq
      unfold requiredValid
      rw [lookup_setField_self, hv]
      unfold normalizeStringSet at hreq
      split at hreq
      · split at hreq
        · cases hreq
          rename_i hss
          rw [nonBlankStrings_eq_map hss]
          cases x <;> try rfl
          exact Bool.eq_iff_iff.2 (by simp [strArr, List.all_eq_true])
        · cases hreq
      · cases hreq

theorem lookup_rel_of_forall₂ {R : JValue → JValue → Prop} : ∀ {l l' : JObj},
    List.Forall₂ (fun a b => a.1 = b.1 ∧ R a.2 b.2) l l' → ∀ k, Option.Rel R (lookup l k) (lookup l' k)
  | [], [], .nil, _ => .none
  | (a, x) :: l, (b, y) :: l', .cons ⟨hab, hxy⟩ h, k => by
    dsimp only at hab
    subst hab
    rw [lookup_cons, lookup_cons]
    split
    · exact .some hxy
    · exact lookup_rel_of_forall₂ h k

theorem perm_sortVariants (vs : List JObj) : (sortVariants vs).Perm vs := by
  have := (List.perm_insertionSort canonLE (vs.map fun v => (writeJCS (.obj v), v))).map Prod.snd
  rwa [List.map_map, show (Prod.snd ∘ fun v : JObj => (writeJCS (.obj v), v)) = id from rfl,
    List.map_id] at this

variable {rec : JObj → String → NormM JObj}
  (hrec : ∀ m p st r st', P m → rec m p st = some (.ok r, st') → E r m)
include hrec

theorem normalizeProps_agree (path : String) : ∀ (nm props : JObj) {st nm' st'},
    normalizeProps rec path nm props st = some (.ok nm', st') → (props.map Prod.fst).Nodup →
    (∀ k ∈ props.map Prod.fst, k ∉ nm.map Prod.fst) →
    (∀ k m, (k, JValue.obj m) ∈ props → P m) →
    ∃ tail, nm' = nm ++ tail ∧ List.Forall₂ (fun a b => a.1 = b.1 ∧ SameSub E a.2 b.2) tail props
  | nm, [], _, _, _, h, _, _, _ => by cases h; exact ⟨[], by simp, .nil⟩
  | nm, (k, v) :: rest, st, nm', st', h, hnd, hfresh, hkids => by
    cases v with
    | obj vm =>
      obtain ⟨nv, s₁, hv, hr⟩ := bind_eq_ok.mp h
      obtain ⟨hk, hnd'⟩ := List.nodup_cons.1 hnd
      rw [setField_of_not_mem _ (hfresh k (List.mem_cons_self _ _))] at hr
      have fresh : ∀ j ∈ rest.map Prod.fst, j ∉ (nm ++ [(k, JValue.obj nv)]).map Prod.fst := by
        intro j hj
        simp only [List.map_append, List.map_cons, List.map_nil, List.mem_append,
          List.mem_singleton, not_or]
        exact ⟨hfresh j (List.mem_cons_of_mem _ hj), fun e => hk (e ▸ hj)⟩
      obtain ⟨tail, rfl, hf⟩ := normalizeProps_agree path _ rest hr hnd' fresh
        fun j m hm => hkids j m (List.mem_cons_of_mem _ hm)
      exact ⟨(k, .obj nv) :: tail, by simp, .cons ⟨rfl, .inr ⟨nv, vm, rfl, rfl,
        hrec _ _ _ _ _ (hkids k vm (List.mem_cons_self _ _)) hv⟩⟩ hf⟩
    | _ => cases h

theorem normalizePropertiesField_agree {o o' : JObj} {path : String} {st st' : List String}
    (h : normalizePropertiesField rec o path st = some (.ok o', st'))
    (hnd : ∀ ps, lookup o "properties" = some (.obj ps) → (ps.map Prod.fst).Nodup)
    (hkids : ∀ ps k m, lookup o "properties" = some (.obj ps) → (k, JValue.obj m) ∈ ps →
      P m) :
    Option.Rel (PropsAgree (SameSub E)) (lookup o' "properties") (lookup o "properties") ∧
      ∀ j ≠ "properties", lookup o' j = lookup o j := by
  cases hp : lookup o "properties" with
  | none =>
    simp [normalizePropertiesField, hp] at h
    rw [← h.1, hp]; exact ⟨.none, fun _ _ => rfl⟩
  | some v =>
    cases v with
    | obj props =>
      simp only [normalizePropertiesField, hp] at h
      obtain ⟨nm, s₁, hnm, hr⟩ := bind_eq_ok.mp h
      simp only [pure_apply, Option.some.injEq, Prod.mk.injEq, Except.ok.injEq] at hr
      obtain ⟨rfl, -⟩ := hr
      obtain ⟨tail, rfl, hf⟩ := normalizeProps_agree hrec path [] props hnm (hnd props hp)
        (by simp) fun k m hm => hkids props k m hp hm
      refine ⟨?_, fun j hj => lookup_setField_ne _ _ (Ne.symm hj)⟩
      rw [lookup_setField_self]
      exact .some ⟨_, _, rfl, rfl, lookup_rel_of_forall₂ hf⟩
    | _ => simp [normalizePropertiesField, hp] at h

theorem normalizeAdditionalPropertiesField_agree {o o' : JObj} {path : String}
    {st st' : List String} (h : normalizeAdditionalPropertiesField rec o path st = some (.ok o', st'))
    (hkid : ∀ m, lookup o "additionalProperties" = some (.obj m) → P m) :
    Option.Rel (SameSub E) (lookup o' "additionalProperties") (lookup o "additionalProperties") ∧
      ∀ j ≠ "additionalProperties", lookup o' j = lookup o j := by
  cases hp : lookup o "additionalProperties" with
  | none =>
    simp [normalizeAdditionalPropertiesField, hp] at h
    rw [← h.1, hp]; exact ⟨.none, fun _ _ => rfl⟩
  | some v =>
    cases v with
    | bool x =>
      simp [normalizeAdditionalPropertiesField, hp] at h
      rw [← h.1, lookup_setField_self]
      exact ⟨.some (.inl ⟨rfl, fun _ h => nomatch h⟩), fun j hj => lookup_setField_ne _ _ (Ne.symm hj)⟩
    | obj x =>
      simp only [normalizeAdditionalPropertiesField, hp] at h
      obtain ⟨nv, s₁, hnv, hr⟩ := bind_eq_ok.mp h
      simp only [pure_apply, Option.some.injEq, Prod.mk.injEq, Except.ok.injEq] at hr
      obtain ⟨rfl, -⟩ := hr
      rw [lookup_setField_self]
      exact ⟨.some (.inr ⟨nv, x, rfl, rfl, hrec _ _ _ _ _ (hkid x hp) hnv⟩),
        fun j hj => lookup_setField_ne _ _ (Ne.symm hj)⟩
    | _ => simp [normalizeAdditionalPropertiesField, hp] at h

theorem normalizeItemsField_agree {o o' : JObj} {path : String} {st st' : List String}
    (h : normalizeItemsField rec o path st = some (.ok o', st'))
    (hkid : ∀ m, lookup o "items" = some (.obj m) → P m) :
    Option.Rel (SameSub E) (lookup o' "items") (lookup o "items") ∧
      ∀ j ≠ "items", lookup o' j = lookup o j := by
  cases hp : lookup o "items" with
  | none =>
    simp [normalizeItemsField, hp] at h
    rw [← h.1, hp]; exact ⟨.none, fun _ _ => rfl⟩
  | some v =>
    cases v with
    | obj im =>
      simp only [normalizeItemsField, hp] at h
      obtain ⟨nv, s₁, hnv, hr⟩ := bind_eq_ok.mp h
      simp only [pure_apply, Option.some.injEq, Prod.mk.injEq, Except.ok.injEq] at hr
      obtain ⟨rfl, -⟩ := hr
      rw [lookup_setField_self]
      exact ⟨.some (.inr ⟨nv, im, rfl, rfl, hrec _ _ _ _ _ (hkid im hp) hnv⟩),
        fun j hj => lookup_setField_ne _ _ (Ne.symm hj)⟩
    | _ => simp [normalizeItemsField, hp] at h

theorem normalizeVariants_agree (path k : String) :
    ∀ (idx : Nat) (items : List JValue) {st vs st'},
      normalizeVariants rec path k idx items st = some (.ok vs, st') →
      (∀ m, JValue.obj m ∈ items → P m) → List.Forall₂ (SameSub E) (vs.map .obj) items
  | _, [], _, _, _, h, _ => by cases h; exact .nil
  | idx, item :: rest, st, vs, st', h, hkids => by
    cases item with
    | obj m =>
      obtain ⟨nv, s₁, hnv, h⟩ := bind_eq_ok.mp h
      obtain ⟨nvs, s₂, hnvs, hr⟩ := bind_eq_ok.mp h
      cases hr
      exact .cons (.inr ⟨nv, m, rfl, rfl, hrec _ _ _ _ _ (hkids m (List.mem_cons_self _ _)) hnv⟩)
        (normalizeVariants_agree path k _ rest hnvs fun m hm => hkids m (List.mem_cons_of_mem _ hm))
    | _ => cases h

theorem normalizeUnionField_agree {k : String} {o o' : JObj} {path : String}
    {st st' : List String} (h : normalizeUnionField rec k o path st = some (.ok o', st'))
    (hkids : ∀ xs m, lookup o k = some (.arr xs) → JValue.obj m ∈ xs → P m) :
    Option.Rel (VariantsAgree (SameSub E)) (lookup o' k) (lookup o k) ∧ ∀ j ≠ k, lookup o' j = lookup o j := by
  cases hp : lookup o k with
  | none =>
    simp [normalizeUnionField, hp] at h
    rw [← h.1, hp]; exact ⟨.none, fun _ _ => rfl⟩
  | some v =>
    cases v with
    | arr arr =>
      simp only [normalizeUnionField, hp] at h
      obtain ⟨vs, s₁, hvs, hr⟩ := bind_eq_ok.mp h
      simp only [pure_apply, Option.some.injEq, Prod.mk.injEq, Except.ok.injEq] at hr
      obtain ⟨rfl, -⟩ := hr
      rw [lookup_setField_self]
      exact ⟨.some ⟨_, _, rfl, rfl, _, (perm_sortVariants vs).map _,
        normalizeVariants_agree hrec path k _ _ hvs fun m hm => hkids arr m hp hm⟩,
        fun j hj => lookup_setField_ne _ _ (Ne.symm hj)⟩
    | _ => simp [normalizeUnionField, hp] at h

/-- The keyword steps keep the verdicts of every keyword, given that the sub-schemas they enter
are plain and `properties` has distinct names. -/
theorem normalizeFields_agree {out r : JObj} {path : String} {st st' : List String}
    (hnd : ∀ ps, lookup out "properties" = some (.obj ps) → (ps.map Prod.fst).Nodup)
    (hkids : ∀ m, Child m out → P m)
    (h : normalizeFields rec out path st = some (.ok r, st')) : KeywordsAgree (SameSub E) r out := by
  obtain ⟨o₁, s₁, h₁, h⟩ := bind_eq_ok.mp h
  obtain ⟨o₂, s₂, h₂, h⟩ := bind_eq_ok.mp h
  obtain ⟨o₃, s₃, h₃, h⟩ := bind_eq_ok.mp h
  obtain ⟨o₄, s₄, h₄, h⟩ := bind_eq_ok.mp h
  obtain ⟨o₅, s₅, h₅, h⟩ := bind_eq_ok.mp h
  obtain ⟨o₆, s₆, h₆, h₇⟩ := bind_eq_ok.mp h
  have T := normalizeTypeField_agree (lift_eq_ok h₁)
  have Q := normalizeRequiredField_agree (lift_eq_ok h₂)
  have e₂ : lookup o₂ "properties" = lookup out "properties" := by
    rw [Q.2 _ (by decide), T.2 _ (by decide)]
  have P := normalizePropertiesField_agree hrec h₃ (by rw [e₂]; exact hnd)
    fun ps k m hps hm => hkids m (.inl ⟨ps, k, by rw [← e₂]; exact hps, hm⟩)
  have e₃ : lookup o₃ "additionalProperties" = lookup out "additionalProperties" := by
    rw [P.2 _ (by decide), Q.2 _ (by decide), T.2 _ (by decide)]
  have A := normalizeAdditionalPropertiesField_agree hrec h₄
    fun m hm => hkids m (.inr (.inl (by rw [← e₃]; exact hm)))
  have e₄ : lookup o₄ "items" = lookup out "items" := by
    rw [A.2 _ (by decide), P.2 _ (by decide), Q.2 _ (by decide), T.2 _ (by decide)]
  have I := normalizeItemsField_agree hrec h₅
    fun m hm => hkids m (.inr (.inr (.inl (by rw [← e₄]; exact hm))))
  have e₅ : lookup o₅ "oneOf" = lookup out "oneOf" := by
    rw [I.2 _ (by decide), A.2 _ (by decide), P.2 _ (by decide), Q.2 _ (by decide),
      T.2 _ (by decide)]
  have U₁ := normalizeUnionField_agree hrec h₆
    fun xs m hxs hm => hkids m (.inr (.inr (.inr ⟨"oneOf", by decide, xs, by rw [← e₅]; exact hxs, hm⟩)))
  have e₆ : lookup o₆ "anyOf" = lookup out "anyOf" := by
    rw [U₁.2 _ (by decide), I.2 _ (by decide), A.2 _ (by decide), P.2 _ (by decide),
      Q.2 _ (by decide), T.2 _ (by decide)]
  have U₂ := normalizeUnionField_agree hrec h₇
    fun xs m hxs hm => hkids m (.inr (.inr (.inr ⟨"anyOf", by decide, xs, by rw [← e₆]; exact hxs, hm⟩)))
  refine ⟨fun x => ?_, fun x => ?_, fun k hk => ?_, ?_, ?_, ?_, ?_, ?_⟩
  · rw [← T.1 x]
    exact typeValid_congr (by rw [U₂.2 _ (by decide), U₁.2 _ (by decide), I.2 _ (by decide),
      A.2 _ (by decide), P.2 _ (by decide), Q.2 _ (by decide)]) x
  · rw [← requiredValid_congr (T.2 _ (by decide)) x, ← Q.1 x]
    exact requiredValid_congr (by rw [U₂.2 _ (by decide), U₁.2 _ (by decide), I.2 _ (by decide),
      A.2 _ (by decide), P.2 _ (by decide)]) x
  · have ne : ∀ j ∈ ["type", "required", "properties", "additionalProperties", "items", "oneOf",
        "anyOf"], k ≠ j := fun j hj => ne_of_mem_of_not_mem hk (by revert j hj; decide)
    rw [U₂.2 _ (ne _ (by decide)), U₁.2 _ (ne _ (by decide)), I.2 _ (ne _ (by decide)),
      A.2 _ (ne _ (by decide)), P.2 _ (ne _ (by decide)), Q.2 _ (ne _ (by decide)),
      T.2 _ (ne _ (by decide))]
  · rw [U₂.2 _ (by decide), U₁.2 _ (by decide), I.2 _ (by decide), A.2 _ (by decide), ← e₂]
    exact P.1
  · rw [U₂.2 _ (by decide), U₁.2 _ (by decide), I.2 _ (by decide), ← e₃]
    exact A.1
  · rw [U₂.2 _ (by decide), U₁.2 _ (by decide), ← e₄]
    exact I.1
  · rw [U₂.2 _ (by decide), ← e₅]
    exact U₁.1
  · rw [← e₆]
    exact U₂.1

end Steps

/-- A sub-schema position of `a` is one of `b` when the two read the same values under the
keywords that hold sub-schemas. -/
theorem child_of_lookup_eq {a b m : JObj} (e : ∀ k ∈ readKeywords, lookup a k = lookup b k)
    (h : Child m a) : Child m b := by
  rcases h with ⟨ps, k, hps, hm⟩ | hap | hit | ⟨k, hk, xs, hxs, hm⟩
  · exact .inl ⟨ps, k, by rw [← e _ (by decide)]; exact hps, hm⟩
  · exact .inr (.inl (by rw [← e _ (by decide)]; exact hap))
  · exact .inr (.inr (.inl (by rw [← e _ (by decide)]; exact hit)))
  · obtain rfl | rfl : k = "oneOf" ∨ k = "anyOf" := by simpa using hk
    all_goals exact .inr (.inr (.inr ⟨_, hk, xs, by rw [← e _ (by decide)]; exact hxs, hm⟩))

/-- Stripping annotations and `$defs` keeps every key `validate` reads. -/
theorem lookup_stripAnnotations {schema : JObj} {k : String} (hk : k ∈ readKeywords) :
    lookup (stripAnnotations schema) k = lookup schema k := by
  have keep : ∀ j ∈ readKeywords, j ∉ annotationKeywords ∧ j ≠ "$defs" := by decide
  exact lookup_filter _ _ fun _ => decide_eq_true (keep k hk)

/-- Every schema `normalizeAt` returns from a plain schema gives it the same verdicts. -/
theorem normalizeAt_sameVerdicts {rd : Reading} (n : Normalizer) :
    ∀ (fuel : Nat) (schema : JObj) (path : String) (st : List String) (r : JObj)
      (st' : List String), AllNodes Plain schema →
      n.normalizeAt fuel schema path st = some (.ok r, st') → SameVerdicts rd r schema
  | 0, _, _, _, _, _, _, h => by cases h
  | fuel + 1, schema, path, st, r, st', hp, h => by
    obtain ⟨noRef, noAllOf, hnd⟩ := hp.root
    cases gate : assertProfileKeywords schema path with
    | error e => simp [normalizeAt, bind_apply, gate] at h
    | ok u =>
      rw [normalizeAt_fields n fuel st gate noRef
        ((lookup_stripAnnotations (by decide)).trans noAllOf)] at h
      have agree : KeywordsAgree (SameSub (SameVerdicts rd)) r (stripAnnotations schema) :=
        normalizeFields_agree (normalizeAt_sameVerdicts n fuel)
        (fun ps hps => hnd ps ((lookup_stripAnnotations (by decide)).symm.trans hps))
        (fun m hm => hp.child (child_of_lookup_eq (fun _ => lookup_stripAnnotations) hm)) h
      exact (agree.of_lookup_eq fun _ => lookup_stripAnnotations).sameVerdicts

/-- Normalization keeps the meaning of every schema with no `allOf` and no `$ref` to resolve at
any position (and distinct names in each `properties`): an instance is valid against the result
exactly when it is valid against the schema. -/
theorem normalize_preserves_validity (n : Normalizer) (rd : Reading) (fuel : Nat)
    (s r : JObj) (hplain : AllNodes Plain s) (h : n.normalize fuel s = some (.ok r)) (x : JValue) :
    Valid rd r x ↔ Valid rd s x := by
  obtain ⟨⟨res, st⟩, hrun, hres⟩ := Option.map_eq_some'.mp h
  cases hres
  exact (normalizeAt_sameVerdicts n fuel s "" [] r st hplain hrun).valid_iff x

/-- `{"type": "string", "allOf": [{"minLength": 1}]}` normalizes to `{"minLength": 1}`: the
`type` beside `allOf` is dropped, and the number `5`, which the schema rejects, is valid against
the result. -/
theorem normalize_allOf_drops_sibling :
    ({} : Normalizer).normalize 3
        [("type", .str "string"), ("allOf", .arr [.obj [("minLength", .num ⟨false, 1, 0, rfl⟩)]])] =
        some (.ok [("minLength", .num ⟨false, 1, 0, rfl⟩)]) ∧
      Valid ⟨fun _ => none, false, false⟩ [("minLength", .num ⟨false, 1, 0, rfl⟩)] (.num ⟨false, 5, 0, rfl⟩) ∧
      ¬ Valid ⟨fun _ => none, false, false⟩
        [("type", .str "string"), ("allOf", .arr [.obj [("minLength", .num ⟨false, 1, 0, rfl⟩)]])]
        (.num ⟨false, 5, 0, rfl⟩) := by
  refine ⟨by decide, ⟨1, fun m hm => ?_⟩, fun ⟨n, hn⟩ => absurd (hn (n + 1) (Nat.le_succ n)) ?_⟩
  · cases m with
    | zero => omega
    | succ m => rfl
  · exact Bool.false_ne_true

/-- The merge of `allOf` branches is not their conjunction either: `additionalProperties: false`
of one branch forbids the properties of the other, and the merge declares both. `{"b": null}` is
valid against the merge and not against the `allOf`. -/
theorem normalize_allOf_merge_widens :
    ({} : Normalizer).normalize 4 [("allOf", .arr [.obj [("properties", .obj [("a", .obj [])]),
        ("additionalProperties", .bool false)], .obj [("properties", .obj [("b", .obj [])])]])] =
        some (.ok [("properties", .obj [("a", .obj []), ("b", .obj [])]),
          ("additionalProperties", .bool false)]) ∧
      Valid ⟨fun _ => none, false, false⟩ [("properties", .obj [("a", .obj []), ("b", .obj [])]),
        ("additionalProperties", .bool false)] (.obj [("b", .null)]) ∧
      ¬ Valid ⟨fun _ => none, false, false⟩ [("allOf", .arr [.obj [("properties", .obj [("a", .obj [])]),
        ("additionalProperties", .bool false)], .obj [("properties", .obj [("b", .obj [])])]])]
        (.obj [("b", .null)]) := by
  refine ⟨by decide, ⟨0, fun m _ => ?_⟩, fun ⟨n, hn⟩ => absurd (hn (n + 2) (by omega)) ?_⟩
  · rcases m with _ | _ | m <;> rfl
  · exact Bool.false_ne_true

end OpenBindings.SchemaProfile
