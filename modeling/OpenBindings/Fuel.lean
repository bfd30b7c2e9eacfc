import OpenBindings.Gate

/-! # Fuel

The normalizer's model spends one unit of fuel per call of `normalizeAt` and `mergeAllOfBranch`.
A run that returns with some fuel returns the same with more (`normalizeAt_extends_of_le`), so a
Go run that terminates is the model's run at every large enough fuel, and a schema on which the
model runs out of fuel for every fuel is one on which Go recurses without end.

The Go normalizer does not always terminate. An `allOf` branch that is a `$ref` is resolved and
its cycle entry popped at once (`flattenBranch`), before the merge is normalized; when the target
reaches the same `allOf` again through a property, nothing in the cycle set records it, and the
recursion unfolds the target forever (`normalize_allOf_self_reference_diverges`). -/

namespace OpenBindings.SchemaProfile

namespace NormM

/-- `y` extends `x`: every run of `x` that returns, `y` returns the same. -/
def Extends (x y : NormM α) : Prop := ∀ s r, x s = some r → y s = some r

theorem Extends.refl (x : NormM α) : Extends x x := fun _ _ h => h

theorem Extends.trans {x y z : NormM α} (hxy : Extends x y) (hyz : Extends y z) : Extends x z :=
  fun s r h => hyz s r (hxy s r h)

theorem outOfFuel_extends (y : NormM α) : Extends outOfFuel y := fun _ _ h => by cases h

/-- Binding is monotone in both parts. -/
theorem bind_extends {x y : NormM α} {f g : α → NormM β} (hx : Extends x y)
    (hf : ∀ a, Extends (f a) (g a)) : Extends (x >>= f) (y >>= g) := by
  intro s r h
  rw [bind_apply] at h ⊢
  match hxs : x s with
  | some (.ok a, s') => rw [hxs] at h; rw [hx s _ hxs]; exact hf a s' r h
  | some (.error e, s') => rw [hxs] at h; rw [hx s _ hxs]; exact h
  | none => rw [hxs] at h; cases h

theorem bind_extends_right (x : NormM α) {f g : α → NormM β} (hf : ∀ a, Extends (f a) (g a)) :
    Extends (x >>= f) (x >>= g) :=
  bind_extends (Extends.refl x) hf

theorem withCleanup_extends (key : String) {x y : NormM α} (h : Extends x y) :
    Extends (withCleanup key x) (withCleanup key y) := by
  intro s r hr
  simp only [withCleanup, Option.map_eq_some'] at hr ⊢
  obtain ⟨r', hx, rfl⟩ := hr
  exact ⟨r', h s r' hx, rfl⟩

end NormM

open NormM

namespace Normalizer

/-! ### `mergeAllOfBranch` -/

section Merge

variable {rec₁ rec₂ : JObj → JObj → String → NormM JObj}
  (hrec : ∀ a b p, Extends (rec₁ a b p) (rec₂ a b p))
include hrec

theorem mergeProps_extends (path : String) :
    ∀ aProps bProps, Extends (mergeProps rec₁ path aProps bProps) (mergeProps rec₂ path aProps bProps)
  | _, [] => Extends.refl _
  | aProps, (k, bv) :: rest => by
    refine bind_extends ?_ fun a => mergeProps_extends path a rest
    unfold mergeProp
    split
    · exact bind_extends (hrec _ _ _) fun _ => Extends.refl _
    · exact Extends.refl _

theorem mergeProperties_extends (acc branch : JObj) (path : String) :
    Extends (mergeProperties rec₁ acc branch path) (mergeProperties rec₂ acc branch path) := by
  unfold mergeProperties
  split
  · exact Extends.refl _
  · exact bind_extends (mergeProps_extends hrec _ _ _) fun _ => Extends.refl _
  · exact Extends.refl _

theorem mergeAdditionalProperties_extends (acc branch : JObj) (path : String) :
    Extends (mergeAdditionalProperties rec₁ acc branch path)
      (mergeAdditionalProperties rec₂ acc branch path) := by
  unfold mergeAdditionalProperties
  split
  · exact Extends.refl _
  · exact Extends.refl _
  · split
    · exact Extends.refl _
    · exact Extends.refl _
    · exact bind_extends (hrec _ _ _) fun _ => Extends.refl _
    · exact Extends.refl _
    · exact Extends.refl _
  · exact Extends.refl _

theorem mergeItems_extends (acc branch : JObj) (path : String) :
    Extends (mergeItems rec₁ acc branch path) (mergeItems rec₂ acc branch path) := by
  unfold mergeItems
  split
  · exact Extends.refl _
  · split
    · exact bind_extends (hrec _ _ _) fun _ => Extends.refl _
    · exact Extends.refl _
  · exact Extends.refl _

theorem mergeAllOfBranchStep_extends (acc branch : JObj) (path : String) :
    Extends (mergeAllOfBranchStep rec₁ acc branch path) (mergeAllOfBranchStep rec₂ acc branch path) :=
  bind_extends_right _ fun _ => bind_extends (mergeProperties_extends hrec _ _ _) fun _ =>
    bind_extends_right _ fun _ => bind_extends (mergeAdditionalProperties_extends hrec _ _ _) fun _ =>
      bind_extends_right _ fun _ => bind_extends (mergeItems_extends hrec _ _ _) fun _ =>
        Extends.refl _

end Merge

theorem mergeAllOfBranch_succ_extends :
    ∀ fuel acc branch path,
      Extends (mergeAllOfBranch fuel acc branch path) (mergeAllOfBranch (fuel + 1) acc branch path)
  | 0, _, _, _ => outOfFuel_extends _
  | fuel + 1, _, _, _ => mergeAllOfBranchStep_extends (mergeAllOfBranch_succ_extends fuel) _ _ _

/-! ### `flattenAllOf` -/

theorem flattenBranch_succ_extends (n : Normalizer) (fuel : Nat) (path : String) (merged : JObj)
    (idx : Nat) (item : JValue) :
    Extends (n.flattenBranch fuel path merged idx item) (n.flattenBranch (fuel + 1) path merged idx item) := by
  unfold flattenBranch
  split
  · refine bind_extends_right _ fun _ => ?_
    split
    · exact Extends.refl _
    · split
      · exact Extends.refl _
      · exact bind_extends_right _ fun b => mergeAllOfBranch_succ_extends fuel merged b _
  · exact Extends.refl _

theorem flattenBranches_succ_extends (n : Normalizer) (fuel : Nat) (path : String) :
    ∀ merged idx items, Extends (n.flattenBranches fuel path merged idx items)
      (n.flattenBranches (fuel + 1) path merged idx items)
  | _, _, [] => Extends.refl _
  | merged, idx, item :: rest =>
    bind_extends (flattenBranch_succ_extends n fuel path merged idx item) fun m =>
      flattenBranches_succ_extends n fuel path m (idx + 1) rest

theorem flattenAllOf_succ_extends (n : Normalizer) (fuel : Nat) (allOf : JValue) (path : String) :
    Extends (n.flattenAllOf fuel allOf path) (n.flattenAllOf (fuel + 1) allOf path) := by
  unfold flattenAllOf
  split
  · exact flattenBranches_succ_extends n fuel path _ _ _
  · exact Extends.refl _

/-! ### `normalizeAt` -/

section Fields

variable {rec₁ rec₂ : JObj → String → NormM JObj} (hrec : ∀ s p, Extends (rec₁ s p) (rec₂ s p))
include hrec

theorem normalizeProps_extends (path : String) :
    ∀ nm props, Extends (normalizeProps rec₁ path nm props) (normalizeProps rec₂ path nm props)
  | _, [] => Extends.refl _
  | nm, (k, v) :: rest => by
    cases v with
    | obj vm => exact bind_extends (hrec _ _) fun nv => normalizeProps_extends path _ rest
    | _ => exact Extends.refl _

theorem normalizeVariants_extends (path k : String) :
    ∀ idx items, Extends (normalizeVariants rec₁ path k idx items) (normalizeVariants rec₂ path k idx items)
  | _, [] => Extends.refl _
  | idx, item :: rest => by
    cases item with
    | obj m => exact bind_extends (hrec _ _) fun _ =>
        bind_extends (normalizeVariants_extends path k (idx + 1) rest) fun _ => Extends.refl _
    | _ => exact Extends.refl _

theorem normalizeFields_extends (out : JObj) (path : String) :
    Extends (normalizeFields rec₁ out path) (normalizeFields rec₂ out path) := by
  have props (o : JObj) : Extends (normalizePropertiesField rec₁ o path)
      (normalizePropertiesField rec₂ o path) := by
    unfold normalizePropertiesField; split
    · exact Extends.refl _
    · exact bind_extends (normalizeProps_extends hrec _ _ _) fun _ => Extends.refl _
    · exact Extends.refl _
  have ap (o : JObj) : Extends (normalizeAdditionalPropertiesField rec₁ o path)
      (normalizeAdditionalPropertiesField rec₂ o path) := by
    unfold normalizeAdditionalPropertiesField; split
    · exact Extends.refl _
    · exact Extends.refl _
    · exact bind_extends (hrec _ _) fun _ => Extends.refl _
    · exact Extends.refl _
  have items (o : JObj) : Extends (normalizeItemsField rec₁ o path) (normalizeItemsField rec₂ o path) := by
    unfold normalizeItemsField; split
    · exact Extends.refl _
    · exact bind_extends (hrec _ _) fun _ => Extends.refl _
    · exact Extends.refl _
  have union (k : String) (o : JObj) : Extends (normalizeUnionField rec₁ k o path)
      (normalizeUnionField rec₂ k o path) := by
    unfold normalizeUnionField; split
    · exact Extends.refl _
    · exact bind_extends (normalizeVariants_extends hrec _ _ _ _) fun _ => Extends.refl _
    · exact Extends.refl _
  exact bind_extends_right _ fun _ => bind_extends_right _ fun _ =>
    bind_extends (props _) fun _ => bind_extends (ap _) fun _ => bind_extends (items _) fun _ =>
      bind_extends (union _ _) fun _ => union _ _

end Fields

theorem normalizeAt_succ_extends (n : Normalizer) :
    ∀ fuel schema path, Extends (n.normalizeAt fuel schema path) (n.normalizeAt (fuel + 1) schema path)
  | 0, _, _ => outOfFuel_extends _
  | fuel + 1, schema, path => by
    have ih := normalizeAt_succ_extends n fuel
    refine bind_extends_right _ fun _ => ?_
    split
    · exact bind_extends_right _ fun _ => withCleanup_extends _ (by
        split
        · exact ih _ _
        · exact Extends.refl _)
    · dsimp only
      split
      · exact bind_extends (flattenAllOf_succ_extends n fuel _ _) fun merged => ih merged path
      · exact normalizeFields_extends ih _ _

/-- More fuel never changes a result: a run of `normalizeAt` that returns with `fuel` returns the
same with any larger fuel. -/
theorem normalizeAt_extends_of_le (n : Normalizer) {fuel fuel' : Nat} (h : fuel ≤ fuel')
    (schema : JObj) (path : String) :
    Extends (n.normalizeAt fuel schema path) (n.normalizeAt fuel' schema path) := by
  induction h with
  | refl => exact Extends.refl _
  | step _ ih => exact ih.trans (normalizeAt_succ_extends n _ _ _)

/-! ### A self-reference through `allOf` -/

/-- `{"allOf": [{"$ref": "#/A"}]}`. -/
def allOfSelfRef : JObj := [("allOf", .arr [.obj [("$ref", .str "#/A")]])]

/-- `A = {"properties": {"p": {"allOf": [{"$ref": "#/A"}]}}}`, which reaches itself through a
property and an `allOf` branch. -/
def selfRefSchema : JObj := [("properties", .obj [("p", .obj allOfSelfRef)])]

/-- The normalizer whose root document is `{"A": A}`. -/
def selfRefNormalizer : Normalizer := { root := .obj [("A", .obj selfRefSchema)] }

/-- The `allOf` merges its one branch, `A` itself, with the cycle set empty again, and normalizes
the merge with one unit of fuel less. -/
theorem allOfSelfRef_none (fuel : Nat) (path : String)
    (h : selfRefNormalizer.normalizeAt fuel selfRefSchema path [] = none) :
    selfRefNormalizer.normalizeAt (fuel + 1) allOfSelfRef path [] = none := by
  rw [normalizeAt_allOf _ _ [] (assertProfileKeywords_ok _ (by decide))
    (rfl : refTarget allOfSelfRef = none) rfl, bind_apply]
  cases fuel with
  | zero => rfl
  | succ fuel =>
    have flat : selfRefNormalizer.flattenAllOf (fuel + 1) (.arr [.obj [("$ref", .str "#/A")]]) path [] =
        some (.ok selfRefSchema, []) := rfl
    rw [flat]; exact h

/-- `A` normalizes its property `p`, the `allOf`, first. -/
theorem selfRefSchema_none (fuel : Nat) (path : String)
    (h : selfRefNormalizer.normalizeAt fuel allOfSelfRef
      (ptrJoin path ("properties[" ++ quote "p" ++ "]")) [] = none) :
    selfRefNormalizer.normalizeAt (fuel + 1) selfRefSchema path [] = none := by
  rw [normalizeAt_fields _ _ [] (assertProfileKeywords_ok _ (by decide))
    (rfl : refTarget selfRefSchema = none) rfl]
  have type : normalizeTypeField (stripAnnotations selfRefSchema) path = .ok selfRefSchema := rfl
  have req : normalizeRequiredField selfRefSchema path = .ok selfRefSchema := rfl
  have props : lookup selfRefSchema "properties" = some (.obj [("p", .obj allOfSelfRef)]) := rfl
  simp only [normalizeFields, bind_apply, type, req, lift_ok_apply, normalizePropertiesField, props,
    normalizeProps, h]

theorem normalizeAt_selfRef_none :
    ∀ fuel path, selfRefNormalizer.normalizeAt fuel selfRefSchema path [] = none
  | 0, _ => rfl
  | 1, path => selfRefSchema_none 0 path rfl
  | fuel + 2, path =>
    selfRefSchema_none (fuel + 1) path (allOfSelfRef_none fuel _ (normalizeAt_selfRef_none fuel _))

/-- `Normalize(A)` runs out of fuel for every fuel: the Go call never returns. -/
theorem normalize_allOf_self_reference_diverges (fuel : Nat) :
    selfRefNormalizer.normalize fuel selfRefSchema = none := by
  simp [normalize, normalizeAt_selfRef_none]

end Normalizer

end OpenBindings.SchemaProfile
