import OpenBindings.Compat

/-! # The cycle set is restored on every return

`resolveRef` pushes the key of a reference onto the cycle set only when it succeeds, and the key
was not there before (a key already there is the error `cycle detected`). Its caller pops the
key again: `normalizeAt` through the deferred cleanup (`withCleanup`), whatever the target's
normalization returned, and `flattenAllOf` at once (`resolveBranch`). Every other step leaves
the set alone. So every return of `normalizeAt`, a result or an error, leaves the cycle set as
it found it (`normalizeAt_restores`), and `InputCompatible` and `OutputCompatible`, which
normalize the candidate from the set the target left, normalize both from the empty set
(`normalizeAt_restores_cycleSet`). Here a schema is a value; over Go's shared maps, where the
target's pass can write into `Root` before the candidate's pass reads it, the same discipline is
proved in `SharedCycles`.

`Restores x` says so of one computation. It holds of `pure`, `fail` and `lift`, is closed under
bind, and each helper of the normalizer gets it from its parts, as the `Fuel` module does for
`Extends`. -/

namespace OpenBindings.SchemaProfile

namespace NormM

/-- `x` leaves the cycle set as it found it whenever it returns, with a value or an error. -/
def Restores (x : NormM α) : Prop := ∀ s r s', x s = some (r, s') → s' = s

theorem restores_pure (a : α) : Restores (pure a : NormM α) := fun _ _ _ h => by cases h; rfl

theorem restores_fail (e : ProfileError) : Restores (fail e : NormM α) := fun _ _ _ h => by
  cases h; rfl

theorem restores_lift (x : Except ProfileError α) : Restores (lift x) := by
  cases x with
  | ok a => exact restores_pure a
  | error e => exact restores_fail e

theorem restores_outOfFuel : Restores (outOfFuel : NormM α) := fun _ _ _ h => by cases h

theorem Restores.bind {x : NormM α} {f : α → NormM β} (hx : Restores x)
    (hf : ∀ a, Restores (f a)) : Restores (x >>= f) := by
  intro s r s' h
  rw [bind_apply] at h
  match hxs : x s with
  | some (.ok a, s₁) => rw [hxs] at h; exact (hf a s₁ r s' h).trans (hx s _ s₁ hxs)
  | some (.error e, s₁) => rw [hxs] at h; cases h; exact hx s _ _ hxs
  | none => rw [hxs] at h; cases h

/-- Removing a key that is not in the set leaves the set. -/
theorem filter_ne_of_not_mem {key : String} {s : List String} (hk : key ∉ s) :
    s.filter (· ≠ key) = s :=
  List.filter_eq_self.2 fun a ha => by
    simp only [ne_eq, decide_eq_true_eq]
    rintro rfl
    exact hk ha

/-- Popping a key pushed on a set without it gives the set back. -/
theorem filter_ne_cons_self {key : String} {s : List String} (hk : key ∉ s) :
    (key :: s).filter (· ≠ key) = s := by
  rw [List.filter_cons_of_neg (by simp), filter_ne_of_not_mem hk]

/-- The deferred cleanup pops a key pushed on a set without it, once `x` has restored the set. -/
theorem withCleanup_pop {key : String} {x : NormM α} (hx : Restores x) {s : List String}
    (hk : key ∉ s) {r : Except ProfileError α} {s' : List String}
    (h : withCleanup key x (key :: s) = some (r, s')) : s' = s := by
  simp only [withCleanup, Option.map_eq_some'] at h
  obtain ⟨⟨r₁, s₁⟩, hx₁, hr⟩ := h
  cases hr
  rw [hx _ _ _ hx₁, filter_ne_cons_self hk]

/-- The immediate cleanup pops a key pushed on a set without it. -/
theorem cleanup_bind_pop {key : String} {g : Unit → NormM α} (hg : ∀ u, Restores (g u))
    {s : List String} (hk : key ∉ s) {r : Except ProfileError α} {s' : List String}
    (h : (cleanup key >>= g) (key :: s) = some (r, s')) : s' = s := by
  rw [bind_apply, cleanup, filter_ne_cons_self hk] at h
  exact hg () s r s' h

end NormM

open NormM

namespace Normalizer

/-- `resolveRef` returns an error with the cycle set unchanged, or the target and a key that it
pushes onto a set that did not hold it. -/
theorem resolveRef_stack (n : Normalizer) (ref path : String) {s s' : List String}
    {r : Except ProfileError (JValue × String)} (h : n.resolveRef ref path s = some (r, s')) :
    (∃ e, r = .error e ∧ s' = s) ∨ ∃ v key, r = .ok (v, key) ∧ s' = key :: s ∧ key ∉ s := by
  unfold resolveRef at h
  simp only at h
  repeat' split at h
  all_goals first
    | (cases h; exact .inl ⟨_, rfl, rfl⟩)
    | (cases h; exact .inr ⟨_, _, rfl, rfl, ‹_›⟩)

/-- A reference resolved, then a continuation that pops its key: the set is restored. -/
theorem resolveRef_bind_restores (n : Normalizer) (ref path : String)
    {f : JValue × String → NormM β}
    (hf : ∀ v key s r s', key ∉ s → f (v, key) (key :: s) = some (r, s') → s' = s) :
    Restores (n.resolveRef ref path >>= f) := by
  intro s r s' h
  rw [bind_apply] at h
  match hres : n.resolveRef ref path s with
  | some (.ok (v, key), s₁) =>
    rw [hres] at h
    obtain ⟨e, he, -⟩ | ⟨v', key', he, rfl, hk⟩ := resolveRef_stack n ref path hres
    · cases he
    · cases he; exact hf v key s r s' hk h
  | some (.error e, s₁) =>
    rw [hres] at h; cases h
    obtain ⟨_, -, rfl⟩ | ⟨_, _, he, -⟩ := resolveRef_stack n ref path hres
    · rfl
    · cases he
  | none => rw [hres] at h; cases h

/-! ### `mergeAllOfBranch` does not touch the cycle set -/

section Merge

variable {rec : JObj → JObj → String → NormM JObj} (hrec : ∀ a b p, Restores (rec a b p))
include hrec

theorem mergeProps_restores (path : String) :
    ∀ aProps bProps, Restores (mergeProps rec path aProps bProps)
  | _, [] => restores_pure _
  | aProps, (k, bv) :: rest => by
    refine Restores.bind ?_ fun a => mergeProps_restores path a rest
    unfold mergeProp
    split
    · exact (hrec _ _ _).bind fun _ => restores_pure _
    · exact restores_pure _

theorem mergeAllOfBranchStep_restores (acc branch : JObj) (path : String) :
    Restores (mergeAllOfBranchStep rec acc branch path) := by
  have props (acc : JObj) : Restores (mergeProperties rec acc branch path) := by
    unfold mergeProperties; split
    · exact restores_pure _
    · exact (mergeProps_restores hrec _ _ _).bind fun _ => restores_pure _
    · exact restores_fail _
  have ap (acc : JObj) : Restores (mergeAdditionalProperties rec acc branch path) := by
    unfold mergeAdditionalProperties; split
    · exact restores_pure _
    · exact restores_pure _
    · split
      · exact restores_pure _
      · exact restores_pure _
      · exact (hrec _ _ _).bind fun _ => restores_pure _
      · exact restores_pure _
      · exact restores_pure _
    · exact restores_pure _
  have items (acc : JObj) : Restores (mergeItems rec acc branch path) := by
    unfold mergeItems; split
    · exact restores_pure _
    · split
      · exact (hrec _ _ _).bind fun _ => restores_pure _
      · exact restores_pure _
    · exact restores_fail _
  exact (restores_lift _).bind fun _ => (props _).bind fun _ => (restores_lift _).bind fun _ =>
    (ap _).bind fun _ => (restores_lift _).bind fun _ => (items _).bind fun _ => restores_pure _

end Merge

theorem mergeAllOfBranch_restores :
    ∀ fuel acc branch path, Restores (mergeAllOfBranch fuel acc branch path)
  | 0, _, _, _ => restores_outOfFuel
  | fuel + 1, _, _, _ => mergeAllOfBranchStep_restores (mergeAllOfBranch_restores fuel) _ _ _

/-! ### `flattenAllOf` pops each branch's key at once -/

theorem resolveBranch_restores (n : Normalizer) (branch : JObj) (branchPath : String) :
    Restores (n.resolveBranch branch branchPath) := by
  unfold resolveBranch
  split
  · refine resolveRef_bind_restores n _ _ fun v key s r s' hk h => cleanup_bind_pop (fun _ => ?_) hk h
    split
    · exact restores_pure _
    · exact restores_fail _
  · exact restores_pure _

theorem flattenBranch_restores (n : Normalizer) (fuel : Nat) (path : String) (merged : JObj)
    (idx : Nat) (item : JValue) : Restores (n.flattenBranch fuel path merged idx item) := by
  unfold flattenBranch
  split
  · refine (restores_lift _).bind fun _ => ?_
    split
    · exact restores_fail _
    · split
      · exact restores_fail _
      · exact (resolveBranch_restores n _ _).bind fun _ => mergeAllOfBranch_restores _ _ _ _
  · exact restores_fail _

theorem flattenBranches_restores (n : Normalizer) (fuel : Nat) (path : String) :
    ∀ merged idx items, Restores (n.flattenBranches fuel path merged idx items)
  | _, _, [] => restores_pure _
  | merged, idx, item :: rest => (flattenBranch_restores n fuel path merged idx item).bind fun m =>
    flattenBranches_restores n fuel path m (idx + 1) rest

theorem flattenAllOf_restores (n : Normalizer) (fuel : Nat) (allOf : JValue) (path : String) :
    Restores (n.flattenAllOf fuel allOf path) := by
  unfold flattenAllOf
  split
  · exact flattenBranches_restores n fuel path _ _ _
  · exact restores_fail _

/-! ### `normalizeAt` -/

section Fields

variable {rec : JObj → String → NormM JObj} (hrec : ∀ s p, Restores (rec s p))
include hrec

theorem normalizeProps_restores (path : String) :
    ∀ nm props, Restores (normalizeProps rec path nm props)
  | _, [] => restores_pure _
  | nm, (k, v) :: rest => by
    cases v with
    | obj vm => exact (hrec _ _).bind fun _ => normalizeProps_restores path _ rest
    | _ => exact restores_fail _

theorem normalizeVariants_restores (path k : String) :
    ∀ idx items, Restores (normalizeVariants rec path k idx items)
  | _, [] => restores_pure _
  | idx, item :: rest => by
    cases item with
    | obj m => exact (hrec _ _).bind fun _ =>
        (normalizeVariants_restores path k (idx + 1) rest).bind fun _ => restores_pure _
    | _ => exact restores_fail _

theorem normalizeFields_restores (out : JObj) (path : String) :
    Restores (normalizeFields rec out path) := by
  have props (o : JObj) : Restores (normalizePropertiesField rec o path) := by
    unfold normalizePropertiesField; split
    · exact restores_pure _
    · exact (normalizeProps_restores hrec _ _ _).bind fun _ => restores_pure _
    · exact restores_fail _
  have ap (o : JObj) : Restores (normalizeAdditionalPropertiesField rec o path) := by
    unfold normalizeAdditionalPropertiesField; split
    · exact restores_pure _
    · exact restores_pure _
    · exact (hrec _ _).bind fun _ => restores_pure _
    · exact restores_fail _
  have items (o : JObj) : Restores (normalizeItemsField rec o path) := by
    unfold normalizeItemsField; split
    · exact restores_pure _
    · exact (hrec _ _).bind fun _ => restores_pure _
    · exact restores_fail _
  have union (k : String) (o : JObj) : Restores (normalizeUnionField rec k o path) := by
    unfold normalizeUnionField; split
    · exact restores_pure _
    · exact (normalizeVariants_restores hrec _ _ _ _).bind fun _ => restores_pure _
    · exact restores_fail _
  exact (restores_lift _).bind fun _ => (restores_lift _).bind fun _ => (props _).bind fun _ =>
    (ap _).bind fun _ => (items _).bind fun _ => (union _ _).bind fun _ => union _ _

end Fields

/-- Every return of `normalizeAt`, a result or an error, leaves the cycle set as it found it. -/
theorem normalizeAt_restores (n : Normalizer) :
    ∀ fuel schema path, Restores (n.normalizeAt fuel schema path)
  | 0, _, _ => restores_outOfFuel
  | fuel + 1, schema, path => by
    have ih := normalizeAt_restores n fuel
    refine (restores_lift _).bind fun _ => ?_
    split
    · refine resolveRef_bind_restores n _ _ fun v key s r s' hk h => withCleanup_pop ?_ hk h
      split
      · exact ih _ _
      · exact restores_fail _
    · dsimp only
      split
      · exact (flattenAllOf_restores n fuel _ _).bind fun merged => ih merged path
      · exact normalizeFields_restores ih _ _

/-- The public checks, with the candidate normalized from the cycle set the target left, are the
decider applied to the two schemas each normalized from the empty set. -/
theorem compatible_eq_normalize (n : Normalizer) (fuel : Nat) (decide : JObj → JObj → Bool)
    (target candidate : JObj) :
    n.compatible fuel decide target candidate =
      match n.normalize fuel target, n.normalize fuel candidate with
      | none, _ => none
      | some (.error e), _ => some (.error e)
      | some (.ok _), none => none
      | some (.ok _), some (.error e) => some (.error e)
      | some (.ok ti), some (.ok tc) => some (.ok (decide ti tc)) := by
  unfold compatible normalize
  rcases ht : n.normalizeAt fuel target "" [] with _ | ⟨_ | ti, s⟩
  · rfl
  · rfl
  · obtain rfl := normalizeAt_restores n fuel target "" [] _ s ht
    dsimp only
    rcases n.normalizeAt fuel candidate "" [] with _ | ⟨_ | tc, _⟩ <;> rfl

/-- The cycle-set discipline: every return of `normalizeAt` leaves the cycle set as it found it,
so `InputCompatible` and `OutputCompatible` decide on the target and the candidate each
normalized from the empty set. -/
theorem normalizeAt_restores_cycleSet :
    (∀ (n : Normalizer) fuel schema path s r s',
      n.normalizeAt fuel schema path s = some (r, s') → s' = s) ∧
    (∀ (n : Normalizer) fuel target candidate, n.inputCompatible fuel target candidate =
      match n.normalize fuel target, n.normalize fuel candidate with
      | none, _ => none
      | some (.error e), _ => some (.error e)
      | some (.ok _), none => none
      | some (.ok _), some (.error e) => some (.error e)
      | some (.ok ti), some (.ok tc) => some (.ok (SchemaProfile.inputCompatible ti tc))) ∧
    ∀ (n : Normalizer) fuel target candidate, n.outputCompatible fuel target candidate =
      match n.normalize fuel target, n.normalize fuel candidate with
      | none, _ => none
      | some (.error e), _ => some (.error e)
      | some (.ok _), none => none
      | some (.ok _), some (.error e) => some (.error e)
      | some (.ok ti), some (.ok tc) => some (.ok (SchemaProfile.outputCompatible ti tc)) :=
  ⟨fun n fuel schema path => normalizeAt_restores n fuel schema path,
    fun n fuel => compatible_eq_normalize n fuel _, fun n fuel => compatible_eq_normalize n fuel _⟩

/-- `{"$ref": "#/a"}` against the root `{"a": {"$ref": "#/a"}}`: the second visit of `#/a` is
a cycle, and the error comes back with the cycle set as it was, `["k"]`. -/
example :
    ({ root := .obj [("a", .obj [("$ref", .str "#/a")])] } : Normalizer).normalizeAt 3
        [("$ref", .str "#/a")] "" ["k"] =
      some (.error (.refError "<root>" "#/a" "cycle detected"), ["k"]) := by
  decide

end Normalizer

end OpenBindings.SchemaProfile
