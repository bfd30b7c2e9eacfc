import OpenBindings.Cycles
import OpenBindings.SharedMaps

/-! # The cycle set on the heap

The cycle-set discipline of the `Cycles` module, over the normalizer that reads and writes Go's
shared maps. `resolveRef` pushes a key only when it succeeds and the key was not there, and its
caller pops it again: `normalizeAt` through the deferred cleanup, `flattenAllOf` at once. No other
step touches the set. So every return of `normalizeAt`, a result or an error, leaves `refStack` as
it found it, and the candidate's pass of `InputCompatible` and `OutputCompatible` is
`Normalize(candidate)` run on the heap the target's pass left (`normalizeAt_restores_refStack`).
That heap holds every write the target's pass made into `Root`. -/

namespace OpenBindings.SchemaProfile.Shared

open CanonicalJson HeapM

namespace HeapM

/-- `x` leaves the cycle set as it found it whenever it returns, with a value or an error. -/
def Restores (x : HeapM α) : Prop := ∀ h r h', x h = some (r, h') → h'.refStack = h.refStack

theorem restores_pure (a : α) : Restores (pure a : HeapM α) := fun _ _ _ h => by cases h; rfl

theorem restores_fail (e : ProfileError) : Restores (fail e : HeapM α) := fun _ _ _ h => by
  cases h; rfl

theorem restores_lift (x : Except ProfileError α) : Restores (lift x) := by
  cases x with
  | ok a => exact restores_pure a
  | error e => exact restores_fail e

theorem restores_outOfFuel : Restores (outOfFuel : HeapM α) := fun _ _ _ h => by cases h

theorem restores_load (a : Nat) : Restores (load a) := fun _ _ _ h => by
  rw [load_apply] at h; cases h; rfl

theorem restores_store (a : Nat) (k : String) (v : GoVal) : Restores (store a k v) :=
  fun _ _ _ h => by rw [store_apply] at h; cases h; rfl

theorem restores_alloc (m : Cell) : Restores (alloc m) := fun _ _ _ h => by
  rw [alloc_apply] at h; cases h; rfl

theorem restores_read (fuel : Nat) (v : GoVal) : Restores (read fuel v) := fun _ _ _ h => by
  rw [read_apply, Option.map_eq_some'] at h
  obtain ⟨_, -, h⟩ := h
  cases h; rfl

theorem restores_readMap (fuel a : Nat) : Restores (readMap fuel a) := fun _ _ _ h => by
  rw [readMap_apply, Option.map_eq_some'] at h
  obtain ⟨_, -, h⟩ := h
  cases h; rfl

theorem Restores.bind {x : HeapM α} {f : α → HeapM β} (hx : Restores x)
    (hf : ∀ a, Restores (f a)) : Restores (x >>= f) := by
  intro h r h' hr
  rw [bind_apply] at hr
  match hxs : x h with
  | some (.ok a, h₁) => rw [hxs] at hr; exact (hf a h₁ r h' hr).trans (hx h _ h₁ hxs)
  | some (.error e, h₁) => rw [hxs] at hr; cases hr; exact hx h _ _ hxs
  | none => rw [hxs] at hr; cases hr

theorem restores_cloneMap (a : Nat) : Restores (cloneMap a) :=
  (restores_load a).bind fun m => restores_alloc m

theorem restores_mapOrNew (v : Option GoVal) : Restores (mapOrNew v) := by
  unfold mapOrNew; split
  · exact restores_pure _
  · exact restores_alloc _

theorem restores_mapM_loop {f : α → HeapM β} (hf : ∀ a, Restores (f a)) :
    ∀ as bs, Restores (List.mapM.loop f as bs)
  | [], _ => restores_pure _
  | a :: as, bs => (hf a).bind fun b => restores_mapM_loop hf as (b :: bs)

theorem restores_filterAuxM {p : α → HeapM Bool} (hp : ∀ a, Restores (p a)) :
    ∀ as acc, Restores (List.filterAuxM p as acc)
  | [], _ => restores_pure _
  | a :: as, _ => (hp a).bind fun _ => restores_filterAuxM hp as _

theorem restores_forM {f : α → HeapM PUnit} (hf : ∀ a, Restores (f a)) :
    ∀ as : List α, Restores (List.forM as f)
  | [] => restores_pure _
  | a :: as => (hf a).bind fun _ => restores_forM hf as

end HeapM

/-! ### `resolveRef` pushes a new key, and its callers pop it -/

namespace Normalizer

/-- `resolveRef` returns an error with the cycle set unchanged, or the target and a key that it
pushes onto a set that did not hold it. -/
theorem resolveRef_refStack (n : Normalizer) (ref path : String) {h h' : Heap}
    {r : Except ProfileError (GoVal × String)} (hr : n.resolveRef ref path h = some (r, h')) :
    (∃ e, r = .error e ∧ h'.refStack = h.refStack) ∨
      ∃ v key, r = .ok (v, key) ∧ h'.refStack = key :: h.refStack ∧ key ∉ h.refStack := by
  obtain ⟨cells, stack⟩ := h
  unfold resolveRef at hr
  simp only at hr
  repeat' split at hr
  all_goals first
    | (cases hr; exact .inl ⟨_, rfl, rfl⟩)
    | (cases hr; exact .inr ⟨_, _, rfl, rfl, ‹_›⟩)

/-- A reference resolved, then a continuation that pops its key: the set is restored. -/
theorem resolveRef_bind_restores (n : Normalizer) (ref path : String)
    {f : GoVal × String → HeapM β}
    (hf : ∀ v key cells s r h', key ∉ s → f (v, key) ⟨cells, key :: s⟩ = some (r, h') →
      h'.refStack = s) :
    Restores (n.resolveRef ref path >>= f) := by
  intro h r h' hr
  rw [bind_apply] at hr
  match hres : n.resolveRef ref path h with
  | some (.ok (v, key), ⟨cells, s⟩) =>
    rw [hres] at hr
    obtain ⟨e, he, -⟩ | ⟨v', key', he, hs, hk⟩ := resolveRef_refStack n ref path hres
    · cases he
    · cases he
      obtain rfl : s = _ := hs
      exact hf v key cells _ r h' hk hr
  | some (.error e, h₁) =>
    rw [hres] at hr; cases hr
    obtain ⟨_, -, hs⟩ | ⟨_, _, he, -⟩ := resolveRef_refStack n ref path hres
    · exact hs
    · cases he
  | none => rw [hres] at hr; cases hr

/-- The deferred cleanup pops a key pushed on a set without it, once `x` has restored the set. -/
theorem withCleanup_pop {key : String} {x : HeapM α} (hx : Restores x) {cells : List Cell}
    {s : List String} (hk : key ∉ s) {r : Except ProfileError α} {h' : Heap}
    (h : withCleanup key x ⟨cells, key :: s⟩ = some (r, h')) : h'.refStack = s := by
  rw [withCleanup_apply, Option.map_eq_some'] at h
  obtain ⟨⟨r₁, h₁⟩, hx₁, hr⟩ := h
  cases hr
  exact (congrArg _ (hx _ _ _ hx₁)).trans (NormM.filter_ne_cons_self hk)

/-- The immediate cleanup pops a key pushed on a set without it. -/
theorem cleanup_bind_pop {key : String} {g : Unit → HeapM α} (hg : ∀ u, Restores (g u))
    {cells : List Cell} {s : List String} (hk : key ∉ s) {r : Except ProfileError α} {h' : Heap}
    (h : (cleanup key >>= g) ⟨cells, key :: s⟩ = some (r, h')) : h'.refStack = s := by
  rw [bind_apply, cleanup_apply, NormM.filter_ne_cons_self hk] at h
  exact hg () _ r h' h

end Normalizer

/-! ### `mergeAllOfBranch` does not touch the cycle set -/

section Merge

variable {rec : Nat → Nat → String → HeapM Unit} (hrec : ∀ a b p, Restores (rec a b p))
include hrec

theorem mergeProp_restores (path : String) (aProps : Nat) (k : String) (bv : GoVal) :
    Restores (mergeProp rec path aProps k bv) := by
  unfold mergeProp
  refine (restores_load _).bind fun _ => ?_
  split
  · exact (restores_mapOrNew _).bind fun _ => (restores_mapOrNew _).bind fun _ =>
      (restores_cloneMap _).bind fun _ => (hrec _ _ _).bind fun _ => restores_store _ _ _
  · exact restores_store _ _ _

theorem mergeProps_restores (path : String) (aProps bProps : Nat) :
    ∀ ks, Restores (mergeProps rec path aProps bProps ks)
  | [] => restores_pure _
  | k :: ks => by
    unfold mergeProps
    refine (restores_load _).bind fun _ => ?_
    dsimp only
    split
    · exact (mergeProp_restores hrec _ _ _ _).bind fun _ => mergeProps_restores path aProps bProps ks
    · exact (restores_pure _).bind fun _ => mergeProps_restores path aProps bProps ks

theorem mergeProperties_restores (acc branch : Nat) (path : String) :
    Restores (mergeProperties rec acc branch path) := by
  unfold mergeProperties
  refine (restores_load _).bind fun _ => ?_
  split
  · exact restores_pure _
  · exact (restores_load _).bind fun _ => (restores_mapOrNew _).bind fun _ =>
      (restores_load _).bind fun _ => (mergeProps_restores hrec _ _ _ _).bind fun _ =>
        restores_store _ _ _
  · exact restores_fail _

theorem mergeAdditionalProperties_restores (acc branch : Nat) (path : String) :
    Restores (mergeAdditionalProperties rec acc branch path) := by
  unfold mergeAdditionalProperties
  refine (restores_load _).bind fun _ => ?_
  split
  · exact restores_store _ _ _
  · refine (restores_load _).bind fun _ => ?_
    split
    · exact restores_store _ _ _
    · exact restores_pure _
  · refine (restores_load _).bind fun _ => ?_
    split
    · exact restores_pure _
    · exact restores_store _ _ _
    · exact (restores_cloneMap _).bind fun _ => (hrec _ _ _).bind fun _ => restores_store _ _ _
    · exact restores_pure _
    · exact restores_store _ _ _
  · exact restores_pure _

theorem mergeItems_restores (acc branch : Nat) (path : String) :
    Restores (mergeItems rec acc branch path) := by
  unfold mergeItems
  refine (restores_load _).bind fun _ => ?_
  split
  · exact restores_pure _
  · refine (restores_load _).bind fun _ => ?_
    split
    · exact (restores_mapOrNew _).bind fun _ => (restores_cloneMap _).bind fun _ =>
        (hrec _ _ _).bind fun _ => restores_store _ _ _
    · exact restores_store _ _ _
  · exact restores_fail _

end Merge

theorem mergeType_restores (acc branch : Nat) (path : String) :
    Restores (mergeType acc branch path) := by
  unfold mergeType
  refine (restores_load _).bind fun _ => ?_
  split
  · exact restores_pure _
  · split
    · exact restores_fail _
    · refine (restores_load _).bind fun _ => ?_
      split
      · exact restores_store _ _ _
      · split
        · exact restores_fail _
        · dsimp only
          split
          · exact restores_fail _
          · exact restores_store _ _ _

theorem mergeRequired_restores (acc branch : Nat) (path : String) :
    Restores (mergeRequired acc branch path) := by
  unfold mergeRequired
  refine (restores_load _).bind fun _ => ?_
  split
  · exact restores_pure _
  · split
    · exact restores_fail _
    · refine (restores_load _).bind fun _ => ?_
      split
      · exact restores_store _ _ _
      · split
        · exact restores_fail _
        · exact restores_store _ _ _

theorem intersectValues_restores (fuel : Nat) (a b : List GoVal) :
    Restores (intersectValues fuel a b) :=
  have read_key (w : GoVal) : Restores (do pure (canonicalKey (← read fuel w)) : HeapM String) :=
    (restores_read _ _).bind fun _ => restores_pure _
  (restores_mapM_loop read_key _ _).bind fun _ =>
    (restores_filterAuxM (fun _ => (restores_read _ _).bind fun _ => restores_pure _) _ _).bind
      fun _ => restores_pure _

theorem mergeEnum_restores (fuel acc branch : Nat) (path : String) :
    Restores (mergeEnum fuel acc branch path) := by
  unfold mergeEnum
  refine (restores_load _).bind fun _ => ?_
  split
  · exact restores_pure _
  · refine (restores_load _).bind fun _ => ?_
    split
    · refine (intersectValues_restores _ _ _).bind fun _ => ?_
      split
      · exact restores_fail _
      · exact restores_store _ _ _
    · exact restores_store _ _ _
  · exact restores_fail _

theorem mergeConst_restores (fuel acc branch : Nat) (path : String) :
    Restores (mergeConst fuel acc branch path) := by
  unfold mergeConst
  refine (restores_load _).bind fun _ => ?_
  split
  · exact restores_pure _
  · refine (restores_load _).bind fun _ => ?_
    split
    · refine (restores_read _ _).bind fun _ => (restores_read _ _).bind fun _ => ?_
      split
      · exact restores_fail _
      · exact restores_pure _
    · exact restores_store _ _ _

theorem mergeBounds_restores (acc branch : Nat) : Restores (mergeBounds acc branch) := by
  have bound (better : Float64 → Float64 → Bool) (k : String) :
      Restores (mergeBound better acc branch k) := by
    unfold mergeBound
    refine (restores_load _).bind fun _ => ?_
    split
    · exact restores_pure _
    · refine (restores_load _).bind fun _ => ?_
      split
      · split
        · exact restores_store _ _ _
        · exact restores_pure _
      · exact restores_store _ _ _
  exact (restores_forM (bound _) _).bind fun _ => restores_forM (bound _) _

theorem mergeAllOfBranchStep_restores {rec : Nat → Nat → String → HeapM Unit}
    (hrec : ∀ a b p, Restores (rec a b p)) (fuel acc branch : Nat) (path : String) :
    Restores (mergeAllOfBranchStep rec fuel acc branch path) :=
  (mergeType_restores _ _ _).bind fun _ => (mergeProperties_restores hrec _ _ _).bind fun _ =>
    (mergeRequired_restores _ _ _).bind fun _ =>
      (mergeAdditionalProperties_restores hrec _ _ _).bind fun _ =>
        (mergeEnum_restores _ _ _ _).bind fun _ => (mergeConst_restores _ _ _ _).bind fun _ =>
          (mergeItems_restores hrec _ _ _).bind fun _ => mergeBounds_restores _ _


theorem mergeAllOfBranch_restores :
    ∀ fuel acc branch path, Restores (mergeAllOfBranch fuel acc branch path)
  | 0, _, _, _ => restores_outOfFuel
  | fuel + 1, _, _, _ => mergeAllOfBranchStep_restores (mergeAllOfBranch_restores fuel) _ _ _ _

/-! ### `flattenAllOf` pops each branch's key at once -/

namespace Normalizer

theorem resolveBranch_restores (n : Normalizer) (branch : Nat) (branchPath : String) :
    Restores (n.resolveBranch branch branchPath) := by
  unfold resolveBranch
  refine (restores_load _).bind fun _ => ?_
  split
  · refine resolveRef_bind_restores n _ _ fun _ _ _ _ _ _ hk h => cleanup_bind_pop (fun _ => ?_) hk h
    split
    · exact restores_pure _
    · exact restores_fail _
  · exact restores_pure _

theorem flattenBranch_restores (n : Normalizer) (fuel : Nat) (path : String) (merged idx : Nat)
    (item : GoVal) : Restores (n.flattenBranch fuel path merged idx item) := by
  unfold flattenBranch
  split
  · refine (restores_load _).bind fun _ => (restores_lift _).bind fun _ => ?_
    split
    · exact restores_fail _
    · split
      · exact restores_fail _
      · exact (resolveBranch_restores n _ _).bind fun _ => mergeAllOfBranch_restores _ _ _ _
  · exact restores_fail _

theorem flattenBranches_restores (n : Normalizer) (fuel : Nat) (path : String) (merged : Nat) :
    ∀ idx items, Restores (n.flattenBranches fuel path merged idx items)
  | _, [] => restores_pure _
  | idx, item :: rest => (flattenBranch_restores n fuel path merged idx item).bind fun _ =>
    flattenBranches_restores n fuel path merged (idx + 1) rest

theorem flattenAllOf_restores (n : Normalizer) (fuel : Nat) (allOf : GoVal) (path : String) :
    Restores (n.flattenAllOf fuel allOf path) := by
  unfold flattenAllOf
  split
  · exact (restores_alloc _).bind fun _ =>
      (flattenBranches_restores n fuel path _ _ _).bind fun _ => restores_pure _
  · exact restores_fail _

end Normalizer

/-! ### `normalizeAt` -/

theorem normalizeTypeField_restores (out : Nat) (path : String) :
    Restores (normalizeTypeField out path) := by
  unfold normalizeTypeField
  refine (restores_load _).bind fun _ => ?_
  split
  · exact restores_pure _
  · split
    · exact restores_fail _
    · exact restores_store _ _ _

theorem normalizeRequiredField_restores (out : Nat) (path : String) :
    Restores (normalizeRequiredField out path) := by
  unfold normalizeRequiredField
  refine (restores_load _).bind fun _ => ?_
  split
  · exact restores_pure _
  · split
    · exact restores_fail _
    · exact restores_store _ _ _

theorem sortVariants_restores (fuel : Nat) (variants : List Nat) :
    Restores (sortVariants fuel variants) :=
  (restores_mapM_loop (fun _ => (restores_read _ _).bind fun _ => restores_pure _) _ _).bind
    fun _ => restores_pure _

section Fields

variable {rec : Nat → String → HeapM Nat} (hrec : ∀ s p, Restores (rec s p))
include hrec

theorem normalizeProps_restores (path : String) (nm props : Nat) :
    ∀ ks, Restores (normalizeProps rec path nm props ks)
  | [] => restores_pure _
  | k :: ks => by
    unfold normalizeProps
    refine (restores_load _).bind fun _ => ?_
    split
    · exact (hrec _ _).bind fun _ => (restores_store _ _ _).bind fun _ =>
        normalizeProps_restores path nm props ks
    · exact restores_fail _
    · exact normalizeProps_restores path nm props ks

theorem normalizeVariants_restores (path k : String) :
    ∀ idx items, Restores (normalizeVariants rec path k idx items)
  | _, [] => restores_pure _
  | idx, item :: rest => by
    unfold normalizeVariants
    split
    · exact (hrec _ _).bind fun _ =>
        (normalizeVariants_restores path k (idx + 1) rest).bind fun _ => restores_pure _
    · exact restores_fail _

theorem normalizeFields_restores (fuel out : Nat) (path : String) :
    Restores (normalizeFields rec fuel out path) := by
  have props : Restores (normalizePropertiesField rec out path) := by
    unfold normalizePropertiesField
    refine (restores_load _).bind fun _ => ?_
    split
    · exact restores_pure _
    · exact (restores_alloc _).bind fun _ => (restores_load _).bind fun _ =>
        (normalizeProps_restores hrec _ _ _ _).bind fun _ => restores_store _ _ _
    · exact restores_fail _
  have ap : Restores (normalizeAdditionalPropertiesField rec out path) := by
    unfold normalizeAdditionalPropertiesField
    refine (restores_load _).bind fun _ => ?_
    split
    · exact restores_pure _
    · exact restores_store _ _ _
    · exact (hrec _ _).bind fun _ => restores_store _ _ _
    · exact restores_fail _
  have items : Restores (normalizeItemsField rec out path) := by
    unfold normalizeItemsField
    refine (restores_load _).bind fun _ => ?_
    split
    · exact restores_pure _
    · exact (hrec _ _).bind fun _ => restores_store _ _ _
    · exact restores_fail _
  have union (k : String) : Restores (normalizeUnionField rec fuel k out path) := by
    unfold normalizeUnionField
    refine (restores_load _).bind fun _ => ?_
    split
    · exact restores_pure _
    · exact (normalizeVariants_restores hrec _ _ _ _).bind fun _ =>
        (sortVariants_restores _ _).bind fun _ => restores_store _ _ _
    · exact restores_fail _
  exact (normalizeTypeField_restores _ _).bind fun _ =>
    (normalizeRequiredField_restores _ _).bind fun _ => props.bind fun _ => ap.bind fun _ =>
      items.bind fun _ => (union _).bind fun _ => union _

end Fields

namespace Normalizer

/-- Every return of `normalizeAt`, a result or an error, leaves the cycle set as it found it. -/
theorem normalizeAt_restores (n : Normalizer) :
    ∀ fuel schema path, Restores (n.normalizeAt fuel schema path)
  | 0, _, _ => restores_outOfFuel
  | fuel + 1, schema, path => by
    have ih := normalizeAt_restores n fuel
    refine (restores_load _).bind fun _ => (restores_lift _).bind fun _ => ?_
    split
    · refine resolveRef_bind_restores n _ _ fun _ _ _ _ _ _ hk h => withCleanup_pop ?_ hk h
      split
      · exact ih _ _
      · exact restores_fail _
    · refine (restores_alloc _).bind fun _ => ?_
      split
      · exact (flattenAllOf_restores n fuel _ _).bind fun merged => ih merged path
      · exact (normalizeFields_restores ih _ _ _).bind fun _ => restores_pure _

/-- The candidate's pass starts from the empty set the target's pass left: `InputCompatible` and
`OutputCompatible` are `Normalize(target)`, then `Normalize(candidate)` on the heap it left. -/
theorem compatible_eq_normalize (n : Normalizer) (fuel : Nat) (decide : JObj → JObj → Bool)
    (target candidate : Nat) :
    n.compatible fuel decide target candidate = (do
      let ti ← n.normalize fuel target
      let tc ← n.normalize fuel candidate
      pure (decide (← readMap fuel ti) (← readMap fuel tc))) := by
  funext h
  rw [compatible_apply, bind_apply, bind_apply, normalize_apply]
  rcases ht : n.normalizeAt fuel target "" ⟨h.cells, []⟩ with _ | ⟨_ | ti, ⟨cells₁, stack₁⟩⟩
  · rfl
  · rfl
  · obtain rfl : stack₁ = [] := normalizeAt_restores n fuel target "" _ _ _ ht
    rfl

end Normalizer

end OpenBindings.SchemaProfile.Shared
