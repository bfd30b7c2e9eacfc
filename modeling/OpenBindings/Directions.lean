import OpenBindings.Schema

/-! # The two directions of the decider

`inputCompatible(T, C)` asks whether `T`'s instances are contained in `C`'s by checking the rules
against the target's constraints; `outputCompatible(C, T)` asks the same question with the roles
of target and candidate exchanged. The two are not the same function. The input rules skip every
constraint the candidate has and the target lacks (an `enum`, a bound, a `const`), which the
output rules check (`inputCompatible_ne_outputCompatible_swap`); the skip breaks the promise
`interface ⊆ candidate` of `compat.go:3`. The output rules also check `additionalProperties`. What does hold is one
implication: an output check that passes implies the input check it mirrors
(`outputCompatible_implies_inputCompatible`), on schemas where no node of the candidate has both
`const` and `enum`, the one place where the two rule sets consult the candidate's constraints in
a different order.

The proof is an induction on the fuel of `compat`, one lemma per rule: each rule of the output
direction implies the mirrored rule of the input direction, given the same of `compat` on the
sub-schemas. -/

namespace OpenBindings.SchemaProfile

open CanonicalJson Normalizer

/-- A schema node with at most one of `const` and `enum`. -/
def ConstOrEnum (m : JObj) : Prop := ¬ (hasKey m "const" = true ∧ hasKey m "enum" = true)

instance : DecidablePred ConstOrEnum := fun _ => inferInstanceAs (Decidable ¬ (_ ∧ _))

theorem hasKey_empty (k : String) : hasKey [] k = false := rfl

theorem AllNodes.empty {P : JObj → Prop} (h : P []) : AllNodes P [] :=
  .node h fun m hm => by
    rcases hm with ⟨ps, k, hps, -⟩ | hm | hm | ⟨k, -, xs, hxs, -⟩ <;> simp at *

theorem constOrEnum_empty : ConstOrEnum [] := by simp [ConstOrEnum, hasKey_empty]

theorem enumSet_eq_none {m : JObj} : enumSet m = none ↔ hasKey m "enum" = false := by
  unfold enumSet hasKey
  cases lookup m "enum" <;> simp

theorem equalJSONValue_comm (a b : JValue) : equalJSONValue a b = equalJSONValue b a := Bool.beq_comm

/-- The `const`/`enum` rule: the output check on `(C, T)` implies the input check on `(T, C)`. -/
theorem compatConstEnum_swap {C T : JObj} (hC : ConstOrEnum C)
    (h : compatConstEnum C T false = true) : compatConstEnum T C true = true := by
  have hC' : lookup C "const" = none ∨ enumSet C = none := by
    rw [enumSet_eq_none]
    by_cases hc : lookup C "const" = none
    · exact .inl hc
    · cases he : hasKey C "enum"
      · exact .inr rfl
      · exact absurd ⟨by simpa [hasKey, Option.isSome_iff_ne_none] using hc, he⟩ hC
  unfold compatConstEnum at h ⊢
  cases hTc : lookup T "const" <;> cases hTe : enumSet T <;> cases hCc : lookup C "const" <;>
    cases hCe : enumSet C <;> simp_all [equalJSONValue_comm]

/-- `objAt` of a schema is one of its child positions, or empty. -/
theorem allNodes_objAt {P : JObj → Prop} {C : JObj} (hC : AllNodes P C) (hP : P [])
    (k : String) (hk : k = "items" ∨ k = "additionalProperties") : AllNodes P (objAt C k) := by
  unfold objAt asMapOrEmpty
  split
  · rename_i m hm
    refine hC.child ?_
    rcases hk with rfl | rfl
    · exact .inr (.inr (.inl hm))
    · exact .inr (.inl hm)
  · exact AllNodes.empty hP

theorem child_of_unionVariants {C : JObj} {vs : List JObj} (h : unionVariants C = some vs) :
    ∀ v ∈ vs, Child v C := by
  have objects_mem : ∀ {xs : List JValue} {vs : List JObj}, objects xs = some vs →
      ∀ v ∈ vs, JValue.obj v ∈ xs := by
    intro xs
    induction xs with
    | nil => intro vs h; cases h; simp
    | cons x rest ih =>
      intro vs h
      cases x with
      | obj m =>
        obtain ⟨vs', hvs', rfl⟩ := Option.map_eq_some'.mp h
        simp only [List.mem_cons, forall_eq_or_imp, true_or, true_and]
        exact fun v hv => .inr (ih hvs' v hv)
      | _ => cases h
  intro v hv
  unfold unionVariants at h
  split at h
  · rename_i u hu
    cases u with
    | arr xs => exact .inr (.inr (.inr ⟨"oneOf", by simp, xs, hu, objects_mem h v hv⟩))
    | _ => cases h
  · rename_i u _ hu
    cases u with
    | arr xs => exact .inr (.inr (.inr ⟨"anyOf", by simp, xs, hu, objects_mem h v hv⟩))
    | _ => cases h
  · cases h

section Rules

variable {P : JObj → Prop} {rec : JObj → JObj → Bool → Bool}
  (hrec : ∀ t c, AllNodes P c → rec c t false = true → rec t c true = true)
include hrec

/-- The object rule. -/
theorem compatObject_swap {C T : JObj} (hC : AllNodes P C)
    (h : compatObject rec C T false = true) : compatObject rec T C true = true := by
  simp only [compatObject, Bool.false_eq_true, ↓reduceIte, Bool.and_eq_true, List.all_eq_true]
    at h ⊢
  obtain ⟨⟨hreq, hprops⟩, -⟩ := h
  refine ⟨hreq, fun ⟨p, tv⟩ hp => ?_⟩
  have hpc := (hprops ⟨p, tv⟩ hp).2
  cases tv with
  | obj tvm =>
    cases hcv : lookup (objAt C "properties") p with
    | none => simp [hcv]
    | some cv =>
      cases cv with
      | obj cvm =>
        simp only [hcv] at hpc ⊢
        refine hrec _ _ (hC.child ?_) hpc
        unfold objAt asMapOrEmpty at hcv
        split at hcv
        · exact .inl ⟨_, p, ‹_›, lookup_eq_some_mem hcv⟩
        · cases hcv
      | _ => simp [hcv]
  | _ => simp

/-- The array rule. -/
theorem compatArray_swap {C T : JObj} (hC : AllNodes P C) (hP : P [])
    (h : compatArray rec C T false = true) : compatArray rec T C true = true :=
  hrec _ _ (allNodes_objAt hC hP "items" (.inl rfl)) h

/-- The union rule. -/
theorem compatUnion_swap {C T : JObj} (hC : AllNodes P C)
    (h : compatUnion rec C T false = true) : compatUnion rec T C true = true := by
  unfold compatUnion at h ⊢
  cases hTv : unionVariants T with
  | none => cases hCv : unionVariants C <;> simp [hTv, hCv] at h
  | some tVars =>
    cases hCv : unionVariants C with
    | none => simp [hTv, hCv] at h
    | some cVars =>
      simp only [hTv, hCv, Bool.false_eq_true, ↓reduceIte, List.all_eq_true, List.any_eq_true]
        at h ⊢
      intro w hw
      obtain ⟨v, hv, hvw⟩ := h w hw
      exact ⟨v, hv, hrec _ _ (hC.child (child_of_unionVariants hCv v hv)) hvw⟩

end Rules

/-- The numeric bound rule: both directions compare the same effective bounds. -/
theorem compatNumericBounds_swap {C T : JObj} (h : compatNumericBounds C T false = true) :
    compatNumericBounds T C true = true := by
  simp only [compatNumericBounds, lowerBoundGreaterOrEqual, lowerBoundLessOrEqual,
    upperBoundLessOrEqual, upperBoundGreaterOrEqual, Bool.false_eq_true, ↓reduceIte,
    Bool.and_eq_true, Bool.or_eq_true, Bool.not_eq_true', Bool.or_eq_false_iff,
    Bool.and_eq_false_iff] at h ⊢
  tauto

/-- The length and item-count bound rule. -/
theorem compatSimpleBounds_swap {C T : JObj} {minKey maxKey : String}
    (h : compatSimpleBounds C T false minKey maxKey = true) :
    compatSimpleBounds T C true minKey maxKey = true := by
  simp only [compatSimpleBounds, Bool.false_eq_true, ↓reduceIte, Bool.and_eq_true,
    Bool.or_eq_true, Bool.not_eq_true', Bool.or_eq_false_iff, Bool.and_eq_false_iff] at h ⊢
  tauto

/-- `compat` in the output direction on `(C, T)` implies `compat` in the input direction on
`(T, C)`, at every fuel. -/
theorem compat_output_implies_input :
    ∀ (fuel : Nat) (T C : JObj), AllNodes ConstOrEnum C →
      compat fuel C T false = true → compat fuel T C true = true
  | 0, _, _, _, h => by cases h
  | fuel + 1, T, C, hC, h => by
    have ih := compat_output_implies_input fuel
    simp only [compat, compatStep] at h ⊢
    by_cases hT : T = []
    · subst hT
      by_cases hC0 : C = [] <;> simp_all
    by_cases hC0 : C = []
    · simp [hT, hC0]
    simp only [hT, hC0, ↓reduceIte, Bool.false_eq_true, Bool.and_eq_true, Bool.or_eq_true,
      Bool.not_eq_true'] at h ⊢
    obtain ⟨⟨⟨⟨⟨⟨⟨htypes, hce⟩, hobj⟩, harr⟩, hnum⟩, hstr⟩, harrb⟩, hunion⟩ := h
    refine ⟨⟨⟨⟨⟨⟨⟨?_, compatConstEnum_swap hC.root hce⟩, ?_⟩, ?_⟩, ?_⟩, ?_⟩, ?_⟩, ?_⟩
    · rcases htypes with ⟨h1, h2⟩ | h
      · exact .inl ⟨h2, h1⟩
      · exact .inr h
    · rcases hobj with h | h
      · exact .inl (by simpa [Bool.or_comm] using h)
      · exact .inr (compatObject_swap ih hC h)
    · rcases harr with h | h
      · exact .inl (by simpa [Bool.or_comm] using h)
      · exact .inr (compatArray_swap ih hC constOrEnum_empty h)
    · rcases hnum with h | h
      · exact .inl (by simpa [Bool.or_comm, Bool.or_left_comm] using h)
      · exact .inr (compatNumericBounds_swap h)
    · rcases hstr with h | h
      · exact .inl (by simpa [Bool.or_comm] using h)
      · exact .inr (compatSimpleBounds_swap h)
    · rcases harrb with h | h
      · exact .inl (by simpa [Bool.or_comm] using h)
      · exact .inr (compatSimpleBounds_swap h)
    · rcases hunion with h | h
      · exact .inl (by simpa [Bool.or_comm] using h)
      · exact .inr (compatUnion_swap ih hC h)

/-- When the output check accepts `T` in place of `C`, the input check accepts `C` in place of
`T`, provided no node of `C` has both `const` and `enum`. -/
theorem outputCompatible_implies_inputCompatible (T C : JObj) (hC : AllNodes ConstOrEnum C)
    (h : outputCompatible C T = true) : inputCompatible T C = true := by
  unfold outputCompatible at h
  unfold inputCompatible
  by_cases hC0 : C = []
  · simp [hC0]
  by_cases hT : T = []
  · simp [hT, hC0] at h
  simp only [hT, hC0, ↓reduceIte] at h ⊢
  rw [compatFuel, max_comm] at h
  exact compat_output_implies_input _ T C hC h

/- A string schema may stand in for a string-or-number schema in both readings. -/
example :
    outputCompatible [("type", strArr ["number", "string"])] [("type", strArr ["string"])] = true ∧
      inputCompatible [("type", strArr ["string"])] [("type", strArr ["number", "string"])] = true :=
  ⟨by decide, outputCompatible_implies_inputCompatible _ _
    (AllNodes.leaf (by decide) fun m hm => by simp [Child, lookup] at hm) (by decide)⟩

/-- `T = {"type": ["string"]}` and `C = {"type": ["string"], "enum": ["a"]}`: the input check
accepts `C` for `T`, the output check does not accept `T` for `C`. -/
theorem inputCompatible_ne_outputCompatible_swap :
    inputCompatible [("type", strArr ["string"])]
        [("type", strArr ["string"]), ("enum", .arr [.str "a"])] = true ∧
      outputCompatible [("type", strArr ["string"]), ("enum", .arr [.str "a"])]
        [("type", strArr ["string"])] = false := by
  decide

end OpenBindings.SchemaProfile
