import OpenBindings.Interface

/-! # What the options of `Validate` change

Each option of `Validate` turns one check on, and a check that is on only adds problems. So with
more checks on, `Validate` reports every problem it reported before, in the same order
(`validateProblems_sublist`): an option never hides a problem, and a document that passes with some
checks on passes with fewer. The loop over operations carries the alias owners from one operation to
the next; no option changes an owner, so the two runs of the loop stay in step (`checkLoop_rel`).

Under `WithRequireSupportedVersion` the version check accepts exactly the versions that parse to
`0.1.0`: the supported range runs from `MinSupportedVersion` to `MaxTestedVersion`, and both are
`0.1.0` (`isSupportedVersion_eq_ok_true_iff`). -/

namespace OpenBindings

/-- `o ≤ o'`: every check that `o` turns on, `o'` turns on too. -/
instance : LE ValidateOptions where
  le o o' := (o.rejectUnknownTypedFields = true → o'.rejectUnknownTypedFields = true) ∧
    (o.requireEventPayload = true → o'.requireEventPayload = true) ∧
    (o.requireSupportedVersion = true → o'.requireSupportedVersion = true)

instance (o o' : ValidateOptions) : Decidable (o ≤ o') :=
  inferInstanceAs (Decidable (_ ∧ _ ∧ _))

/-! ### Parts that an option adds -/

theorem ite_nil_sublist {p q : Prop} [Decidable p] [Decidable q] (h : p → q) (l : List String) :
    (if p then l else []).Sublist (if q then l else []) := by
  by_cases hp : p
  · rw [if_pos hp, if_pos (h hp)]
  · rw [if_neg hp]
    exact List.nil_sublist _

theorem flatMap_sublist_flatMap {α : Type} {f g : α → List String} (h : ∀ x, (f x).Sublist (g x)) :
    ∀ l : List α, (l.flatMap f).Sublist (l.flatMap g)
  | [] => .slnil
  | x :: xs => by
    simpa only [List.flatMap_cons] using (h x).append (flatMap_sublist_flatMap h xs)

/-- Two runs of a loop over one list, whose bodies leave the same state and append lists related
by `R`, end in the same state with related problems, for a relation `R` that holds of two empty
lists and is kept by appending. -/
theorem checkLoop_rel {σ α : Type} (R : List String → List String → Prop) (hnil : R [] [])
    (happ : ∀ {a b c d}, R a b → R c d → R (a ++ c) (b ++ d)) {f g : σ → α → List String × σ}
    (hs : ∀ s x, (f s x).2 = (g s x).2) (hp : ∀ s x, R (f s x).1 (g s x).1) :
    ∀ (xs : List α) (s : σ), (checkLoop f xs s).2 = (checkLoop g xs s).2 ∧
      R (checkLoop f xs s).1 (checkLoop g xs s).1
  | [], _ => ⟨rfl, hnil⟩
  | x :: xs, s => by
    obtain ⟨h2, h1⟩ := checkLoop_rel R hnil happ hs hp xs (f s x).2
    simp only [checkLoop]
    rw [← hs s x]
    exact ⟨h2, happ (hp s x) h1⟩

/-! ### Each check -/

section Monotone

variable {o o' : ValidateOptions} (h : o ≤ o')
include h

theorem versionProblems_sublist (v : String) :
    (versionProblems o v).Sublist (versionProblems o' v) := by
  unfold versionProblems
  split_ifs with h1 h2 h3 h4
  all_goals first
    | exact List.Sublist.refl _
    | exact List.nil_sublist _
    | exact absurd (h.2.2 h3) ‹_›

theorem operationProblems_sublist (imports : GoMap String) (opKeys : List String)
    (owner : List (String × String)) (k : String) (op : Operation) :
    (operationProblems o imports opKeys owner k op).2 =
        (operationProblems o' imports opKeys owner k op).2 ∧
      (operationProblems o imports opKeys owner k op).1.Sublist
        (operationProblems o' imports opKeys owner k op).1 := by
  unfold operationProblems
  by_cases hk : op.kind ≠ operationKindMethod ∧ op.kind ≠ operationKindEvent
  · rw [if_pos hk, if_pos hk]
    exact ⟨rfl, List.Sublist.refl _⟩
  · rw [if_neg hk, if_neg hk]
    refine ⟨rfl, (((ite_nil_sublist ?_ _).append (List.Sublist.refl _)).append
      (List.Sublist.refl _)).append (ite_nil_sublist h.1 _)⟩
    exact fun hp => ⟨h.2.1 hp.1, hp.2⟩

theorem operationsProblems_sublist (i : Interface) :
    (operationsProblems o i).Sublist (operationsProblems o' i) := by
  unfold operationsProblems
  exact (checkLoop_rel List.Sublist .slnil List.Sublist.append
    (fun _ (x : String × Operation) => (operationProblems_sublist h _ _ _ x.1 x.2).1)
    (fun _ (x : String × Operation) => (operationProblems_sublist h _ _ _ x.1 x.2).2) _ _).2

theorem sourceProblems_sublist (k : String) (src : Source) :
    (sourceProblems o k src).Sublist (sourceProblems o' k src) :=
  (List.Sublist.refl _).append (ite_nil_sublist h.1 _)

theorem transformProblems_sublist (k : String) (tr : Transform) :
    (transformProblems o k tr).Sublist (transformProblems o' k tr) :=
  (List.Sublist.refl _).append (ite_nil_sublist h.1 _)

theorem bindingProblems_sublist (i : Interface) (k : String) (b : BindingEntry) :
    (bindingProblems o i k b).Sublist (bindingProblems o' i k b) :=
  (List.Sublist.refl _).append (ite_nil_sublist h.1 _)

/-- With more checks on, `Validate` reports every problem it reported before, in the same order. -/
theorem validateProblems_sublist (i : Interface) :
    (validateProblems o i).Sublist (validateProblems o' i) := by
  unfold validateProblems
  exact ((((((((versionProblems_sublist h _).append (List.Sublist.refl _)).append
    (List.Sublist.refl _)).append (operationsProblems_sublist h i)).append
    (flatMap_sublist_flatMap (fun x : String × Source => sourceProblems_sublist h x.1 x.2) _)).append
    (flatMap_sublist_flatMap (fun x : String × Transform => transformProblems_sublist h x.1 x.2)
      _)).append
    (flatMap_sublist_flatMap (fun x : String × BindingEntry => bindingProblems_sublist h i x.1 x.2)
      _)).append
    (ite_nil_sublist h.1 _))

end Monotone

/-! ### The supported version -/

/-- `compareSemver` finds two versions equal exactly when they are. -/
theorem compareSemver_eq_eq_iff {a b : Semver} : compareSemver a b = .eq ↔ a = b := by
  obtain ⟨a1, a2, a3⟩ := a
  obtain ⟨b1, b2, b3⟩ := b
  unfold compareSemver
  simp only [Semver.mk.injEq]
  split_ifs with h1 h2 <;> simp_all [compare_eq_iff_eq]

/-- `IsSupportedVersion` holds exactly of the versions that parse to `0.1.0`, the lower and the
upper end of the supported range. -/
theorem isSupportedVersion_eq_ok_true_iff {v : String} :
    isSupportedVersion v = .ok true ↔ parseSemverStrict v = .ok minSupportedSemver := by
  unfold isSupportedVersion
  cases hp : parseSemverStrict v with
  | error e => simp [bind, Except.bind]
  | ok p =>
    have hrange : (compareSemver p minSupportedSemver != .lt &&
        compareSemver p maxTestedSemver != .gt) = true ↔ p = minSupportedSemver := by
      rw [show maxTestedSemver = minSupportedSemver from rfl, ← compareSemver_eq_eq_iff]
      cases compareSemver p minSupportedSemver <;> decide
    simp [bind, Except.bind, pure, Except.pure, hrange]

end OpenBindings
