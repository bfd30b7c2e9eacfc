import OpenBindings.Options
import OpenBindings.Integrity
import OpenBindings.GoJsonRoundTrip

/-! # `Validate` and the order of map iteration

Go ranges over a map in an order it picks afresh on each run. `Validate` sorts the keys of the
operations, sources, transforms and bindings, and of every unknown-field map, before it reports on
them; it ranges over `Imports` and over each operation's `Examples` in map order. So the order of
the problems may change from one run to the next, but the problems do not: two documents that hold
the same entries in every map, each map iterated in its own order, get the same problems up to
order, and so the same verdict (`validate_perm_of_canonical`).

A document's `canonical` form holds every map in key order, at every depth; two documents with one
canonical form differ in map order only. Putting a document in canonical form leaves each part of
the problem list as it is, but for the problems of the imports and of the examples, which it
permutes (`validateProblems_canonical_perm`). -/

namespace OpenBindings

open GoJson (sortMembers)
open SchemaProfile (quote)

/-! ### Maps in key order -/

namespace GoMap

variable {α β : Type}

/-- The map iterated in key order, each value passed through `f`. -/
def canonical (f : α → β) (m : GoMap α) : GoMap β :=
  ⟨m.sorted.map fun kv => (kv.1, f kv.2), by
    rw [List.map_map]
    exact ((List.perm_insertionSort _ m.entries).map Prod.fst).nodup_iff.2 m.nodup⟩

theorem sorted_eq_sortMembers (m : GoMap α) : m.sorted = sortMembers m.entries := rfl

theorem perm_canonical (f : α → β) (m : GoMap α) :
    (m.canonical f).entries.Perm (m.entries.map fun kv => (kv.1, f kv.2)) :=
  (List.perm_insertionSort _ _).map _

theorem keys_perm_canonical (f : α → β) (m : GoMap α) :
    ((m.canonical f).entries.map Prod.fst).Perm (m.entries.map Prod.fst) := by
  simpa only [List.map_map] using (perm_canonical f m).map Prod.fst

/-- A map in canonical form is already in key order. -/
theorem sorted_canonical (f : α → β) (m : GoMap α) :
    (m.canonical f).sorted = m.sorted.map fun kv => (kv.1, f kv.2) := by
  show sortMembers ((sortMembers m.entries).map _) = _
  rw [← GoJson.sortMembers_map_snd, GoJson.sortMembers_of_sorted (GoJson.sorted_sortMembers _),
    GoJson.sortMembers_map_snd]
  rfl

theorem contains_canonical (f : α → β) (m : GoMap α) (k : String) :
    (m.canonical f).contains k = m.contains k := by
  rw [Bool.eq_iff_iff, contains_iff_mem_sorted_keys, contains_iff_mem_sorted_keys, sorted_canonical,
    List.map_map]
  rfl

theorem flatMap_sorted_canonical {γ : Type} (f : α → β) (m : GoMap α) (F : String × β → List γ) :
    (m.canonical f).sorted.flatMap F = m.sorted.flatMap fun kv => F (kv.1, f kv.2) := by
  rw [sorted_canonical, List.flatMap_map]

theorem flatMap_canonical_perm {γ : Type} (f : α → β) (m : GoMap α) (F : String × β → List γ) :
    ((m.canonical f).entries.flatMap F).Perm (m.entries.flatMap fun kv => F (kv.1, f kv.2)) := by
  simpa only [List.flatMap_map] using (perm_canonical f m).flatMap_right F

/-- The canonical form of a map depends only on its entries, not on their order. -/
theorem canonical_eq_of_perm {m m' : GoMap α} (h : m.entries.Perm m'.entries) (f : α → β) :
    m.canonical f = m'.canonical f := by
  unfold canonical
  congr 1
  rw [sorted_eq_sortMembers, sorted_eq_sortMembers, GoJson.sortMembers_eq_of_perm h m.nodup]

@[simp] theorem canonical_empty (f : α → β) : (empty : GoMap α).canonical f = empty := rfl

end GoMap

/-- The unknown-field problem does not depend on the order of the unknown keys. -/
theorem appendUnknownFieldProblems_canonical (pre : String) (u : GoMap Unit) :
    appendUnknownFieldProblems pre (u.canonical id) = appendUnknownFieldProblems pre u := by
  have hk := GoMap.keys_perm_canonical id u
  have hsort : ((u.canonical id).entries.map Prod.fst).insertionSort (· ≤ ·) =
      (u.entries.map Prod.fst).insertionSort (· ≤ ·) :=
    List.eq_of_perm_of_sorted (((List.perm_insertionSort _ _).trans hk).trans
      (List.perm_insertionSort _ _).symm) (List.sorted_insertionSort _ _) (List.sorted_insertionSort _ _)
  have hnil : (u.canonical id).entries = [] ↔ u.entries = [] := by
    rw [← List.length_eq_zero, ← List.length_eq_zero, (GoMap.perm_canonical id u).length_eq,
      List.length_map]
  unfold appendUnknownFieldProblems
  simp only [hnil, hsort]

/-! ### Documents in key order -/

def Satisfies.canonical (s : Satisfies) : Satisfies := { s with unknown := s.unknown.canonical id }

@[simp] theorem Satisfies.unknown_canonical (s : Satisfies) : s.canonical.unknown = s.unknown.canonical id :=
  rfl

def OperationExample.canonical (e : OperationExample) : OperationExample :=
  { unknown := e.unknown.canonical id }

def Operation.canonical (op : Operation) : Operation :=
  { op with satisfies := op.satisfies.map Satisfies.canonical,
            examples := op.examples.canonical OperationExample.canonical,
            unknown := op.unknown.canonical id }

def Source.canonical (s : Source) : Source := { s with unknown := s.unknown.canonical id }

def Transform.canonical (t : Transform) : Transform := { t with unknown := t.unknown.canonical id }

@[simp] theorem Transform.unknown_canonical (t : Transform) : t.canonical.unknown = t.unknown.canonical id :=
  rfl

def TransformOrRef.canonical (t : TransformOrRef) : TransformOrRef :=
  { t with transform := t.transform.map Transform.canonical }

def BindingEntry.canonical (b : BindingEntry) : BindingEntry :=
  { b with inputTransform := b.inputTransform.map TransformOrRef.canonical,
           outputTransform := b.outputTransform.map TransformOrRef.canonical,
           unknown := b.unknown.canonical id }

/-- The document with every map in key order, at every depth. -/
def Interface.canonical (i : Interface) : Interface :=
  { i with operations := i.operations.map (GoMap.canonical Operation.canonical),
           imports := i.imports.canonical id,
           sources := i.sources.canonical Source.canonical,
           bindings := i.bindings.canonical BindingEntry.canonical,
           transforms := i.transforms.canonical Transform.canonical,
           unknown := i.unknown.canonical id }

@[simp] theorem Interface.sources_canonical (i : Interface) :
    i.canonical.sources = i.sources.canonical Source.canonical := rfl

@[simp] theorem Interface.transforms_canonical (i : Interface) :
    i.canonical.transforms = i.transforms.canonical Transform.canonical := rfl

@[simp] theorem Interface.bindings_canonical (i : Interface) :
    i.canonical.bindings = i.bindings.canonical BindingEntry.canonical := rfl

@[simp] theorem Interface.unknown_canonical (i : Interface) : i.canonical.unknown = i.unknown.canonical id :=
  rfl

theorem Interface.ops_canonical (i : Interface) :
    i.canonical.ops = i.ops.canonical Operation.canonical := by
  cases h : i.operations <;> simp [Interface.canonical, Interface.ops, h]

/-! ### Each check -/

section Checks

variable (o : ValidateOptions)

theorem importProblems_canonical_perm (m : GoMap String) :
    (importProblems (m.canonical id)).Perm (importProblems m) :=
  GoMap.flatMap_canonical_perm id m _

theorem satisfiesProblems_canonical (imports : GoMap String) (k : String) (idx : Nat) (s : Satisfies) :
    satisfiesProblems (imports.canonical id) k idx s.canonical = satisfiesProblems imports k idx s := by
  simp only [satisfiesProblems, Satisfies.canonical, GoMap.contains_canonical]

/-- The body of the operation loop leaves the same alias owners on an operation in canonical form,
and appends the same problems but for those of the examples, in another order. -/
theorem operationProblems_canonical (imports : GoMap String) (opKeys : List String)
    (owner : List (String × String)) (k : String) (op : Operation) :
    (operationProblems o (imports.canonical id) opKeys owner k op.canonical).2 =
        (operationProblems o imports opKeys owner k op).2 ∧
      (operationProblems o (imports.canonical id) opKeys owner k op.canonical).1.Perm
        (operationProblems o imports opKeys owner k op).1 := by
  have hsat : ∀ F : Nat × Satisfies → List String, (op.satisfies.map Satisfies.canonical).enum.flatMap F =
      op.satisfies.enum.flatMap fun x => F (x.1, x.2.canonical) := fun F => by
    rw [List.enum_map, List.flatMap_map]
    rfl
  have hex := GoMap.flatMap_canonical_perm OperationExample.canonical op.examples
    fun x => appendUnknownFieldProblems (keyed "operations" k ++ ".examples[" ++ quote x.1 ++ "]")
      x.2.unknown
  simp only [OperationExample.canonical, appendUnknownFieldProblems_canonical] at hex
  unfold operationProblems
  simp only [Operation.canonical, hsat, satisfiesProblems_canonical, Satisfies.unknown_canonical,
    appendUnknownFieldProblems_canonical]
  by_cases hk : op.kind ≠ operationKindMethod ∧ op.kind ≠ operationKindEvent
  · rw [if_pos hk, if_pos hk]
    exact ⟨rfl, .refl _⟩
  · rw [if_neg hk, if_neg hk]
    refine ⟨rfl, List.Perm.append_left _ ?_⟩
    split_ifs
    · exact hex.append_left _
    · exact .refl _

/-- A loop over the entries rewritten by `g` is the loop whose body rewrites each entry. -/
theorem checkLoop_map {σ α β : Type} (body : σ → β → List String × σ) (g : α → β) :
    ∀ (xs : List α) (s : σ), checkLoop body (xs.map g) s = checkLoop (fun s x => body s (g x)) xs s
  | [], _ => rfl
  | x :: xs, s => by simp only [List.map_cons, checkLoop, checkLoop_map body g xs]

theorem operationsProblems_canonical_perm (i : Interface) :
    (operationsProblems o i.canonical).Perm (operationsProblems o i) := by
  unfold operationsProblems
  have hkeys : (i.ops.sorted.map fun kv => (kv.1, kv.2.canonical)).map Prod.fst =
      i.ops.sorted.map Prod.fst := by
    rw [List.map_map]
    rfl
  simp only [Interface.ops_canonical, GoMap.sorted_canonical, checkLoop_map, hkeys]
  exact (checkLoop_rel List.Perm .nil List.Perm.append
    (fun _ (x : String × Operation) => (operationProblems_canonical o _ _ _ x.1 x.2).1)
    (fun _ (x : String × Operation) => (operationProblems_canonical o _ _ _ x.1 x.2).2) _ _).2

theorem sourceProblems_canonical (k : String) (src : Source) :
    sourceProblems o k src.canonical = sourceProblems o k src := by
  simp only [sourceProblems, Source.canonical, appendUnknownFieldProblems_canonical]

theorem transformProblems_canonical (k : String) (tr : Transform) :
    transformProblems o k tr.canonical = transformProblems o k tr := by
  simp only [transformProblems, validateInlineTransform, Transform.canonical,
    appendUnknownFieldProblems_canonical]

theorem transformRefProblems_canonical (pre : String) (t : Option TransformOrRef) (ts : GoMap Transform) :
    transformRefProblems pre (t.map TransformOrRef.canonical) (ts.canonical Transform.canonical) =
      transformRefProblems pre t ts := by
  cases t <;> simp [transformRefProblems, validateTransformRef, TransformOrRef.canonical,
    TransformOrRef.isRef, GoMap.contains_canonical]

theorem inlineTransform?_canonical (t : Option TransformOrRef) :
    inlineTransform? (t.map TransformOrRef.canonical) = (inlineTransform? t).map Transform.canonical := by
  cases t with
  | none => rfl
  | some t => exact (apply_ite (Option.map Transform.canonical) ((!t.isRef) = true) t.transform none).symm

theorem validateInlineTransform_canonical (pre : String) (tr : Transform) :
    validateInlineTransform pre tr.canonical = validateInlineTransform pre tr := rfl

theorem bindingProblems_canonical (i : Interface) (k : String) (b : BindingEntry) :
    bindingProblems o i.canonical k b.canonical = bindingProblems o i k b := by
  simp only [bindingProblems, BindingEntry.canonical, Interface.ops_canonical, Interface.sources_canonical,
    Interface.transforms_canonical, GoMap.contains_canonical, transformRefProblems_canonical,
    inlineTransform?_canonical, Option.map_map, Function.comp_def, validateInlineTransform_canonical,
    Transform.unknown_canonical, appendUnknownFieldProblems_canonical]

/-! ### The whole run -/

/-- Putting a document in canonical form permutes the problems `Validate` reports. -/
theorem validateProblems_canonical_perm (i : Interface) :
    (validateProblems o i.canonical).Perm (validateProblems o i) := by
  have hnone : i.canonical.operations.isNone = i.operations.isNone := by
    simp [Interface.canonical]
  unfold validateProblems
  simp only [hnone, Interface.sources_canonical, Interface.transforms_canonical,
    Interface.bindings_canonical, GoMap.flatMap_sorted_canonical, sourceProblems_canonical,
    transformProblems_canonical, bindingProblems_canonical, Interface.unknown_canonical,
    appendUnknownFieldProblems_canonical]
  exact (((((((List.Perm.refl _).append (importProblems_canonical_perm _)).append (.refl _)).append
    (operationsProblems_canonical_perm o i)).append_right _).append_right _).append_right _).append_right _

end Checks

/-- Two documents that hold the same entries in every map, each map iterated in its own order, get
the same problems from `Validate`, in orders that may differ, and so the same verdict. -/
theorem validate_perm_of_canonical {i i' : Interface} (h : i.canonical = i'.canonical)
    (opts : List (Option ValidateOption)) :
    (validateProblems (applyOptions opts) i).Perm (validateProblems (applyOptions opts) i') ∧
      (i.validate opts = none ↔ i'.validate opts = none) := by
  have hp : (validateProblems (applyOptions opts) i).Perm (validateProblems (applyOptions opts) i') :=
    (validateProblems_canonical_perm _ i).symm.trans
      (by rw [h]; exact validateProblems_canonical_perm _ i')
  refine ⟨hp, ?_⟩
  simp only [Interface.validate, ite_eq_left_iff, reduceCtorEq, imp_false, not_not]
  rw [← List.length_eq_zero, hp.length_eq, List.length_eq_zero]

/-- Two blank imports, iterated in either order. -/
theorem validate_perm_of_canonical_imports :
    Interface.canonical
        { openBindings := "0.1.0", operations := some GoMap.empty,
          imports := ⟨[("a", ""), ("b", "")], by decide⟩ } =
      Interface.canonical
        { openBindings := "0.1.0", operations := some GoMap.empty,
          imports := ⟨[("b", ""), ("a", "")], by decide⟩ } ∧
    ((validateProblems (applyOptions [])
        { openBindings := "0.1.0", operations := some GoMap.empty,
          imports := ⟨[("a", ""), ("b", "")], by decide⟩ }).Perm
      (validateProblems (applyOptions [])
        { openBindings := "0.1.0", operations := some GoMap.empty,
          imports := ⟨[("b", ""), ("a", "")], by decide⟩ }) ∧
    (Interface.validate
        { openBindings := "0.1.0", operations := some GoMap.empty,
          imports := ⟨[("a", ""), ("b", "")], by decide⟩ } [] = none ↔
      Interface.validate
        { openBindings := "0.1.0", operations := some GoMap.empty,
          imports := ⟨[("b", ""), ("a", "")], by decide⟩ } [] = none)) :=
  have h : Interface.canonical
        { openBindings := "0.1.0", operations := some GoMap.empty,
          imports := ⟨[("a", ""), ("b", "")], by decide⟩ } =
      Interface.canonical
        { openBindings := "0.1.0", operations := some GoMap.empty,
          imports := ⟨[("b", ""), ("a", "")], by decide⟩ } := by
    simp only [Interface.canonical, @GoMap.canonical_eq_of_perm String String ⟨[("a", ""), ("b", "")], by decide⟩
      ⟨[("b", ""), ("a", "")], by decide⟩ (by decide) id]
  ⟨h, validate_perm_of_canonical h []⟩

/-- With more checks on, and each of the two calls ranging over the document's maps in its own
order, `Validate` reports every problem it reported before, in some order; so a document that
passes with some checks on passes with fewer, whatever order each call picks. -/
theorem validateProblems_subperm {o o' : ValidateOptions} (h : o ≤ o') {i i' : Interface}
    (hi : i.canonical = i'.canonical) :
    (validateProblems o i).Subperm (validateProblems o' i') ∧
      (validateProblems o' i' = [] → validateProblems o i = []) := by
  have hp : (validateProblems o' i).Perm (validateProblems o' i') :=
    (validateProblems_canonical_perm o' i).symm.trans
      (by rw [hi]; exact validateProblems_canonical_perm o' i')
  have hs := (validateProblems_sublist h i).subperm.trans hp.subperm
  refine ⟨hs, fun h' => List.eq_nil_of_length_eq_zero (Nat.le_zero.1 ?_)⟩
  simpa only [h', List.length_nil] using hs.length_le

/-- Turning on `WithRejectUnknownTypedFields` for a document with two blank imports and an unknown
field, the second call ranging over the imports in the other order. -/
theorem validateProblems_subperm_rejectUnknown :
    ({} : ValidateOptions) ≤ { rejectUnknownTypedFields := true } ∧
    Interface.canonical
        { openBindings := "0.1.0", operations := some GoMap.empty,
          imports := ⟨[("a", ""), ("b", "")], by decide⟩, unknown := ⟨[("zz", ())], by decide⟩ } =
      Interface.canonical
        { openBindings := "0.1.0", operations := some GoMap.empty,
          imports := ⟨[("b", ""), ("a", "")], by decide⟩, unknown := ⟨[("zz", ())], by decide⟩ } ∧
    ((validateProblems {}
        { openBindings := "0.1.0", operations := some GoMap.empty,
          imports := ⟨[("a", ""), ("b", "")], by decide⟩, unknown := ⟨[("zz", ())], by decide⟩ }).Subperm
      (validateProblems { rejectUnknownTypedFields := true }
        { openBindings := "0.1.0", operations := some GoMap.empty,
          imports := ⟨[("b", ""), ("a", "")], by decide⟩, unknown := ⟨[("zz", ())], by decide⟩ }) ∧
    (validateProblems { rejectUnknownTypedFields := true }
        { openBindings := "0.1.0", operations := some GoMap.empty,
          imports := ⟨[("b", ""), ("a", "")], by decide⟩, unknown := ⟨[("zz", ())], by decide⟩ } = [] →
      validateProblems {}
        { openBindings := "0.1.0", operations := some GoMap.empty,
          imports := ⟨[("a", ""), ("b", "")], by decide⟩, unknown := ⟨[("zz", ())], by decide⟩ } = [])) :=
  have h : Interface.canonical
        { openBindings := "0.1.0", operations := some GoMap.empty,
          imports := ⟨[("a", ""), ("b", "")], by decide⟩, unknown := ⟨[("zz", ())], by decide⟩ } =
      Interface.canonical
        { openBindings := "0.1.0", operations := some GoMap.empty,
          imports := ⟨[("b", ""), ("a", "")], by decide⟩, unknown := ⟨[("zz", ())], by decide⟩ } := by
    simp only [Interface.canonical, @GoMap.canonical_eq_of_perm String String ⟨[("a", ""), ("b", "")], by decide⟩
      ⟨[("b", ""), ("a", "")], by decide⟩ (by decide) id]
  ⟨by decide, h, validateProblems_subperm (by decide) h⟩

/-- The order of the problems is not fixed: the two orders of the imports above report the two
problems in two orders. -/
example :
    validateProblems {}
        { openBindings := "0.1.0", operations := some GoMap.empty,
          imports := ⟨[("a", ""), ("b", "")], by decide⟩ } ≠
      validateProblems {}
        { openBindings := "0.1.0", operations := some GoMap.empty,
          imports := ⟨[("b", ""), ("a", "")], by decide⟩ } := by
  decide

end OpenBindings
