import OpenBindings.Interface
import Mathlib.Data.List.Pairwise

/-! # What a clean `Validate` guarantees

When `Validate` returns `nil`, the references of the document hold together: each binding names an
operation and a source that exist, each `satisfies` entry an import, no alias is shared by two
operations or equal to another operation's key, and each transform of a binding resolves to a
`jsonata` transform with an expression (`ReferenceIntegrity`). Each check is proved once for its
loop body (`bindingChecked`, `operationProblems_eq_nil`), and the alias checks for the whole
operation loop, by induction over the operations in key order with the owners recorded so far
(`opsLoop_eq_nil`).

The transform checks cover a reference (`validateTransformRef`) and an inline transform
(`validateInlineTransform`), and nothing else. A transform field decoded from `{"$ref": ""}` is
neither: its `Ref` is empty and it has no inline transform, so `Validate` accepts it while
`Resolve` returns `nil` (`validate_accepts_unresolvable_transform`). On the transforms that have
one of the two forms, every guarantee holds (`validate_referenceIntegrity`). -/

namespace OpenBindings

open SchemaProfile (isBlank hasPrefix)

namespace GoMap

variable {α : Type} {m : GoMap α}

/-- With distinct keys, `m[k]` finds exactly the entries of `m`. -/
theorem get?_eq_some {k : String} {v : α} : m.get? k = some v ↔ (k, v) ∈ m.entries := by
  unfold get?
  constructor
  · intro h
    obtain ⟨x, hx, rfl⟩ := Option.map_eq_some'.1 h
    have hk : x.1 = k := by simpa using List.find?_some hx
    rw [← hk]
    exact List.mem_of_find?_eq_some hx
  · intro h
    have found : (m.entries.find? fun x => decide (x.1 = k)).isSome = true :=
      List.find?_isSome.2 ⟨_, h, by simp⟩
    obtain ⟨x, hx⟩ := Option.isSome_iff_exists.1 found
    have hk : x.1 = k := by simpa using List.find?_some hx
    have same := List.inj_on_of_nodup_map m.nodup (List.mem_of_find?_eq_some hx) h hk
    rw [hx, same]
    rfl

theorem contains_iff {k : String} : m.contains k = true ↔ ∃ v, (k, v) ∈ m.entries := by
  simp only [contains, Option.isSome_iff_exists, get?_eq_some]

theorem mem_sorted {x : String × α} : x ∈ m.sorted ↔ x ∈ m.entries :=
  (List.perm_insertionSort _ _).mem_iff

theorem contains_iff_mem_sorted_keys {k : String} : m.contains k = true ↔ k ∈ m.sorted.map Prod.fst := by
  simp [contains_iff, mem_sorted]

end GoMap

/-! ### Transforms -/

/-- A transform that `validateInlineTransform` accepts: of type `jsonata`, with an expression. -/
def Transform.Valid (tr : Transform) : Prop := tr.type = "jsonata" ∧ isBlank tr.expression = false

theorem validateInlineTransform_eq_nil {pre : String} {tr : Transform} :
    validateInlineTransform pre tr = [] ↔ tr.Valid := by
  have jsonata : isBlank "jsonata" = false := by decide
  unfold validateInlineTransform Transform.Valid
  by_cases ht : tr.type = "jsonata"
  · simp [ht, jsonata]
  · split_ifs <;> simp [ht]

/-- A reference `validateTransformRef` accepts resolves to an entry of the transforms. -/
theorem resolve_of_validateTransformRef {t : TransformOrRef} {ts : GoMap Transform}
    (hr : t.isRef = true) (h : validateTransformRef t.ref ts = .ok ()) :
    ∃ tr, t.resolve ts = some tr ∧ ∃ k, (k, tr) ∈ ts.entries := by
  unfold validateTransformRef at h
  by_cases h1 : hasPrefix t.ref transformRefPrefix = true
  · by_cases h2 : trimPrefix t.ref transformRefPrefix = ""
    · simp [h1, h2] at h
    · by_cases h3 : ts.contains (trimPrefix t.ref transformRefPrefix) = true
      · obtain ⟨tr, htr⟩ := GoMap.contains_iff.1 h3
        exact ⟨tr, by simp [TransformOrRef.resolve, hr, h1, h2, GoMap.get?_eq_some.2 htr], _, htr⟩
      · simp [h1, h2, h3] at h
  · simp [h1] at h

/-- A field that is not a reference resolves to its inline transform. -/
theorem resolve_of_not_isRef {t : TransformOrRef} {ts : GoMap Transform} (hr : t.isRef = false) :
    t.resolve ts = t.transform := by
  simp [TransformOrRef.resolve, hr]

/-! ### One binding -/

/-- What the checks of one binding establish. -/
structure BindingChecked (i : Interface) (b : BindingEntry) : Prop where
  operation : i.ops.contains b.operation = true
  source : i.sources.contains b.source = true
  refs : ∀ t ∈ [b.inputTransform, b.outputTransform], ∀ t' ∈ t, t'.isRef = true →
    validateTransformRef t'.ref i.transforms = .ok ()
  inline : ∀ t ∈ [b.inputTransform, b.outputTransform], ∀ tr ∈ inlineTransform? t, tr.Valid

theorem transformRefProblems_eq_nil {pre : String} {t : Option TransformOrRef} {ts : GoMap Transform}
    (h : transformRefProblems pre t ts = []) :
    ∀ t' ∈ t, t'.isRef = true → validateTransformRef t'.ref ts = .ok () := by
  rintro t' rfl hr
  simp only [transformRefProblems, hr, ite_true] at h
  cases hv : validateTransformRef t'.ref ts with
  | error e => simp [hv] at h
  | ok u => rfl

theorem inlineProblems_eq_nil {pre : String} {t : Option TransformOrRef}
    (h : ((inlineTransform? t).map (validateInlineTransform pre)).getD [] = []) :
    ∀ tr ∈ inlineTransform? t, tr.Valid := by
  intro tr htr
  rw [Option.mem_def.1 htr] at h
  exact validateInlineTransform_eq_nil.1 h

/-- A binding with no problem names an existing operation and source, and its transform fields
pass the reference and inline checks. -/
theorem bindingChecked {o : ValidateOptions} {i : Interface} {k : String} {b : BindingEntry}
    (h : bindingProblems o i k b = []) : BindingChecked i b := by
  simp only [bindingProblems, List.append_eq_nil] at h
  obtain ⟨⟨⟨⟨⟨⟨hop, hsrc⟩, hrefIn⟩, hrefOut⟩, hinIn⟩, hinOut⟩, -⟩ := h
  have pair : ∀ {P : Option TransformOrRef → Prop}, P b.inputTransform → P b.outputTransform →
      ∀ t ∈ [b.inputTransform, b.outputTransform], P t := by
    intro P hin hout t ht
    simp only [List.mem_cons, List.mem_singleton, List.not_mem_nil, or_false] at ht
    rcases ht with rfl | rfl <;> assumption
  refine ⟨?_, ?_, pair (transformRefProblems_eq_nil hrefIn) (transformRefProblems_eq_nil hrefOut),
    pair (inlineProblems_eq_nil hinIn) (inlineProblems_eq_nil hinOut)⟩
  · split_ifs at hop with h1 h2
    simpa using h2
  · split_ifs at hsrc with h1 h2
    simpa using h2

/-! ### The alias owners -/

section Aliases

variable {opKeys : List String} {k : String}

/-- An alias step never changes an owner already recorded. -/
theorem lookup_aliasStep {owner : List (String × String)} {a a' v : String}
    (h : owner.lookup a' = some v) : (aliasStep opKeys k owner a).2.lookup a' = some v := by
  unfold aliasStep
  split_ifs
  · exact h
  · exact h
  · cases hl : owner.lookup a with
    | some o =>
      simp only [hl]
      split_ifs <;> exact h
    | none =>
      have hne : (a' == a) = false := beq_eq_false_iff_ne.2 fun e => by rw [e, hl] at h; cases h
      simp [List.lookup_cons, hne, h]

/-- A step that reports nothing leaves `k` the owner of the alias, which had no other owner and
is no other operation's key. -/
theorem aliasStep_eq_nil {owner : List (String × String)} {a : String}
    (h : (aliasStep opKeys k owner a).1 = []) :
    (a ∈ opKeys → a = k) ∧ (∀ o, owner.lookup a = some o → o = k) ∧
      (aliasStep opKeys k owner a).2.lookup a = some k := by
  unfold aliasStep at h ⊢
  by_cases hb : isBlank a = true
  · simp [hb] at h
  by_cases hk : a ∈ opKeys ∧ a ≠ k
  · simp [hb, hk] at h
  have key : a ∈ opKeys → a = k := fun hm => by_contra fun hne => hk ⟨hm, hne⟩
  cases hl : owner.lookup a with
  | none => exact ⟨key, by simp, by simp [hb, hk, hl]⟩
  | some o =>
    by_cases ho : o = k
    · subst ho
      exact ⟨key, by simp, by simp [hb, hk, hl]⟩
    · simp [hb, hk, hl, ho] at h

theorem lookup_aliasLoop : ∀ (as : List String) (owner : List (String × String)) {a' v : String},
    owner.lookup a' = some v → (checkLoop (aliasStep opKeys k) as owner).2.lookup a' = some v
  | [], _, _, _, h => h
  | _ :: as, _, _, _, h => lookup_aliasLoop as _ (lookup_aliasStep h)

/-- An alias loop that reports nothing leaves `k` the owner of each of its aliases. -/
theorem aliasLoop_eq_nil : ∀ (as : List String) (owner : List (String × String)),
    (checkLoop (aliasStep opKeys k) as owner).1 = [] → ∀ a ∈ as,
      (a ∈ opKeys → a = k) ∧ (∀ o, owner.lookup a = some o → o = k) ∧
        (checkLoop (aliasStep opKeys k) as owner).2.lookup a = some k
  | [], _, _, a, ha => absurd ha (List.not_mem_nil a)
  | a :: as, owner, h, a', ha' => by
    simp only [checkLoop, List.append_eq_nil] at h
    obtain ⟨key, own, set⟩ := aliasStep_eq_nil h.1
    rcases List.mem_cons.1 ha' with rfl | hmem
    · exact ⟨key, own, lookup_aliasLoop as _ set⟩
    · obtain ⟨key', own', set'⟩ := aliasLoop_eq_nil as _ h.2 a' hmem
      exact ⟨key', fun o ho => own' o (lookup_aliasStep ho), set'⟩

end Aliases

/-! ### One operation, and the operation loop -/

/-- What the checks of one operation establish. -/
structure OperationChecked (imports : GoMap String) (opKeys : List String) (k : String)
    (op : Operation) : Prop where
  kind : op.kind = operationKindMethod ∨ op.kind = operationKindEvent
  satisfies : ∀ s ∈ op.satisfies, imports.contains s.interface = true
  aliasNotKey : ∀ a ∈ op.aliases, a ∈ opKeys → a = k

theorem satisfiesProblems_eq_nil {imports : GoMap String} {k : String} {idx : Nat} {s : Satisfies}
    (h : satisfiesProblems imports k idx s = []) : imports.contains s.interface = true := by
  simp only [satisfiesProblems, List.append_eq_nil] at h
  have hi := h.1
  split_ifs at hi with hb hc
  simpa using hc

section Operations

variable {o : ValidateOptions} {imports : GoMap String} {opKeys : List String}

theorem lookup_operationProblems {owner : List (String × String)} {k : String} {op : Operation}
    {a' v : String} (h : owner.lookup a' = some v) :
    (operationProblems o imports opKeys owner k op).2.lookup a' = some v := by
  unfold operationProblems
  split
  · exact h
  · exact lookup_aliasLoop _ _ h

/-- An operation with no problem passes its checks, and `k` owns each of its aliases after it,
which had no other owner before it. -/
theorem operationProblems_eq_nil {owner : List (String × String)} {k : String} {op : Operation}
    (h : (operationProblems o imports opKeys owner k op).1 = []) :
    OperationChecked imports opKeys k op ∧
      (∀ a ∈ op.aliases, ∀ v, owner.lookup a = some v → v = k) ∧
      ∀ a ∈ op.aliases, (operationProblems o imports opKeys owner k op).2.lookup a = some k := by
  unfold operationProblems at h ⊢
  split at h
  · cases h
  rename_i hkind
  simp only [hkind, if_false]
  simp only [List.append_eq_nil, List.flatMap_eq_nil_iff] at h
  obtain ⟨⟨⟨-, haliases⟩, hsat⟩, -⟩ := h
  have al := aliasLoop_eq_nil _ _ haliases
  refine ⟨⟨by tauto, fun s hs => ?_, fun a ha => (al a ha).1⟩, fun a ha => (al a ha).2.1,
    fun a ha => (al a ha).2.2⟩
  obtain ⟨idx, hidx⟩ := List.mem_iff_getElem?.1 hs
  exact satisfiesProblems_eq_nil (hsat (idx, s) (List.mem_enum_iff_getElem?.2 hidx))

/-- The operation loop, from any owners: with no problem, every operation passes its checks and
met no other owner of its aliases, and two operations sharing an alias have the same key. -/
theorem opsLoop_eq_nil : ∀ (L : List (String × Operation)) (owner : List (String × String)),
    (checkLoop (fun owner x => operationProblems o imports opKeys owner x.1 x.2) L owner).1 = [] →
      (∀ x ∈ L, OperationChecked imports opKeys x.1 x.2 ∧
        ∀ a ∈ x.2.aliases, ∀ v, owner.lookup a = some v → v = x.1) ∧
      L.Pairwise fun x y => ∀ a ∈ x.2.aliases, a ∈ y.2.aliases → x.1 = y.1
  | [], _, _ => ⟨fun _ h => absurd h (List.not_mem_nil _), .nil⟩
  | x :: L, owner, h => by
    simp only [checkLoop, List.append_eq_nil] at h
    obtain ⟨checked, own, set⟩ := operationProblems_eq_nil h.1
    obtain ⟨rest, restPairwise⟩ := opsLoop_eq_nil L _ h.2
    refine ⟨fun y hy => ?_, .cons (fun y hy a ha ha' => (rest y hy).2 a ha' x.1 (set a ha))
      restPairwise⟩
    rcases List.mem_cons.1 hy with rfl | hy
    · exact ⟨checked, own⟩
    · exact ⟨(rest y hy).1, fun a ha v hv => (rest y hy).2 a ha v (lookup_operationProblems hv)⟩

end Operations

/-- With no problem in the operation loop, every operation passes its checks and no alias is
listed by two operations. -/
theorem operationsProblems_eq_nil {o : ValidateOptions} {i : Interface}
    (h : operationsProblems o i = []) :
    (∀ k op, (k, op) ∈ i.ops.entries → OperationChecked i.imports (i.ops.sorted.map Prod.fst) k op) ∧
      ∀ k₁ op₁ k₂ op₂, (k₁, op₁) ∈ i.ops.entries → (k₂, op₂) ∈ i.ops.entries → k₁ ≠ k₂ →
        ∀ a ∈ op₁.aliases, a ∉ op₂.aliases := by
  obtain ⟨checked, pairwise⟩ := opsLoop_eq_nil _ [] h
  have symm : Symmetric fun x y : String × Operation => ∀ a ∈ x.2.aliases, a ∈ y.2.aliases → x.1 = y.1 :=
    fun x y hxy a hy hx => (hxy a hx hy).symm
  refine ⟨fun k op hm => (checked _ (GoMap.mem_sorted.2 hm)).1,
    fun k₁ op₁ k₂ op₂ h₁ h₂ hne a ha ha' => hne ?_⟩
  exact pairwise.forall symm (GoMap.mem_sorted.2 h₁) (GoMap.mem_sorted.2 h₂)
    (fun e => hne (congrArg Prod.fst e)) a ha ha'

/-! ### The whole document -/

/-- Reference integrity of an interface, as the specification states what `Validate`
guarantees. -/
structure ReferenceIntegrity (i : Interface) : Prop where
  bindingOperation : ∀ k b, (k, b) ∈ i.bindings.entries → i.ops.contains b.operation = true
  bindingSource : ∀ k b, (k, b) ∈ i.bindings.entries → i.sources.contains b.source = true
  satisfiesImport : ∀ k op, (k, op) ∈ i.ops.entries → ∀ s ∈ op.satisfies,
    i.imports.contains s.interface = true
  aliasUnshared : ∀ k₁ op₁ k₂ op₂, (k₁, op₁) ∈ i.ops.entries → (k₂, op₂) ∈ i.ops.entries →
    k₁ ≠ k₂ → ∀ a ∈ op₁.aliases, a ∉ op₂.aliases
  aliasNotKey : ∀ k op, (k, op) ∈ i.ops.entries → ∀ a ∈ op.aliases, i.ops.contains a = true → a = k
  transformsResolve : ∀ k b, (k, b) ∈ i.bindings.entries →
    ∀ t ∈ [b.inputTransform, b.outputTransform], ∀ t' ∈ t,
      ∃ tr, t'.resolve i.transforms = some tr ∧ tr.type = "jsonata" ∧ isBlank tr.expression = false

theorem validateProblems_of_validate {i : Interface} {opts : List (Option ValidateOption)}
    (h : i.validate opts = none) : validateProblems (applyOptions opts) i = [] := by
  unfold Interface.validate at h
  by_contra hne
  simp [hne] at h

/-- When `Validate` returns `nil`, the references of the document hold together, provided each
transform field of a binding is a reference or an inline transform. -/
theorem validate_referenceIntegrity {i : Interface} {opts : List (Option ValidateOption)}
    (h : i.validate opts = none)
    (hform : ∀ k b, (k, b) ∈ i.bindings.entries → ∀ t ∈ [b.inputTransform, b.outputTransform],
      ∀ t' ∈ t, t'.isRef = true ∨ t'.transform.isSome = true) :
    ReferenceIntegrity i := by
  have hp := validateProblems_of_validate h
  simp only [validateProblems, List.append_eq_nil, List.flatMap_eq_nil_iff] at hp
  obtain ⟨⟨⟨⟨⟨⟨⟨-, -⟩, -⟩, hops⟩, -⟩, htr⟩, hbind⟩, -⟩ := hp
  obtain ⟨opsChecked, unshared⟩ := operationsProblems_eq_nil hops
  have bound : ∀ k b, (k, b) ∈ i.bindings.entries → BindingChecked i b :=
    fun k b hb => bindingChecked (hbind (k, b) (GoMap.mem_sorted.2 hb))
  have valid : ∀ k tr, (k, tr) ∈ i.transforms.entries → tr.Valid := fun k tr ht =>
    validateInlineTransform_eq_nil.1 (List.append_eq_nil.1 (htr (k, tr) (GoMap.mem_sorted.2 ht))).1
  refine ⟨fun k b hb => (bound k b hb).operation, fun k b hb => (bound k b hb).source,
    fun k op hm => (opsChecked k op hm).satisfies, unshared,
    fun k op hm a ha hc => (opsChecked k op hm).aliasNotKey a ha
      (GoMap.contains_iff_mem_sorted_keys.1 hc), ?_⟩
  intro k b hb t ht t' ht'
  cases hr : t'.isRef with
  | true =>
    obtain ⟨tr, hres, _, hmem⟩ :=
      resolve_of_validateTransformRef hr ((bound k b hb).refs t ht t' ht' hr)
    exact ⟨tr, hres, valid _ _ hmem⟩
  | false =>
    obtain ⟨tr, htr⟩ := Option.isSome_iff_exists.1 ((hform k b hb t ht t' ht').resolve_left (by simp [hr]))
    have inline : inlineTransform? t = some tr := by
      rw [Option.mem_def.1 ht']
      simp [inlineTransform?, hr, htr]
    exact ⟨tr, (resolve_of_not_isRef hr).trans htr, (bound k b hb).inline t ht tr inline⟩

/-- A document whose one binding has the input transform decoded from `{"$ref": ""}`. -/
def emptyRefInterface : Interface where
  openBindings := "0.1.0"
  operations := some ⟨[("op", { kind := "method" })], List.nodup_singleton _⟩
  sources := ⟨[("src", { format := "f", location := "l" })], List.nodup_singleton _⟩
  bindings := ⟨[("b", { operation := "op", source := "src", inputTransform := some {} })],
    List.nodup_singleton _⟩

/-- `{"$ref": ""}` decodes to a field with an empty `Ref` and no inline transform; `Validate`
accepts a document that has it under every option, yet `Resolve` returns `nil` for it, so
reference integrity fails. -/
theorem validate_accepts_unresolvable_transform :
    (∀ decodeTransform, TransformOrRef.unmarshalJSON decodeTransform (.obj [("$ref", .str "")]) =
      some {}) ∧
    (∀ opts, emptyRefInterface.validate opts = none) ∧
    ({} : TransformOrRef).resolve emptyRefInterface.transforms = none ∧
    ¬ ReferenceIntegrity emptyRefInterface := by
  refine ⟨fun _ => rfl, fun opts => ?_, rfl, fun hri => ?_⟩
  · have clean : ∀ o, validateProblems o emptyRefInterface = [] := by
      rintro ⟨_ | _, _ | _, _ | _⟩ <;> decide
    simp [Interface.validate, clean]
  · obtain ⟨tr, hres, -⟩ := hri.transformsResolve "b" _ (List.mem_singleton_self _) _
      (List.mem_cons_self _ _) {} rfl
    cases hres

end OpenBindings
