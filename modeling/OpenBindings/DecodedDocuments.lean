import OpenBindings.DocumentRoundTrip
import OpenBindings.JsonText

/-! # What decoding leaves

Decoding a JSON input and encoding the result normalises the input: members come out sorted, a
repeated name keeps its last value, and typed fields drop what `omitempty` leaves out. The round
trip of `DocumentRoundTrip` holds of documents of a certain shape (`Interface.Wf`); this module shows
that decoding produces that shape, except for two things it cannot ensure. So for every input that
`Interface.UnmarshalJSON` accepts whose kept members alias no known field name and whose bindings
have no empty `$ref` (`Interface.Clean`), the decoded document is of that shape
(`Interface.wf_of_unmarshalJSON_clean`), and encoding, decoding and encoding it again writes it as before.

Each decoder keeps an invariant of the wire struct it fills (`decodeStruct_inv`): Go maps and values
held as `any` repeat no name (`keysUnique_decodeAny`, `decodeMap_inv`), and a decoded
`TransformOrRef` is a reference with only `x-` members beside it, an inline transform with no `$ref`
member, or the empty reference that `Clean` rules out (`TransformOrRef.wf_of_unmarshalJSON`). -/

namespace OpenBindings.Lossless

open GoJson
open SchemaProfile (hasPrefix)

/-! ### Values held as `any` -/

mutual
/-- A value read into `any` repeats no name in any object. -/
theorem keysUnique_decodeAny : ∀ v : JValue, (decodeAny v).KeysUnique
  | .null => trivial
  | .bool _ => trivial
  | .num _ => trivial
  | .str _ => trivial
  | .arr xs => keysUniqueList_decodeAnyList xs
  | .obj m => keysUnique_decodeAnyObj m List.nodup_nil fun _ h => nomatch h

theorem keysUniqueList_decodeAnyList : ∀ xs : List JValue, JValue.KeysUniqueList (decodeAnyList xs)
  | [] => trivial
  | x :: xs => ⟨keysUnique_decodeAny x, keysUniqueList_decodeAnyList xs⟩

theorem keysUnique_decodeAnyObj : ∀ (m : JObj) {acc : JObj}, (acc.map Prod.fst).Nodup →
    (∀ kv ∈ acc, kv.2.KeysUnique) → (JValue.obj (decodeAnyObj m acc)).KeysUnique
  | [], _, hn, hu => ⟨hn, JValue.keysUniqueObj_iff.2 hu⟩
  | (_, v) :: rest, _, hn, hu =>
    have h := CanonicalJson.setField_keysUnique hn hu (keysUnique_decodeAny v)
    keysUnique_decodeAnyObj rest h.1 h.2
end

theorem keysUnique_decodeAnyMap {prev r : Option JObj} {v : JValue}
    (hp : ∀ o ∈ prev, (JValue.obj o).KeysUnique) (h : decodeAnyMap prev v = some r) :
    ∀ o ∈ r, (JValue.obj o).KeysUnique := by
  intro o ho
  cases v <;> simp only [decodeAnyMap, Option.some.injEq, reduceCtorEq] at h <;> subst h
  · cases ho
  · simp only [Option.mem_def, Option.some.injEq] at ho
    subst ho
    cases prev with
    | none => exact keysUnique_decodeAnyObj _ List.nodup_nil fun _ h => nomatch h
    | some p =>
      obtain ⟨hn, hu⟩ := hp p rfl
      exact keysUnique_decodeAnyObj _ hn (JValue.keysUniqueObj_iff.1 hu)

/-! ### Maps and pointers of typed values -/

section Typed

variable {α : Type} {Q : α → Prop} {elem : JValue → Option α}

/-- A Go map whose values decode into values of `Q`: its keys stay distinct and its values stay
in `Q`. -/
theorem decodeMap_inv (hQ : ∀ v y, elem v = some y → Q y) {prev r : Option (List (String × α))}
    {v : JValue} (hp : ∀ m ∈ prev, (m.map Prod.fst).Nodup ∧ ∀ kv ∈ m, Q kv.2)
    (h : decodeMap elem prev v = some r) : ∀ m ∈ r, (m.map Prod.fst).Nodup ∧ ∀ kv ∈ m, Q kv.2 := by
  have step : ∀ (L : JObj) (acc m : List (String × α)), (acc.map Prod.fst).Nodup →
      (∀ kv ∈ acc, Q kv.2) → L.foldlM (fun acc kv => (elem kv.2).map (mapSet acc kv.1)) acc = some m →
      (m.map Prod.fst).Nodup ∧ ∀ kv ∈ m, Q kv.2 := by
    intro L
    induction L with
    | nil => intro acc m hn hq h; cases h; exact ⟨hn, hq⟩
    | cons kv rest ih =>
      intro acc m hn hq h
      rw [List.foldlM_cons] at h
      obtain ⟨acc', hacc', h⟩ := Option.bind_eq_some.1 h
      obtain ⟨y, hy, rfl⟩ := Option.map_eq_some'.1 hacc'
      refine ih _ _ (nodup_keys_mapSet _ _ hn) (fun kv' hkv' => ?_) h
      rcases mem_mapSet hkv' with rfl | hkv'
      · exact hQ _ _ hy
      · exact hq _ hkv'
  intro m hm
  cases v <;> simp only [decodeMap, Option.some.injEq, reduceCtorEq] at h
  · subst h; cases hm
  · obtain ⟨m', hm', rfl⟩ := Option.map_eq_some'.1 h
    simp only [Option.mem_def, Option.some.injEq] at hm
    subst hm
    cases prev with
    | none => exact step _ [] _ List.nodup_nil (fun _ h => nomatch h) hm'
    | some p => exact step _ p _ (hp p rfl).1 (hp p rfl).2 hm'

theorem decodeMap_nodup {prev r : Option (List (String × α))} {v : JValue}
    (hp : ∀ m ∈ prev, (m.map Prod.fst).Nodup) (h : decodeMap elem prev v = some r) :
    ∀ m ∈ r, (m.map Prod.fst).Nodup := fun m hm =>
  (@decodeMap_inv _ (fun _ => True) _ (fun _ _ _ => trivial) _ _ _
    (fun m hm => ⟨hp m hm, fun _ _ => trivial⟩) h m hm).1

theorem decodePtr_inv (hQ : ∀ v y, elem v = some y → Q y) {prev r : Option α} {v : JValue}
    (h : decodePtr elem prev v = some r) : ∀ x ∈ r, Q x := by
  intro x hx
  cases v
  case null => simp only [decodePtr, Option.some.injEq] at h; subst h; cases hx
  all_goals
    obtain ⟨y, hy, rfl⟩ := Option.map_eq_some'.1 h
    simp only [Option.mem_def, Option.some.injEq] at hx
    exact hx ▸ hQ _ _ hy

end Typed

/-! ### Wire structs -/

/-- An invariant that the zero value has and that storing any member into any field keeps holds of
every decoded wire struct. -/
theorem decodeStruct_inv {σ : Type} {fields : Fields σ} {zero : σ} (P : σ → Prop) {b : JValue}
    {w : σ} (h : decodeStruct fields zero b = some w) (h0 : P zero)
    (hf : ∀ f ∈ fields, ∀ w v w', P w → f.2 w v = some w' → P w') : P w := by
  have step : ∀ (L : JObj) (acc : σ), P acc →
      L.foldlM (fun w kv => storeMember fields w kv.1 kv.2) acc = some w → P w := by
    intro L
    induction L with
    | nil => intro acc hacc h; cases h; exact hacc
    | cons kv rest ih =>
      intro acc hacc h
      rw [List.foldlM_cons] at h
      obtain ⟨acc', hacc', h⟩ := Option.bind_eq_some.1 h
      refine ih acc' ?_ h
      unfold storeMember at hacc'
      split at hacc'
      · exact hf _ (List.mem_of_find?_eq_some ‹_›) _ _ _ hacc hacc'
      · cases hacc'; exact hacc
  cases b <;> simp only [decodeStruct, Option.some.injEq, reduceCtorEq] at h
  · subst h; exact h0
  · exact step _ _ h0 h

/-! ### What decoding cannot ensure -/

/-- A `TransformOrRef` that is not an empty reference: a reference, or an inline transform whose
kept members alias no field. -/
def TransformOrRef.Clean (t : TransformOrRef) : Prop :=
  t.ref ≠ "" ∨ ∃ tr, t.transform = some tr ∧ tr.toLosslessFields.NoAlias knownTransformSet

/-- A `BindingEntry` whose kept members alias no field and whose transforms are not empty
references. -/
structure BindingEntry.Clean (be : BindingEntry) : Prop where
  noAlias : be.toLosslessFields.NoAlias knownBindingEntrySet
  inputTransform : ∀ t ∈ be.inputTransform, t.Clean
  outputTransform : ∀ t ∈ be.outputTransform, t.Clean

/-- An `Operation` whose kept members, and those of its parts, alias no field. -/
structure Operation.Clean (o : Operation) : Prop where
  noAlias : o.toLosslessFields.NoAlias knownOperationSet
  satisfies : ∀ s ∈ o.satisfies, s.toLosslessFields.NoAlias knownSatisfiesSet
  examples : ∀ m ∈ o.examples, ∀ kv ∈ m, kv.2.toLosslessFields.NoAlias knownOperationExampleSet

/-- A document whose kept members, at every level, alias no field, and whose bindings have no empty
transform reference. -/
structure Interface.Clean (i : Interface) : Prop where
  noAlias : i.toLosslessFields.NoAlias knownInterfaceSet
  operations : ∀ m ∈ i.operations, ∀ kv ∈ m, kv.2.Clean
  sources : ∀ m ∈ i.sources, ∀ kv ∈ m, kv.2.toLosslessFields.NoAlias knownSourceSet
  bindings : ∀ m ∈ i.bindings, ∀ kv ∈ m, kv.2.Clean
  transforms : ∀ m ∈ i.transforms, ∀ kv ∈ m, kv.2.toLosslessFields.NoAlias knownTransformSet

/-! ### Each document type -/

theorem OperationExample.wf_of_unmarshalJSON {b : JValue} {e : OperationExample}
    (h : OperationExample.unmarshalJSON b = some e)
    (hc : e.toLosslessFields.NoAlias knownOperationExampleSet) : e.Wf := by
  obtain ⟨raw, w, -, hw, rfl⟩ := unmarshalTyped_eq_some.1 h
  have hP := decodeStruct_inv (fun w : OperationExampleWire =>
      w.input.KeysUnique ∧ w.output.KeysUnique ∧ w.payload.KeysUnique) hw ⟨trivial, trivial, trivial⟩
    (by
      intro f hf w v w' hP h
      simp only [operationExampleWireFields, List.mem_cons, List.mem_nil_iff, or_false] at hf
      rcases hf with rfl | rfl | rfl | rfl <;> dsimp only at h <;>
        obtain ⟨x, hx, rfl⟩ := Option.map_eq_some'.1 h
      · exact hP
      · cases hx; exact ⟨keysUnique_decodeAny v, hP.2⟩
      · cases hx; exact ⟨hP.1, keysUnique_decodeAny v, hP.2.2⟩
      · cases hx; exact ⟨hP.1, hP.2.1, keysUnique_decodeAny v⟩)
  exact ⟨hc, hP.1, hP.2.1, hP.2.2⟩

theorem Source.wf_of_unmarshalJSON {b : JValue} {s : Source} (h : Source.unmarshalJSON b = some s)
    (hc : s.toLosslessFields.NoAlias knownSourceSet) : s.Wf := by
  obtain ⟨raw, w, -, hw, rfl⟩ := unmarshalTyped_eq_some.1 h
  have hP := decodeStruct_inv (fun w : SourceWire => w.content.KeysUnique) hw trivial
    (by
      intro f hf w v w' hP h
      simp only [sourceWireFields, List.mem_cons, List.mem_nil_iff, or_false] at hf
      rcases hf with rfl | rfl | rfl | rfl <;> dsimp only at h <;>
        obtain ⟨x, hx, rfl⟩ := Option.map_eq_some'.1 h
      · exact hP
      · exact hP
      · cases hx; exact keysUnique_decodeAny v
      · exact hP)
  exact ⟨hc, hP⟩

/-- A decoded `TransformOrRef` that is not an empty reference has the shape the round trip needs. -/
theorem TransformOrRef.wf_of_unmarshalJSON {b : JValue} {t : TransformOrRef}
    (h : TransformOrRef.unmarshalJSON b = some t) (hc : t.Clean) : t.Wf := by
  obtain ⟨raw, hraw, ⟨refRaw, ref, -, -, rfl⟩ | ⟨hnone, tr, htr, rfl⟩⟩ :=
    TransformOrRef.unmarshalJSON_eq_some.1 h
  · -- a reference: only `x-` members are kept beside `$ref`
    refine .inl ⟨hc.resolve_right (fun ⟨_, h, _⟩ => nomatch h), fun k hk => ?_⟩
    have hl := lookup_refExtensionsOf raw k
    cases hp : hasPrefix k "x-"
    · rw [hp, if_neg Bool.false_ne_true] at hl
      exact absurd hk (lookup_eq_none_iff.1 hl)
    · rfl
  · -- an inline transform: the input has no `$ref` member, so neither have the kept members
    obtain ⟨tr', htr', hna⟩ := hc.resolve_left (not_not.2 rfl)
    cases htr'
    refine .inr ⟨rfl, tr, rfl, hna, ?_⟩
    obtain ⟨raw', w, hraw', -, rfl⟩ := unmarshalTyped_eq_some.1 htr
    obtain rfl : raw' = raw := Option.some.inj (hraw'.symm.trans hraw)
    have hr : lookup raw'.reverse "$ref" = none := by
      rw [lookup_reverse (rawObject_eq_some hraw).1]
      exact hnone
    obtain ⟨h1, h2⟩ := lookup_splitLossless raw' knownTransformSet "$ref"
    rw [hr, ite_self] at h1 h2
    simp only [List.mem_append, not_or]
    exact ⟨lookup_eq_none_iff.1 h2, lookup_eq_none_iff.1 h1⟩

theorem BindingEntry.wf_of_unmarshalJSON {b : JValue} {be : BindingEntry}
    (h : BindingEntry.unmarshalJSON b = some be) (hc : be.Clean) : be.Wf := by
  obtain ⟨raw, w, -, hw, rfl⟩ := unmarshalTyped_eq_some.1 h
  have hQ : ∀ v (t : TransformOrRef), TransformOrRef.unmarshalJSON v = some t → t.Clean → t.Wf :=
    fun _ _ h => TransformOrRef.wf_of_unmarshalJSON h
  have hP := decodeStruct_inv (fun w : BindingEntryWire =>
      (∀ t ∈ w.inputTransform, t.Clean → t.Wf) ∧ (∀ t ∈ w.outputTransform, t.Clean → t.Wf)) hw
    ⟨fun t h => (Option.not_mem_none t h).elim, fun t h => (Option.not_mem_none t h).elim⟩
    (by
      intro f hf w v w' hP h
      simp only [bindingEntryWireFields, List.mem_cons, List.mem_nil_iff, or_false] at hf
      rcases hf with rfl | rfl | rfl | rfl | rfl | rfl | rfl | rfl <;> dsimp only at h <;>
        obtain ⟨x, hx, rfl⟩ := Option.map_eq_some'.1 h
      all_goals first | exact hP | skip
      · exact ⟨decodePtr_inv hQ hx, hP.2⟩
      · exact ⟨hP.1, decodePtr_inv hQ hx⟩)
  exact ⟨hc.noAlias, fun t ht => hP.1 t ht (hc.inputTransform t ht),
    fun t ht => hP.2 t ht (hc.outputTransform t ht)⟩

/-- What decoding ensures of an `operationWire`. -/
structure OperationWire.Decoded (w : OperationWire) : Prop where
  input : ∀ m ∈ w.input, (JValue.obj m).KeysUnique
  output : ∀ m ∈ w.output, (JValue.obj m).KeysUnique
  payload : ∀ m ∈ w.payload, (JValue.obj m).KeysUnique
  examples : ∀ m ∈ w.examples, (m.map Prod.fst).Nodup ∧
    ∀ kv ∈ m, kv.2.toLosslessFields.NoAlias knownOperationExampleSet → kv.2.Wf

/-- Decoding an `operationWire` member by member keeps what `OperationWire.Decoded` says. -/
theorem OperationWire.decoded_of_decodeStruct {b : JValue} {w : OperationWire}
    (hw : decodeStruct operationWireFields {} b = some w) : w.Decoded := by
  have hQ : ∀ v (e : OperationExample), OperationExample.unmarshalJSON v = some e →
      e.toLosslessFields.NoAlias knownOperationExampleSet → e.Wf :=
    fun _ _ h => OperationExample.wf_of_unmarshalJSON h
  refine decodeStruct_inv OperationWire.Decoded hw
    ⟨fun m h => (Option.not_mem_none m h).elim, fun m h => (Option.not_mem_none m h).elim,
      fun m h => (Option.not_mem_none m h).elim, fun m h => (Option.not_mem_none m h).elim⟩ ?_
  intro f hf w v w' hP h
  simp only [operationWireFields, List.mem_cons, List.mem_nil_iff, or_false] at hf
  rcases hf with rfl | rfl | rfl | rfl | rfl | rfl | rfl | rfl | rfl | rfl | rfl <;>
    dsimp only at h <;> obtain ⟨x, hx, rfl⟩ := Option.map_eq_some'.1 h
  all_goals first | exact ⟨hP.input, hP.output, hP.payload, hP.examples⟩ | skip
  · exact { hP with input := keysUnique_decodeAnyMap hP.input hx }
  · exact { hP with output := keysUnique_decodeAnyMap hP.output hx }
  · exact { hP with payload := keysUnique_decodeAnyMap hP.payload hx }
  · exact { hP with examples := decodeMap_inv hQ hP.examples hx }

theorem Operation.wf_of_unmarshalJSON {b : JValue} {o : Operation}
    (h : Operation.unmarshalJSON b = some o) (hc : o.Clean) : o.Wf := by
  obtain ⟨raw, w, -, hw, rfl⟩ := unmarshalTyped_eq_some.1 h
  have hP := OperationWire.decoded_of_decodeStruct hw
  exact ⟨hc.noAlias, hc.satisfies, hP.input, hP.output, hP.payload,
    fun m hm => (hP.examples m hm).1,
    fun m hm kv hkv => (hP.examples m hm).2 kv hkv (hc.examples m hm kv hkv)⟩

/-- What decoding ensures of an `interfaceWire`. -/
structure InterfaceWire.Decoded (w : InterfaceWire) : Prop where
  contact : ∀ m ∈ w.contact, (JValue.obj m).KeysUnique
  license : ∀ m ∈ w.license, (JValue.obj m).KeysUnique
  schemas : ∀ m ∈ w.schemas, (m.map Prod.fst).Nodup ∧
    ∀ kv ∈ m, ∀ o ∈ kv.2, (JValue.obj o).KeysUnique
  operations : ∀ m ∈ w.operations, (m.map Prod.fst).Nodup ∧ ∀ kv ∈ m, kv.2.Clean → kv.2.Wf
  imports : ∀ m ∈ w.imports, (m.map Prod.fst).Nodup
  sources : ∀ m ∈ w.sources, (m.map Prod.fst).Nodup ∧
    ∀ kv ∈ m, kv.2.toLosslessFields.NoAlias knownSourceSet → kv.2.Wf
  bindings : ∀ m ∈ w.bindings, (m.map Prod.fst).Nodup ∧ ∀ kv ∈ m, kv.2.Clean → kv.2.Wf
  transforms : ∀ m ∈ w.transforms, (m.map Prod.fst).Nodup

/-- Decoding an `interfaceWire` member by member keeps what `InterfaceWire.Decoded` says. -/
theorem InterfaceWire.decoded_of_decodeStruct {b : JValue} {w : InterfaceWire}
    (hw : decodeStruct interfaceWireFields {} b = some w) : w.Decoded := by
  refine decodeStruct_inv InterfaceWire.Decoded hw
    ⟨fun m h => (Option.not_mem_none m h).elim, fun m h => (Option.not_mem_none m h).elim,
      fun m h => (Option.not_mem_none m h).elim, fun m h => (Option.not_mem_none m h).elim,
      fun m h => (Option.not_mem_none m h).elim, fun m h => (Option.not_mem_none m h).elim,
      fun m h => (Option.not_mem_none m h).elim, fun m h => (Option.not_mem_none m h).elim⟩ ?_
  intro f hf w v w' hP h
  simp only [interfaceWireFields, List.mem_cons, List.mem_nil_iff, or_false] at hf
  rcases hf with rfl | rfl | rfl | rfl | rfl | rfl | rfl | rfl | rfl | rfl | rfl | rfl <;>
    dsimp only at h <;> obtain ⟨x, hx, rfl⟩ := Option.map_eq_some'.1 h
  all_goals first
    | exact ⟨hP.contact, hP.license, hP.schemas, hP.operations, hP.imports, hP.sources,
        hP.bindings, hP.transforms⟩
    | skip
  · exact { hP with contact := keysUnique_decodeAnyMap hP.contact hx }
  · exact { hP with license := keysUnique_decodeAnyMap hP.license hx }
  · exact { hP with
      schemas := decodeMap_inv (fun _ _ h => keysUnique_decodeAnyMap (fun o h => (Option.not_mem_none o h).elim) h)
        hP.schemas hx }
  · exact { hP with
      operations := decodeMap_inv (fun _ _ h => Operation.wf_of_unmarshalJSON h) hP.operations hx }
  · exact { hP with imports := decodeMap_nodup hP.imports hx }
  · exact { hP with
      sources := decodeMap_inv (fun _ _ h => Source.wf_of_unmarshalJSON h) hP.sources hx }
  · exact { hP with
      bindings := decodeMap_inv (fun _ _ h => BindingEntry.wf_of_unmarshalJSON h) hP.bindings hx }
  · exact { hP with transforms := decodeMap_nodup hP.transforms hx }

/-- Every document that `UnmarshalJSON` decodes from an input whose kept members alias no field
and whose bindings have no empty `$ref` has the shape the round trip needs. -/
theorem Interface.wf_of_unmarshalJSON_clean {b : JValue} {i : Interface}
    (h : Interface.unmarshalJSON b = some i) (hc : i.Clean) : i.Wf := by
  obtain ⟨raw, w, -, hw, rfl⟩ := unmarshalTyped_eq_some.1 h
  have hP := InterfaceWire.decoded_of_decodeStruct hw
  exact ⟨hc.noAlias, hP.contact, hP.license, fun m hm => (hP.schemas m hm).1,
    fun m hm => (hP.schemas m hm).2, fun m hm => (hP.operations m hm).1,
    fun m hm kv hkv => (hP.operations m hm).2 kv hkv (hc.operations m hm kv hkv), hP.imports,
    fun m hm => (hP.sources m hm).1,
    fun m hm kv hkv => (hP.sources m hm).2 kv hkv (hc.sources m hm kv hkv),
    fun m hm => (hP.bindings m hm).1,
    fun m hm kv hkv => (hP.bindings m hm).2 kv hkv (hc.bindings m hm kv hkv), hP.transforms,
    hc.transforms⟩

/-- A document with an operation, a binding whose input transform is a reference, and an
extension decodes to a value of that shape. -/
theorem Interface.wf_of_unmarshalJSON_getUser :
    Interface.unmarshalJSON (.obj [("openbindings", .str "0.1.0"),
        ("operations", .obj [("getUser", .obj [("kind", .str "method")])]),
        ("bindings", .obj [("b", .obj [("operation", .str "getUser"), ("source", .str "api"),
          ("inputTransform", .obj [("$ref", .str "#/transforms/t")])])]),
        ("x-a", .bool true)]) =
      some { openBindings := "0.1.0", operations := some [("getUser", { kind := "method" })],
             bindings := some [("b",
               { operation := "getUser", source := "api",
                 inputTransform := some { ref := "#/transforms/t" } })],
             extensions := [("x-a", .bool true)] } ∧
    Interface.Clean { openBindings := "0.1.0", operations := some [("getUser", { kind := "method" })],
                      bindings := some [("b",
                        { operation := "getUser", source := "api",
                          inputTransform := some { ref := "#/transforms/t" } })],
                      extensions := [("x-a", .bool true)] } ∧
    Interface.Wf { openBindings := "0.1.0", operations := some [("getUser", { kind := "method" })],
                   bindings := some [("b",
                     { operation := "getUser", source := "api",
                       inputTransform := some { ref := "#/transforms/t" } })],
                   extensions := [("x-a", .bool true)] } :=
  have h : Interface.unmarshalJSON (.obj [("openbindings", .str "0.1.0"),
      ("operations", .obj [("getUser", .obj [("kind", .str "method")])]),
      ("bindings", .obj [("b", .obj [("operation", .str "getUser"), ("source", .str "api"),
        ("inputTransform", .obj [("$ref", .str "#/transforms/t")])])]),
      ("x-a", .bool true)]) =
      some { openBindings := "0.1.0", operations := some [("getUser", { kind := "method" })],
             bindings := some [("b",
               { operation := "getUser", source := "api",
                 inputTransform := some { ref := "#/transforms/t" } })],
             extensions := [("x-a", .bool true)] } := by decide
  have hc : Interface.Clean
      { openBindings := "0.1.0", operations := some [("getUser", { kind := "method" })],
        bindings := some [("b",
          { operation := "getUser", source := "api",
            inputTransform := some { ref := "#/transforms/t" } })],
        extensions := [("x-a", .bool true)] } :=
    { noAlias := by decide
      operations := by
        simp only [Option.mem_def, Option.some.injEq, forall_eq', List.mem_singleton, forall_eq]
        exact ⟨by decide, by simp, fun m h => (Option.not_mem_none m h).elim⟩
      sources := fun m h => (Option.not_mem_none m h).elim
      bindings := by
        simp only [Option.mem_def, Option.some.injEq, forall_eq', List.mem_singleton, forall_eq]
        exact ⟨by decide, by simp only [Option.mem_def, Option.some.injEq, forall_eq']; exact .inl (by decide),
          fun m h => (Option.not_mem_none m h).elim⟩
      transforms := fun m h => (Option.not_mem_none m h).elim }
  ⟨h, hc, Interface.wf_of_unmarshalJSON_clean h hc⟩

end OpenBindings.Lossless
