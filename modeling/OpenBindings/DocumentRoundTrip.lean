import OpenBindings.LosslessRoundTrip

/-! # Each document type round-trips

Every document type of `types.go`, encoded with `MarshalJSON` and decoded with `UnmarshalJSON`,
comes back as a value that `MarshalJSON` writes as before (`RoundTrips`), provided it is the
kind of value decoding produces from an input that aliases no field:

* no kept member's name folds to a known name (`LosslessFields.NoAlias`);
* the values held as `any`, and `JSONSchema` maps, repeat no name in any object, and maps of
  typed values hold each key once, as Go values do;
* each `TransformOrRef` is a reference with only `x-` members beside it, or an inline transform
  with no `$ref` member. `{"$ref": ""}` decodes to a reference with an empty `Ref`, which
  `MarshalJSON` writes as `null`, and `null` decodes to a `nil` pointer.

For each wire struct: its encoding, sorted by name, is its fields' encodings in name order
(`sortMembers_encode`); decoding that sets each field from its own member
(`foldlM_storeMember_write`), and each field type round-trips (`FieldRoundTrips`). The kept
members are handled once for all types by `roundTrips_unmarshalTyped`. -/

namespace OpenBindings.Lossless

open GoJson
open SchemaProfile (hasPrefix)

/-! ### `Satisfies` and `Transform` -/

theorem SatisfiesWire.decode_encode (w : SatisfiesWire) :
    decodeStruct satisfiesWireFields {} (.obj (sortMembers w.encode)) = some w := by
  rw [sortMembers_of_sorted (sorted_of_keys_sublist (by decide) w.keys_encode).1]
  rfl

theorem Satisfies.roundTrips {s : Satisfies} (hs : s.toLosslessFields.NoAlias knownSatisfiesSet) :
    RoundTrips Satisfies.unmarshalJSON Satisfies.marshalJSON s :=
  roundTrips_unmarshalTyped Satisfies.mk Satisfies.toSatisfiesWire Satisfies.toLosslessFields
    SatisfiesWire.encode (by rfl) (by decide) SatisfiesWire.keys_encode (fun _ _ => rfl) (fun _ _ => rfl)
    hs ⟨_, SatisfiesWire.decode_encode _, rfl⟩

theorem TransformWire.sortMembers_encode (w : TransformWire) :
    sortMembers w.encode = [("expression", .str w.expression), ("type", .str w.type)] :=
  sortMembers_eq_of_keys_sublist ["expression", "type"] (by decide) (List.Perm.swap _ _ _)
    (List.Sublist.refl _)

theorem TransformWire.decode_encode (w : TransformWire) :
    decodeStruct transformWireFields {} (.obj (sortMembers w.encode)) = some w := by
  rw [sortMembers_encode]
  rfl

theorem Transform.roundTrips {t : Transform} (ht : t.toLosslessFields.NoAlias knownTransformSet) :
    RoundTrips Transform.unmarshalJSON Transform.marshalJSON t :=
  roundTrips_unmarshalTyped Transform.mk Transform.toTransformWire Transform.toLosslessFields
    TransformWire.encode (by rfl) (by decide) TransformWire.keys_encode (fun _ _ => rfl) (fun _ _ => rfl)
    ht ⟨_, TransformWire.decode_encode _, rfl⟩

/-! ### `OperationExample` and `Source` -/

/-- An `OperationExample` as decoding leaves it when no member aliases a field. -/
structure OperationExample.Wf (e : OperationExample) : Prop where
  noAlias : e.toLosslessFields.NoAlias knownOperationExampleSet
  input : e.input.KeysUnique
  output : e.output.KeysUnique
  payload : e.payload.KeysUnique

theorem OperationExampleWire.decode_encode {w : OperationExampleWire} (hi : w.input.KeysUnique)
    (ho : w.output.KeysUnique) (hp : w.payload.KeysUnique) :
    ∃ w', decodeStruct operationExampleWireFields {} (.obj (sortMembers w.encode)) = some w' ∧
      w'.encode = w.encode := by
  obtain ⟨d, hd, hd'⟩ := fieldRoundTrips_omitString "description" w.description
  obtain ⟨i, hi, hi'⟩ := fieldRoundTrips_omitAny "input" hi
  obtain ⟨o, ho, ho'⟩ := fieldRoundTrips_omitAny "output" ho
  obtain ⟨p, hp, hp'⟩ := fieldRoundTrips_omitAny "payload" hp
  refine ⟨⟨d, i, o, p⟩, ?_, by simp only [encode, hd', hi', ho', hp']⟩
  rw [sortMembers_of_sorted (sorted_of_keys_sublist (by decide) w.keys_encode).1]
  exact foldlM_append_of_eq_some (foldlM_append_of_eq_some (foldlM_append_of_eq_some
    (foldlM_storeMember_write (keys_omitString _ _) hd OperationExampleWire.description
      (fun w y => { w with description := y }) (fun _ _ => by rfl) (fun _ => by rfl) (by rfl))
    (foldlM_storeMember_write (keys_omitAny _ _) hi OperationExampleWire.input
      (fun w y => { w with input := y }) (fun _ _ => by rfl) (fun _ => by rfl) (by rfl)))
    (foldlM_storeMember_write (keys_omitAny _ _) ho OperationExampleWire.output
      (fun w y => { w with output := y }) (fun _ _ => by rfl) (fun _ => by rfl) (by rfl)))
    (foldlM_storeMember_write (keys_omitAny _ _) hp OperationExampleWire.payload
      (fun w y => { w with payload := y }) (fun _ _ => by rfl) (fun _ => by rfl) (by rfl))

theorem OperationExample.roundTrips {e : OperationExample} (he : e.Wf) :
    RoundTrips OperationExample.unmarshalJSON OperationExample.marshalJSON e :=
  roundTrips_unmarshalTyped OperationExample.mk OperationExample.toOperationExampleWire
    OperationExample.toLosslessFields OperationExampleWire.encode (by rfl) (by decide)
    OperationExampleWire.keys_encode (fun _ _ => rfl) (fun _ _ => rfl) he.noAlias
    (OperationExampleWire.decode_encode he.input he.output he.payload)

/-- A `Source` as decoding leaves it when no member aliases a field. -/
structure Source.Wf (s : Source) : Prop where
  noAlias : s.toLosslessFields.NoAlias knownSourceSet
  content : s.content.KeysUnique

theorem SourceWire.sortMembers_encode (w : SourceWire) :
    sortMembers w.encode = omitAny "content" w.content ++ omitString "description" w.description ++
      [("format", .str w.format)] ++ omitString "location" w.location :=
  sortMembers_eq_of_keys_sublist ["content", "description", "format", "location"] (by decide)
    (List.perm_iff_count.2 fun _ => by simp only [encode, List.count_append]; omega)
    (by
      simp only [List.map_append]
      exact (((keys_omitAny _ _).append (keys_omitString _ _)).append (List.Sublist.refl _)).append
        (keys_omitString _ _))

theorem SourceWire.decode_encode {w : SourceWire} (hc : w.content.KeysUnique) :
    ∃ w', decodeStruct sourceWireFields {} (.obj (sortMembers w.encode)) = some w' ∧
      w'.encode = w.encode := by
  obtain ⟨c, hc, hc'⟩ := fieldRoundTrips_omitAny "content" hc
  obtain ⟨d, hd, hd'⟩ := fieldRoundTrips_omitString "description" w.description
  obtain ⟨l, hl, hl'⟩ := fieldRoundTrips_omitString "location" w.location
  refine ⟨⟨w.format, l, c, d⟩, ?_, by simp only [encode, hc', hd', hl']⟩
  rw [sortMembers_encode]
  exact foldlM_append_of_eq_some (foldlM_append_of_eq_some (foldlM_append_of_eq_some
    (foldlM_storeMember_write (keys_omitAny _ _) hc SourceWire.content
      (fun w y => { w with content := y }) (fun _ _ => by rfl) (fun _ => by rfl) (by rfl))
    (foldlM_storeMember_write (keys_omitString _ _) hd SourceWire.description
      (fun w y => { w with description := y }) (fun _ _ => by rfl) (fun _ => by rfl) (by rfl)))
    (foldlM_storeMember_write (keys_singleton _ _) (foldlM_decodeString_str _ _ _)
      SourceWire.format
      (fun w y => { w with format := y }) (fun _ _ => by rfl) (fun _ => by rfl) (by rfl)))
    (foldlM_storeMember_write (keys_omitString _ _) hl SourceWire.location
      (fun w y => { w with location := y }) (fun _ _ => by rfl) (fun _ => by rfl) (by rfl))

theorem Source.roundTrips {s : Source} (hs : s.Wf) :
    RoundTrips Source.unmarshalJSON Source.marshalJSON s :=
  roundTrips_unmarshalTyped Source.mk Source.toSourceWire Source.toLosslessFields SourceWire.encode
    (by rfl) (by decide) SourceWire.keys_encode (fun _ _ => rfl) (fun _ _ => rfl) hs.noAlias
    (SourceWire.decode_encode hs.content)

/-! ### `TransformOrRef` -/

/-- The members kept beside `$ref` answer an `x-` name with its last raw member, and no other
name. -/
theorem lookup_refExtensionsOf (raw : JObj) (k : String) :
    lookup (refExtensionsOf raw) k = if hasPrefix k "x-" = true then lookup raw.reverse k else none := by
  suffices ∀ acc, lookup (raw.foldl keepRefExtension acc) k =
      (if hasPrefix k "x-" = true then lookup raw.reverse k else none).or (lookup acc k) by
    simpa using this []
  induction raw with
  | nil => intro acc; simp
  | cons kv rest ih =>
    intro acc
    obtain ⟨k', v'⟩ := kv
    rw [List.foldl_cons, ih, List.reverse_cons, lookup_append, keepRefExtension]
    by_cases hk : k' = k
    · subst hk
      by_cases hr : k' = "$ref"
      · subst hr; simp [lookup_cons]; rfl
      · cases hx : hasPrefix k' "x-" <;> simp [hr, hx, lookup_cons, Option.or_assoc]
    · have hk' : lookup [(k', v')] k = none := by simp [lookup_cons, hk]
      split_ifs <;> simp [hk', lookup_setField_ne _ _ hk]

theorem nodup_refExtensionsOf (raw : JObj) : ((refExtensionsOf raw).map Prod.fst).Nodup := by
  suffices ∀ acc : JObj, (acc.map Prod.fst).Nodup →
      ((raw.foldl keepRefExtension acc).map Prod.fst).Nodup from this [] List.nodup_nil
  induction raw with
  | nil => exact fun _ h => h
  | cons kv rest ih =>
    intro acc h
    apply ih
    unfold keepRefExtension
    split_ifs
    · exact h
    · exact nodup_keys_setField _ _ h
    · exact h

/-- What a successful `TransformOrRef` decoding is made of: a reference when the raw members have
`$ref`, an inline transform otherwise. -/
theorem TransformOrRef.unmarshalJSON_eq_some {b : JValue} {t : TransformOrRef} :
    TransformOrRef.unmarshalJSON b = some t ↔ ∃ raw, rawObject b = some raw ∧
      ((∃ refRaw ref, lookup raw "$ref" = some refRaw ∧ decodeString "" refRaw = some ref ∧
          { ref := ref, refExtensions := refExtensionsOf raw } = t) ∨
        (lookup raw "$ref" = none ∧ ∃ tr, Transform.unmarshalJSON b = some tr ∧
          { transform := some tr } = t)) := by
  unfold TransformOrRef.unmarshalJSON
  cases hraw : rawObject b with
  | none => simp only [Option.bind_eq_bind, Option.none_bind, reduceCtorEq, false_and, exists_false]
  | some raw =>
    simp only [Option.bind_eq_bind, Option.some_bind, Option.some.injEq, exists_eq_left']
    cases hr : lookup raw "$ref" with
    | none =>
      simp only [Option.map_eq_some', reduceCtorEq, false_and, exists_false, true_and, false_or]
    | some refRaw =>
      simp only [Option.bind_eq_some, Option.some.injEq, exists_eq_left', reduceCtorEq, false_and,
        or_false, pure, exists_and_left]

/-- A decoded object with a `$ref` member is a reference, and one whose `$ref` is empty or
`null` is written as `null`. -/
theorem TransformOrRef.marshalJSON_eq_null {b : JValue} {t : TransformOrRef}
    (h : TransformOrRef.unmarshalJSON b = some t) (hr : "$ref" ∈ (members b).map Prod.fst)
    (he : t.ref = "") : t.marshalJSON = .null := by
  obtain ⟨raw, hraw, ⟨refRaw, ref, -, -, rfl⟩ | ⟨hnone, -⟩⟩ := TransformOrRef.unmarshalJSON_eq_some.1 h
  · simp only at he
    simp [TransformOrRef.marshalJSON, he]
  · rw [(rawObject_eq_some hraw).2, lookup_eq_none_iff] at hnone
    exact absurd (by simpa using hr) hnone

/- `{"$ref": null, "x-n": true}` decodes to a reference with an empty `Ref`, written as `null`. -/
example :
    TransformOrRef.unmarshalJSON (.obj [("$ref", .null), ("x-n", .bool true)]) =
        some { refExtensions := [("x-n", .bool true)] } ∧
      "$ref" ∈ (members (.obj [("$ref", .null), ("x-n", .bool true)])).map Prod.fst ∧
      ({ refExtensions := [("x-n", .bool true)] } : TransformOrRef).ref = "" ∧
      TransformOrRef.marshalJSON { refExtensions := [("x-n", .bool true)] } = .null :=
  have h : TransformOrRef.unmarshalJSON (.obj [("$ref", .null), ("x-n", .bool true)]) =
      some { refExtensions := [("x-n", .bool true)] } := by decide
  ⟨h, by decide, rfl, TransformOrRef.marshalJSON_eq_null h (by decide) rfl⟩

/-- The object a reference is written as: its `x-` members with `$ref` set. -/
theorem TransformOrRef.lookup_marshalJSON_of_ref {t : TransformOrRef} (hr : t.ref ≠ "")
    (k : String) :
    lookup (members t.marshalJSON) k =
      if k = "$ref" then some (.str t.ref) else lookup t.refExtensions.reverse k := by
  rw [TransformOrRef.marshalJSON, if_pos hr, members, lookup_sortMembers
    (nodup_keys_setField _ _ (@nodup_keys_foldl_setField _ [] List.nodup_nil))]
  by_cases hk : k = "$ref"
  · subst hk; simp
  · rw [lookup_setField_ne _ _ (Ne.symm hk), lookup_foldl_setField, lookup_nil, Option.or_none,
      if_neg hk]

/-- A decoded reference is written as its `$ref` and the input's `x-` members, each with its last
value, and nothing else. -/
theorem TransformOrRef.lookup_marshalJSON {b : JValue} {t : TransformOrRef}
    (h : TransformOrRef.unmarshalJSON b = some t) (hr : t.ref ≠ "") (k : String) :
    lookup (members t.marshalJSON) k =
      if k = "$ref" then some (.str t.ref)
      else if hasPrefix k "x-" = true then lookup (members b).reverse k else none := by
  obtain ⟨raw, hraw, ⟨refRaw, ref, -, -, rfl⟩ | ⟨-, tr, -, rfl⟩⟩ :=
    TransformOrRef.unmarshalJSON_eq_some.1 h
  · obtain ⟨hn, hl⟩ := rawObject_eq_some hraw
    rw [TransformOrRef.lookup_marshalJSON_of_ref hr, lookup_reverse (nodup_refExtensionsOf raw),
      lookup_refExtensionsOf, lookup_reverse hn, hl]
  · exact absurd rfl hr

/-- A member `type` beside a `$ref` is not written back. -/
theorem TransformOrRef.lookup_marshalJSON_type :
    TransformOrRef.unmarshalJSON
        (.obj [("$ref", .str "#/transforms/t"), ("type", .str "jsonata"), ("x-n", .null)]) =
        some { ref := "#/transforms/t", refExtensions := [("x-n", .null)] } ∧
      ({ ref := "#/transforms/t", refExtensions := [("x-n", .null)] } : TransformOrRef).ref ≠ "" ∧
      lookup (members (TransformOrRef.marshalJSON
        { ref := "#/transforms/t", refExtensions := [("x-n", .null)] })) "type" = none :=
  have h : TransformOrRef.unmarshalJSON
      (.obj [("$ref", .str "#/transforms/t"), ("type", .str "jsonata"), ("x-n", .null)]) =
      some { ref := "#/transforms/t", refExtensions := [("x-n", .null)] } := by decide
  ⟨h, by decide, (TransformOrRef.lookup_marshalJSON h (by decide) "type").trans (by decide)⟩

/-- A `TransformOrRef` as decoding leaves it from an input that aliases no field and has no empty
`$ref`: a reference with only `x-` members beside it, or an inline transform with no `$ref`
member. -/
def TransformOrRef.Wf (t : TransformOrRef) : Prop :=
  (t.ref ≠ "" ∧ ∀ k ∈ t.refExtensions.map Prod.fst, hasPrefix k "x-" = true) ∨
    (t.ref = "" ∧ ∃ tr, t.transform = some tr ∧ tr.toLosslessFields.NoAlias knownTransformSet ∧
      "$ref" ∉ tr.unknown.map Prod.fst ++ tr.extensions.map Prod.fst)

theorem TransformOrRef.marshalJSON_ne_null {t : TransformOrRef} (ht : t.Wf) :
    t.marshalJSON ≠ .null := by
  rcases ht with ⟨hr, -⟩ | ⟨hr, tr, htr, -⟩
  · simp [TransformOrRef.marshalJSON, hr]
  · simp [TransformOrRef.marshalJSON, hr, htr, Transform.marshalJSON, marshalLossless]

theorem TransformOrRef.roundTrips {t : TransformOrRef} (ht : t.Wf) :
    RoundTrips TransformOrRef.unmarshalJSON TransformOrRef.marshalJSON t := by
  rcases ht with ⟨hr, hx⟩ | ⟨hr, tr, htr, hna, href⟩
  · -- a reference: `$ref` is read back and the `x-` members are kept again
    have hn : ((sortMembers (setField (t.refExtensions.foldl (fun o kv => setField o kv.1 kv.2) [])
        "$ref" (.str t.ref))).map Prod.fst).Nodup :=
      nodup_keys_sortMembers (nodup_keys_setField _ _ (@nodup_keys_foldl_setField _ [] List.nodup_nil))
    have hlook : ∀ k, lookup (rawMap (members t.marshalJSON)) k = lookup (members t.marshalJSON) k :=
      fun k => by
        rw [lookup_rawMap, lookup_reverse (by simpa [TransformOrRef.marshalJSON, hr] using hn)]
    have hraw : rawObject t.marshalJSON = some (rawMap (members t.marshalJSON)) := by
      simp [TransformOrRef.marshalJSON, hr, rawObject, members]
    refine ⟨{ ref := t.ref, refExtensions := refExtensionsOf (rawMap (members t.marshalJSON)) },
      ?_, ?_⟩
    · rw [TransformOrRef.unmarshalJSON, hraw]
      simp only [Option.bind_eq_bind, Option.some_bind]
      rw [hlook, TransformOrRef.lookup_marshalJSON_of_ref hr, if_pos rfl]
      rfl
    · have hRn := nodup_keys_rawMap (members t.marshalJSON)
      generalize rawMap (members t.marshalJSON) = R at hlook hRn
      simp only [TransformOrRef.marshalJSON, if_pos hr]
      refine congrArg JValue.obj (sortMembers_eq_of_lookup
        (nodup_keys_setField _ _ (@nodup_keys_foldl_setField _ [] List.nodup_nil))
        (nodup_keys_setField _ _ (@nodup_keys_foldl_setField _ [] List.nodup_nil)) fun k => ?_)
      by_cases hk : k = "$ref"
      · subst hk; simp
      · rw [lookup_setField_ne _ _ (Ne.symm hk), lookup_setField_ne _ _ (Ne.symm hk),
          lookup_foldl_setField, lookup_foldl_setField, lookup_nil, Option.or_none, Option.or_none,
          lookup_reverse (nodup_refExtensionsOf _), lookup_refExtensionsOf, lookup_reverse hRn, hlook,
          TransformOrRef.lookup_marshalJSON_of_ref hr, if_neg hk]
        cases hp : hasPrefix k "x-"
        · refine (lookup_eq_none_iff.2 fun hm => ?_).symm
          rw [List.map_reverse, List.mem_reverse] at hm
          rw [hx k hm] at hp
          exact Bool.noConfusion hp
        · rfl
  · -- an inline transform: no `$ref` member is written, so it is read back as a transform
    obtain ⟨tr', h1, h2⟩ := Transform.roundTrips hna
    have hmt : t.marshalJSON = tr.marshalJSON := by
      rw [TransformOrRef.marshalJSON, if_neg (not_not.2 hr), htr]
    have hnone : lookup (members tr.marshalJSON) "$ref" = none := by
      rw [Transform.marshalJSON, lookup_marshalLossless]
      have ht : lookup tr.toTransformWire.encode.reverse "$ref" = none := rfl
      have he : lookup tr.extensions.reverse "$ref" = none :=
        lookup_eq_none_iff.2 fun hm => href (by simp_all)
      have hu : lookup tr.unknown.reverse "$ref" = none :=
        lookup_eq_none_iff.2 fun hm => href (by simp_all)
      rw [ht, he, hu]
      rfl
    have hraw : rawObject tr.marshalJSON = some (rawMap (members tr.marshalJSON)) := by
      simp [Transform.marshalJSON, marshalLossless, rawObject, members]
    refine ⟨{ transform := some tr' }, ?_, by rw [hmt, ← h2]; rfl⟩
    rw [hmt, TransformOrRef.unmarshalJSON, hraw]
    simp only [Option.bind_eq_bind, Option.some_bind]
    rw [lookup_rawMap, lookup_reverse (show ((members tr.marshalJSON).map Prod.fst).Nodup from
      nodup_keys_marshalLossless _ _ _), hnone, h1]
    rfl

/-! ### `BindingEntry` -/

/-- A `BindingEntry` as decoding leaves it from an input that aliases no field and has no empty
`$ref` in its transforms. -/
structure BindingEntry.Wf (be : BindingEntry) : Prop where
  noAlias : be.toLosslessFields.NoAlias knownBindingEntrySet
  inputTransform : ∀ t ∈ be.inputTransform, t.Wf
  outputTransform : ∀ t ∈ be.outputTransform, t.Wf

theorem BindingEntryWire.sortMembers_encode (w : BindingEntryWire) :
    sortMembers w.encode = omitBool "deprecated" w.deprecated ++
      omitString "description" w.description ++
      omitPtr "inputTransform" TransformOrRef.marshalJSON w.inputTransform ++
      [("operation", .str w.operation)] ++
      omitPtr "outputTransform" TransformOrRef.marshalJSON w.outputTransform ++
      omitPtrFloat "priority" w.priority ++ omitString "ref" w.ref ++ [("source", .str w.source)] :=
  sortMembers_eq_of_keys_sublist ["deprecated", "description", "inputTransform", "operation",
      "outputTransform", "priority", "ref", "source"] (by decide)
    (List.perm_iff_count.2 fun _ => by
      simp only [encode, List.count_append, List.count_cons, List.count_nil]; omega)
    (by
      simp only [List.map_append]
      exact ((((((((keys_omitBool _ _).append (keys_omitString _ _)).append
        (keys_omitPtr _ _ _)).append (keys_singleton _ _)).append (keys_omitPtr _ _ _)).append
        (keys_omitPtrFloat _ _)).append (keys_omitString _ _)).append (keys_singleton _ _)))

/-- A transform field that holds a round-tripping `TransformOrRef` round-trips. -/
theorem fieldRoundTrips_transform (name : String) {x : Option TransformOrRef}
    (h : ∀ t ∈ x, t.Wf) :
    FieldRoundTrips (omitPtr name TransformOrRef.marshalJSON)
      (decodePtr TransformOrRef.unmarshalJSON) none x :=
  fieldRoundTrips_omitPtr name fun t ht =>
    ⟨TransformOrRef.roundTrips (h t ht), TransformOrRef.marshalJSON_ne_null (h t ht)⟩

theorem BindingEntryWire.decode_encode {w : BindingEntryWire} (hi : ∀ t ∈ w.inputTransform, t.Wf)
    (ho : ∀ t ∈ w.outputTransform, t.Wf) :
    ∃ w', decodeStruct bindingEntryWireFields {} (.obj (sortMembers w.encode)) = some w' ∧
      w'.encode = w.encode := by
  obtain ⟨dep, hdep, hdep'⟩ := fieldRoundTrips_omitBool "deprecated" w.deprecated
  obtain ⟨d, hd, hd'⟩ := fieldRoundTrips_omitString "description" w.description
  obtain ⟨i, hi, hi'⟩ := fieldRoundTrips_transform "inputTransform" hi
  obtain ⟨o, ho, ho'⟩ := fieldRoundTrips_transform "outputTransform" ho
  obtain ⟨p, hp, hp'⟩ := fieldRoundTrips_omitPtrFloat "priority" w.priority
  obtain ⟨r, hr, hr'⟩ := fieldRoundTrips_omitString "ref" w.ref
  refine ⟨⟨w.operation, w.source, r, p, d, dep, i, o⟩, ?_,
    by simp only [encode, hdep', hd', hi', ho', hp', hr']⟩
  rw [sortMembers_encode]
  exact foldlM_append_of_eq_some (foldlM_append_of_eq_some (foldlM_append_of_eq_some
    (foldlM_append_of_eq_some (foldlM_append_of_eq_some (foldlM_append_of_eq_some
    (foldlM_append_of_eq_some
    (foldlM_storeMember_write (keys_omitBool _ _) hdep BindingEntryWire.deprecated
      (fun w y => { w with deprecated := y }) (fun _ _ => by rfl) (fun _ => by rfl) (by rfl))
    (foldlM_storeMember_write (keys_omitString _ _) hd BindingEntryWire.description
      (fun w y => { w with description := y }) (fun _ _ => by rfl) (fun _ => by rfl) (by rfl)))
    (foldlM_storeMember_write (keys_omitPtr _ _ _) hi BindingEntryWire.inputTransform
      (fun w y => { w with inputTransform := y }) (fun _ _ => by rfl) (fun _ => by rfl) (by rfl)))
    (foldlM_storeMember_write (keys_singleton _ _) (foldlM_decodeString_str _ _ _)
      BindingEntryWire.operation (fun w y => { w with operation := y }) (fun _ _ => by rfl)
      (fun _ => by rfl) (by rfl)))
    (foldlM_storeMember_write (keys_omitPtr _ _ _) ho BindingEntryWire.outputTransform
      (fun w y => { w with outputTransform := y }) (fun _ _ => by rfl) (fun _ => by rfl) (by rfl)))
    (foldlM_storeMember_write (keys_omitPtrFloat _ _) hp BindingEntryWire.priority
      (fun w y => { w with priority := y }) (fun _ _ => by rfl) (fun _ => by rfl) (by rfl)))
    (foldlM_storeMember_write (keys_omitString _ _) hr BindingEntryWire.ref
      (fun w y => { w with ref := y }) (fun _ _ => by rfl) (fun _ => by rfl) (by rfl)))
    (foldlM_storeMember_write (keys_singleton _ _) (foldlM_decodeString_str _ _ _)
      BindingEntryWire.source (fun w y => { w with source := y }) (fun _ _ => by rfl)
      (fun _ => by rfl) (by rfl))

theorem BindingEntry.roundTrips {be : BindingEntry} (hbe : be.Wf) :
    RoundTrips BindingEntry.unmarshalJSON BindingEntry.marshalJSON be :=
  roundTrips_unmarshalTyped BindingEntry.mk BindingEntry.toBindingEntryWire
    BindingEntry.toLosslessFields BindingEntryWire.encode (by rfl) (by decide)
    BindingEntryWire.keys_encode (fun _ _ => rfl) (fun _ _ => rfl) hbe.noAlias
    (BindingEntryWire.decode_encode hbe.inputTransform hbe.outputTransform)

/-! ### `Operation` -/

/-- An `Operation` as decoding leaves it from an input that aliases no field. -/
structure Operation.Wf (o : Operation) : Prop where
  noAlias : o.toLosslessFields.NoAlias knownOperationSet
  satisfies : ∀ s ∈ o.satisfies, s.toLosslessFields.NoAlias knownSatisfiesSet
  input : ∀ m ∈ o.input, (JValue.obj m).KeysUnique
  output : ∀ m ∈ o.output, (JValue.obj m).KeysUnique
  payload : ∀ m ∈ o.payload, (JValue.obj m).KeysUnique
  examplesKeys : ∀ m ∈ o.examples, (m.map Prod.fst).Nodup
  examples : ∀ m ∈ o.examples, ∀ kv ∈ m, kv.2.Wf

theorem OperationWire.sortMembers_encode (w : OperationWire) :
    sortMembers w.encode = omitStrings "aliases" w.aliases ++ omitBool "deprecated" w.deprecated ++
      omitString "description" w.description ++
      omitMap "examples" OperationExample.marshalJSON w.examples ++
      omitPtrBool "idempotent" w.idempotent ++ omitAnyMap "input" w.input ++
      [("kind", .str w.kind)] ++ omitAnyMap "output" w.output ++ omitAnyMap "payload" w.payload ++
      omitElems "satisfies" Satisfies.marshalJSON w.satisfies ++ omitStrings "tags" w.tags :=
  sortMembers_eq_of_keys_sublist ["aliases", "deprecated", "description", "examples", "idempotent",
      "input", "kind", "output", "payload", "satisfies", "tags"] (by decide)
    (List.perm_iff_count.2 fun _ => by simp only [encode, List.count_append]; omega)
    (by
      simp only [List.map_append]
      exact (((((((((((keys_omitStrings _ _).append (keys_omitBool _ _)).append
        (keys_omitString _ _)).append (keys_omitMap _ _ _)).append (keys_omitPtrBool _ _)).append
        (keys_omitAnyMap _ _)).append (keys_singleton _ _)).append (keys_omitAnyMap _ _)).append
        (keys_omitAnyMap _ _)).append (keys_omitElems _ _ _)).append (keys_omitStrings _ _)))

theorem OperationWire.decode_encode {w : OperationWire}
    (hs : ∀ s ∈ w.satisfies, s.toLosslessFields.NoAlias knownSatisfiesSet)
    (hi : ∀ m ∈ w.input, (JValue.obj m).KeysUnique) (ho : ∀ m ∈ w.output, (JValue.obj m).KeysUnique)
    (hp : ∀ m ∈ w.payload, (JValue.obj m).KeysUnique)
    (hek : ∀ m ∈ w.examples, (m.map Prod.fst).Nodup) (he : ∀ m ∈ w.examples, ∀ kv ∈ m, kv.2.Wf) :
    ∃ w', decodeStruct operationWireFields {} (.obj (sortMembers w.encode)) = some w' ∧
      w'.encode = w.encode := by
  obtain ⟨a, ha, ha'⟩ := fieldRoundTrips_omitStrings "aliases" w.aliases
  obtain ⟨dep, hdep, hdep'⟩ := fieldRoundTrips_omitBool "deprecated" w.deprecated
  obtain ⟨d, hd, hd'⟩ := fieldRoundTrips_omitString "description" w.description
  obtain ⟨e, he, he'⟩ := fieldRoundTrips_omitMap "examples" hek fun m hm kv hkv =>
    OperationExample.roundTrips (he m hm kv hkv)
  obtain ⟨idem, hidem, hidem'⟩ := fieldRoundTrips_omitPtrBool "idempotent" w.idempotent
  obtain ⟨i, hi, hi'⟩ := fieldRoundTrips_omitAnyMap "input" hi
  obtain ⟨o, ho, ho'⟩ := fieldRoundTrips_omitAnyMap "output" ho
  obtain ⟨p, hp, hp'⟩ := fieldRoundTrips_omitAnyMap "payload" hp
  obtain ⟨s, hs, hs'⟩ := fieldRoundTrips_omitElems "satisfies" fun s hs' =>
    Satisfies.roundTrips (hs s hs')
  obtain ⟨t, ht, ht'⟩ := fieldRoundTrips_omitStrings "tags" w.tags
  refine ⟨⟨w.kind, d, dep, t, a, s, idem, i, o, p, e⟩, ?_,
    by simp only [encode, ha', hdep', hd', he', hidem', hi', ho', hp', hs', ht']⟩
  rw [sortMembers_encode]
  exact foldlM_append_of_eq_some (foldlM_append_of_eq_some (foldlM_append_of_eq_some
    (foldlM_append_of_eq_some (foldlM_append_of_eq_some (foldlM_append_of_eq_some
    (foldlM_append_of_eq_some (foldlM_append_of_eq_some (foldlM_append_of_eq_some
    (foldlM_append_of_eq_some
    (foldlM_storeMember_write (keys_omitStrings _ _) ha OperationWire.aliases
      (fun w y => { w with aliases := y }) (fun _ _ => by rfl) (fun _ => by rfl) (by rfl))
    (foldlM_storeMember_write (keys_omitBool _ _) hdep OperationWire.deprecated
      (fun w y => { w with deprecated := y }) (fun _ _ => by rfl) (fun _ => by rfl) (by rfl)))
    (foldlM_storeMember_write (keys_omitString _ _) hd OperationWire.description
      (fun w y => { w with description := y }) (fun _ _ => by rfl) (fun _ => by rfl) (by rfl)))
    (foldlM_storeMember_write (keys_omitMap _ _ _) he OperationWire.examples
      (fun w y => { w with examples := y }) (fun _ _ => by rfl) (fun _ => by rfl) (by rfl)))
    (foldlM_storeMember_write (keys_omitPtrBool _ _) hidem OperationWire.idempotent
      (fun w y => { w with idempotent := y }) (fun _ _ => by rfl) (fun _ => by rfl) (by rfl)))
    (foldlM_storeMember_write (keys_omitAnyMap _ _) hi OperationWire.input
      (fun w y => { w with input := y }) (fun _ _ => by rfl) (fun _ => by rfl) (by rfl)))
    (foldlM_storeMember_write (keys_singleton _ _) (foldlM_decodeString_str _ _ _)
      OperationWire.kind (fun w y => { w with kind := y }) (fun _ _ => by rfl) (fun _ => by rfl)
      (by rfl)))
    (foldlM_storeMember_write (keys_omitAnyMap _ _) ho OperationWire.output
      (fun w y => { w with output := y }) (fun _ _ => by rfl) (fun _ => by rfl) (by rfl)))
    (foldlM_storeMember_write (keys_omitAnyMap _ _) hp OperationWire.payload
      (fun w y => { w with payload := y }) (fun _ _ => by rfl) (fun _ => by rfl) (by rfl)))
    (foldlM_storeMember_write (keys_omitElems _ _ _) hs OperationWire.satisfies
      (fun w y => { w with satisfies := y }) (fun _ _ => by rfl) (fun _ => by rfl) (by rfl)))
    (foldlM_storeMember_write (keys_omitStrings _ _) ht OperationWire.tags
      (fun w y => { w with tags := y }) (fun _ _ => by rfl) (fun _ => by rfl) (by rfl))

theorem Operation.roundTrips {o : Operation} (ho : o.Wf) :
    RoundTrips Operation.unmarshalJSON Operation.marshalJSON o :=
  roundTrips_unmarshalTyped Operation.mk Operation.toOperationWire Operation.toLosslessFields
    OperationWire.encode (by rfl) (by decide) OperationWire.keys_encode (fun _ _ => rfl)
    (fun _ _ => rfl) ho.noAlias
    (OperationWire.decode_encode ho.satisfies ho.input ho.output ho.payload ho.examplesKeys
      ho.examples)

/-! ### `Interface` -/

/-- An `Interface` as decoding leaves it from an input that aliases no field and has no empty
`$ref` in a binding's transforms. -/
structure Interface.Wf (i : Interface) : Prop where
  noAlias : i.toLosslessFields.NoAlias knownInterfaceSet
  contact : ∀ m ∈ i.contact, (JValue.obj m).KeysUnique
  license : ∀ m ∈ i.license, (JValue.obj m).KeysUnique
  schemasKeys : ∀ m ∈ i.schemas, (m.map Prod.fst).Nodup
  schemas : ∀ m ∈ i.schemas, ∀ kv ∈ m, ∀ o ∈ kv.2, (JValue.obj o).KeysUnique
  operationsKeys : ∀ m ∈ i.operations, (m.map Prod.fst).Nodup
  operations : ∀ m ∈ i.operations, ∀ kv ∈ m, kv.2.Wf
  importsKeys : ∀ m ∈ i.imports, (m.map Prod.fst).Nodup
  sourcesKeys : ∀ m ∈ i.sources, (m.map Prod.fst).Nodup
  sources : ∀ m ∈ i.sources, ∀ kv ∈ m, kv.2.Wf
  bindingsKeys : ∀ m ∈ i.bindings, (m.map Prod.fst).Nodup
  bindings : ∀ m ∈ i.bindings, ∀ kv ∈ m, kv.2.Wf
  transformsKeys : ∀ m ∈ i.transforms, (m.map Prod.fst).Nodup
  transforms : ∀ m ∈ i.transforms, ∀ kv ∈ m, kv.2.toLosslessFields.NoAlias knownTransformSet

theorem InterfaceWire.sortMembers_encode (w : InterfaceWire) :
    sortMembers w.encode = omitMap "bindings" BindingEntry.marshalJSON w.bindings ++
      omitAnyMap "contact" w.contact ++ omitString "description" w.description ++
      omitMap "imports" JValue.str w.imports ++ omitAnyMap "license" w.license ++
      omitString "name" w.name ++ [("openbindings", .str w.openBindings)] ++
      [("operations", encodeMapField Operation.marshalJSON w.operations)] ++
      omitMap "schemas" encodeAnyMap w.schemas ++ omitMap "sources" Source.marshalJSON w.sources ++
      omitMap "transforms" Transform.marshalJSON w.transforms ++ omitString "version" w.version :=
  sortMembers_eq_of_keys_sublist ["bindings", "contact", "description", "imports", "license", "name",
      "openbindings", "operations", "schemas", "sources", "transforms", "version"] (by decide)
    (List.perm_iff_count.2 fun _ => by simp only [encode, List.count_append]; omega)
    (by
      simp only [List.map_append]
      exact ((((((((((((keys_omitMap _ _ _).append (keys_omitAnyMap _ _)).append
        (keys_omitString _ _)).append (keys_omitMap _ _ _)).append (keys_omitAnyMap _ _)).append
        (keys_omitString _ _)).append (keys_singleton _ _)).append (keys_singleton _ _)).append
        (keys_omitMap _ _ _)).append (keys_omitMap _ _ _)).append (keys_omitMap _ _ _)).append
        (keys_omitString _ _)))

theorem InterfaceWire.decode_encode {w : InterfaceWire}
    (hc : ∀ m ∈ w.contact, (JValue.obj m).KeysUnique)
    (hl : ∀ m ∈ w.license, (JValue.obj m).KeysUnique)
    (hsck : ∀ m ∈ w.schemas, (m.map Prod.fst).Nodup)
    (hsc : ∀ m ∈ w.schemas, ∀ kv ∈ m, ∀ o ∈ kv.2, (JValue.obj o).KeysUnique)
    (hopk : ∀ m ∈ w.operations, (m.map Prod.fst).Nodup)
    (hop : ∀ m ∈ w.operations, ∀ kv ∈ m, kv.2.Wf)
    (himk : ∀ m ∈ w.imports, (m.map Prod.fst).Nodup)
    (hsok : ∀ m ∈ w.sources, (m.map Prod.fst).Nodup) (hso : ∀ m ∈ w.sources, ∀ kv ∈ m, kv.2.Wf)
    (hbk : ∀ m ∈ w.bindings, (m.map Prod.fst).Nodup) (hb : ∀ m ∈ w.bindings, ∀ kv ∈ m, kv.2.Wf)
    (htk : ∀ m ∈ w.transforms, (m.map Prod.fst).Nodup)
    (ht : ∀ m ∈ w.transforms, ∀ kv ∈ m, kv.2.toLosslessFields.NoAlias knownTransformSet) :
    ∃ w', decodeStruct interfaceWireFields {} (.obj (sortMembers w.encode)) = some w' ∧
      w'.encode = w.encode := by
  obtain ⟨b, hb, hb'⟩ := fieldRoundTrips_omitMap "bindings" hbk fun m hm kv hkv =>
    BindingEntry.roundTrips (hb m hm kv hkv)
  obtain ⟨c, hc, hc'⟩ := fieldRoundTrips_omitAnyMap "contact" hc
  obtain ⟨d, hd, hd'⟩ := fieldRoundTrips_omitString "description" w.description
  obtain ⟨im, him, him'⟩ := fieldRoundTrips_omitMap "imports" himk fun _ _ kv _ =>
    roundTrips_str kv.2
  obtain ⟨l, hl, hl'⟩ := fieldRoundTrips_omitAnyMap "license" hl
  obtain ⟨n, hn, hn'⟩ := fieldRoundTrips_omitString "name" w.name
  obtain ⟨op, hop, hop'⟩ := fieldRoundTrips_encodeMapField "operations" hopk fun m hm kv hkv =>
    Operation.roundTrips (hop m hm kv hkv)
  obtain ⟨sc, hsc, hsc'⟩ := fieldRoundTrips_omitMap "schemas" hsck fun m hm kv hkv =>
    roundTrips_encodeAnyMap (hsc m hm kv hkv)
  obtain ⟨so, hso, hso'⟩ := fieldRoundTrips_omitMap "sources" hsok fun m hm kv hkv =>
    Source.roundTrips (hso m hm kv hkv)
  obtain ⟨t, ht, ht'⟩ := fieldRoundTrips_omitMap "transforms" htk fun m hm kv hkv =>
    Transform.roundTrips (ht m hm kv hkv)
  obtain ⟨v, hv, hv'⟩ := fieldRoundTrips_omitString "version" w.version
  refine ⟨⟨w.openBindings, n, v, d, c, l, sc, op, im, so, b, t⟩, ?_,
    by simp only [encode, hb', hc', hd', him', hl', hn', hop', hsc', hso', ht', hv']⟩
  rw [sortMembers_encode]
  exact foldlM_append_of_eq_some (foldlM_append_of_eq_some (foldlM_append_of_eq_some
    (foldlM_append_of_eq_some (foldlM_append_of_eq_some (foldlM_append_of_eq_some
    (foldlM_append_of_eq_some (foldlM_append_of_eq_some (foldlM_append_of_eq_some
    (foldlM_append_of_eq_some (foldlM_append_of_eq_some
    (foldlM_storeMember_write (keys_omitMap _ _ _) hb InterfaceWire.bindings
      (fun w y => { w with bindings := y }) (fun _ _ => by rfl) (fun _ => by rfl) (by rfl))
    (foldlM_storeMember_write (keys_omitAnyMap _ _) hc InterfaceWire.contact
      (fun w y => { w with contact := y }) (fun _ _ => by rfl) (fun _ => by rfl) (by rfl)))
    (foldlM_storeMember_write (keys_omitString _ _) hd InterfaceWire.description
      (fun w y => { w with description := y }) (fun _ _ => by rfl) (fun _ => by rfl) (by rfl)))
    (foldlM_storeMember_write (keys_omitMap _ _ _) him InterfaceWire.imports
      (fun w y => { w with imports := y }) (fun _ _ => by rfl) (fun _ => by rfl) (by rfl)))
    (foldlM_storeMember_write (keys_omitAnyMap _ _) hl InterfaceWire.license
      (fun w y => { w with license := y }) (fun _ _ => by rfl) (fun _ => by rfl) (by rfl)))
    (foldlM_storeMember_write (keys_omitString _ _) hn InterfaceWire.name
      (fun w y => { w with name := y }) (fun _ _ => by rfl) (fun _ => by rfl) (by rfl)))
    (foldlM_storeMember_write (keys_singleton _ _) (foldlM_decodeString_str _ _ _)
      InterfaceWire.openBindings (fun w y => { w with openBindings := y }) (fun _ _ => by rfl)
      (fun _ => by rfl) (by rfl)))
    (foldlM_storeMember_write (keys_singleton _ _) hop InterfaceWire.operations
      (fun w y => { w with operations := y }) (fun _ _ => by rfl) (fun _ => by rfl) (by rfl)))
    (foldlM_storeMember_write (keys_omitMap _ _ _) hsc InterfaceWire.schemas
      (fun w y => { w with schemas := y }) (fun _ _ => by rfl) (fun _ => by rfl) (by rfl)))
    (foldlM_storeMember_write (keys_omitMap _ _ _) hso InterfaceWire.sources
      (fun w y => { w with sources := y }) (fun _ _ => by rfl) (fun _ => by rfl) (by rfl)))
    (foldlM_storeMember_write (keys_omitMap _ _ _) ht InterfaceWire.transforms
      (fun w y => { w with transforms := y }) (fun _ _ => by rfl) (fun _ => by rfl) (by rfl)))
    (foldlM_storeMember_write (keys_omitString _ _) hv InterfaceWire.version
      (fun w y => { w with version := y }) (fun _ _ => by rfl) (fun _ => by rfl) (by rfl))

/-- An OpenBindings document as decoding leaves it from an input that aliases no field, encoded
and decoded again, is written as before. -/
theorem Interface.roundTrips_marshalJSON {i : Interface} (hi : i.Wf) :
    RoundTrips Interface.unmarshalJSON Interface.marshalJSON i :=
  roundTrips_unmarshalTyped Interface.mk Interface.toInterfaceWire Interface.toLosslessFields
    InterfaceWire.encode (by rfl) (by decide) InterfaceWire.keys_encode (fun _ _ => rfl)
    (fun _ _ => rfl) hi.noAlias
    (InterfaceWire.decode_encode hi.contact hi.license hi.schemasKeys hi.schemas hi.operationsKeys
      hi.operations hi.importsKeys hi.sourcesKeys hi.sources hi.bindingsKeys hi.bindings
      hi.transformsKeys hi.transforms)

/-- A document with an operation, a binding whose input transform is a reference with an `x-`
member, an extension and an unknown field round-trips. -/
theorem Interface.roundTrips_getUser :
    Interface.Wf
      { openBindings := "0.1.0", operations := some [("getUser", { kind := "method" })],
        bindings := some [("b",
          { operation := "getUser", source := "api",
            inputTransform := some { ref := "#/transforms/t", refExtensions := [("x-n", .null)] } })],
        extensions := [("x-a", .bool true)], unknown := [("zz", .null)] } ∧
    RoundTrips Interface.unmarshalJSON Interface.marshalJSON
      { openBindings := "0.1.0", operations := some [("getUser", { kind := "method" })],
        bindings := some [("b",
          { operation := "getUser", source := "api",
            inputTransform := some { ref := "#/transforms/t", refExtensions := [("x-n", .null)] } })],
        extensions := [("x-a", .bool true)], unknown := [("zz", .null)] } :=
  have hw : Interface.Wf
      { openBindings := "0.1.0", operations := some [("getUser", { kind := "method" })],
        bindings := some [("b",
          { operation := "getUser", source := "api",
            inputTransform := some { ref := "#/transforms/t", refExtensions := [("x-n", .null)] } })],
        extensions := [("x-a", .bool true)], unknown := [("zz", .null)] } :=
    { noAlias := by decide
      contact := fun m h => (Option.not_mem_none m h).elim
      license := fun m h => (Option.not_mem_none m h).elim
      schemasKeys := fun m h => (Option.not_mem_none m h).elim
      schemas := fun m h => (Option.not_mem_none m h).elim
      operationsKeys := by simp
      operations := by
        simp only [Option.mem_def, Option.some.injEq, forall_eq', List.mem_singleton, forall_eq]
        exact { noAlias := by decide, satisfies := by simp, input := fun m h => (Option.not_mem_none m h).elim,
                output := fun m h => (Option.not_mem_none m h).elim, payload := fun m h => (Option.not_mem_none m h).elim,
                examplesKeys := fun m h => (Option.not_mem_none m h).elim, examples := fun m h => (Option.not_mem_none m h).elim }
      importsKeys := fun m h => (Option.not_mem_none m h).elim
      sourcesKeys := fun m h => (Option.not_mem_none m h).elim
      sources := fun m h => (Option.not_mem_none m h).elim
      bindingsKeys := by simp
      bindings := by
        simp only [Option.mem_def, Option.some.injEq, forall_eq', List.mem_singleton, forall_eq]
        exact { noAlias := by decide
                inputTransform := by
                  simp only [Option.mem_def, Option.some.injEq, forall_eq']
                  exact .inl ⟨by decide, by decide⟩
                outputTransform := fun m h => (Option.not_mem_none m h).elim }
      transformsKeys := fun m h => (Option.not_mem_none m h).elim
      transforms := fun m h => (Option.not_mem_none m h).elim }
  ⟨hw, Interface.roundTrips_marshalJSON hw⟩

end OpenBindings.Lossless
