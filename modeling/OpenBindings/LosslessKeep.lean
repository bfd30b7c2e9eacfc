import OpenBindings.Documents

/-! # What decoding then encoding keeps

`LosslessFields` promises that a typed document keeps the JSON members the SDK does not model, and
that its typed fields win over kept members of the same name. Both are statements about names:
the object `marshalLossless` writes answers each name with the typed view's value, else the
extensions', else the unknown fields' (`lookup_marshalLossless`), and the maps `unmarshalTyped`
keeps answer every name outside the known set with the last raw member of that name.

So every lossless type, decoded and encoded again, answers a name outside its known set exactly
as the input's last member of that name does (`lookup_marshal_unmarshalTyped`), provided its wire
encoding writes known names only, which holds of all seven types (`keys_encode` lemmas: the wire
encodings write a sublist of the known set, in its order). -/

namespace OpenBindings.Lossless

open GoJson
open SchemaProfile (hasPrefix)

/-! ### Maps with distinct names -/

theorem lookup_reverse {m : JObj} (h : (m.map Prod.fst).Nodup) (k : String) :
    lookup m.reverse k = lookup m k := by
  cases hl : lookup m k with
  | none => rw [lookup_eq_none_iff] at hl ⊢; simpa using hl
  | some v =>
    exact lookup_of_mem_nodup (by simpa using h) (List.mem_reverse.2 (lookup_eq_some_mem hl))

/-- The raw members are a map, answering each name with the input's last member of that name. -/
theorem rawObject_eq_some {b : JValue} {raw : JObj} (h : rawObject b = some raw) :
    (raw.map Prod.fst).Nodup ∧ ∀ k, lookup raw k = lookup (members b).reverse k := by
  cases b <;> simp only [rawObject, Option.some.injEq, reduceCtorEq] at h <;> subst h
  · exact ⟨List.nodup_nil, fun _ => rfl⟩
  · exact ⟨nodup_keys_rawMap _, lookup_rawMap _⟩

/-- What a successful lossless decoding is made of. -/
theorem unmarshalTyped_eq_some {σ τ : Type} {mk : σ → LosslessFields → τ} {fields : Fields σ}
    {zero : σ} {known : List String} {b : JValue} {d : τ} :
    unmarshalTyped mk fields zero known b = some d ↔ ∃ raw w, rawObject b = some raw ∧
      decodeStruct fields zero b = some w ∧
      mk w ⟨(splitLossless raw known).1, (splitLossless raw known).2⟩ = d := by
  simp [unmarshalTyped, Option.bind_eq_some]

/-! ### The lossless guarantee -/

/-- Decoding with `unmarshalTyped` and encoding with `marshalLossless` keeps, under every name
outside the known set, the input's last member of that name, whatever the typed view writes
within the known set. -/
theorem lookup_marshal_unmarshalTyped {σ τ : Type} {mk : σ → LosslessFields → τ}
    {fields : Fields σ} {zero : σ} {known : List String} {b : JValue} {d : τ}
    (h : unmarshalTyped mk fields zero known b = some d) (lf : τ → LosslessFields)
    (hlf : ∀ w l, lf (mk w l) = l) {typed : JObj} (htyped : ∀ kv ∈ typed, kv.1 ∈ known)
    {k : String} (hk : k ∉ known) :
    lookup (members (marshalLossless (lf d).unknown (lf d).extensions typed)) k =
      lookup (members b).reverse k := by
  obtain ⟨raw, w, hraw, -, rfl⟩ := unmarshalTyped_eq_some.1 h
  obtain ⟨hn, hl⟩ := rawObject_eq_some hraw
  obtain ⟨hs1, hs2⟩ := lookup_splitLossless raw known k
  obtain ⟨hn1, hn2⟩ := nodup_splitLossless raw known
  have ht : lookup typed.reverse k = none := lookup_eq_none_iff.2 fun hmem => hk <| by
    obtain ⟨kv, hkv, rfl⟩ := List.mem_map.1 hmem
    exact htyped kv (List.mem_reverse.1 hkv)
  rw [hlf, lookup_marshalLossless, ht, Option.none_or, lookup_reverse hn1, lookup_reverse hn2, hs1,
    hs2, lookup_reverse hn, hl]
  cases hasPrefix k "x-" <;> simp [hk]

/-- Of an input with two `x-a` members, decoding then encoding keeps the last. -/
theorem lookup_marshal_unmarshalTyped_interface :
    Interface.unmarshalJSON (.obj [("openbindings", .str "0.1.0"), ("operations", .obj []),
        ("x-a", .bool true), ("x-a", .null)]) =
      some { openBindings := "0.1.0", operations := some [], extensions := [("x-a", .null)] } ∧
    lookup (members (Interface.marshalJSON
        { openBindings := "0.1.0", operations := some [], extensions := [("x-a", .null)] })) "x-a" =
      lookup (members (.obj [("openbindings", .str "0.1.0"), ("operations", .obj []),
        ("x-a", .bool true), ("x-a", .null)])).reverse "x-a" :=
  have h : Interface.unmarshalJSON (.obj [("openbindings", .str "0.1.0"), ("operations", .obj []),
        ("x-a", .bool true), ("x-a", .null)]) =
      some { openBindings := "0.1.0", operations := some [], extensions := [("x-a", .null)] } := by
    decide
  ⟨h, lookup_marshal_unmarshalTyped h Interface.toLosslessFields (fun _ _ => rfl) (by decide) (by decide)⟩

end OpenBindings.Lossless
