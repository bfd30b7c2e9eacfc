import OpenBindings.LosslessKeep
import OpenBindings.GoJsonRoundTrip

/-! # Decoding what the lossless methods write

`MarshalJSON` writes the typed view over the kept members, and `UnmarshalJSON` reads the result
back. The kept members come back as they were, and the typed view as the wire struct decodes its
own encoding, provided no kept member's name folds to a known name (`LosslessFields.NoAlias`):
`encoding/json` matches member names to fields case-insensitively, so such a member would be read
into the field its name folds to. Decoding never keeps a known name, but it does keep a name such
as `inputtransform` or `Description`, which the next decoding reads into a typed field.

The argument: the members of the written object that name a field are exactly the typed view's
(`filter_marshalLossless`), in name order, and decoding skips every other member
(`foldlM_storeMember_filter`); the kept members are split again into the same maps, so the object
written once more answers every name as the first one did (`marshalLossless_unmarshalTyped`). -/

namespace OpenBindings.Lossless

open GoJson
open SchemaProfile (hasPrefix)

/-- No kept member's name folds to a known name, so none is read into a typed field. -/
def LosslessFields.NoAlias (known : List String) (lf : LosslessFields) : Prop :=
  ∀ k ∈ lf.unknown.map Prod.fst ++ lf.extensions.map Prod.fst, ∀ n ∈ known, foldEq k n = false

instance (known : List String) (lf : LosslessFields) : Decidable (lf.NoAlias known) :=
  inferInstanceAs (Decidable (∀ k ∈ _, ∀ n ∈ known, foldEq k n = false))

/-! ### Field names -/

theorem foldEq_self (k : String) : foldEq k k = true := by simp [foldEq]

theorem foldEq_comm (k n : String) : foldEq k n = foldEq n k := by
  simp only [foldEq, decide_eq_decide]
  exact eq_comm

/-- A member whose name folds to no field name is skipped. -/
theorem storeMember_of_forall {σ : Type} {fields : Fields σ} {k : String}
    (h : ∀ f ∈ fields, foldEq k f.1 = false) (w : σ) (v : JValue) :
    storeMember fields w k v = some w := by
  rw [storeMember, List.find?_eq_none.2 fun f hf => by simp [h f hf]]

/-- Decoding skips the members whose names fold to no field name. -/
theorem foldlM_storeMember_filter {σ : Type} (fields : Fields σ) (L : JObj) (w : σ) :
    L.foldlM (fun w kv => storeMember fields w kv.1 kv.2) w =
      (L.filter fun kv => fields.any fun f => foldEq kv.1 f.1).foldlM
        (fun w kv => storeMember fields w kv.1 kv.2) w := by
  induction L generalizing w with
  | nil => rfl
  | cons kv rest ih =>
    by_cases h : fields.any (fun f => foldEq kv.1 f.1) = true
    · simp only [List.filter_cons, h, if_true, List.foldlM_cons, ih]
    · rw [List.filter_cons, if_neg h, List.foldlM_cons,
        storeMember_of_forall (by simpa using h), Option.bind_eq_bind, Option.some_bind, ih]

/-! ### Maps compared name by name -/

theorem mem_iff_lookup {m : JObj} (hn : (m.map Prod.fst).Nodup) {kv : String × JValue} :
    kv ∈ m ↔ lookup m kv.1 = some kv.2 :=
  ⟨lookup_of_mem_nodup hn, lookup_eq_some_mem⟩

theorem nodup_of_nodup_keys {m : JObj} (hn : (m.map Prod.fst).Nodup) : m.Nodup :=
  List.Nodup.of_map Prod.fst hn

/-- Two maps that answer every name alike are written alike. -/
theorem sortMembers_eq_of_lookup {m m' : JObj} (hn : (m.map Prod.fst).Nodup)
    (hn' : (m'.map Prod.fst).Nodup) (h : ∀ k, lookup m k = lookup m' k) :
    sortMembers m = sortMembers m' :=
  sortMembers_eq_of_perm ((List.perm_ext_iff_of_nodup (nodup_of_nodup_keys hn)
    (nodup_of_nodup_keys hn')).2 fun kv => by rw [mem_iff_lookup hn, mem_iff_lookup hn', h]) hn

theorem nodup_keys_marshalLossless (unknown extensions typed : JObj) :
    ((members (marshalLossless unknown extensions typed)).map Prod.fst).Nodup :=
  nodup_keys_sortMembers (nodup_keys_mergeLossless _ _ _)

/-! ### The written object, read again -/

section ReadBack

variable {σ : Type} {fields : Fields σ} {known : List String} {typed : JObj} {lf : LosslessFields}

/-- The members of the written object that name a field are the typed view's, in name order. -/
theorem filter_marshalLossless (hknown : fields.map Prod.fst = known) (hnodup : known.Nodup)
    (hkeys : (typed.map Prod.fst).Sublist known) (hlf : lf.NoAlias known) :
    (sortMembers (mergeLossless lf.unknown lf.extensions typed)).filter
        (fun kv => fields.any fun f => foldEq kv.1 f.1) = sortMembers typed := by
  have hnt : (typed.map Prod.fst).Nodup := hkeys.nodup hnodup
  have hnm := nodup_keys_mergeLossless lf.unknown lf.extensions typed
  have hns := nodup_keys_sortMembers hnm
  have hnf : (((sortMembers (mergeLossless lf.unknown lf.extensions typed)).filter
      (fun kv => fields.any fun f => foldEq kv.1 f.1)).map Prod.fst).Nodup :=
    (List.filter_sublist _).map Prod.fst |>.nodup hns
  -- a name that folds to a field name is neither unknown nor an extension
  have hkept : ∀ k, (∃ f ∈ fields, foldEq k f.1 = true) →
      lookup lf.extensions.reverse k = none ∧ lookup lf.unknown.reverse k = none := by
    rintro k ⟨f, hf, hk⟩
    have hfk : f.1 ∈ known := hknown ▸ List.mem_map_of_mem Prod.fst hf
    refine ⟨lookup_eq_none_iff.2 fun hmem => ?_, lookup_eq_none_iff.2 fun hmem => ?_⟩ <;>
      · rw [List.map_reverse, List.mem_reverse] at hmem
        have := hlf k (by simp [hmem]) f.1 hfk
        rw [hk] at this
        exact Bool.noConfusion this
  refine eq_of_perm_of_sorted_keyLE ?_ ((sorted_sortMembers _).filter _) (sorted_sortMembers _) hnf
  refine (List.perm_ext_iff_of_nodup (nodup_of_nodup_keys hnf)
    (nodup_of_nodup_keys (nodup_keys_sortMembers hnt))).2 fun kv => ?_
  rw [List.mem_filter, (perm_sortMembers _).mem_iff, (perm_sortMembers _).mem_iff,
    mem_iff_lookup hnm, lookup_mergeLossless, List.any_eq_true]
  constructor
  · rintro ⟨hl, hf⟩
    obtain ⟨he, hu⟩ := hkept kv.1 hf
    rw [he, hu, Option.or_none, Option.or_none, lookup_reverse hnt] at hl
    exact lookup_eq_some_mem hl
  · intro hmem
    refine ⟨by rw [lookup_reverse hnt, lookup_of_mem_nodup hnt hmem]; rfl, ?_⟩
    have hk : kv.1 ∈ fields.map Prod.fst := hknown ▸ hkeys.subset (List.mem_map_of_mem _ hmem)
    obtain ⟨f, hf, hfk⟩ := List.mem_map.1 hk
    exact ⟨f, hf, hfk ▸ foldEq_self _⟩

/-- The lossless round trip of one type, given that its wire struct decodes its own encoding
`typed` as `w'`: decoding what `marshalLossless` writes gives `w'` with kept members that are
written again as they were. -/
theorem marshalLossless_unmarshalTyped {τ : Type} (mk : σ → LosslessFields → τ) {zero w' : σ}
    (hknown : fields.map Prod.fst = known) (hnodup : known.Nodup)
    (hkeys : (typed.map Prod.fst).Sublist known) (hlf : lf.NoAlias known)
    (hw : decodeStruct fields zero (.obj (sortMembers typed)) = some w') :
    ∃ lf', unmarshalTyped mk fields zero known (marshalLossless lf.unknown lf.extensions typed) =
        some (mk w' lf') ∧
      marshalLossless lf'.unknown lf'.extensions typed =
        marshalLossless lf.unknown lf.extensions typed := by
  set out := mergeLossless lf.unknown lf.extensions typed
  have hnt : (typed.map Prod.fst).Nodup := hkeys.nodup hnodup
  have hnm : (out.map Prod.fst).Nodup := nodup_keys_mergeLossless _ _ _
  have hns := nodup_keys_sortMembers hnm
  set parts := splitLossless (rawMap (sortMembers out)) known
  refine ⟨⟨parts.1, parts.2⟩, ?_, ?_⟩
  · have hdec : decodeStruct fields zero (marshalLossless lf.unknown lf.extensions typed) = some w' := by
      rw [marshalLossless, decodeStruct, foldlM_storeMember_filter,
        filter_marshalLossless hknown hnodup hkeys hlf]
      exact hw
    simp only [unmarshalTyped, hdec]
    rfl
  · rw [marshalLossless, marshalLossless]
    refine congrArg JValue.obj (sortMembers_eq_of_lookup (nodup_keys_mergeLossless _ _ _) hnm
      fun k => ?_)
    obtain ⟨h1, h2⟩ := lookup_splitLossless (rawMap (sortMembers out)) known k
    obtain ⟨hn1, hn2⟩ := nodup_splitLossless (rawMap (sortMembers out)) known
    rw [lookup_mergeLossless, lookup_reverse hn1, lookup_reverse hn2, h1, h2,
      lookup_reverse (nodup_keys_rawMap _), lookup_rawMap, lookup_reverse hns,
      lookup_sortMembers hnm, lookup_mergeLossless]
    cases ht : lookup typed.reverse k with
    | some v => rfl
    | none =>
      by_cases hk : k ∈ known
      · have hnone : ∀ m : JObj, k ∈ m.map Prod.fst → m = lf.unknown ∨ m = lf.extensions → False :=
          fun m hm hm' => by
            have := hlf k (by rcases hm' with rfl | rfl <;> simp [hm]) k hk
            rw [foldEq_self] at this
            exact Bool.noConfusion this
        have he : lookup lf.extensions.reverse k = none := lookup_eq_none_iff.2 fun h =>
          hnone _ (by simpa using h) (.inr rfl)
        have hu : lookup lf.unknown.reverse k = none := lookup_eq_none_iff.2 fun h =>
          hnone _ (by simpa using h) (.inl rfl)
        simp [hk, he, hu]
      · cases hasPrefix k "x-" <;> simp [hk]

/-- A lossless type round-trips when its wire struct does: `unmarshalTyped` reads what
`marshalLossless` writes of the typed view and the kept members. -/
theorem roundTrips_unmarshalTyped {τ : Type} (mk : σ → LosslessFields → τ) {zero : σ}
    (wire : τ → σ) (lossless : τ → LosslessFields) (encode : σ → JObj)
    (hknown : fields.map Prod.fst = known) (hnodup : known.Nodup)
    (hkeys : ∀ w, ((encode w).map Prod.fst).Sublist known) (hmk : ∀ w l, wire (mk w l) = w)
    (hmk' : ∀ w l, lossless (mk w l) = l) {t : τ} (hlf : (lossless t).NoAlias known)
    (hw : ∃ w', decodeStruct fields zero (.obj (sortMembers (encode (wire t)))) = some w' ∧
      encode w' = encode (wire t)) :
    RoundTrips (unmarshalTyped mk fields zero known)
      (fun t => marshalLossless (lossless t).unknown (lossless t).extensions (encode (wire t))) t := by
  obtain ⟨w', hw', he⟩ := hw
  obtain ⟨lf', h1, h2⟩ := marshalLossless_unmarshalTyped mk hknown hnodup (hkeys _) hlf hw'
  refine ⟨mk w' lf', h1, ?_⟩
  simp only [hmk, hmk', he]
  exact h2

end ReadBack

end OpenBindings.Lossless
