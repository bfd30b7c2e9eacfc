import OpenBindings.NormalForm

/-! # A normalized schema normalizes to itself

`normalizeAt` returns schemas that are `Settled`: in the normal form of spec §3 at every
position, and beyond it, every key is one the profile admits (the gate passed on the schema it
came from) and the names under `properties` are distinct (the map is built anew with
`setField`). On a settled schema each keyword step of `normalizeAt` writes back the value it
reads: `type` and `required` are already their own sorted sets, every sub-schema normalizes to
itself, and sorted variants sort to themselves. So a settled schema is a fixed point of
`normalizeAt`, given one unit of fuel more than its depth (`normalizeAt_fixed`), and
`Normalize` is idempotent: what it returns normalizes to itself, so the canonical JSON of the
two is the same (`normalize_idempotent`).

The output invariant comes from the same walk as the normal form: the sub-schemas of what
`normalizeFields` returns are results of its recursive calls (`normalizeFields_children`). -/

namespace OpenBindings.SchemaProfile

open CanonicalJson NormM Normalizer

/-! ### What `normalizeAt` leaves beyond the normal form -/

/-- What `normalizeAt` leaves at one position beyond the normal form: every key is one the
profile admits, and the names under `properties` are distinct. -/
structure LocalSettled (r : JObj) : Prop where
  gate : ∀ kv ∈ r, isProfileKeyword kv.1 = true
  propsNodup : ∀ ps, lookup r "properties" = some (.obj ps) → (ps.map Prod.fst).Nodup

/-- A schema as `Normalize` returns it: in normal form and settled at every position. -/
def Settled (r : JObj) : Prop := AllNodes (fun m => LocalNormal m ∧ LocalSettled m) r

/-- `properties` as `normalizeAt` writes it: an object with distinct names whose values are
objects satisfying `Q`. -/
def PropsOf (Q : JObj → Prop) (v : JValue) : Prop :=
  ∃ ps : JObj, v = .obj ps ∧ (ps.map Prod.fst).Nodup ∧ ∀ kv ∈ ps, ∃ m, kv.2 = .obj m ∧ Q m

section Children

variable {rec : JObj → String → NormM JObj} {Q : JObj → Prop}
  (hrec : ∀ s p st m st', rec s p st = some (.ok m, st') → Q m)
include hrec

theorem normalizeProps_children (path : String) :
    ∀ (nm props : JObj) {st nm' st'}, normalizeProps rec path nm props st = some (.ok nm', st') →
      (nm.map Prod.fst).Nodup → (∀ kv ∈ nm, ∃ m, kv.2 = .obj m ∧ Q m) →
      (nm'.map Prod.fst).Nodup ∧ ∀ kv ∈ nm', ∃ m, kv.2 = .obj m ∧ Q m
  | nm, [], _, _, _, h, hn, hq => by cases h; exact ⟨hn, hq⟩
  | nm, (k, v) :: rest, st, nm', st', h, hn, hq => by
    cases v with
    | obj vm =>
      obtain ⟨nv, s₁, hv, hr⟩ := bind_eq_ok.mp h
      refine normalizeProps_children path _ rest hr (nodup_keys_setField _ _ hn) fun kv hkv => ?_
      rcases mem_setField hkv with rfl | hkv
      · exact ⟨nv, rfl, hrec _ _ _ _ _ hv⟩
      · exact hq kv hkv
    | _ => cases h

theorem normalizeVariants_children (path k : String) :
    ∀ (idx : Nat) (items : List JValue) {st vs st'},
      normalizeVariants rec path k idx items st = some (.ok vs, st') → ∀ m ∈ vs, Q m
  | _, [], _, _, _, h => by cases h; simp
  | idx, item :: rest, st, vs, st', h => by
    cases item with
    | obj m =>
      obtain ⟨nv, s₁, hnv, h⟩ := bind_eq_ok.mp h
      obtain ⟨nvs, s₂, hnvs, hr⟩ := bind_eq_ok.mp h
      cases hr
      simp only [List.mem_cons, forall_eq_or_imp]
      exact ⟨hrec _ _ _ _ _ hnv, normalizeVariants_children path k _ rest hnvs⟩
    | _ => cases h

theorem normalizePropertiesField_children {o o' : JObj} {path : String} {st st' : List String}
    (h : normalizePropertiesField rec o path st = some (.ok o', st')) :
    Rewrites "properties" (PropsOf Q) o o' := by
  cases hp : lookup o "properties" with
  | none => simp [normalizePropertiesField, hp] at h; exact .inl ⟨hp, h.1.symm⟩
  | some v =>
    cases v with
    | obj props =>
      simp only [normalizePropertiesField, hp] at h
      obtain ⟨nm, s₁, hnm, hr⟩ := bind_eq_ok.mp h
      simp only [pure_apply, Option.some.injEq, Prod.mk.injEq, Except.ok.injEq] at hr
      exact .inr ⟨_, hasKey_of_lookup hp, hr.1.symm, nm, rfl,
        normalizeProps_children hrec path _ _ hnm List.nodup_nil (by simp)⟩
    | _ => simp [normalizePropertiesField, hp] at h

theorem normalizeAdditionalPropertiesField_children {o o' : JObj} {path : String}
    {st st' : List String} (h : normalizeAdditionalPropertiesField rec o path st = some (.ok o', st')) :
    Rewrites "additionalProperties" (fun v => (∃ b, v = .bool b) ∨ ∃ m, v = .obj m ∧ Q m) o o' := by
  cases hp : lookup o "additionalProperties" with
  | none => simp [normalizeAdditionalPropertiesField, hp] at h; exact .inl ⟨hp, h.1.symm⟩
  | some v =>
    cases v with
    | bool x =>
      simp [normalizeAdditionalPropertiesField, hp] at h
      exact .inr ⟨_, hasKey_of_lookup hp, h.1.symm, .inl ⟨x, rfl⟩⟩
    | obj x =>
      simp only [normalizeAdditionalPropertiesField, hp] at h
      obtain ⟨nv, s₁, hnv, hr⟩ := bind_eq_ok.mp h
      simp only [pure_apply, Option.some.injEq, Prod.mk.injEq, Except.ok.injEq] at hr
      exact .inr ⟨_, hasKey_of_lookup hp, hr.1.symm, .inr ⟨nv, rfl, hrec _ _ _ _ _ hnv⟩⟩
    | _ => simp [normalizeAdditionalPropertiesField, hp] at h

theorem normalizeItemsField_children {o o' : JObj} {path : String} {st st' : List String}
    (h : normalizeItemsField rec o path st = some (.ok o', st')) :
    Rewrites "items" (fun v => ∃ m, v = .obj m ∧ Q m) o o' := by
  cases hp : lookup o "items" with
  | none => simp [normalizeItemsField, hp] at h; exact .inl ⟨hp, h.1.symm⟩
  | some v =>
    cases v with
    | obj im =>
      simp only [normalizeItemsField, hp] at h
      obtain ⟨nv, s₁, hnv, hr⟩ := bind_eq_ok.mp h
      simp only [pure_apply, Option.some.injEq, Prod.mk.injEq, Except.ok.injEq] at hr
      exact .inr ⟨_, hasKey_of_lookup hp, hr.1.symm, nv, rfl, hrec _ _ _ _ _ hnv⟩
    | _ => simp [normalizeItemsField, hp] at h

theorem normalizeUnionField_children {k : String} {o o' : JObj} {path : String}
    {st st' : List String} (h : normalizeUnionField rec k o path st = some (.ok o', st')) :
    Rewrites k (fun v => ∃ ms : List JObj, v = .arr (ms.map .obj) ∧ ∀ m ∈ ms, Q m) o o' := by
  cases hp : lookup o k with
  | none => simp [normalizeUnionField, hp] at h; exact .inl ⟨hp, h.1.symm⟩
  | some v =>
    cases v with
    | arr arr =>
      simp only [normalizeUnionField, hp] at h
      obtain ⟨vs, s₁, hvs, hr⟩ := bind_eq_ok.mp h
      simp only [pure_apply, Option.some.injEq, Prod.mk.injEq, Except.ok.injEq] at hr
      exact .inr ⟨_, hasKey_of_lookup hp, hr.1.symm, sortVariants vs, rfl,
        fun m hm => normalizeVariants_children hrec path k _ _ hvs m (mem_sortVariants hm)⟩
    | _ => simp [normalizeUnionField, hp] at h

/-- What `normalizeFields` returns has the keys it was given, distinct names under
`properties`, and as sub-schemas only results of the recursive calls. -/
theorem normalizeFields_children {out r : JObj} {path : String} {st st' : List String}
    (h : normalizeFields rec out path st = some (.ok r, st')) :
    r.map Prod.fst = out.map Prod.fst ∧
      (∀ ps, lookup r "properties" = some (.obj ps) → (ps.map Prod.fst).Nodup) ∧
      ∀ m, Child m r → Q m := by
  obtain ⟨o₁, s₁, h₁, h⟩ := bind_eq_ok.mp h
  obtain ⟨o₂, s₂, h₂, h⟩ := bind_eq_ok.mp h
  obtain ⟨o₃, s₃, h₃, h⟩ := bind_eq_ok.mp h
  obtain ⟨o₄, s₄, h₄, h⟩ := bind_eq_ok.mp h
  obtain ⟨o₅, s₅, h₅, h⟩ := bind_eq_ok.mp h
  obtain ⟨o₆, s₆, h₆, h₇⟩ := bind_eq_ok.mp h
  have R₁ := normalizeTypeField_rewrites (lift_eq_ok h₁)
  have R₂ := normalizeRequiredField_rewrites (lift_eq_ok h₂)
  have R₃ := normalizePropertiesField_children hrec h₃
  have R₄ := normalizeAdditionalPropertiesField_children hrec h₄
  have R₅ := normalizeItemsField_children hrec h₅
  have R₆ := normalizeUnionField_children hrec h₆
  have R₇ := normalizeUnionField_children hrec h₇
  have props : ∀ v, lookup r "properties" = some v → PropsOf Q v := by
    rw [R₇.lookup_ne (by decide), R₆.lookup_ne (by decide), R₅.lookup_ne (by decide),
      R₄.lookup_ne (by decide)]
    exact R₃.lookup_self
  have ap : ∀ m, lookup r "additionalProperties" = some (.obj m) → Q m := by
    rw [R₇.lookup_ne (by decide), R₆.lookup_ne (by decide), R₅.lookup_ne (by decide)]
    intro m hm
    rcases R₄.lookup_self _ hm with ⟨b, hb⟩ | ⟨m', hm', hq⟩
    · cases hb
    · cases hm'; exact hq
  have items : ∀ m, lookup r "items" = some (.obj m) → Q m := by
    rw [R₇.lookup_ne (by decide), R₆.lookup_ne (by decide)]
    intro m hm
    obtain ⟨m', hm', hq⟩ := R₅.lookup_self _ hm
    cases hm'; exact hq
  have unions : ∀ k ∈ ["oneOf", "anyOf"], ∀ xs, lookup r k = some (.arr xs) →
      ∀ m, JValue.obj m ∈ xs → Q m := by
    simp only [List.mem_cons, List.mem_singleton, List.not_mem_nil, or_false, forall_eq_or_imp,
      forall_eq]
    refine ⟨fun xs hxs => ?_, fun xs hxs => ?_⟩ <;> intro m hm
    · rw [R₇.lookup_ne (by decide)] at hxs
      obtain ⟨ms, hms, hq⟩ := R₆.lookup_self _ hxs
      cases hms
      obtain ⟨m', hm', hmm⟩ := List.mem_map.mp hm
      cases hmm; exact hq _ hm'
    · obtain ⟨ms, hms, hq⟩ := R₇.lookup_self _ hxs
      cases hms
      obtain ⟨m', hm', hmm⟩ := List.mem_map.mp hm
      cases hmm; exact hq _ hm'
  refine ⟨by rw [R₇.keys, R₆.keys, R₅.keys, R₄.keys, R₃.keys, R₂.keys, R₁.keys],
    fun ps hps => ?_, fun m hm => ?_⟩
  · obtain ⟨ps', hps', hn, -⟩ := props _ hps
    cases hps'; exact hn
  · rcases hm with ⟨ps, k, hps, hmem⟩ | hap | hit | ⟨k, hk, xs, hxs, hmem⟩
    · obtain ⟨ps', hps', -, hall⟩ := props _ hps
      cases hps'
      obtain ⟨m', hm', hq⟩ := hall _ hmem
      cases hm'; exact hq
    · exact ap m hap
    · exact items m hit
    · exact unions k hk xs hxs m hmem

end Children

/-- Every schema `normalizeAt` returns is settled beyond the normal form at every position. -/
theorem normalizeAt_localSettled (n : Normalizer) :
    ∀ (fuel : Nat) (schema : JObj) (path : String) (st : List String) (r : JObj)
      (st' : List String), n.normalizeAt fuel schema path st = some (.ok r, st') →
      AllNodes LocalSettled r
  | 0, _, _, _, _, _, h => by cases h
  | fuel + 1, schema, path, st, r, st', h => by
    have ih := normalizeAt_localSettled n fuel
    cases gate : assertProfileKeywords schema path with
    | error e => simp [normalizeAt, bind_apply, gate] at h
    | ok u =>
      cases hRef : refTarget schema with
      | some ref =>
        rw [normalizeAt_ref n fuel st gate hRef] at h
        obtain ⟨⟨resolved, key⟩, s₁, -, h⟩ := bind_eq_ok.mp h
        obtain ⟨⟨res, s₂⟩, hx, hres⟩ := Option.map_eq_some'.mp h
        simp only [Prod.mk.injEq] at hres
        obtain ⟨rfl, -⟩ := hres
        cases resolved with
        | obj rm => exact ih rm path s₁ r s₂ hx
        | _ => simp at hx
      | none =>
        cases hAllOf : lookup (stripAnnotations schema) "allOf" with
        | some allOf =>
          rw [normalizeAt_allOf n fuel st gate hRef hAllOf] at h
          obtain ⟨merged, s₁, -, h⟩ := bind_eq_ok.mp h
          exact ih merged path s₁ r st' h
        | none =>
          rw [normalizeAt_fields n fuel st gate hRef hAllOf] at h
          obtain ⟨keys, nodup, below⟩ := normalizeFields_children
            (fun s p st m st' hm => ih s p st m st' hm) h
          refine AllNodes.node ⟨fun kv hkv => ?_, nodup⟩ below
          have hk : kv.1 ∈ (stripAnnotations schema).map Prod.fst :=
            keys ▸ List.mem_map_of_mem Prod.fst hkv
          obtain ⟨kv', hkv', he⟩ := List.mem_map.mp hk
          rw [← he]
          exact isProfileKeyword_of_assert (by cases u; exact gate) kv' (List.mem_filter.mp hkv').1

/-- Every schema `normalizeAt` returns is settled. -/
theorem normalizeAt_settled (n : Normalizer) {fuel : Nat} {schema : JObj} {path : String}
    {st st' : List String} {r : JObj} (h : n.normalizeAt fuel schema path st = some (.ok r, st')) :
    Settled r :=
  (normalizeAt_normalForm n fuel schema path st r st' h).and
    (normalizeAt_localSettled n fuel schema path st r st' h)

/-- Every schema `Normalize` returns is settled. -/
theorem normalize_settled (n : Normalizer) {fuel : Nat} {s r : JObj}
    (h : n.normalize fuel s = some (.ok r)) : Settled r := by
  obtain ⟨⟨res, st⟩, hrun, hres⟩ := Option.map_eq_some'.mp h
  cases hres
  exact normalizeAt_settled n hrun

/-! ### Each keyword step writes back what it reads -/

/-- A string set in normal form is its own `normalizeType`. -/
theorem normalizeType_strArr {ts : List String} (hs : ts.Sorted (· < ·))
    (hb : ∀ t ∈ ts, isBlank t = false) : normalizeType (strArr ts) = .ok ts := by
  simp only [normalizeType, strArr, nonBlankStrings_map_str hb, sortedSet_of_sorted hs]

/-- A string set in normal form is its own `normalizeStringSet`. -/
theorem normalizeStringSet_strArr {ts : List String} (hs : ts.Sorted (· < ·))
    (hb : ∀ t ∈ ts, isBlank t = false) : normalizeStringSet (strArr ts) = .ok ts := by
  simp only [normalizeStringSet, strArr, nonBlankStrings_map_str hb, sortedSet_of_sorted hs]

/-- Variants sorted by their canonical JSON sort to themselves. -/
theorem sortVariants_of_sorted {ms : List JObj}
    (h : (ms.map fun m => writeJCS (.obj m)).Sorted (· ≤ ·)) : sortVariants ms = ms := by
  have keys : ms.Pairwise fun a b => writeJCS (.obj a) ≤ writeJCS (.obj b) := List.pairwise_map.mp h
  have pairs : (ms.map fun v => (writeJCS (.obj v), v)).Sorted canonLE := List.pairwise_map.mpr keys
  rw [sortVariants, List.Sorted.insertionSort_eq pairs, List.map_map]
  exact List.map_id' _ ▸ rfl

section Fixed

variable {rec : JObj → String → NormM JObj} {r : JObj} (hl : LocalNormal r) (hs : LocalSettled r)
  (hfix : ∀ m, Child m r → ∀ p st, rec m p st = some (.ok m, st))

include hl in
theorem normalizeTypeField_fixed (path : String) : normalizeTypeField r path = .ok r := by
  unfold normalizeTypeField
  cases ht : lookup r "type" with
  | none => rfl
  | some v =>
    obtain ⟨ts, rfl, hsort, hb⟩ := hl.type _ ht
    simp only [normalizeType_strArr hsort hb, setField_lookup_self ht]

include hl in
theorem normalizeRequiredField_fixed (path : String) : normalizeRequiredField r path = .ok r := by
  unfold normalizeRequiredField
  cases ht : lookup r "required" with
  | none => rfl
  | some v =>
    obtain ⟨ts, rfl, hsort, hb⟩ := hl.required _ ht
    simp only [normalizeStringSet_strArr hsort hb, setField_lookup_self ht]

/-- The loop over `properties` rebuilds a map of distinct names whose schemas `rec` fixes. -/
theorem normalizeProps_fixed (path : String) :
    ∀ (nm props : JObj) (st : List String), ((nm ++ props).map Prod.fst).Nodup →
      (∀ kv ∈ props, ∃ m, kv.2 = .obj m ∧ ∀ p st, rec m p st = some (.ok m, st)) →
      normalizeProps rec path nm props st = some (.ok (nm ++ props), st)
  | nm, [], st, _, _ => by simp [normalizeProps]
  | nm, (k, v) :: rest, st, hn, hf => by
    obtain ⟨m, hv, hm⟩ := hf _ (List.mem_cons_self _ _)
    simp only at hv
    subst hv
    have hk : k ∉ nm.map Prod.fst := by
      intro hk
      rw [List.map_append, List.map_cons] at hn
      exact (List.nodup_append.mp hn).2.2 hk (List.mem_cons_self _ _)
    simp only [normalizeProps, bind_apply, hm, setField_of_not_mem _ hk]
    rw [normalizeProps_fixed path _ rest st (by simpa using hn)
      fun kv hkv => hf kv (List.mem_cons_of_mem _ hkv)]
    simp

include hl hs hfix in
theorem normalizePropertiesField_fixed (path : String) (st : List String) :
    normalizePropertiesField rec r path st = some (.ok r, st) := by
  unfold normalizePropertiesField
  cases hp : lookup r "properties" with
  | none => rfl
  | some v =>
    obtain ⟨ps, rfl, hps⟩ := hl.properties _ hp
    have hfix' : ∀ kv ∈ ps, ∃ m, kv.2 = .obj m ∧ ∀ p st, rec m p st = some (.ok m, st) := by
      intro kv hkv
      obtain ⟨m, hm⟩ := hps kv hkv
      exact ⟨m, hm, hfix m (.inl ⟨ps, kv.1, hp, hm ▸ hkv⟩)⟩
    simp only [bind_apply, normalizeProps_fixed path [] ps st (hs.propsNodup ps hp) hfix',
      List.nil_append, pure_apply, setField_lookup_self hp]

include hl hfix in
theorem normalizeAdditionalPropertiesField_fixed (path : String) (st : List String) :
    normalizeAdditionalPropertiesField rec r path st = some (.ok r, st) := by
  unfold normalizeAdditionalPropertiesField
  cases hp : lookup r "additionalProperties" with
  | none => rfl
  | some v =>
    rcases hl.additionalProperties _ hp with ⟨b, rfl⟩ | ⟨m, rfl⟩
    · simp only [pure_apply, setField_lookup_self hp]
    · simp only [bind_apply, hfix m (.inr (.inl hp)), pure_apply, setField_lookup_self hp]

include hl hfix in
theorem normalizeItemsField_fixed (path : String) (st : List String) :
    normalizeItemsField rec r path st = some (.ok r, st) := by
  unfold normalizeItemsField
  cases hp : lookup r "items" with
  | none => rfl
  | some v =>
    obtain ⟨m, rfl⟩ := hl.items _ hp
    simp only [bind_apply, hfix m (.inr (.inr (.inl hp))), pure_apply, setField_lookup_self hp]

/-- The loop over the variants returns them when `rec` fixes each. -/
theorem normalizeVariants_fixed (path k : String) :
    ∀ (idx : Nat) (ms : List JObj) (st : List String),
      (∀ m ∈ ms, ∀ p st, rec m p st = some (.ok m, st)) →
      normalizeVariants rec path k idx (ms.map .obj) st = some (.ok ms, st)
  | _, [], _, _ => rfl
  | idx, m :: ms, st, hf => by
    simp only [List.map_cons, normalizeVariants, bind_apply, hf m (List.mem_cons_self _ _),
      normalizeVariants_fixed path k (idx + 1) ms st fun m hm => hf m (List.mem_cons_of_mem _ hm),
      pure_apply]

include hl hfix in
theorem normalizeUnionField_fixed {k : String} (hk : k ∈ ["oneOf", "anyOf"]) (path : String)
    (st : List String) : normalizeUnionField rec k r path st = some (.ok r, st) := by
  unfold normalizeUnionField
  cases hp : lookup r k with
  | none => rfl
  | some v =>
    obtain ⟨ms, rfl, hsort⟩ := hl.unions k hk _ hp
    have hf : ∀ m ∈ ms, ∀ p st, rec m p st = some (.ok m, st) := fun m hm =>
      hfix m (.inr (.inr (.inr ⟨k, hk, _, hp, List.mem_map_of_mem _ hm⟩)))
    simp only [bind_apply, normalizeVariants_fixed path k 0 ms st hf, pure_apply,
      sortVariants_of_sorted hsort, setField_lookup_self hp]

include hl hs hfix in
/-- On a settled schema whose sub-schemas `rec` fixes, the keyword steps return the schema. -/
theorem normalizeFields_fixed (path : String) (st : List String) :
    normalizeFields rec r path st = some (.ok r, st) := by
  simp only [normalizeFields, bind_apply, normalizeTypeField_fixed hl, normalizeRequiredField_fixed hl,
    lift_ok_apply, normalizePropertiesField_fixed hl hs hfix,
    normalizeAdditionalPropertiesField_fixed hl hfix, normalizeItemsField_fixed hl hfix,
    normalizeUnionField_fixed hl hfix (show "oneOf" ∈ ["oneOf", "anyOf"] by decide),
    normalizeUnionField_fixed hl hfix (show "anyOf" ∈ ["oneOf", "anyOf"] by decide)]

end Fixed

/-- Without annotations and `$defs`, stripping them changes nothing. -/
theorem stripAnnotations_of_localNormal {r : JObj} (hl : LocalNormal r) : stripAnnotations r = r :=
  List.filter_eq_self.2 fun kv hkv => by
    obtain ⟨ha, hd, -⟩ := hl.dropped kv.1 (List.mem_map_of_mem Prod.fst hkv)
    simp [ha, hd]

/-- A settled schema is a fixed point of `normalizeAt`, with one unit of fuel more than its
depth, at every path and from every cycle set. -/
theorem normalizeAt_fixed (n : Normalizer) :
    ∀ (fuel : Nat) (r : JObj), Settled r → JValue.depthObj r < fuel →
      ∀ path st, n.normalizeAt fuel r path st = some (.ok r, st)
  | 0, _, _, h, _, _ => absurd h (Nat.not_lt_zero _)
  | fuel + 1, r, hr, hd, path, st => by
    obtain ⟨hl, hs⟩ := hr.root
    have noAllOf : lookup (stripAnnotations r) "allOf" = none := by
      rw [stripAnnotations_of_localNormal hl, lookup_eq_none_iff]
      exact fun h => (hl.dropped _ h).2.2 rfl
    rw [normalizeAt_fields n fuel st (assertProfileKeywords_ok _ (List.all_eq_true.mpr hs.gate))
      hl.noRef noAllOf, stripAnnotations_of_localNormal hl]
    exact normalizeFields_fixed hl hs (fun m hm p st =>
      normalizeAt_fixed n fuel m (hr.child hm) (by have := hm.depth_lt; omega) p st) path st

/-- `Normalize` is idempotent: a schema it returns normalizes to itself, so the two have the same
canonical JSON. -/
theorem normalize_idempotent (n : Normalizer) (fuel : Nat) (s r : JObj)
    (h : n.normalize fuel s = some (.ok r)) :
    n.normalize (JValue.depthObj r + 1) r = some (.ok r) := by
  simp only [Normalizer.normalize, normalizeAt_fixed n _ r (normalize_settled n h) (Nat.lt_succ_self _),
    Option.map_some']

/-- `{"type": "string", "title": "t"}` normalizes to `{"type": ["string"]}`, which normalizes to
itself. -/
theorem normalize_idempotent_type_string :
    ({} : Normalizer).normalize 1 [("type", .str "string"), ("title", .str "t")] =
        some (.ok [("type", strArr ["string"])]) ∧
      ({} : Normalizer).normalize (JValue.depthObj [("type", strArr ["string"])] + 1)
        [("type", strArr ["string"])] = some (.ok [("type", strArr ["string"])]) :=
  ⟨by decide, normalize_idempotent {} 1 [("type", .str "string"), ("title", .str "t")] _ (by decide)⟩

end OpenBindings.SchemaProfile
