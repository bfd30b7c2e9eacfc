import OpenBindings.Idempotence
import OpenBindings.Cycles
import OpenBindings.Directions
import OpenBindings.Bounds

/-! # A normalized schema against itself

`compat(S, S, isInput)` compares a schema with itself, and each rule of `compat.go` then compares
a value with itself: the two type sets, the two `required` lists, each property schema with the
one of the same name (itself, since `Normalize` leaves distinct names), the two `items` and
`additionalProperties`, each union variant with itself, and each bound with itself, where the four
bound comparators take their tie branch and answer `true` because a bound is as strict as itself.

One rule is not reflexive. In the output direction `compatConstEnum` reads the target's `enum`
before its `const`, so the candidate's `const` must lie in the target's `enum`, and `Normalize`
keeps both keywords as they are. So `InputCompatible(S, S)` holds on every schema `Normalize`
accepts, and `OutputCompatible(S, S)` on those whose `const` lies in the `enum` beside it at every
position (`compatible_self`); `{"const": "a", "enum": ["b"]}` is the smallest schema where it
fails.

This model treats schemas as values. The Go normalizer shares maps with `Root`, and an `allOf`
merge can write into them between the target's pass and the candidate's, which breaks
reflexivity even for input schemas (the `SharedWrites` module). -/

namespace OpenBindings.SchemaProfile

open CanonicalJson Normalizer

/-- At a position with both keywords, the canonical form of `const` is one of `enum`'s. -/
def ConstInEnum (m : JObj) : Prop :=
  ∀ c ∈ lookup m "const", ∀ es ∈ enumSet m, canonicalKey c ∈ es

instance (m : JObj) : Decidable (ConstInEnum m) :=
  inferInstanceAs (Decidable (∀ c ∈ lookup m "const", ∀ es ∈ enumSet m, canonicalKey c ∈ es))

/-- What comparing a position with itself reads: distinct names under `properties`, and object
variants whenever a union keyword is present. -/
structure SelfComparable (m : JObj) : Prop where
  propsNodup : ∀ ps, lookup m "properties" = some (.obj ps) → (ps.map Prod.fst).Nodup
  unions : hasUnion m = true → (unionVariants m).isSome = true

theorem objects_map_obj (ms : List JObj) : objects (ms.map .obj) = some ms := by
  induction ms with
  | nil => rfl
  | cons m ms ih => simp [objects, ih]

/-- Union keywords in normal form hold object variants. -/
theorem unionVariants_isSome {m : JObj} (hl : LocalNormal m) (hu : hasUnion m = true) :
    (unionVariants m).isSome = true := by
  have of_sorted : ∀ k ∈ ["oneOf", "anyOf"], ∀ v, lookup m k = some v →
      ((asSlice v).bind objects).isSome = true := by
    intro k hk v hv
    obtain ⟨ms, rfl, -⟩ := hl.unions k hk v hv
    simp [asSlice, objects_map_obj]
  unfold unionVariants
  unfold hasUnion hasKey at hu
  cases ho : lookup m "oneOf" with
  | some v => exact of_sorted "oneOf" (by simp) v ho
  | none =>
    cases ha : lookup m "anyOf" with
    | some v => exact of_sorted "anyOf" (by simp) v ha
    | none => simp [ho, ha] at hu

/-- A settled schema can be compared with itself at every position. -/
theorem selfComparable_of_settled {r : JObj} (h : Settled r) : AllNodes SelfComparable r :=
  h.mono fun _ ⟨hl, hs⟩ => ⟨hs.propsNodup, unionVariants_isSome hl⟩

/-! ### Each rule on equal sides -/

theorem subsetTypes_self : ∀ t, subsetTypes t t = true
  | none => rfl
  | some a => List.all_eq_true.2 fun k hk => by simp [hk]

theorem compatConstEnum_self_input (m : JObj) : compatConstEnum m m true = true := by
  unfold compatConstEnum
  cases lookup m "const" <;> cases enumSet m <;> simp [equalJSONValue]

/-- The output direction reads `enum` first: a `const` of the candidate must be in it. -/
theorem compatConstEnum_self_output {m : JObj} (h : ConstInEnum m) :
    compatConstEnum m m false = true := by
  unfold compatConstEnum
  cases hc : lookup m "const" <;> cases he : enumSet m <;> simp [equalJSONValue]
  exact h _ hc _ he

/-- A bound is as strict as itself: equal values take the tie branch, which holds. -/
theorem boundLE_self (a : Float64) : boundLE a a false = true := by
  simp [boundLE, Float64.lt_iff]

theorem compatNumericBounds_self (m : JObj) (b : Bool) : compatNumericBounds m m b = true := by
  rcases effectiveLowerBound m with ⟨lo, loExcl⟩
  rcases effectiveUpperBound m with ⟨hi, hiExcl⟩
  cases b <;> simp only [compatNumericBounds, lowerBoundLessOrEqual, lowerBoundGreaterOrEqual,
    upperBoundLessOrEqual, upperBoundGreaterOrEqual, Bool.and_not_self, boundLE_self, Bool.and_true,
    Bool.or_true, Bool.not_or_self, ↓reduceIte, Bool.false_eq_true]

theorem compatSimpleBounds_self (m : JObj) (b : Bool) (minKey maxKey : String) :
    compatSimpleBounds m m b minKey maxKey = true := by
  cases b <;> simp [compatSimpleBounds, Float64.lt_iff]

section Rules

variable {rec : JObj → JObj → Bool → Bool} {m : JObj} {b : Bool}
  (hrec : ∀ c, Child c m → rec c c b = true)
include hrec

/-- With distinct names, each property meets itself. -/
theorem compatObject_self
    (hn : ∀ ps, lookup m "properties" = some (.obj ps) → (ps.map Prod.fst).Nodup) :
    compatObject rec m m b = true := by
  have props : ∀ p tv, (p, tv) ∈ objAt m "properties" →
      lookup (objAt m "properties") p = some tv ∧ ∀ tvm, tv = .obj tvm → rec tvm tvm b = true := by
    unfold objAt asMapOrEmpty
    split
    · rename_i ps hps
      exact fun p tv hmem => ⟨lookup_of_mem_nodup (hn ps hps) hmem,
        fun tvm e => hrec _ (.inl ⟨ps, p, hps, e ▸ hmem⟩)⟩
    · simp
  have ap : ∀ c, lookup m "additionalProperties" = some (.obj c) → rec c c b = true :=
    fun c hc => hrec c (.inr (.inl hc))
  cases b with
  | true =>
    simp only [compatObject, ↓reduceIte, Bool.and_eq_true, List.all_eq_true]
    refine ⟨fun _ h => by simpa using h, fun ⟨p, tv⟩ hp => ?_⟩
    obtain ⟨hl, hr⟩ := props p tv hp
    rw [hl]
    cases tv <;> simp [hr]
  | false =>
    simp only [compatObject, Bool.false_eq_true, ↓reduceIte, Bool.and_eq_true, List.all_eq_true]
    refine ⟨⟨fun _ h => by simpa using h, fun ⟨p, cv⟩ hp => ?_⟩, ?_⟩
    · obtain ⟨hl, hr⟩ := props p cv hp
      simp only [hasKey, hl]
      cases cv <;> simp [hr]
    · cases hap : lookup m "additionalProperties" with
      | none => rfl
      | some v =>
        cases v with
        | obj c => simp [ap c hap]
        | bool x => cases x <;> rfl
        | _ => rfl

theorem compatArray_self (hnil : rec [] [] b = true) : compatArray rec m m b = true := by
  unfold compatArray objAt asMapOrEmpty
  split
  · exact hrec _ (.inr (.inr (.inl ‹_›)))
  · exact hnil

theorem compatUnion_self (hu : (unionVariants m).isSome = true) : compatUnion rec m m b = true := by
  obtain ⟨vs, hvs⟩ := Option.isSome_iff_exists.1 hu
  have self : ∀ v ∈ vs, rec v v b = true := fun v hv => hrec v (child_of_unionVariants hvs v hv)
  unfold compatUnion
  rw [hvs]
  cases b <;> simpa using fun v hv => ⟨v, hv, self v hv⟩

/-- One call of `compat` on equal sides holds when the nested calls on equal sides do. -/
theorem compatStep_self (hs : SelfComparable m) (hce : b = false → ConstInEnum m)
    (hnil : m ≠ [] → rec [] [] b = true) : compatStep rec m m b = true := by
  by_cases hm : m = []
  · subst hm
    cases b <;> rfl
  have constEnum : compatConstEnum m m b = true := by
    cases b
    · exact compatConstEnum_self_output (hce rfl)
    · exact compatConstEnum_self_input m
  have union : (!(hasUnion m || hasUnion m) || compatUnion rec m m b) = true := by
    cases hu : hasUnion m
    · rfl
    · simp [compatUnion_self hrec (hs.unions hu)]
  simp only [compatStep, hm, ↓reduceIte, union, constEnum, subsetTypes_self, ite_self,
    compatObject_self hrec hs.propsNodup, compatArray_self hrec (hnil hm),
    compatNumericBounds_self, compatStringBounds, compatArrayBounds, compatSimpleBounds_self,
    Bool.or_true, Bool.and_true]

end Rules

/-! ### The decider on equal sides -/

theorem compat_nil (fuel : Nat) (b : Bool) : compat (fuel + 1) [] [] b = true := by
  cases b <;> rfl

/-- With fuel beyond its depth, `compat` accepts a schema against itself, in the output
direction where each `const` lies in its `enum`. -/
theorem compat_self (b : Bool) :
    ∀ (fuel : Nat) (r : JObj), AllNodes SelfComparable r →
      AllNodes (fun m => b = false → ConstInEnum m) r → JValue.depthObj r < fuel →
      compat fuel r r b = true
  | 0, _, _, _, h => absurd h (Nat.not_lt_zero _)
  | fuel + 1, r, hs, hc, hd =>
    compatStep_self (fun c hcr => compat_self b fuel c (hs.child hcr) (hc.child hcr)
        (by have := hcr.depth_lt; omega))
      hs.root hc.root fun hr => by
        obtain ⟨f, rfl⟩ : ∃ f, fuel = f + 1 := ⟨fuel - 1, by have := JValue.depthObj_pos hr; omega⟩
        exact compat_nil f b

theorem inputCompatible_self {r : JObj} (hs : AllNodes SelfComparable r) :
    SchemaProfile.inputCompatible r r = true := by
  unfold SchemaProfile.inputCompatible
  split
  · rfl
  · exact compat_self true _ r hs (hs.mono fun _ _ h => by cases h)
      (Nat.lt_succ_of_le (le_max_left _ _))

theorem outputCompatible_self {r : JObj} (hs : AllNodes SelfComparable r)
    (hc : AllNodes ConstInEnum r) : SchemaProfile.outputCompatible r r = true := by
  unfold SchemaProfile.outputCompatible
  split
  · simpa
  · exact compat_self false _ r hs (hc.mono fun _ h _ => h) (Nat.lt_succ_of_le (le_max_left _ _))

/-- A schema `Normalize` accepts is input-compatible with itself, and output-compatible with
itself when the normalized schema has its `const` in the `enum` beside it at every position. -/
theorem compatible_self :
    (∀ (n : Normalizer) (fuel : Nat) (S r : JObj), n.normalize fuel S = some (.ok r) →
      n.inputCompatible fuel S S = some (.ok true)) ∧
    ∀ (n : Normalizer) (fuel : Nat) (S r : JObj), n.normalize fuel S = some (.ok r) →
      AllNodes ConstInEnum r → n.outputCompatible fuel S S = some (.ok true) := by
  refine ⟨fun n fuel S r h => ?_, fun n fuel S r h hc => ?_⟩
  · simp only [Normalizer.inputCompatible, compatible_eq_normalize, h,
      inputCompatible_self (selfComparable_of_settled (normalize_settled n h))]
  · simp only [Normalizer.outputCompatible, compatible_eq_normalize, h,
      outputCompatible_self (selfComparable_of_settled (normalize_settled n h)) hc]

/-- `{"type": "string"}` is compatible with itself both ways. -/
example :
    ({} : Normalizer).inputCompatible 1 [("type", .str "string")] [("type", .str "string")] =
        some (.ok true) ∧
      ({} : Normalizer).outputCompatible 1 [("type", .str "string")] [("type", .str "string")] =
        some (.ok true) :=
  ⟨compatible_self.1 {} 1 _ [("type", strArr ["string"])] (by decide),
    compatible_self.2 {} 1 _ [("type", strArr ["string"])] (by decide)
      (AllNodes.leaf (by decide) fun m hm => by simp [Child, lookup] at hm)⟩

/-- `{"const": "a", "enum": ["b"]}` normalizes to itself and is input-compatible with itself, but
not output-compatible: the output check reads `enum` first and finds `"a"` outside it. -/
example :
    ({} : Normalizer).normalize 1 [("const", .str "a"), ("enum", .arr [.str "b"])] =
        some (.ok [("const", .str "a"), ("enum", .arr [.str "b"])]) ∧
      ({} : Normalizer).inputCompatible 1 [("const", .str "a"), ("enum", .arr [.str "b"])]
        [("const", .str "a"), ("enum", .arr [.str "b"])] = some (.ok true) ∧
      ({} : Normalizer).outputCompatible 1 [("const", .str "a"), ("enum", .arr [.str "b"])]
        [("const", .str "a"), ("enum", .arr [.str "b"])] = some (.ok false) := by
  decide

end OpenBindings.SchemaProfile
