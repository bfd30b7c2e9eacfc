import OpenBindings.Conditions

/-! # Each keyword, one rule of the decider at a time

What validation reads, restated in the terms `compat` reads it (`typeSet`, `enumSet`,
`effectiveLowerBound`, `objAt`, `unionVariants`), and for each keyword a lemma in each direction:
when the rule of `compat.go` for it accepts a pair, the keyword's check passes on the side that
must accept, given that it passes on the other side and that the nested schemas the rule compared
are sound. `Soundness` assembles these lemmas. -/

namespace OpenBindings.SchemaProfile

open CanonicalJson Float64 Normalizer

/-! ### What validation reads, in the decider's terms -/

theorem validate_nil (rd : Reading) : ∀ fuel x, validate rd fuel [] x = true
  | 0, _ => rfl
  | _ + 1, x => by rcases rd with ⟨_, _, _ | _⟩ <;> cases x <;> rfl

theorem hasKey_eq_false {s : JObj} {k : String} : hasKey s k = false ↔ lookup s k = none := by
  cases h : lookup s k <;> simp [hasKey, h]

theorem refValid_of_none {s : JObj} (h : lookup s "$ref" = none) (refs : String → Option JObj)
    (rec : JObj → JValue → Bool) (x : JValue) : refValid refs rec s x = true := by
  simp only [refValid, h]

theorem allOfValid_of_none {s : JObj} (h : lookup s "allOf" = none) (rec : JObj → JValue → Bool)
    (x : JValue) : allOfValid rec s x = true := by
  simp only [allOfValid, h]

theorem filterMap_strArr (ts : List String) {f : JValue → Option String}
    (hf : ∀ s, f (.str s) = some s) : (ts.map JValue.str).filterMap f = ts := by
  induction ts with
  | nil => rfl
  | cons t ts ih => simp only [List.map_cons, List.filterMap_cons, hf, ih]

/-- A well-formed `type` is what `typeSet` reads. -/
theorem typeSet_of_wf {s : JObj} (hw : WellFormed s) :
    (lookup s "type" = none ∧ typeSet s = none) ∨
      ∃ ts, lookup s "type" = some (strArr ts) ∧ typeSet s = some ts := by
  unfold typeSet
  cases h : lookup s "type" with
  | none => exact .inl ⟨rfl, rfl⟩
  | some v =>
    obtain ⟨ts, rfl⟩ := hw.type _ h
    exact .inr ⟨ts, rfl, congrArg some (filterMap_strArr ts fun _ => rfl)⟩

/-- `type`: some listed name admits the value. -/
theorem typeValid_eq {s : JObj} {ts : List String} (h : lookup s "type" = some (strArr ts))
    (x : JValue) : typeValid s x = ts.any (typeAdmits · x) := by
  unfold typeValid
  rw [h]
  simp only [strArr]
  clear h
  induction ts with
  | nil => rfl
  | cons t ts ih => simp only [List.map_cons, List.any_cons, ih]

theorem typeAdmits_integer {x : JValue} (h : typeAdmits "integer" x = true) :
    typeAdmits "number" x = true := by
  cases x <;> simp_all [typeAdmits]

/-- The type names admitting each kind of value. -/
theorem typeAdmits_kind {k : String} {x : JValue} (h : typeAdmits k x = true) :
    (∀ m, x = .obj m → k = "object") ∧ (∀ xs, x = .arr xs → k = "array") ∧
      (∀ w, x = .str w → k = "string") ∧ (∀ f, x = .num f → k = "number" ∨ k = "integer") := by
  cases x with
  | num f =>
    simp only [typeAdmits, Bool.or_eq_true, Bool.and_eq_true, beq_iff_eq] at h
    exact ⟨by simp, by simp, by simp, fun _ _ => h.imp_right And.left⟩
  | _ => simp_all [typeAdmits]

theorem hasType_of_mem {s : JObj} {ts : List String} (h : typeSet s = some ts) {k : String}
    (hk : k ∈ ts) : hasType s k = true := by
  simp [hasType, h, hk]

/-- What `subsetTypes` promises: a name of `as` that admits `x` has a name of `b` that does. -/
theorem typeValid_of_subsetTypes {b : JObj} (hb : WellFormed b) {as : List String}
    (hsub : subsetTypes (some as) (typeSet b) = true) {k : String} (hk : k ∈ as) {x : JValue}
    (hx : typeAdmits k x = true) : typeValid b x = true := by
  rcases typeSet_of_wf hb with ⟨hl, -⟩ | ⟨bs, hl, hs⟩
  · simp only [typeValid, hl]
  · rw [hs] at hsub
    rw [typeValid_eq hl, List.any_eq_true]
    have hkb := List.all_eq_true.1 hsub k hk
    simp only [Bool.or_eq_true, decide_eq_true_eq, Bool.and_eq_true, beq_iff_eq] at hkb
    rcases hkb with hkb | ⟨rfl, hn⟩
    · exact ⟨k, hkb, hx⟩
    · exact ⟨"number", hn, typeAdmits_integer hx⟩

/-! #### `required` -/

theorem requiredValid_obj (s : JObj) (m : JObj) :
    requiredValid s (.obj m) = (stringSet (lookup s "required")).all (hasKey m) := by
  unfold requiredValid stringSet
  cases lookup s "required" with
  | none => rfl
  | some v =>
    cases v with
    | arr rs =>
      dsimp only
      induction rs with
      | nil => rfl
      | cons r rs ih => cases r <;> simp [List.filterMap_cons, ih]
    | _ => rfl

/-- `required`: a side that requires fewer names accepts more objects. -/
theorem requiredValid_of_subset {a b : JObj} {x : JValue}
    (h : ∀ m, x = .obj m →
      (stringSet (lookup a "required")).all (· ∈ stringSet (lookup b "required")) = true)
    (hv : requiredValid b x = true) : requiredValid a x = true := by
  cases x with
  | obj m =>
    rw [requiredValid_obj] at hv ⊢
    exact List.all_eq_true.2 fun r hr =>
      List.all_eq_true.1 hv r (of_decide_eq_true (List.all_eq_true.1 (h m rfl) r hr))
  | _ => rfl

/-! #### `const` and `enum` -/

/-- A well-formed `enum` is what `enumSet` reads. -/
theorem enumSet_of_wf {s : JObj} (hw : WellFormed s) :
    (lookup s "enum" = none ∧ enumSet s = none) ∨ ∃ vs, lookup s "enum" = some (.arr vs) ∧
      enumSet s = some ((vs.map canonicalKey).foldl addUnique []) := by
  unfold enumSet
  cases h : lookup s "enum" with
  | none => exact .inl ⟨rfl, rfl⟩
  | some v =>
    obtain ⟨vs, rfl⟩ := hw.enum _ h
    exact .inr ⟨vs, rfl, rfl⟩

/-- `enum`: the value's canonical key is one of the keys `enumSet` collects. -/
theorem enumValid_iff {s : JObj} {vs : List JValue} (h : lookup s "enum" = some (.arr vs))
    (x : JValue) :
    enumValid s x = true ↔ canonicalKey x ∈ (vs.map canonicalKey).foldl addUnique [] := by
  simp only [enumValid, h, List.any_eq_true, jsonEq, beq_iff_eq, mem_foldl_addUnique,
    List.not_mem_nil, false_or, List.mem_map, canonicalKey]
  exact ⟨fun ⟨v, hv, e⟩ => ⟨v, hv, e.symm⟩, fun ⟨v, hv, e⟩ => ⟨v, hv, e.symm⟩⟩

theorem enumValid_of_none {s : JObj} (h : lookup s "enum" = none) (x : JValue) :
    enumValid s x = true := by
  simp only [enumValid, h]

/-- `const`: the value has the constant's canonical key. -/
theorem constValid_iff {s : JObj} {cv : JValue} (h : lookup s "const" = some cv) (x : JValue) :
    constValid s x = true ↔ canonicalKey cv = canonicalKey x := by
  simp only [constValid, h, jsonEq, beq_iff_eq, canonicalKey]

theorem constValid_of_none {s : JObj} (h : lookup s "const" = none) (x : JValue) :
    constValid s x = true := by
  simp only [constValid, h]

/-- `compatConstEnum` on outputs: a value the candidate's `const` and `enum` allow, the target's
allow, when the target does not set both. -/
theorem constEnum_out {t c : JObj} (hwt : WellFormed t) (hwc : WellFormed c)
    (hboth : ¬ (hasKey t "const" = true ∧ hasKey t "enum" = true))
    (h : compatConstEnum t c false = true) {x : JValue}
    (hx : enumValid c x = true ∧ constValid c x = true) :
    enumValid t x = true ∧ constValid t x = true := by
  unfold compatConstEnum at h
  rcases enumSet_of_wf hwt with ⟨hte, hts⟩ | ⟨tvs, hte, hts⟩
  · refine ⟨enumValid_of_none hte x, ?_⟩
    cases htc : lookup t "const" with
    | none => exact constValid_of_none htc x
    | some tc =>
      rw [constValid_iff htc]
      cases hcc : lookup c "const" with
      | some cc =>
        simp only [hts, htc, hcc, Bool.false_eq_true, ↓reduceIte, equalJSONValue, beq_iff_eq] at h
        exact h.trans ((constValid_iff hcc x).1 hx.2)
      | none =>
        rcases enumSet_of_wf hwc with ⟨-, hcs⟩ | ⟨cvs, hce, hcs⟩ <;>
          simp only [hts, htc, hcc, hcs, Bool.false_eq_true, ↓reduceIte, Bool.and_eq_true,
            beq_iff_eq, decide_eq_true_eq] at h
        obtain ⟨a, ha⟩ := List.length_eq_one.1 h.1
        have hmem := h.2
        have hx' := (enumValid_iff hce x).1 hx.1
        rw [ha, List.mem_singleton] at hmem hx'
        exact hmem.trans hx'.symm
  · have htc : lookup t "const" = none := hasKey_eq_false.1 <| by
      cases h' : hasKey t "const"
      · rfl
      · exact absurd ⟨h', by simp [hasKey, hte]⟩ hboth
    refine ⟨(enumValid_iff hte x).2 ?_, constValid_of_none htc x⟩
    cases hcc : lookup c "const" with
    | some cc =>
      simp only [hts, hcc, Bool.false_eq_true, ↓reduceIte, decide_eq_true_eq] at h
      rwa [← (constValid_iff hcc x).1 hx.2]
    | none =>
      rcases enumSet_of_wf hwc with ⟨-, hcs⟩ | ⟨cvs, hce, hcs⟩ <;>
        simp only [hts, hcc, hcs, Bool.false_eq_true, ↓reduceIte, List.all_eq_true,
          decide_eq_true_eq] at h
      exact h _ ((enumValid_iff hce x).1 hx.1)

/-- `compatConstEnum` on inputs: a value the target's `const` and `enum` allow, the candidate's
allow, when the candidate does not set both and sets one only where the target does. -/
theorem constEnum_in {t c : JObj} (hwt : WellFormed t) (hwc : WellFormed c)
    (hboth : ¬ (hasKey c "const" = true ∧ hasKey c "enum" = true))
    (hvals : (hasKey c "const" || hasKey c "enum") = true →
      (hasKey t "const" || hasKey t "enum") = true)
    (h : compatConstEnum t c true = true) {x : JValue}
    (hx : enumValid t x = true ∧ constValid t x = true) :
    enumValid c x = true ∧ constValid c x = true := by
  unfold compatConstEnum at h
  cases hcc : lookup c "const" with
  | some cc =>
    have hce : lookup c "enum" = none := hasKey_eq_false.1 <| by
      cases h' : hasKey c "enum"
      · rfl
      · exact absurd ⟨by simp [hasKey, hcc], h'⟩ hboth
    refine ⟨enumValid_of_none hce x, (constValid_iff hcc x).2 ?_⟩
    cases htc : lookup t "const" with
    | some tc =>
      simp only [htc, hcc, ↓reduceIte, equalJSONValue, beq_iff_eq] at h
      exact h.symm.trans ((constValid_iff htc x).1 hx.2)
    | none =>
      rcases enumSet_of_wf hwt with ⟨hte, -⟩ | ⟨tvs, hte, hts⟩
      · exact absurd (hvals (by simp [hasKey, hcc])) (by simp [hasKey, htc, hte])
      · simp only [htc, hts, hcc, ↓reduceIte, Bool.and_eq_true, beq_iff_eq, decide_eq_true_eq] at h
        obtain ⟨a, ha⟩ := List.length_eq_one.1 h.1
        have hmem := h.2
        have hx' := (enumValid_iff hte x).1 hx.1
        rw [ha, List.mem_singleton] at hmem hx'
        exact hmem.trans hx'.symm
  | none =>
    refine ⟨?_, constValid_of_none hcc x⟩
    rcases enumSet_of_wf hwc with ⟨hce, -⟩ | ⟨cvs, hce, hcs⟩
    · exact enumValid_of_none hce x
    rw [enumValid_iff hce]
    cases htc : lookup t "const" with
    | some tc =>
      simp only [htc, hcc, hcs, ↓reduceIte, decide_eq_true_eq] at h
      rwa [← (constValid_iff htc x).1 hx.2]
    | none =>
      rcases enumSet_of_wf hwt with ⟨hte, -⟩ | ⟨tvs, hte, hts⟩
      · exact absurd (hvals (by simp [hasKey, hce])) (by simp [hasKey, htc, hte])
      · simp only [htc, hts, hcc, hcs, ↓reduceIte, List.all_eq_true, decide_eq_true_eq] at h
        exact h _ ((enumValid_iff hte x).1 hx.1)

/-! #### Bounds -/

/-- The lower bounds of a schema at the value `q`. -/
def lowerValid (s : JObj) (q : ℚ) : Bool :=
  boundValid s "minimum" (fun b => decide (b ≤ q)) &&
    boundValid s "exclusiveMinimum" (fun b => decide (b < q))

/-- The upper bounds of a schema at the value `q`. -/
def upperValid (s : JObj) (q : ℚ) : Bool :=
  boundValid s "maximum" (fun b => decide (q ≤ b)) &&
    boundValid s "exclusiveMaximum" (fun b => decide (q < b))

theorem numberValid_num (s : JObj) (f : Float64) :
    numberValid s (.num f) = (lowerValid s f.toRat && upperValid s f.toRat) := by
  simp only [numberValid, lowerValid, upperValid, Bool.and_assoc, Bool.and_left_comm]

/-- The two bounds `minK` and `maxK` of a schema at the quantity `n`. -/
def simpleValid (s : JObj) (minK maxK : String) (n : ℚ) : Bool :=
  boundValid s minK (fun b => decide (b ≤ n)) && boundValid s maxK (fun b => decide (n ≤ b))

theorem boundValid_of_not_hasKey {s : JObj} {k : String} (h : hasKey s k = false)
    (ok : ℚ → Bool) : boundValid s k ok = true := by
  simp only [boundValid, numKeyword, hasKey_eq_false.1 h, Option.map_none', Option.getD_none]

/-- A bound the schema sets is the number the decider reads with `toFloat64`. -/
theorem boundValid_of_hasKey {s : JObj} {k : String} (hn : NumOrAbsent s k)
    (h : hasKey s k = true) (ok : ℚ → Bool) :
    boundValid s k ok = ok (toFloat64 ((lookup s k).getD .null)).toRat := by
  obtain ⟨v, hv⟩ := Option.isSome_iff_exists.1 h
  obtain ⟨f, rfl⟩ := hn v hv
  simp only [boundValid, numKeyword, hv, Option.map_some', Option.getD_some, toFloat64]

/-- One bound keyword `k`: where `a` sets it, `b` sets one that admits fewer quantities. -/
theorem boundValid_of_stronger {a b : JObj} {k : String} (ha : NumOrAbsent a k)
    (hb : NumOrAbsent b k) {ok : ℚ → Bool}
    (h : hasKey a k = true → hasKey b k = true ∧
      (ok (toFloat64 ((lookup b k).getD .null)).toRat = true →
        ok (toFloat64 ((lookup a k).getD .null)).toRat = true))
    (hv : boundValid b k ok = true) : boundValid a k ok = true := by
  cases hk : hasKey a k
  · exact boundValid_of_not_hasKey hk ok
  · obtain ⟨hbk, hmono⟩ := h hk
    rw [boundValid_of_hasKey hb hbk] at hv
    rw [boundValid_of_hasKey ha hk]
    exact hmono hv

/-- `lowerValid` reads the half-line `effectiveLowerBound` stands for. -/
theorem lowerValid_iff {s : JObj} (hw : WellFormed s)
    (has : (hasKey s "minimum" || hasKey s "exclusiveMinimum") = true) (q : ℚ) :
    lowerValid s q = true ↔ lowerSat (effectiveLowerBound s) q :=
  effectiveLowerBound_sat (hw.bounds _ (by decide)) (hw.bounds _ (by decide)) has q

/-- `upperValid` reads the half-line `effectiveUpperBound` stands for. -/
theorem upperValid_iff {s : JObj} (hw : WellFormed s)
    (has : (hasKey s "maximum" || hasKey s "exclusiveMaximum") = true) (q : ℚ) :
    upperValid s q = true ↔ upperSat (effectiveUpperBound s) q :=
  effectiveUpperBound_sat (hw.bounds _ (by decide)) (hw.bounds _ (by decide)) has q

theorem lowerValid_of_not_hasKey {s : JObj}
    (h : (hasKey s "minimum" || hasKey s "exclusiveMinimum") = false) (q : ℚ) :
    lowerValid s q = true := by
  simp only [Bool.or_eq_false_iff] at h
  simp only [lowerValid, boundValid_of_not_hasKey h.1, boundValid_of_not_hasKey h.2, Bool.and_self]

theorem upperValid_of_not_hasKey {s : JObj}
    (h : (hasKey s "maximum" || hasKey s "exclusiveMaximum") = false) (q : ℚ) :
    upperValid s q = true := by
  simp only [Bool.or_eq_false_iff] at h
  simp only [upperValid, boundValid_of_not_hasKey h.1, boundValid_of_not_hasKey h.2, Bool.and_self]

/-- `compatNumericBounds` on outputs: the candidate's range lies inside the target's. -/
theorem numberValid_out {t c : JObj} (hwt : WellFormed t) (hwc : WellFormed c) {x : JValue}
    (h : ∀ f, x = .num f → compatNumericBounds t c false = true) (hv : numberValid c x = true) :
    numberValid t x = true := by
  cases x with
  | num f =>
    have h := h f rfl
    rw [numberValid_num, Bool.and_eq_true] at hv ⊢
    unfold compatNumericBounds at h
    rcases hTL : effectiveLowerBound t with ⟨tLo, tLoE⟩
    rcases hCL : effectiveLowerBound c with ⟨cLo, cLoE⟩
    rcases hTH : effectiveUpperBound t with ⟨tHi, tHiE⟩
    rcases hCH : effectiveUpperBound c with ⟨cHi, cHiE⟩
    simp only [hTL, hCL, hTH, hCH, Bool.false_eq_true, ↓reduceIte, Bool.and_eq_true] at h
    constructor
    · cases ht : (hasKey t "minimum" || hasKey t "exclusiveMinimum")
      · exact lowerValid_of_not_hasKey ht _
      · simp only [ht, Bool.not_true, Bool.false_or, Bool.and_eq_true] at h
        refine (lowerValid_iff hwt ht _).2 (hTL ▸ lowerBoundGreaterOrEqual_sat h.1.2 ?_)
        exact hCL ▸ (lowerValid_iff hwc h.1.1 _).1 hv.1
    · cases ht : (hasKey t "maximum" || hasKey t "exclusiveMaximum")
      · exact upperValid_of_not_hasKey ht _
      · simp only [ht, Bool.not_true, Bool.false_or, Bool.and_eq_true] at h
        refine (upperValid_iff hwt ht _).2 (hTH ▸ upperBoundLessOrEqual_sat h.2.2 ?_)
        exact hCH ▸ (upperValid_iff hwc h.2.1 _).1 hv.2
  | _ => rfl

/-- `compatNumericBounds` on inputs: where both sides bound, the candidate's range reaches as
far; the candidate bounds only where the target does. -/
theorem numberValid_in {t c : JObj} (hwt : WellFormed t) (hwc : WellFormed c)
    (hlo : (hasKey c "minimum" || hasKey c "exclusiveMinimum") = true →
      (hasKey t "minimum" || hasKey t "exclusiveMinimum") = true)
    (hhi : (hasKey c "maximum" || hasKey c "exclusiveMaximum") = true →
      (hasKey t "maximum" || hasKey t "exclusiveMaximum") = true) {x : JValue}
    (h : ∀ f, x = .num f → compatNumericBounds t c true = true) (hv : numberValid t x = true) :
    numberValid c x = true := by
  cases x with
  | num f =>
    have h := h f rfl
    rw [numberValid_num, Bool.and_eq_true] at hv ⊢
    unfold compatNumericBounds at h
    rcases hTL : effectiveLowerBound t with ⟨tLo, tLoE⟩
    rcases hCL : effectiveLowerBound c with ⟨cLo, cLoE⟩
    rcases hTH : effectiveUpperBound t with ⟨tHi, tHiE⟩
    rcases hCH : effectiveUpperBound c with ⟨cHi, cHiE⟩
    simp only [hTL, hCL, hTH, hCH, ↓reduceIte, Bool.and_eq_true] at h
    constructor
    · cases hc : (hasKey c "minimum" || hasKey c "exclusiveMinimum")
      · exact lowerValid_of_not_hasKey hc _
      · have ht := hlo hc
        simp only [ht, hc, Bool.and_self, Bool.not_true, Bool.false_or] at h
        refine (lowerValid_iff hwc hc _).2 (hCL ▸ lowerBoundLessOrEqual_sat h.1 ?_)
        exact hTL ▸ (lowerValid_iff hwt ht _).1 hv.1
    · cases hc : (hasKey c "maximum" || hasKey c "exclusiveMaximum")
      · exact upperValid_of_not_hasKey hc _
      · have ht := hhi hc
        simp only [ht, hc, Bool.and_self, Bool.not_true, Bool.false_or] at h
        refine (upperValid_iff hwc hc _).2 (hCH ▸ upperBoundGreaterOrEqual_sat h.2 ?_)
        exact hTH ▸ (upperValid_iff hwt ht _).1 hv.2
  | _ => rfl

/-- `compatSimpleBounds` on outputs: where the target bounds the quantity, the candidate bounds
it at least as tightly. -/
theorem simpleBounds_out {t c : JObj} {minK maxK : String} (hwt : WellFormed t)
    (hwc : WellFormed c) (hk : minK ∈ boundKeywords ∧ maxK ∈ boundKeywords)
    (h : compatSimpleBounds t c false minK maxK = true) {n : ℚ}
    (hn : simpleValid c minK maxK n = true) : simpleValid t minK maxK n = true := by
  unfold compatSimpleBounds at h
  simp only [simpleValid, Bool.false_eq_true, ↓reduceIte, Bool.and_eq_true] at h hn ⊢
  refine ⟨boundValid_of_stronger (hwt.bounds _ hk.1) (hwc.bounds _ hk.1) (fun ht => ?_) hn.1,
    boundValid_of_stronger (hwt.bounds _ hk.2) (hwc.bounds _ hk.2) (fun ht => ?_) hn.2⟩ <;>
    simp only [ht, Bool.not_true, Bool.false_or, Bool.and_eq_true, Bool.not_eq_true',
      decide_eq_false_iff_not, Float64.lt_iff, not_lt] at h
  · exact ⟨h.1.1, fun hb => decide_eq_true (le_trans h.1.2 (of_decide_eq_true hb))⟩
  · exact ⟨h.2.1, fun hb => decide_eq_true (le_trans (of_decide_eq_true hb) h.2.2)⟩

/-- `compatSimpleBounds` on inputs: where both sides bound the quantity, the candidate's bound
admits as much; the candidate bounds only where the target does. -/
theorem simpleBounds_in {t c : JObj} {minK maxK : String} (hwt : WellFormed t)
    (hwc : WellFormed c) (hk : minK ∈ boundKeywords ∧ maxK ∈ boundKeywords)
    (hmin : hasKey c minK = true → hasKey t minK = true)
    (hmax : hasKey c maxK = true → hasKey t maxK = true)
    (h : compatSimpleBounds t c true minK maxK = true) {n : ℚ}
    (hn : simpleValid t minK maxK n = true) : simpleValid c minK maxK n = true := by
  unfold compatSimpleBounds at h
  simp only [simpleValid, ↓reduceIte, Bool.and_eq_true] at h hn ⊢
  refine ⟨boundValid_of_stronger (hwc.bounds _ hk.1) (hwt.bounds _ hk.1) (fun hc => ?_) hn.1,
    boundValid_of_stronger (hwc.bounds _ hk.2) (hwt.bounds _ hk.2) (fun hc => ?_) hn.2⟩
  · have ht := hmin hc
    simp only [ht, hc, Bool.and_self, Bool.not_true, Bool.false_or, Bool.not_eq_true',
      decide_eq_false_iff_not, Float64.lt_iff, not_lt] at h
    exact ⟨ht, fun hb => decide_eq_true (le_trans h.1 (of_decide_eq_true hb))⟩
  · have ht := hmax hc
    simp only [ht, hc, Bool.and_self, Bool.not_true, Bool.false_or, Bool.not_eq_true',
      decide_eq_false_iff_not, Float64.lt_iff, not_lt] at h
    exact ⟨ht, fun hb => decide_eq_true (le_trans (of_decide_eq_true hb) h.2)⟩

/-- The length bounds of strings and the size bounds of arrays, on outputs. -/
theorem lengthValid_out {t c : JObj} (hwt : WellFormed t) (hwc : WellFormed c) {x : JValue}
    (hstr : ∀ w, x = .str w → compatStringBounds t c false = true)
    (harr : ∀ xs, x = .arr xs → compatArrayBounds t c false = true)
    (hv : lengthValid c x = true) : lengthValid t x = true := by
  cases x with
  | str w => exact simpleBounds_out hwt hwc (by decide) (hstr w rfl) hv
  | arr xs => exact simpleBounds_out hwt hwc (by decide) (harr xs rfl) hv
  | _ => rfl

/-- The length bounds of strings and the size bounds of arrays, on inputs. -/
theorem lengthValid_in {t c : JObj} (hwt : WellFormed t) (hwc : WellFormed c)
    (hk : ∀ k ∈ ["minLength", "maxLength", "minItems", "maxItems"], hasKey c k = true →
      hasKey t k = true) {x : JValue}
    (hstr : ∀ w, x = .str w → compatStringBounds t c true = true)
    (harr : ∀ xs, x = .arr xs → compatArrayBounds t c true = true)
    (hv : lengthValid t x = true) : lengthValid c x = true := by
  cases x with
  | str w =>
    exact simpleBounds_in hwt hwc (by decide) (hk _ (by simp)) (hk _ (by simp)) (hstr w rfl) hv
  | arr xs =>
    exact simpleBounds_in hwt hwc (by decide) (hk _ (by simp)) (hk _ (by simp)) (harr xs rfl) hv
  | _ => rfl

/-! #### Objects -/

theorem propertiesValid_obj (rec : JObj → JValue → Bool) (s m : JObj) :
    propertiesValid rec s (.obj m) = m.all (propertyValid rec (objAt s "properties")) := by
  unfold propertiesValid objAt asMapOrEmpty
  cases lookup s "properties" with
  | some v => cases v <;> first | rfl | exact (List.all_eq_true.2 fun _ _ => rfl).symm
  | none => exact (List.all_eq_true.2 fun _ _ => rfl).symm

theorem declared_eq (s : JObj) (k : String) : declared s k = hasKey (objAt s "properties") k := by
  unfold declared objAt asMapOrEmpty
  cases lookup s "properties" with
  | some v => cases v <;> rfl
  | none => rfl

theorem additionalPropertiesValid_obj (rec : JObj → JValue → Bool) (s m : JObj) :
    additionalPropertiesValid rec s (.obj m) = (lookup s "additionalProperties").elim true
      fun ap => m.all fun kv => hasKey (objAt s "properties") kv.1 || subschemaValid rec ap kv.2 := by
  unfold additionalPropertiesValid
  cases lookup s "additionalProperties" <;> simp only [declared_eq, Option.elim]

/-- Under `additionalProperties: false`, every member of a valid object is declared. -/
theorem declared_of_closed {rec : JObj → JValue → Bool} {s m : JObj}
    (hs : lookup s "additionalProperties" = some (.bool false))
    (hv : additionalPropertiesValid rec s (.obj m) = true) :
    ∀ kv ∈ m, hasKey (objAt s "properties") kv.1 = true := by
  rw [additionalPropertiesValid_obj, hs] at hv
  intro kv hkv
  simpa [subschemaValid] using List.all_eq_true.1 hv kv hkv

/-- A name the schema declares has a schema there, an object when the schema is well formed. -/
theorem propSchema_of_hasKey {s : JObj} (hw : WellFormed s) {p : String}
    (h : hasKey (objAt s "properties") p = true) :
    ∃ m, lookup (objAt s "properties") p = some (.obj m) := by
  obtain ⟨v, hv⟩ := Option.isSome_iff_exists.1 h
  obtain ⟨m, rfl⟩ := hw.propSchemas _ _ hv
  exact ⟨m, hv⟩

/-- What `compatObject` checks on outputs, one conjunct each. -/
theorem compatObject_out {rec : JObj → JObj → Bool → Bool} {t c : JObj}
    (h : compatObject rec t c false = true) :
    (stringSet (lookup t "required")).all (· ∈ stringSet (lookup c "required")) = true ∧
    (∀ p cv, (p, cv) ∈ objAt c "properties" →
      (hasKey (objAt t "properties") p = true ∨
        lookup t "additionalProperties" ≠ some (.bool false)) ∧
      ∀ tvm cvm, lookup (objAt t "properties") p = some (.obj tvm) → cv = .obj cvm →
        rec tvm cvm false = true) ∧
    (match lookup t "additionalProperties", lookup c "additionalProperties" with
      | some (.bool false), some (.bool apCand) => !apCand
      | some (.bool false), _ => false
      | some (.obj apTgt), some (.obj apCand) => rec apTgt apCand false
      | some (.obj _), some (.bool false) => true
      | some (.obj _), _ => false
      | _, _ => true) = true := by
  unfold compatObject at h
  simp only [Bool.false_eq_true, ↓reduceIte, Bool.and_eq_true, List.all_eq_true] at h
  refine ⟨List.all_eq_true.2 h.1.1, fun p cv hpc => ?_, h.2⟩
  have hp := h.1.2 (p, cv) hpc
  simp only [Bool.and_eq_true, Bool.or_eq_true, bne_iff_ne, ne_eq] at hp
  refine ⟨hp.1, fun tvm cvm ht hc => ?_⟩
  have hm := hp.2
  rw [ht, hc] at hm
  exact hm

/-- What `compatObject` checks on inputs. -/
theorem compatObject_in {rec : JObj → JObj → Bool → Bool} {t c : JObj}
    (h : compatObject rec t c true = true) :
    (stringSet (lookup c "required")).all (· ∈ stringSet (lookup t "required")) = true ∧
    ∀ p tvm cvm, (p, .obj tvm) ∈ objAt t "properties" →
      lookup (objAt c "properties") p = some (.obj cvm) → rec tvm cvm true = true := by
  unfold compatObject at h
  simp only [↓reduceIte, Bool.and_eq_true, List.all_eq_true] at h
  refine ⟨List.all_eq_true.2 h.1, fun p tvm cvm hpt hc => ?_⟩
  have hm := h.2 (p, .obj tvm) hpt
  simp only [hc] at hm
  exact hm

/-- `properties` on outputs: a member the target's `properties` names, the candidate's names
too, with a schema that the target's for it accepts every instance of. -/
theorem properties_out {cmp : JObj → JObj → Bool → Bool} {recT recC : JObj → JValue → Bool}
    {t c : JObj} (hwt : WellFormed t) (hwc : WellFormed c) {x : JValue}
    (hobj : ∀ m, x = .obj m → compatObject cmp t c false = true)
    (named : ∀ m, x = .obj m → ∀ kv ∈ m, hasKey (objAt t "properties") kv.1 = true →
      hasKey (objAt c "properties") kv.1 = true)
    (step : ∀ p tv cv, lookup (objAt t "properties") p = some (.obj tv) →
      lookup (objAt c "properties") p = some (.obj cv) → cmp tv cv false = true →
      ∀ y, recC cv y = true → recT tv y = true)
    (hv : propertiesValid recC c x = true) : propertiesValid recT t x = true := by
  cases x with
  | obj m =>
    rw [propertiesValid_obj] at hv ⊢
    refine List.all_eq_true.2 fun kv hkv => ?_
    have hvc := List.all_eq_true.1 hv kv hkv
    unfold propertyValid at hvc ⊢
    cases hlt : lookup (objAt t "properties") kv.1 with
    | none => rfl
    | some sub =>
      obtain ⟨tv, rfl⟩ := hwt.propSchemas _ _ hlt
      obtain ⟨cv, hlc⟩ := propSchema_of_hasKey hwc (named m rfl kv hkv (by simp [hasKey, hlt]))
      have hg := (compatObject_out (hobj m rfl)).2.1 _ _ (lookup_eq_some_mem hlc) |>.2 tv cv hlt rfl
      rw [hlc] at hvc
      exact step _ _ _ hlt hlc hg _ hvc
  | _ => rfl

/-- `properties` on inputs: a member the candidate's `properties` names, the target's names too,
with a schema whose instances the candidate's for it accepts. -/
theorem properties_in {cmp : JObj → JObj → Bool → Bool} {recT recC : JObj → JValue → Bool}
    {t c : JObj} (hwt : WellFormed t) (hwc : WellFormed c) {x : JValue}
    (hobj : ∀ m, x = .obj m → compatObject cmp t c true = true)
    (named : ∀ m, x = .obj m → ∀ kv ∈ m, hasKey (objAt c "properties") kv.1 = true →
      hasKey (objAt t "properties") kv.1 = true)
    (step : ∀ p tv cv, lookup (objAt t "properties") p = some (.obj tv) →
      lookup (objAt c "properties") p = some (.obj cv) → cmp tv cv true = true →
      ∀ y, recT tv y = true → recC cv y = true)
    (hv : propertiesValid recT t x = true) : propertiesValid recC c x = true := by
  cases x with
  | obj m =>
    rw [propertiesValid_obj] at hv ⊢
    refine List.all_eq_true.2 fun kv hkv => ?_
    have hvt := List.all_eq_true.1 hv kv hkv
    unfold propertyValid at hvt ⊢
    cases hlc : lookup (objAt c "properties") kv.1 with
    | none => rfl
    | some sub =>
      obtain ⟨cv, rfl⟩ := hwc.propSchemas _ _ hlc
      obtain ⟨tv, hlt⟩ := propSchema_of_hasKey hwt (named m rfl kv hkv (by simp [hasKey, hlc]))
      have hg := (compatObject_in (hobj m rfl)).2 _ tv cv (lookup_eq_some_mem hlt) hlc
      rw [hlt] at hvt
      exact step _ _ _ hlt hlc hg _ hvt
  | _ => rfl

/-- `additionalProperties` on outputs: a member the target leaves to `additionalProperties` is
left to a candidate schema it accepts every instance of, or is not allowed by the candidate. -/
theorem additional_out {cmp : JObj → JObj → Bool → Bool} {recT recC : JObj → JValue → Bool}
    {t c : JObj} {x : JValue} (hobj : ∀ m, x = .obj m → compatObject cmp t c false = true)
    (extra : ∀ ma, lookup t "additionalProperties" = some (.obj ma) →
      ∀ p, hasKey (objAt c "properties") p = true → hasKey (objAt t "properties") p = true)
    (step : ∀ ta ca, lookup t "additionalProperties" = some (.obj ta) →
      lookup c "additionalProperties" = some (.obj ca) → cmp ta ca false = true →
      ∀ y, recC ca y = true → recT ta y = true)
    (hv : additionalPropertiesValid recC c x = true) :
    additionalPropertiesValid recT t x = true := by
  cases x with
  | obj m =>
    obtain ⟨-, hcands, hap⟩ := compatObject_out (hobj m rfl)
    have hvc := hv
    rw [additionalPropertiesValid_obj] at hv ⊢
    cases hta : lookup t "additionalProperties" with
    | none => rfl
    | some ap =>
      refine List.all_eq_true.2 fun kv hkv => ?_
      rw [Bool.or_eq_true]
      cases ap with
      | bool b =>
        cases b with
        | true => exact .inr rfl
        | false =>
          refine .inl ?_
          cases hca : lookup c "additionalProperties" with
          | some v =>
            cases v with
            | bool bc =>
              simp only [hta, hca, Bool.not_eq_true'] at hap
              subst hap
              obtain ⟨cv, hlc⟩ := Option.isSome_iff_exists.1 (declared_of_closed hca hvc kv hkv)
              exact ((hcands _ _ (lookup_eq_some_mem hlc)).1.resolve_right (by simp [hta]))
            | _ => simp [hta, hca] at hap
          | none => simp [hta, hca] at hap
      | obj ta =>
        cases hca : lookup c "additionalProperties" with
        | some v =>
          cases v with
          | obj ca =>
            simp only [hta, hca] at hap
            rw [hca] at hv
            have hk := List.all_eq_true.1 hv kv hkv
            rw [Bool.or_eq_true] at hk
            exact hk.imp (extra ta hta _) (step ta ca hta hca hap _)
          | bool bc =>
            cases bc with
            | false => exact .inl (extra ta hta _ (declared_of_closed hca hvc kv hkv))
            | true => simp [hta, hca] at hap
          | _ => simp [hta, hca] at hap
        | none => simp [hta, hca] at hap
      | _ => exact .inr rfl
  | _ => rfl

/-! #### Arrays -/

theorem compat_cand_nil {g : Nat} {t : JObj} (h : compat g t [] false = true) : t = [] := by
  cases g with
  | zero => exact absurd h Bool.false_ne_true
  | succ g =>
    by_contra ht
    simp [compat, compatStep, ht] at h

theorem compat_tgt_nil {g : Nat} {c : JObj} (h : compat g [] c true = true) : c = [] := by
  cases g with
  | zero => exact absurd h Bool.false_ne_true
  | succ g => simpa [compat, compatStep] using h

/-- `items` on outputs: elements valid against the candidate's `items` are valid against the
target's; a missing candidate `items` passes only an empty target one. -/
theorem items_out {g : Nat} {recT recC : JObj → JValue → Bool} {t c : JObj}
    (hwt : WellFormed t) (hnil : ∀ y, recT [] y = true) {x : JValue}
    (harr : ∀ xs, x = .arr xs → compat g (objAt t "items") (objAt c "items") false = true)
    (step : ∀ ti ci, lookup t "items" = some (.obj ti) → lookup c "items" = some (.obj ci) →
      compat g ti ci false = true → ∀ y, recC ci y = true → recT ti y = true)
    (hv : itemsValid recC c x = true) : itemsValid recT t x = true := by
  cases x with
  | arr xs =>
    have h := harr xs rfl
    unfold itemsValid at hv ⊢
    cases hti : lookup t "items" with
    | none => rfl
    | some v =>
      obtain ⟨ti, rfl⟩ := hwt.items _ hti
      simp only [objAt, asMapOrEmpty, hti] at h
      refine List.all_eq_true.2 fun y hy => ?_
      cases hci : lookup c "items" with
      | some w =>
        cases w with
        | obj ci =>
          rw [hci] at hv h
          exact step ti ci hti hci h y (List.all_eq_true.1 hv y hy)
        | _ => rw [hci] at h; rw [compat_cand_nil h]; exact hnil y
      | none => rw [hci] at h; rw [compat_cand_nil h]; exact hnil y
  | _ => rfl

/-- `items` on inputs: elements valid against the target's `items` are valid against the
candidate's; a missing target `items` passes only an empty candidate one. -/
theorem items_in {g : Nat} {recT recC : JObj → JValue → Bool} {t c : JObj}
    (hwc : WellFormed c) (hnil : ∀ y, recC [] y = true) {x : JValue}
    (harr : ∀ xs, x = .arr xs → compat g (objAt t "items") (objAt c "items") true = true)
    (step : ∀ ti ci, lookup t "items" = some (.obj ti) → lookup c "items" = some (.obj ci) →
      compat g ti ci true = true → ∀ y, recT ti y = true → recC ci y = true)
    (hv : itemsValid recT t x = true) : itemsValid recC c x = true := by
  cases x with
  | arr xs =>
    have h := harr xs rfl
    unfold itemsValid at hv ⊢
    cases hci : lookup c "items" with
    | none => rfl
    | some v =>
      obtain ⟨ci, rfl⟩ := hwc.items _ hci
      simp only [objAt, asMapOrEmpty, hci] at h
      refine List.all_eq_true.2 fun y hy => ?_
      cases hti : lookup t "items" with
      | some w =>
        cases w with
        | obj ti =>
          rw [hti] at hv h
          exact step ti ci hti hci h y (List.all_eq_true.1 hv y hy)
        | _ => rw [hti] at h; rw [compat_tgt_nil h]; exact hnil y
      | none => rw [hti] at h; rw [compat_tgt_nil h]; exact hnil y
  | _ => rfl

/-! #### Unions -/

theorem objects_eq_some {xs : List JValue} {vs : List JObj} (h : objects xs = some vs) :
    xs = vs.map .obj := by
  induction xs generalizing vs with
  | nil => cases h; rfl
  | cons x rest ih =>
    cases x with
    | obj m =>
      obtain ⟨ws, hws, rfl⟩ := Option.map_eq_some'.1 h
      rw [ih hws]; rfl
    | _ => cases h

/-- The variants the decider reads are the objects of `oneOf`, else of `anyOf`. -/
theorem unionVariants_eq_some {s : JObj} {vs : List JObj} (hu : unionVariants s = some vs) :
    lookup s "oneOf" = some (.arr (vs.map .obj)) ∨
      (lookup s "oneOf" = none ∧ lookup s "anyOf" = some (.arr (vs.map .obj))) := by
  have of_slice : ∀ v, (asSlice v).bind objects = some vs → v = .arr (vs.map .obj) := by
    intro v hv
    obtain ⟨xs, hxs, hobj⟩ := Option.bind_eq_some.1 hv
    cases v <;> cases hxs
    rw [objects_eq_some hobj]
  unfold unionVariants at hu
  cases ho : lookup s "oneOf" with
  | some o => rw [ho] at hu; exact .inl (congrArg some (of_slice o hu))
  | none =>
    cases ha : lookup s "anyOf" with
    | some a => rw [ho, ha] at hu; exact .inr ⟨rfl, congrArg some (of_slice a hu)⟩
    | none => rw [ho, ha] at hu; cases hu

theorem any_map_obj (rec : JObj → JValue → Bool) (vs : List JObj) (x : JValue) :
    (vs.map JValue.obj).any (fun v => subschemaValid rec v x) = vs.any (rec · x) := by
  induction vs with
  | nil => rfl
  | cons v vs ih => simp only [List.map_cons, List.any_cons, ih]; rfl

/-- An instance valid against a union satisfies one of the variants the decider reads. -/
theorem exists_variant {rec : JObj → JValue → Bool} {s : JObj} {vs : List JObj} {x : JValue}
    (hu : unionVariants s = some vs)
    (hv : anyOfValid rec s x = true ∧ oneOfValid true rec s x = true) :
    ∃ v ∈ vs, rec v x = true := by
  rcases unionVariants_eq_some hu with ho | ⟨-, ha⟩
  · have h := hv.2
    simp only [oneOfValid, ho, ↓reduceIte, any_map_obj, List.any_eq_true] at h
    exact h
  · have h := hv.1
    simp only [anyOfValid, ha, any_map_obj, List.any_eq_true] at h
    exact h

/-- A union with one of `oneOf` and `anyOf` accepts an instance one of its variants accepts. -/
theorem unionValid_of_variant {rec : JObj → JValue → Bool} {s : JObj} {vs : List JObj}
    (hu : unionVariants s = some vs)
    (hboth : ¬ (hasKey s "oneOf" = true ∧ hasKey s "anyOf" = true)) {v : JObj} (hv : v ∈ vs)
    {x : JValue} (hx : rec v x = true) :
    anyOfValid rec s x = true ∧ oneOfValid true rec s x = true := by
  have hany : vs.any (rec · x) = true := List.any_eq_true.2 ⟨v, hv, hx⟩
  rcases unionVariants_eq_some hu with ho | ⟨ho, ha⟩
  · have ha : lookup s "anyOf" = none := hasKey_eq_false.1 <| by
      cases h' : hasKey s "anyOf"
      · rfl
      · exact absurd ⟨by simp [hasKey, ho], h'⟩ hboth
    simp only [anyOfValid, oneOfValid, ho, ha, ↓reduceIte, any_map_obj, hany, and_self]
  · simp only [anyOfValid, oneOfValid, ho, ha, any_map_obj, hany, and_self]

theorem unionValid_of_not_hasUnion {rec : JObj → JValue → Bool} {s : JObj} (b : Bool)
    (h : hasUnion s = false) (x : JValue) :
    anyOfValid rec s x = true ∧ oneOfValid b rec s x = true := by
  simp only [hasUnion, Bool.or_eq_false_iff, hasKey_eq_false] at h
  simp only [anyOfValid, oneOfValid, h.1, h.2, and_self]

/-- `compatUnion` on outputs: the variant of the candidate an instance satisfies is contained in
a variant of the target. -/
theorem union_out {cmp : JObj → JObj → Bool → Bool} {recT recC : JObj → JValue → Bool}
    {t c : JObj} {x : JValue} (hboth : ¬ (hasKey t "oneOf" = true ∧ hasKey t "anyOf" = true))
    (h : (!(hasUnion t || hasUnion c) || compatUnion cmp t c false) = true)
    (step : ∀ vs ws, unionVariants t = some vs → unionVariants c = some ws →
      ∀ v ∈ vs, ∀ w ∈ ws, cmp v w false = true → recC w x = true → recT v x = true)
    (hv : anyOfValid recC c x = true ∧ oneOfValid true recC c x = true) :
    anyOfValid recT t x = true ∧ oneOfValid true recT t x = true := by
  cases hu : (hasUnion t || hasUnion c)
  · exact unionValid_of_not_hasUnion true (Bool.or_eq_false_iff.1 hu).1 x
  · simp only [hu, Bool.not_true, Bool.false_or] at h
    unfold compatUnion at h
    cases hut : unionVariants t <;> cases huc : unionVariants c <;>
      simp only [hut, huc, Bool.false_eq_true, ↓reduceIte, List.all_eq_true,
        List.any_eq_true] at h
    obtain ⟨w, hw, hwx⟩ := exists_variant huc hv
    obtain ⟨v, hv', hg⟩ := h w hw
    exact unionValid_of_variant hut hboth hv' (step _ _ hut huc v hv' w hw hg hwx)

/-- `compatUnion` on inputs: the variant of the target an instance satisfies is contained in a
variant of the candidate. -/
theorem union_in {cmp : JObj → JObj → Bool → Bool} {recT recC : JObj → JValue → Bool}
    {t c : JObj} {x : JValue} (hboth : ¬ (hasKey c "oneOf" = true ∧ hasKey c "anyOf" = true))
    (h : (!(hasUnion t || hasUnion c) || compatUnion cmp t c true) = true)
    (step : ∀ vs ws, unionVariants t = some vs → unionVariants c = some ws →
      ∀ v ∈ vs, ∀ w ∈ ws, cmp v w true = true → recT v x = true → recC w x = true)
    (hv : anyOfValid recT t x = true ∧ oneOfValid true recT t x = true) :
    anyOfValid recC c x = true ∧ oneOfValid true recC c x = true := by
  cases hu : (hasUnion t || hasUnion c)
  · exact unionValid_of_not_hasUnion true (Bool.or_eq_false_iff.1 hu).2 x
  · simp only [hu, Bool.not_true, Bool.false_or] at h
    unfold compatUnion at h
    cases hut : unionVariants t <;> cases huc : unionVariants c <;>
      simp only [hut, huc, ↓reduceIte, List.all_eq_true, List.any_eq_true, Bool.false_eq_true] at h
    obtain ⟨v, hv', hvx⟩ := exists_variant hut hv
    obtain ⟨w, hw, hg⟩ := h v hv'
    exact unionValid_of_variant huc hboth hw (step _ _ hut huc v hv' w hw hg hvx)

end OpenBindings.SchemaProfile
