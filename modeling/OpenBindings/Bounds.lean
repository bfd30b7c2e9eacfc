import OpenBindings.Validation
import Mathlib.Algebra.Order.Field.Power
import Mathlib.Tactic.Linarith

/-! # Numeric bounds as half-lines

Go compares doubles exactly, so a comparison of two `Float64` is the comparison of their values
(`Float64.blt_iff`). A lower bound `(v, excl)` stands for the half-line `x ≥ v`, or `x > v` when
it is exclusive (`lowerSat`), and dually for an upper bound. `effectiveLowerBound` is the
intersection of the half-lines of `minimum` and `exclusiveMinimum` (`effectiveLowerBound_sat`),
and each of the four comparators of `compat.go` answers `true` only when one half-line lies
inside the other (`lowerBoundGreaterOrEqual_sat` and the others). -/

namespace OpenBindings

namespace Float64

theorem toRat_eq (f : Float64) : f.toRat = (f.num : ℚ) * (2 : ℚ) ^ f.exp := by
  unfold toRat
  split
  · rename_i h
    conv_rhs => rw [← Int.toNat_of_nonneg h, zpow_natCast]
    push_cast; rfl
  · rename_i h
    conv_rhs => rw [show f.exp = -((-f.exp).toNat : ℤ) by rw [Int.toNat_of_nonneg (by omega)]; omega,
      zpow_neg, zpow_natCast]
    push_cast; rw [div_eq_mul_inv]

/-- Go's `<` on doubles is `<` on their values: both sides are scaled to the smaller exponent. -/
theorem blt_iff (a b : Float64) : a.blt b = true ↔ a.toRat < b.toRat := by
  unfold blt
  rw [decide_eq_true_iff, toRat_eq, toRat_eq]
  have pow_split : ∀ x e : ℤ, e ≤ x → (2 : ℚ) ^ x = (2 ^ (x - e).toNat : ℕ) * 2 ^ e := by
    intro x e he
    rw [Nat.cast_pow, Nat.cast_ofNat, ← zpow_natCast, ← zpow_add₀ two_ne_zero,
      Int.toNat_of_nonneg (by omega), sub_add_cancel]
  rw [pow_split a.exp (min a.exp b.exp) (min_le_left _ _),
    pow_split b.exp (min a.exp b.exp) (min_le_right _ _), ← mul_assoc, ← mul_assoc,
    mul_lt_mul_right (zpow_pos two_pos _)]
  exact_mod_cast Iff.rfl

theorem lt_iff {a b : Float64} : a < b ↔ a.toRat < b.toRat := blt_iff a b

theorem le_iff {a b : Float64} : a ≤ b ↔ a.toRat ≤ b.toRat := not_congr lt_iff |>.trans not_lt

end Float64

namespace SchemaProfile

open Float64

/-- The keyword `k`, when present, holds a number. -/
def NumOrAbsent (s : JObj) (k : String) : Prop := ∀ v, lookup s k = some v → ∃ f, v = .num f

/-- The half-line of a lower bound: `q ≥ v`, or `q > v` when the bound is exclusive. -/
def lowerSat (b : Float64 × Bool) (q : ℚ) : Prop := if b.2 then b.1.toRat < q else b.1.toRat ≤ q

/-- The half-line of an upper bound: `q ≤ v`, or `q < v` when the bound is exclusive. -/
def upperSat (b : Float64 × Bool) (q : ℚ) : Prop := if b.2 then q < b.1.toRat else q ≤ b.1.toRat

/-- `boundLE a b tieFails`: `a` below `b`, or equal to it with a tie that holds. -/
theorem boundLE_iff {a b : Float64} {t : Bool} :
    boundLE a b t = true ↔ a.toRat < b.toRat ∨ (a.toRat = b.toRat ∧ t = false) := by
  unfold boundLE
  by_cases hab : a < b
  · simp only [hab, if_true, true_iff]; exact .inl (lt_iff.1 hab)
  · have hab' : ¬ a.toRat < b.toRat := fun h => hab (lt_iff.2 h)
    by_cases hba : b < a
    · have hba' : b.toRat < a.toRat := lt_iff.1 hba
      simp only [hab, hba, ite_true, ite_false, Bool.false_eq_true, false_iff, not_or, not_and]
      exact ⟨hab', fun h => absurd h (ne_of_gt hba')⟩
    · have hba' : ¬ b.toRat < a.toRat := fun h => hba (lt_iff.2 h)
      simp only [hab, hba, hab', ite_false, Bool.not_eq_true', false_or]
      exact ⟨fun h => ⟨le_antisymm (not_lt.1 hba') (not_lt.1 hab'), h⟩, And.right⟩

/-- A lower half-line contains another exactly when its bound is below the other's, or equal to
it and not exclusive where the other is inclusive. -/
theorem lowerSat_subset_iff {a b : Float64} {ae be : Bool} :
    (∀ q, lowerSat (b, be) q → lowerSat (a, ae) q) ↔
      a.toRat < b.toRat ∨ (a.toRat = b.toRat ∧ (ae && !be) = false) := by
  constructor
  · intro h
    rcases lt_trichotomy a.toRat b.toRat with hab | hab | hab
    · exact .inl hab
    · refine .inr ⟨hab, ?_⟩
      have := h b.toRat
      cases ae <;> cases be <;> simp_all [lowerSat]
    · have := h ((a.toRat + b.toRat) / 2) (by cases be <;> simp only [lowerSat] <;> split_ifs <;> linarith)
      cases ae <;> simp only [lowerSat, Bool.false_eq_true, ite_true, ite_false] at this <;> linarith
  · rintro (hab | ⟨hab, ht⟩) q hq <;> cases ae <;> cases be <;> simp_all [lowerSat] <;> linarith

/-- An upper half-line lies inside another exactly when its bound is below the other's, or equal
to it and not inclusive where the other is exclusive. -/
theorem upperSat_subset_iff {a b : Float64} {ae be : Bool} :
    (∀ q, upperSat (a, ae) q → upperSat (b, be) q) ↔
      a.toRat < b.toRat ∨ (a.toRat = b.toRat ∧ (be && !ae) = false) := by
  constructor
  · intro h
    rcases lt_trichotomy a.toRat b.toRat with hab | hab | hab
    · exact .inl hab
    · refine .inr ⟨hab, ?_⟩
      have := h a.toRat
      cases ae <;> cases be <;> simp_all [upperSat]
    · have := h ((a.toRat + b.toRat) / 2) (by cases ae <;> simp only [upperSat] <;> split_ifs <;> linarith)
      cases be <;> simp only [upperSat, Bool.false_eq_true, ite_true, ite_false] at this <;> linarith
  · rintro (hab | ⟨hab, ht⟩) q hq <;> cases ae <;> cases be <;> simp_all [upperSat] <;> linarith

/-- An output's lower bound `(a, aExcl)` at least `(b, bExcl)`: its half-line lies inside. -/
theorem lowerBoundGreaterOrEqual_sat {a b : Float64} {aExcl bExcl : Bool}
    (h : lowerBoundGreaterOrEqual a aExcl b bExcl = true) {q : ℚ} (hq : lowerSat (a, aExcl) q) :
    lowerSat (b, bExcl) q := by
  unfold lowerBoundGreaterOrEqual at h
  rcases boundLE_iff.1 h with hlt | ⟨heq, ht⟩ <;> cases aExcl <;> cases bExcl <;>
    simp_all [lowerSat] <;> linarith

/-- An input's lower bound `(a, aExcl)` at most `(b, bExcl)`: its half-line contains the other. -/
theorem lowerBoundLessOrEqual_sat {a b : Float64} {aExcl bExcl : Bool}
    (h : lowerBoundLessOrEqual a aExcl b bExcl = true) {q : ℚ} (hq : lowerSat (b, bExcl) q) :
    lowerSat (a, aExcl) q := by
  unfold lowerBoundLessOrEqual at h
  rcases boundLE_iff.1 h with hlt | ⟨heq, ht⟩ <;> cases aExcl <;> cases bExcl <;>
    simp_all [lowerSat] <;> linarith

/-- An output's upper bound `(a, aExcl)` at most `(b, bExcl)`: its half-line lies inside. -/
theorem upperBoundLessOrEqual_sat {a b : Float64} {aExcl bExcl : Bool}
    (h : upperBoundLessOrEqual a aExcl b bExcl = true) {q : ℚ} (hq : upperSat (a, aExcl) q) :
    upperSat (b, bExcl) q := by
  unfold upperBoundLessOrEqual at h
  rcases boundLE_iff.1 h with hlt | ⟨heq, ht⟩ <;> cases aExcl <;> cases bExcl <;>
    simp_all [upperSat] <;> linarith

/-- An input's upper bound `(a, aExcl)` at least `(b, bExcl)`: its half-line contains the other. -/
theorem upperBoundGreaterOrEqual_sat {a b : Float64} {aExcl bExcl : Bool}
    (h : upperBoundGreaterOrEqual a aExcl b bExcl = true) {q : ℚ} (hq : upperSat (b, bExcl) q) :
    upperSat (a, aExcl) q := by
  unfold upperBoundGreaterOrEqual at h
  rcases boundLE_iff.1 h with hlt | ⟨heq, ht⟩ <;> cases aExcl <;> cases bExcl <;>
    simp_all [upperSat] <;> linarith

/-- `effectiveLowerBound` is the intersection of the half-lines of the lower-bound keywords
present, each value read as `toFloat64` reads it. -/
theorem effectiveLowerBound_iff {s : JObj}
    (has : (hasKey s "minimum" || hasKey s "exclusiveMinimum") = true) (q : ℚ) :
    lowerSat (effectiveLowerBound s) q ↔
      (∀ m, lookup s "minimum" = some m → (toFloat64 m).toRat ≤ q) ∧
        ∀ e, lookup s "exclusiveMinimum" = some e → (toFloat64 e).toRat < q := by
  unfold effectiveLowerBound
  rcases hlm : lookup s "minimum" with _ | m <;> rcases hle : lookup s "exclusiveMinimum" with _ | e
  · simp [hasKey, hlm, hle] at has
  · simp [lowerSat]
  · simp [lowerSat]
  · simp only [le_iff, Option.some.injEq, forall_eq']
    split_ifs with hme <;> simp only [lowerSat, Bool.false_eq_true, ite_true, ite_false] <;>
      constructor
    · exact fun h => ⟨by linarith, h⟩
    · exact And.right
    · exact fun h => ⟨h, by linarith⟩
    · exact And.left

/-- `effectiveUpperBound` is the intersection of the half-lines of the upper-bound keywords
present. -/
theorem effectiveUpperBound_iff {s : JObj}
    (has : (hasKey s "maximum" || hasKey s "exclusiveMaximum") = true) (q : ℚ) :
    upperSat (effectiveUpperBound s) q ↔
      (∀ m, lookup s "maximum" = some m → q ≤ (toFloat64 m).toRat) ∧
        ∀ e, lookup s "exclusiveMaximum" = some e → q < (toFloat64 e).toRat := by
  unfold effectiveUpperBound
  rcases hlm : lookup s "maximum" with _ | m <;> rcases hle : lookup s "exclusiveMaximum" with _ | e
  · simp [hasKey, hlm, hle] at has
  · simp [upperSat]
  · simp [upperSat]
  · simp only [le_iff, Option.some.injEq, forall_eq']
    split_ifs with hme <;> simp only [upperSat, Bool.false_eq_true, ite_true, ite_false] <;>
      constructor
    · exact fun h => ⟨by linarith, h⟩
    · exact And.right
    · exact fun h => ⟨h, by linarith⟩
    · exact And.left

/-- A bound keyword whose value is a number or absent admits `q` exactly when its value does. -/
theorem boundValid_iff {s : JObj} {k : String} (hk : NumOrAbsent s k) (ok : ℚ → Bool) :
    boundValid s k ok = true ↔ ∀ v, lookup s k = some v → ok (toFloat64 v).toRat = true := by
  unfold boundValid numKeyword
  cases h : lookup s k with
  | none => simp
  | some v => obtain ⟨f, rfl⟩ := hk v h; simp [toFloat64]

/-- `effectiveLowerBound` is the intersection of the half-lines of `minimum` and
`exclusiveMinimum`, on a schema that has one of them. -/
theorem effectiveLowerBound_sat {s : JObj} (hm : NumOrAbsent s "minimum")
    (he : NumOrAbsent s "exclusiveMinimum")
    (has : (hasKey s "minimum" || hasKey s "exclusiveMinimum") = true) (q : ℚ) :
    (boundValid s "minimum" (fun b => decide (b ≤ q)) &&
        boundValid s "exclusiveMinimum" (fun b => decide (b < q))) = true ↔
      lowerSat (effectiveLowerBound s) q := by
  rw [Bool.and_eq_true, boundValid_iff hm, boundValid_iff he, effectiveLowerBound_iff has]
  simp only [decide_eq_true_eq]

/-- `effectiveUpperBound` is the intersection of the half-lines of `maximum` and
`exclusiveMaximum`, on a schema that has one of them. -/
theorem effectiveUpperBound_sat {s : JObj} (hm : NumOrAbsent s "maximum")
    (he : NumOrAbsent s "exclusiveMaximum")
    (has : (hasKey s "maximum" || hasKey s "exclusiveMaximum") = true) (q : ℚ) :
    (boundValid s "maximum" (fun b => decide (q ≤ b)) &&
        boundValid s "exclusiveMaximum" (fun b => decide (q < b))) = true ↔
      upperSat (effectiveUpperBound s) q := by
  rw [Bool.and_eq_true, boundValid_iff hm, boundValid_iff he, effectiveUpperBound_iff has]
  simp only [decide_eq_true_eq]

/-- Over the rationals the bound helpers of `compat.go` denote half-lines: each effective bound
is the intersection of the half-lines of its keywords, and each comparator holds exactly when
one half-line contains the other. -/
theorem bounds_halfLines :
    (∀ s : JObj, (hasKey s "minimum" || hasKey s "exclusiveMinimum") = true → ∀ q : ℚ,
      lowerSat (effectiveLowerBound s) q ↔
        (∀ m, lookup s "minimum" = some m → (toFloat64 m).toRat ≤ q) ∧
          ∀ e, lookup s "exclusiveMinimum" = some e → (toFloat64 e).toRat < q) ∧
    (∀ s : JObj, (hasKey s "maximum" || hasKey s "exclusiveMaximum") = true → ∀ q : ℚ,
      upperSat (effectiveUpperBound s) q ↔
        (∀ m, lookup s "maximum" = some m → q ≤ (toFloat64 m).toRat) ∧
          ∀ e, lookup s "exclusiveMaximum" = some e → q < (toFloat64 e).toRat) ∧
    (∀ a ae b be, lowerBoundLessOrEqual a ae b be = true ↔
      ∀ q, lowerSat (b, be) q → lowerSat (a, ae) q) ∧
    (∀ a ae b be, lowerBoundGreaterOrEqual a ae b be = true ↔
      ∀ q, lowerSat (a, ae) q → lowerSat (b, be) q) ∧
    (∀ a ae b be, upperBoundLessOrEqual a ae b be = true ↔
      ∀ q, upperSat (a, ae) q → upperSat (b, be) q) ∧
    ∀ a ae b be, upperBoundGreaterOrEqual a ae b be = true ↔
      ∀ q, upperSat (b, be) q → upperSat (a, ae) q :=
  ⟨fun _ => effectiveLowerBound_iff, fun _ => effectiveUpperBound_iff,
    fun _ _ _ _ => boundLE_iff.trans lowerSat_subset_iff.symm,
    fun _ _ _ _ => boundLE_iff.trans lowerSat_subset_iff.symm,
    fun _ _ _ _ => boundLE_iff.trans upperSat_subset_iff.symm,
    fun _ _ _ _ => boundLE_iff.trans upperSat_subset_iff.symm⟩

/-- Spec scenario 4's tie: with `minimum` and `exclusiveMinimum` both `0`, the effective lower
bound is the open half-line above `0`. -/
theorem bounds_halfLines_tie :
    (hasKey [("minimum", .num Float64.zero), ("exclusiveMinimum", .num Float64.zero)] "minimum" ||
        hasKey [("minimum", .num Float64.zero), ("exclusiveMinimum", .num Float64.zero)]
          "exclusiveMinimum") = true ∧
      (lowerSat (effectiveLowerBound
          [("minimum", .num Float64.zero), ("exclusiveMinimum", .num Float64.zero)]) 0 ↔
        (∀ m, lookup [("minimum", .num Float64.zero), ("exclusiveMinimum", .num Float64.zero)]
            "minimum" = some m → (toFloat64 m).toRat ≤ 0) ∧
          ∀ e, lookup [("minimum", .num Float64.zero), ("exclusiveMinimum", .num Float64.zero)]
            "exclusiveMinimum" = some e → (toFloat64 e).toRat < 0) :=
  ⟨by decide, bounds_halfLines.1 _ (by decide) 0⟩

end SchemaProfile

end OpenBindings
