import OpenBindings.Float64
import Mathlib.Algebra.Order.Field.Power
import Mathlib.Tactic.Linarith

/-! # Rounding back to a double

The facts about `roundRat` the number printer relies on. `log2Ratio n q` is `⌊log₂ (n / q)⌋`
(`log2Ratio_spec`, `log2Ratio_unique`), so `roundRat` reads only the ratio `n / q`
(`roundRat_mul_left`); it returns a double that is already exact (`roundRat_exact`); and the
sign is carried through (`roundRat_sign`). From them: `roundsTo` is `ofDecimal` on the
same digits (`roundsTo_iff`), the exact expansion always rounds back (`roundsTo_exactDigits`),
dropping trailing zeros keeps the value (`ofDecimal_trimZeros`), and so the shortest digits of a
nonzero double read back as the double itself (`ofDecimal_shortestDigits`). -/

namespace OpenBindings.Float64

/-! ### Bit lengths -/

theorem bitLenAux_zero : ∀ fuel, bitLenAux fuel 0 = 0
  | 0 => rfl
  | _ + 1 => rfl

theorem bitLenAux_spec : ∀ fuel n, n ≤ fuel →
    n < 2 ^ bitLenAux fuel n ∧ (0 < n → 2 ^ (bitLenAux fuel n - 1) ≤ n)
  | 0, n, h => by simp only [bitLenAux, pow_zero]; omega
  | fuel + 1, n, h => by
    simp only [bitLenAux]
    split
    · subst_vars; simp
    · obtain ⟨hlt, hle⟩ := bitLenAux_spec fuel (n / 2) (by omega)
      refine ⟨by rw [Nat.pow_succ]; omega, fun _ => ?_⟩
      rw [Nat.add_sub_cancel]
      rcases Nat.eq_zero_or_pos (n / 2) with h2 | h2
      · rw [h2, bitLenAux_zero]; omega
      · have hb : bitLenAux fuel (n / 2) ≠ 0 := fun h0 => by rw [h0] at hlt; omega
        have := hle h2
        rw [show bitLenAux fuel (n / 2) = bitLenAux fuel (n / 2) - 1 + 1 by omega, Nat.pow_succ]
        omega

theorem lt_two_pow_bitLen (n : Nat) : n < 2 ^ bitLen n := (bitLenAux_spec n n le_rfl).1

theorem two_pow_bitLen_le {n : Nat} (h : 0 < n) : 2 ^ (bitLen n - 1) ≤ n :=
  (bitLenAux_spec n n le_rfl).2 h

theorem bitLen_pos {n : Nat} (h : 0 < n) : 0 < bitLen n :=
  Nat.pos_of_ne_zero fun h0 => by have := lt_two_pow_bitLen n; rw [h0] at this; omega

/-! ### `log2Ratio` is the binary logarithm of the ratio -/

theorem two_zpow_natCast_sub_one {b : Nat} (hb : 0 < b) :
    (2 : ℚ) ^ ((b : Int) - 1) = ((2 ^ (b - 1) : Nat) : ℚ) := by
  rw [show (b : Int) - 1 = ((b - 1 : Nat) : Int) by omega, zpow_natCast]
  push_cast; rfl

/-- The test `log2Ratio` makes is `2^g · q ≤ n`, cleared of denominators. -/
theorem pow2_test_iff (g : Int) (n q : Nat) :
    (if 0 ≤ g then q * 2 ^ g.toNat ≤ n else q ≤ n * 2 ^ (-g).toNat) ↔ (2 : ℚ) ^ g * q ≤ n := by
  split
  · rename_i h
    have h2 : (2 : ℚ) ^ g = ((2 ^ g.toNat : Nat) : ℚ) := by
      rw [Nat.cast_pow, Nat.cast_ofNat, ← zpow_natCast, Int.toNat_of_nonneg h]
    rw [h2, ← Nat.cast_mul, Nat.cast_le, mul_comm]
  · rename_i h
    have h2 : (2 : ℚ) ^ g = ((2 ^ (-g).toNat : Nat) : ℚ)⁻¹ := by
      rw [Nat.cast_pow, Nat.cast_ofNat, ← zpow_natCast, Int.toNat_of_nonneg (by omega), zpow_neg,
        inv_inv]
    rw [h2, inv_mul_le_iff₀ (by positivity), ← Nat.cast_mul, Nat.cast_le, mul_comm]

/-- `log2Ratio n q` is `⌊log₂ (n / q)⌋`: `2^L · q ≤ n < 2^(L+1) · q`. The bit lengths put the
ratio strictly between `2^(g-1)` and `2^(g+1)`, and the test picks the side of `2^g`. -/
theorem log2Ratio_spec {n q : Nat} (hn : 0 < n) (hq : 0 < q) :
    (2 : ℚ) ^ log2Ratio n q * q ≤ n ∧ (n : ℚ) < 2 ^ (log2Ratio n q + 1) * q := by
  set g : Int := (bitLen n : Int) - bitLen q with hg
  have below : (2 : ℚ) ^ (g - 1) * q < n := by
    calc (2 : ℚ) ^ (g - 1) * q < 2 ^ (g - 1) * 2 ^ (bitLen q : Int) := by
          refine mul_lt_mul_of_pos_left ?_ (by positivity)
          rw [zpow_natCast]; exact_mod_cast lt_two_pow_bitLen q
      _ = 2 ^ ((bitLen n : Int) - 1) := by rw [← zpow_add₀ two_ne_zero]; congr 1; omega
      _ ≤ n := by
          rw [two_zpow_natCast_sub_one (bitLen_pos hn)]; exact_mod_cast two_pow_bitLen_le hn
  have above : (n : ℚ) < 2 ^ (g + 1) * q := by
    calc (n : ℚ) < 2 ^ (bitLen n : Int) := by
          rw [zpow_natCast]; exact_mod_cast lt_two_pow_bitLen n
      _ = 2 ^ (g + 1) * 2 ^ ((bitLen q : Int) - 1) := by
          rw [← zpow_add₀ two_ne_zero]; congr 1; omega
      _ ≤ 2 ^ (g + 1) * q := by
          refine mul_le_mul_of_nonneg_left ?_ (by positivity)
          rw [two_zpow_natCast_sub_one (bitLen_pos hq)]; exact_mod_cast two_pow_bitLen_le hq
  dsimp only [log2Ratio]
  rw [← hg]
  by_cases hc : (2 : ℚ) ^ g * q ≤ n
  · rw [if_pos ((pow2_test_iff g n q).2 hc)]; exact ⟨hc, above⟩
  · rw [if_neg (mt (pow2_test_iff g n q).1 hc), sub_add_cancel]; exact ⟨below.le, lt_of_not_le hc⟩

/-- The binary logarithm of a ratio is the only `g` with `2^g · q ≤ n < 2^(g+1) · q`. -/
theorem log2Ratio_unique {n q : Nat} (hn : 0 < n) (hq : 0 < q) {g : Int}
    (h1 : (2 : ℚ) ^ g * q ≤ n) (h2 : (n : ℚ) < 2 ^ (g + 1) * q) : log2Ratio n q = g := by
  obtain ⟨l1, l2⟩ := log2Ratio_spec hn hq
  have key : ∀ a b : Int, (2 : ℚ) ^ a * q ≤ n → (n : ℚ) < 2 ^ (b + 1) * q → a ≤ b := by
    intro a b ha hb
    by_contra hab
    have hpow : (2 : ℚ) ^ (b + 1) * q ≤ 2 ^ a * q :=
      mul_le_mul_of_nonneg_right (zpow_le_zpow_right₀ one_le_two (by omega)) (Nat.cast_nonneg q)
    linarith
  exact le_antisymm (key _ _ l1 h2) (key _ _ h1 l2)

/-- Scaling numerator and denominator together keeps the logarithm of the ratio. -/
theorem log2Ratio_mul_left {c n q : Nat} (hc : 0 < c) (hn : 0 < n) (hq : 0 < q) :
    log2Ratio (c * n) (c * q) = log2Ratio n q := by
  obtain ⟨l1, l2⟩ := log2Ratio_spec hn hq
  have hc' : (0 : ℚ) < c := by exact_mod_cast hc
  refine log2Ratio_unique (Nat.mul_pos hc hn) (Nat.mul_pos hc hq) ?_ ?_ <;> push_cast
  · rw [mul_left_comm]; exact mul_le_mul_of_nonneg_left l1 hc'.le
  · rw [mul_left_comm]; exact mul_lt_mul_of_pos_left l2 hc'

/-! ### `roundRat` reads only the ratio -/

/-- Rounding `n / q` and rounding `c·n / c·q` give the same double: the logarithm is the same,
and the quotient and the doubled remainder compare with the divisor in the same way. -/
theorem roundRat_mul_left (neg : Bool) {c n q : Nat} (hc : 0 < c) (hq : 0 < q) :
    roundRat neg (c * n) (c * q) = roundRat neg n q := by
  rcases Nat.eq_zero_or_pos n with rfl | hn
  · simp [roundRat]
  dsimp only [roundRat]
  rw [if_neg (Nat.mul_pos hc hn).ne', if_neg hn.ne', log2Ratio_mul_left hc hn hq]
  generalize max (log2Ratio n q - 52) (-1074) = k
  have hnum : (if 0 ≤ k then c * n else c * n * 2 ^ (-k).toNat) =
      c * (if 0 ≤ k then n else n * 2 ^ (-k).toNat) := by split <;> simp [Nat.mul_assoc]
  have hden : (if 0 ≤ k then c * q * 2 ^ k.toNat else c * q) =
      c * (if 0 ≤ k then q * 2 ^ k.toNat else q) := by split <;> simp [Nat.mul_assoc]
  rw [hnum, hden]
  generalize (if 0 ≤ k then n else n * 2 ^ (-k).toNat) = a
  generalize (if 0 ≤ k then q * 2 ^ k.toNat else q) = b
  have e1 : c * b < 2 * (c * (a % b)) ↔ b < 2 * (a % b) := by
    rw [Nat.mul_left_comm]; exact Nat.mul_lt_mul_left hc
  have e2 : 2 * (c * (a % b)) = c * b ↔ 2 * (a % b) = b := by
    rw [Nat.mul_left_comm]; exact Nat.mul_left_cancel_iff hc
  simp only [Nat.mul_div_mul_left _ _ hc, Nat.mul_mod_mul_left, e1, e2]

/-! ### Doubles round to themselves -/

/-- A nonzero mantissa makes a double whatever the sign: odd, at most 53 bits, and the exponent
in range. -/
theorem isBinary64_iff {neg : Bool} {m : Nat} {e : Int} (hm : m ≠ 0) :
    IsBinary64 neg m e = true ↔
      m % 2 = 1 ∧ bitLen m ≤ 53 ∧ -1074 ≤ e ∧ (bitLen m : Int) + e ≤ 1024 := by
  simp only [IsBinary64, hm, if_false, Bool.and_eq_true, beq_iff_eq, decide_eq_true_eq, and_assoc]

theorem oddPartAux_mul_two_pow {m : Nat} (hm : m % 2 = 1) : ∀ (j fuel : Nat) (e : Int),
    j ≤ fuel → oddPartAux fuel (m * 2 ^ j) e = (m, e + j)
  | 0, 0, e, _ => by simp [oddPartAux]
  | 0, fuel + 1, e, _ => by simp [oddPartAux, hm]
  | j + 1, fuel + 1, e, h => by
    have hm0 : m ≠ 0 := by omega
    have hdiv : m * 2 ^ (j + 1) / 2 = m * 2 ^ j := by
      rw [Nat.pow_succ, ← Nat.mul_assoc, Nat.mul_div_cancel _ two_pos]
    rw [oddPartAux, if_pos ⟨by positivity, by rw [Nat.pow_succ, ← Nat.mul_assoc]; simp⟩, hdiv,
      oddPartAux_mul_two_pow hm j fuel (e + 1) (by omega)]
    congr 1
    push_cast
    omega

/-- `m · 2^j` with `m` a mantissa of a double is that double, the factors of two moved into the
exponent. -/
theorem make?_mul_two_pow {neg : Bool} {m : Nat} {e : Int} (h : IsBinary64 neg m e = true)
    (hm : m ≠ 0) (j : Nat) : make? neg (m * 2 ^ j) (e - j) = some ⟨neg, m, e, h⟩ := by
  have hodd := ((isBinary64_iff hm).1 h).1
  have hj : j ≤ m * 2 ^ j :=
    (Nat.lt_two_pow j).le.trans (Nat.le_mul_of_pos_left _ (Nat.pos_of_ne_zero hm))
  have hpart : oddPart (m * 2 ^ j) (e - j) = (m, e) := by
    rw [oddPart, oddPartAux_mul_two_pow hodd j _ _ hj, sub_add_cancel]
  have hne : m * 2 ^ j ≠ 0 := Nat.mul_ne_zero hm (by positivity)
  simp only [make?, hne, if_false, hpart, dif_pos h]

/-- An exact quotient is not rounded. -/
theorem roundQuot_exact {den : Nat} (t : Nat) (h : 0 < den) :
    (if den < 2 * (den * t % den) ∨ (2 * (den * t % den) = den ∧ den * t / den % 2 = 1)
      then den * t / den + 1 else den * t / den) = t := by
  rw [Nat.mul_mod_right, Nat.mul_div_cancel_left _ h, if_neg (by omega)]

/-- Rounding a double gives it back: `m · 2^b / 2^a` is the double `±m · 2^(b-a)` exactly, so
the rounding unit is at most `2^e` and nothing is rounded off. -/
theorem roundRat_exact {neg : Bool} {m : Nat} {e : Int} (h : IsBinary64 neg m e = true)
    (hm : m ≠ 0) {a b : Nat} (he : e = (b : Int) - a) :
    roundRat neg (m * 2 ^ b) (2 ^ a) = some ⟨neg, m, e, h⟩ := by
  obtain ⟨-, hbits, hlo, -⟩ := (isBinary64_iff hm).1 h
  have hbm := bitLen_pos (Nat.pos_of_ne_zero hm)
  have hmq : (0 : ℚ) < m := by exact_mod_cast Nat.pos_of_ne_zero hm
  have hshift : ∀ x : Int, (2 : ℚ) ^ (x + e) * ((2 ^ a : Nat) : ℚ) = 2 ^ x * ((2 ^ b : Nat) : ℚ) := by
    intro x
    push_cast
    rw [← zpow_natCast, ← zpow_natCast, ← zpow_add₀ two_ne_zero, ← zpow_add₀ two_ne_zero]
    congr 1
    omega
  have hlog : log2Ratio (m * 2 ^ b) (2 ^ a) = bitLen m - 1 + e := by
    apply log2Ratio_unique (Nat.mul_pos (Nat.pos_of_ne_zero hm) (by positivity)) (by positivity)
    · rw [hshift, two_zpow_natCast_sub_one hbm, Nat.cast_mul]
      exact mul_le_mul_of_nonneg_right (by exact_mod_cast two_pow_bitLen_le (Nat.pos_of_ne_zero hm))
        (by positivity)
    · rw [show (bitLen m : Int) - 1 + e + 1 = bitLen m + e by omega, hshift, zpow_natCast,
        Nat.cast_mul]
      exact mul_lt_mul_of_pos_right (by exact_mod_cast lt_two_pow_bitLen m) (by positivity)
  dsimp only [roundRat]
  rw [if_neg (Nat.mul_ne_zero hm (by positivity)), hlog]
  generalize hk : max ((bitLen m : Int) - 1 + e - 52) (-1074) = k
  obtain ⟨j, hj⟩ : ∃ j : Nat, k = e - j := ⟨(e - k).toNat, by omega⟩
  by_cases hk0 : 0 ≤ k
  · have hnum : m * 2 ^ b = 2 ^ a * 2 ^ k.toNat * (m * 2 ^ j) := by
      rw [show b = a + k.toNat + j by omega, Nat.pow_add, Nat.pow_add]
      ac_rfl
    simp only [if_pos hk0]
    rw [hnum, roundQuot_exact _ (by positivity), hj, make?_mul_two_pow h hm]
  · have hnum : m * 2 ^ b * 2 ^ (-k).toNat = 2 ^ a * (m * 2 ^ j) := by
      rw [Nat.mul_assoc, ← Nat.pow_add, show b + (-k).toNat = a + j by omega, Nat.pow_add]
      ac_rfl
    simp only [if_neg hk0]
    rw [hnum, roundQuot_exact _ (by positivity), hj, make?_mul_two_pow h hm]

/-- The magnitude of a nonzero double, as `m · 2^b / 2^a`, rounds to itself. -/
theorem roundRat_abs {f : Float64} (hf : f.mant ≠ 0) {a b : Nat} (he : f.exp = (b : Int) - a) :
    roundRat false (f.mant * 2 ^ b) (2 ^ a) = some f.abs :=
  roundRat_exact f.abs.isBinary64 hf he

/-! ### The sign -/

/-- `make?` builds the same magnitude whatever the sign, once the mantissa is not zero. -/
theorem make?_sign {m : Nat} {e : Int} {f : Float64} (hf : f.mant ≠ 0)
    (h : make? false m e = some f.abs) : make? f.neg m e = some f := by
  obtain ⟨neg, fm, fe, fh⟩ := f
  simp only [abs] at h hf ⊢
  dsimp only [make?] at h ⊢
  split at h
  · simp only [zero, Option.some.injEq, mk.injEq] at h
    exact absurd h.2.1.symm hf
  · rename_i hm
    rw [if_neg hm]
    split at h
    · simp only [Option.some.injEq, mk.injEq, true_and] at h
      obtain ⟨h1, h2⟩ := h
      simp only [h1, h2, dif_pos fh]
    · cases h

/-- The sign only labels the result: where `n / q` rounds to the magnitude of a nonzero double,
`±n / q` rounds to the double. -/
theorem roundRat_sign {n q : Nat} {f : Float64} (hf : f.mant ≠ 0)
    (h : roundRat false n q = some f.abs) : roundRat f.neg n q = some f := by
  unfold roundRat at h ⊢
  split at h
  · simp only [zero, abs, Option.some.injEq, mk.injEq] at h
    exact absurd h.2.1.symm hf
  · rw [if_neg ‹_›]
    exact make?_sign hf h

/-! ### Decimals -/

theorem ofDecimal_sign {c : Nat} {x : Int} {f : Float64} (hf : f.mant ≠ 0)
    (h : ofDecimal false c x = some f.abs) : ofDecimal f.neg c x = some f := by
  unfold ofDecimal at h ⊢
  split
  · rw [if_pos ‹_›] at h; exact roundRat_sign hf h
  · rw [if_neg ‹_›] at h; exact roundRat_sign hf h

theorem ofDecimal_zero (neg : Bool) (x : Int) : ofDecimal neg 0 x = some zero := by
  unfold ofDecimal; split <;> simp [roundRat]

/-- A trailing zero moves into the exponent. -/
theorem ofDecimal_ten_mul (neg : Bool) (d : Nat) (x : Int) :
    ofDecimal neg (10 * d) x = ofDecimal neg d (x + 1) := by
  unfold ofDecimal
  by_cases hx : 0 ≤ x
  · rw [if_pos hx, if_pos (by omega), show (x + 1).toNat = x.toNat + 1 by omega, Nat.pow_succ]
    congr 1
    ac_rfl
  · rw [if_neg hx, show (-x).toNat = (-x).toNat - 1 + 1 by omega, Nat.pow_succ, Nat.mul_comm _ 10,
      roundRat_mul_left neg (by norm_num) (by positivity)]
    by_cases hx1 : 0 ≤ x + 1
    · rw [if_pos hx1, show (x + 1).toNat = 0 by omega, show (-x).toNat - 1 = 0 by omega]; simp
    · rw [if_neg hx1, show (-(x + 1)).toNat = (-x).toNat - 1 by omega]

/-- `roundsTo` asks whether the decimal `c · 10^-s` reads as the magnitude of `f`. -/
theorem roundsTo_iff {f : Float64} {c : Nat} {s : Int} :
    roundsTo f c s = true ↔ ofDecimal false c (-s) = some f.abs := by
  unfold roundsTo ofDecimal
  rw [beq_iff_eq]
  rcases lt_trichotomy s 0 with hs | rfl | hs
  · rw [if_neg (by omega), if_pos (by omega)]
  · simp
  · rw [if_pos hs.le, if_neg (by omega), neg_neg]

/-- Dropping trailing zeros keeps the decimal's value, and keeps a nonzero digit string nonzero. -/
theorem ofDecimal_trimZeros (neg : Bool) : ∀ (fuel c : Nat) (s : Int),
    ofDecimal neg (trimZeros fuel c s).1 (-(trimZeros fuel c s).2) = ofDecimal neg c (-s) ∧
      (c ≠ 0 → (trimZeros fuel c s).1 ≠ 0)
  | 0, c, s => ⟨rfl, id⟩
  | fuel + 1, c, s => by
    rw [trimZeros]
    split
    · rename_i h
      obtain ⟨ih, ih0⟩ := ofDecimal_trimZeros neg fuel (c / 10) (s - 1)
      refine ⟨ih.trans ?_, fun _ => ih0 (by omega)⟩
      rw [show -(s - 1) = -s + 1 by omega, ← ofDecimal_ten_mul, Nat.mul_div_cancel' (Nat.dvd_of_mod_eq_zero h.2)]
    · exact ⟨rfl, id⟩

/-! ### The shortest digits round back -/

/-- Every candidate `pickAt` returns was checked to round back. -/
theorem roundsTo_pickAt {f : Float64} {p : Nat} {r : Nat × Int} (h : pickAt f p = some r) :
    roundsTo f r.1 r.2 = true := by
  rcases hr : f.ratio with ⟨n, q⟩
  rcases hc : candidates n q (log10Ratio n q) p with ⟨lo, rem, den, s⟩
  simp only [pickAt, hr, hc] at h
  split_ifs at h with h1 h2 h3 h4 <;> cases h
  · simp only [Bool.and_eq_true] at h1; exact h1.1
  · simp only [Bool.and_eq_true] at h1; exact h1.2.2
  · exact h3
  · simp only [Bool.and_eq_true] at h4; exact h4.2

/-- The exact expansion of a nonzero double rounds back to it: `m · 2^e` is `m · 2^e / 10^0`,
or `m · 5^k / 10^k` for `e = -k`, which is `m / 2^k` scaled by `5^k`. -/
theorem roundsTo_exactDigits {f : Float64} (hf : f.mant ≠ 0) :
    roundsTo f (exactDigits f).1 (exactDigits f).2 = true := by
  rw [roundsTo_iff]
  unfold exactDigits
  split
  · rename_i he
    simp only [ofDecimal, neg_zero, le_refl, if_true, Int.toNat_zero, pow_zero, Nat.mul_one]
    have := roundRat_abs hf (show f.exp = ((f.exp.toNat : Nat) : Int) - ((0 : Nat) : Int) by omega)
    rwa [pow_zero] at this
  · rename_i he
    simp only [ofDecimal, neg_neg, if_neg he]
    rw [Nat.mul_comm, show (10 : Nat) = 5 * 2 from rfl, Nat.mul_pow,
      roundRat_mul_left false (by positivity) (by positivity)]
    have := roundRat_abs hf
      (show f.exp = ((0 : Nat) : Int) - (((-f.exp).toNat : Nat) : Int) by omega)
    rwa [pow_zero, Nat.mul_one] at this

/-- Whatever precision the search stops at, its digits round back. -/
theorem roundsTo_searchDigits {f : Float64} (hf : f.mant ≠ 0) : ∀ fuel p,
    roundsTo f (searchDigits f fuel p).1 (searchDigits f fuel p).2 = true
  | 0, _ => roundsTo_exactDigits hf
  | fuel + 1, p => by
    rw [searchDigits]
    split
    · exact roundsTo_pickAt ‹_›
    · exact roundsTo_searchDigits hf fuel (p + 1)

/-- `shortestDigits` from the search and the trimming it runs. -/
theorem shortestDigits_eq {f : Float64} {c d : Nat} {s s' : Int} (hs : searchDigits f 17 1 = (c, s))
    (ht : trimZeros c c s = (d, s')) : shortestDigits f = (d, (decLen d : Int) - s') := by
  unfold shortestDigits
  rw [hs]
  dsimp only
  rw [ht]

/-- The shortest digits `d` and point `dp` of a nonzero double: `d` is not zero, and the decimal
`±d · 10^(dp - len d)` reads as the double. -/
theorem ofDecimal_shortestDigits {f : Float64} (hf : f.mant ≠ 0) :
    (shortestDigits f).1 ≠ 0 ∧
      ofDecimal f.neg (shortestDigits f).1 ((shortestDigits f).2 - decLen (shortestDigits f).1) =
        some f := by
  have hc := roundsTo_iff.1 (roundsTo_searchDigits hf 17 1)
  rcases hs : searchDigits f 17 1 with ⟨c, s⟩
  rw [hs] at hc
  have hc0 : c ≠ 0 := by
    rintro rfl
    rw [ofDecimal_zero, Option.some.injEq] at hc
    exact hf (congrArg mant hc).symm
  obtain ⟨htrim, htrim0⟩ := ofDecimal_trimZeros false c c s
  rcases ht : trimZeros c c s with ⟨d, s'⟩
  rw [ht] at htrim htrim0
  rw [shortestDigits_eq hs ht]
  simp only [sub_sub_cancel_left]
  exact ⟨htrim0 hc0, ofDecimal_sign hf (htrim.trans hc)⟩

end OpenBindings.Float64
