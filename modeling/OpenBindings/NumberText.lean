import OpenBindings.JsonText
import OpenBindings.Rounding
import Mathlib.Tactic.Ring
import Mathlib.Data.Nat.Digits

/-! # Numbers read back: `parseNumber` after `formatJCSFloat64`

The decoder reads the text `formatJCSFloat64 f` back as `f` (`parseNumber_formatJCSFloat64`), for
every finite double `f`. The text is the shortest digits `d` of `f` with a decimal point `dp`
(`shortestDigits`), written in the exponent form or the plain form; both read as the decimal
`d · 10^(dp - len d)` (`parseNumber_fmtE`, `parseNumber_fmtF`), and rounding that decimal gives
`f` back because the digits were chosen to round to it (`roundsTo`), the exact expansion included
(`roundsTo_exactDigits`).

The decimal digits come from `Nat.toDigits`; `digitChars_of_ge` unfolds them one digit at a time,
and the rest is read off that equation. -/

namespace OpenBindings

/-! ### The digits of a number -/

namespace Float64

theorem toDigitsCore_append : ∀ (fuel n : Nat) (acc : List Char), n < fuel →
    Nat.toDigitsCore 10 fuel n acc = Nat.toDigitsCore 10 fuel n [] ++ acc
  | 0, _, _, h => absurd h (Nat.not_lt_zero _)
  | fuel + 1, n, acc, h => by
    simp only [Nat.toDigitsCore]
    split
    · rfl
    · have hlt : n / 10 < fuel := by omega
      rw [toDigitsCore_append fuel (n / 10) _ hlt, toDigitsCore_append fuel (n / 10) [_] hlt,
        List.append_assoc]
      rfl

theorem toDigitsCore_fuel : ∀ (f g n : Nat), n < f → n < g →
    Nat.toDigitsCore 10 f n [] = Nat.toDigitsCore 10 g n []
  | 0, _, _, h, _ => absurd h (Nat.not_lt_zero _)
  | _, 0, _, _, h => absurd h (Nat.not_lt_zero _)
  | f + 1, g + 1, n, hf, hg => by
    simp only [Nat.toDigitsCore]
    split
    · rfl
    · rw [toDigitsCore_append f _ _ (by omega), toDigitsCore_append g _ _ (by omega),
        toDigitsCore_fuel f g (n / 10) (by omega) (by omega)]

theorem digitChars_of_lt {n : Nat} (h : n < 10) : digitChars n = [Nat.digitChar n] := by
  simp [digitChars, Nat.toDigits, Nat.toDigitsCore, Nat.div_eq_of_lt h, Nat.mod_eq_of_lt h]

/-- The digits of `n ≥ 10` are those of `n / 10`, then the last digit. -/
theorem digitChars_of_ge {n : Nat} (h : 10 ≤ n) :
    digitChars n = digitChars (n / 10) ++ [Nat.digitChar (n % 10)] := by
  have hne : n / 10 ≠ 0 := by omega
  conv_lhs => rw [digitChars, Nat.toDigits, Nat.toDigitsCore]
  simp only [hne, if_false]
  rw [toDigitsCore_append n _ _ (by omega), toDigitsCore_fuel n (n / 10 + 1) _ (by omega)
    (by omega)]
  rfl

/-- A digit below ten is the character `'0' + n`. -/
theorem digitChar_spec : ∀ n < 10, (Nat.digitChar n).isDigit = true ∧
    (Nat.digitChar n).toNat = 48 + n := by
  decide

theorem isDigit_of_mem_digitChars (n : Nat) : ∀ c ∈ digitChars n, c.isDigit = true := by
  induction n using Nat.strong_induction_on with
  | _ n ih =>
    intro c hc
    rcases Nat.lt_or_ge n 10 with h | h
    · rw [digitChars_of_lt h, List.mem_singleton] at hc
      exact hc ▸ (digitChar_spec n h).1
    · rw [digitChars_of_ge h, List.mem_append, List.mem_singleton] at hc
      rcases hc with hc | rfl
      · exact ih _ (by omega) c hc
      · exact (digitChar_spec _ (Nat.mod_lt _ (by omega))).1

/-- The first digit of a nonzero number is not `0`. -/
theorem digitChars_head {n : Nat} (hn : n ≠ 0) :
    ∃ c cs, digitChars n = c :: cs ∧ '1' ≤ c ∧ c ≤ '9' := by
  induction n using Nat.strong_induction_on with
  | _ n ih =>
    rcases Nat.lt_or_ge n 10 with h | h
    · have hc : '1' ≤ Nat.digitChar n ∧ Nat.digitChar n ≤ '9' := by
        have key : ∀ m < 10, m ≠ 0 → '1' ≤ Nat.digitChar m ∧ Nat.digitChar m ≤ '9' := by decide
        exact key n h hn
      exact ⟨_, [], digitChars_of_lt h, hc⟩
    · obtain ⟨c, cs, hcs, hc⟩ := ih (n / 10) (by omega) (by omega)
      exact ⟨c, cs ++ [_], by rw [digitChars_of_ge h, hcs]; rfl, hc⟩

theorem decLenAux_zero : ∀ fuel, decLenAux fuel 0 = 0
  | 0 => rfl
  | _ + 1 => rfl

theorem decLenAux_eq : ∀ (fuel n : Nat), 0 < n → n ≤ fuel →
    decLenAux fuel n = (digitChars n).length
  | 0, _, h, h' => absurd (Nat.lt_of_lt_of_le h h') (Nat.lt_irrefl 0)
  | fuel + 1, n, h, h' => by
    simp only [decLenAux, Nat.pos_iff_ne_zero.1 h, if_false]
    rcases Nat.lt_or_ge n 10 with hn | hn
    · rw [Nat.div_eq_of_lt hn, decLenAux_zero, digitChars_of_lt hn]; rfl
    · rw [decLenAux_eq fuel (n / 10) (by omega) (by omega), digitChars_of_ge hn,
        List.length_append, List.length_singleton]

/-- `decLen` counts the digits `digitChars` writes. -/
theorem decLen_eq_length {n : Nat} (hn : n ≠ 0) : decLen n = (digitChars n).length :=
  decLenAux_eq n n (Nat.pos_of_ne_zero hn) le_rfl

end Float64

/-! ### The value of a digit string -/

namespace CanonicalJson

open Float64

theorem foldl_digits (acc : Nat) (ds : List Char) :
    ds.foldl (fun n c => 10 * n + (c.toNat - 48)) acc = acc * 10 ^ ds.length + digitsValue ds := by
  induction ds generalizing acc with
  | nil => simp [digitsValue]
  | cons c ds ih =>
    simp only [List.foldl_cons, digitsValue, List.length_cons] at ih ⊢
    rw [ih, ih (10 * 0 + _)]
    ring

theorem digitsValue_append (a b : List Char) :
    digitsValue (a ++ b) = digitsValue a * 10 ^ b.length + digitsValue b := by
  rw [digitsValue, List.foldl_append, foldl_digits]
  rfl

@[simp] theorem digitsValue_replicate_zero (k : Nat) : digitsValue (List.replicate k '0') = 0 := by
  induction k with
  | zero => rfl
  | succ k ih =>
    rw [List.replicate_succ', digitsValue_append, ih]
    rfl

theorem digitsValue_digitChars (n : Nat) : digitsValue (digitChars n) = n := by
  induction n using Nat.strong_induction_on with
  | _ n ih =>
    rcases Nat.lt_or_ge n 10 with h | h
    · rw [digitChars_of_lt h, digitsValue, List.foldl_cons, List.foldl_nil,
        (digitChar_spec n h).2]
      omega
    · rw [digitChars_of_ge h, digitsValue_append, ih _ (by omega), List.length_singleton,
        digitsValue, List.foldl_cons, List.foldl_nil, (digitChar_spec _ (Nat.mod_lt _ (by omega))).2]
      omega

/-- The text after a number: it does not start with a digit, a point or an exponent mark, so
the number's parser stops there. -/
def EndsNumber (rest : List Char) : Prop :=
  ∀ c ∈ rest.head?, c.isDigit = false ∧ c ≠ '.' ∧ c ≠ 'e' ∧ c ≠ 'E'

theorem takeWhile_digits {ds rest : List Char} (hd : ∀ c ∈ ds, c.isDigit = true)
    (hr : ∀ c ∈ rest.head?, c.isDigit = false) :
    (ds ++ rest).takeWhile Char.isDigit = ds ∧ (ds ++ rest).dropWhile Char.isDigit = rest := by
  rw [List.takeWhile_append_of_pos hd, List.dropWhile_append_of_pos hd]
  cases rest with
  | nil => exact ⟨List.append_nil ds, rfl⟩
  | cons c r =>
    have hc := hr c rfl
    simp [List.takeWhile_cons, List.dropWhile_cons, hc]

/-- The integer part: a nonzero digit and more digits, up to the first non-digit. -/
theorem parseIntPart_digits {c : Char} {cs rest : List Char} (hc : '1' ≤ c ∧ c ≤ '9')
    (hd : ∀ x ∈ cs, x.isDigit = true) (hr : ∀ x ∈ rest.head?, x.isDigit = false) :
    parseIntPart (c :: (cs ++ rest)) = some (c :: cs, rest) := by
  have hc0 : c ≠ '0' := fun h => by subst h; exact absurd hc.1 (by decide)
  obtain ⟨ht, hdr⟩ := takeWhile_digits hd hr
  simp only [parseIntPart, hc0, hc, and_self, if_true, ht, hdr]

theorem parseIntPart_zero (rest : List Char) : parseIntPart ('0' :: rest) = some (['0'], rest) :=
  rfl

theorem parseFrac_none {cs : List Char} (h : ∀ c ∈ cs.head?, c ≠ '.') :
    parseFrac cs = some ([], cs) := by
  unfold parseFrac
  split
  · exact absurd rfl (h '.' rfl)
  · rfl

theorem parseFrac_digits {ds rest : List Char} (hne : ds ≠ []) (hd : ∀ c ∈ ds, c.isDigit = true)
    (hr : ∀ c ∈ rest.head?, c.isDigit = false) :
    parseFrac ('.' :: (ds ++ rest)) = some (ds, rest) := by
  obtain ⟨ht, hdr⟩ := takeWhile_digits hd hr
  cases ds with
  | nil => exact absurd rfl hne
  | cons c r => simp only [parseFrac, ht, hdr]

theorem parseExp_none {cs : List Char} (h : ∀ c ∈ cs.head?, c ≠ 'e' ∧ c ≠ 'E') :
    parseExp cs = some (0, cs) := by
  unfold parseExp
  split <;> first | rfl | exact absurd rfl (h _ rfl).1 | exact absurd rfl (h _ rfl).2

/-- An exponent with its sign written out, as `fmtE` writes it. -/
theorem parseExp_signed (p : Prop) [Decidable p] {ds rest : List Char} (hne : ds ≠ [])
    (hd : ∀ c ∈ ds, c.isDigit = true) (hr : ∀ c ∈ rest.head?, c.isDigit = false) :
    parseExp ('e' :: (if p then '-' else '+') :: (ds ++ rest)) =
      some (if p then -(digitsValue ds : Int) else digitsValue ds, rest) := by
  obtain ⟨ht, hdr⟩ := takeWhile_digits hd hr
  cases ds with
  | nil => exact absurd rfl hne
  | cons c r =>
    by_cases hp : p <;> simp only [hp, ↓reduceIte, parseExp, parseExpDigits, ht, hdr, Bool.true_eq_false,
      Bool.false_eq_true]

theorem numberSign_of_head {cs : List Char} (h : ∀ c ∈ cs.head?, c ≠ '-') :
    numberSign cs = (false, cs) := by
  unfold numberSign
  split
  · exact absurd rfl (h '-' rfl)
  · rfl

/-- `parseNumber` from its parts: the sign, the integer part, the fraction and the exponent. -/
theorem parseNumber_of_parts (neg : Bool) {cs r1 r2 r3 ip fp : List Char} {x : Int}
    (hhead : ∀ c ∈ cs.head?, c ≠ '-') (hip : parseIntPart cs = some (ip, r1))
    (hfp : parseFrac r1 = some (fp, r2)) (hx : parseExp r2 = some (x, r3)) :
    parseNumber ((if neg then ['-'] else []) ++ cs) =
      (Float64.ofDecimal neg (digitsValue (ip ++ fp)) (x - fp.length)).map (·, r3) := by
  have hsign : numberSign ((if neg then ['-'] else []) ++ cs) = (neg, cs) := by
    cases neg
    · exact numberSign_of_head hhead
    · rfl
  simp only [parseNumber, hsign, hip, hfp, hx, Option.bind_eq_bind, Option.some_bind,
    Option.map_eq_bind]
  rfl

/-! ### The exponent form -/

theorem digitsValue_trimLeadingZeros (cs : List Char) :
    digitsValue (trimLeadingZeros cs) = digitsValue cs := by
  induction cs using trimLeadingZeros.induct with
  | case1 c rest ih =>
    rw [trimLeadingZeros, ih, show '0' :: c :: rest = ['0'] ++ (c :: rest) from rfl,
      digitsValue_append, show digitsValue ['0'] = 0 from rfl, Nat.zero_mul, Nat.zero_add]
  | case2 cs h => unfold trimLeadingZeros; split <;> simp_all

/-- Trimming leading zeros keeps a suffix, and keeps at least one character. -/
theorem trimLeadingZeros_suffix (cs : List Char) :
    trimLeadingZeros cs <:+ cs ∧ (cs ≠ [] → trimLeadingZeros cs ≠ []) := by
  induction cs using trimLeadingZeros.induct with
  | case1 c rest ih =>
    rw [trimLeadingZeros]
    exact ⟨ih.1.trans (List.suffix_cons _ _), fun _ => ih.2 (List.cons_ne_nil _ _)⟩
  | case2 cs h =>
    unfold trimLeadingZeros
    split
    · rename_i c rest; exact absurd rfl (h c rest)
    · exact ⟨List.suffix_refl _, id⟩

/-- The exponent digits `fmtE` writes: at least one digit, reading as the exponent. -/
theorem expDigits_value (n : Nat) : Float64.expDigits n ≠ [] ∧
    (∀ c ∈ Float64.expDigits n, c.isDigit = true) ∧ digitsValue (Float64.expDigits n) = n := by
  have small : ∀ m < 10, (Char.ofNat (48 + m)).isDigit = true ∧
      (Char.ofNat (48 + m)).toNat = 48 + m := by decide
  unfold Float64.expDigits
  split
  · rename_i h
    refine ⟨List.cons_ne_nil _ _, ?_, ?_⟩
    · simp only [List.mem_cons, List.mem_singleton, List.not_mem_nil, or_false]
      rintro c (rfl | rfl)
      · rfl
      · exact (small n h).1
    · simp only [digitsValue, List.foldl_cons, List.foldl_nil, (small n h).2,
        show ('0' : Char).toNat = 48 from rfl]
      omega
  · rename_i h
    obtain ⟨c, cs, hcs, -⟩ := digitChars_head (n := n) (by omega)
    exact ⟨by rw [show Nat.toDigits 10 n = digitChars n from rfl, hcs]; exact List.cons_ne_nil _ _,
      isDigit_of_mem_digitChars n, digitsValue_digitChars n⟩

/-- The exponent digits `normalizeExponent` leaves: at least one digit, reading as the exponent. -/
theorem trimmed_expDigits_value (n : Nat) :
    trimLeadingZeros (Float64.expDigits n) ≠ [] ∧
      (∀ c ∈ trimLeadingZeros (Float64.expDigits n), c.isDigit = true) ∧
      digitsValue (trimLeadingZeros (Float64.expDigits n)) = n := by
  obtain ⟨hne, hd, hv⟩ := expDigits_value n
  obtain ⟨hsuf, hne'⟩ := trimLeadingZeros_suffix (Float64.expDigits n)
  exact ⟨hne' hne, fun c hc => hd c (hsuf.subset hc), (digitsValue_trimLeadingZeros _).trans hv⟩

theorem findIdx?_append_e {P : List Char} (hP : 'e' ∉ P) (post : List Char) (i : Nat) :
    (P ++ 'e' :: post).findIdx? (· == 'e') i = some (i + P.length) := by
  induction P generalizing i with
  | nil => simp
  | cons a P ih =>
    have ha : (a == 'e') = false := by
      rw [beq_eq_false_iff_ne]
      rintro rfl
      exact hP (List.mem_cons_self _ _)
    rw [List.cons_append, List.findIdx?_cons, ha, ih (fun h => hP (List.mem_cons_of_mem _ h))]
    simp only [Bool.false_eq_true, ↓reduceIte, List.length_cons]
    congr 1
    omega

/-- `normalizeExponent` trims the zeros that lead the exponent digits. -/
theorem normalizeExponent_eq {P E : List Char} {sg : Char} (hP : 'e' ∉ P) (hE : E ≠ []) :
    (normalizeExponent (String.mk (P ++ 'e' :: sg :: E))).toList =
      P ++ 'e' :: sg :: trimLeadingZeros E := by
  have hidx : (P ++ 'e' :: sg :: E).indexOf? 'e' = some P.length := by
    simpa only [Nat.zero_add] using findIdx?_append_e hP (sg :: E) 0
  have hlen : ¬ (P ++ 'e' :: sg :: E).length ≤ P.length + 2 := by
    cases E with
    | nil => exact absurd rfl hE
    | cons c E => simp
  have hsplit : P ++ 'e' :: sg :: E = (P ++ ['e', sg]) ++ E := by simp
  simp only [normalizeExponent, String.toList, hidx, hlen, if_false]
  rw [hsplit, List.take_left' (by simp), List.drop_left' (by simp)]
  simp

/-- The text `fmtE` writes for the digits `c :: cs`. -/
theorem fmtE_eq (neg : Bool) (c : Char) (cs : List Char) (dp : Int) :
    Float64.fmtE neg (c :: cs) dp = String.mk (((if neg then ['-'] else []) ++
      c :: (if cs = [] then [] else '.' :: cs)) ++
      'e' :: (if dp - 1 < 0 then '-' else '+') :: Float64.expDigits (dp - 1).natAbs) := by
  cases cs <;> simp [Float64.fmtE]

/-- The exponent form reads back as the decimal `d · 10^(dp - len d)`. -/
theorem parseNumber_fmtE (neg : Bool) {d : Nat} (hd : d ≠ 0) (dp : Int) {rest : List Char}
    (hr : EndsNumber rest) :
    parseNumber ((normalizeExponent (Float64.fmtE neg (digitChars d) dp)).toList ++ rest) =
      (Float64.ofDecimal neg d (dp - (digitChars d).length)).map (·, rest) := by
  obtain ⟨c, cs, hds, hc⟩ := digitChars_head hd
  have hdig : ∀ x ∈ c :: cs, x.isDigit = true := hds ▸ isDigit_of_mem_digitChars d
  have hval : digitsValue (c :: cs) = d := hds ▸ digitsValue_digitChars d
  have hne : ∀ x ∈ c :: cs, x ≠ 'e' := fun x hx hxe => by
    have := hdig x hx
    rw [hxe] at this
    exact absurd this (by decide)
  obtain ⟨hEne, -, -⟩ := expDigits_value (dp - 1).natAbs
  obtain ⟨hTne, hTd, hTv⟩ := trimmed_expDigits_value (dp - 1).natAbs
  have hP : 'e' ∉ (if neg then ['-'] else []) ++ c :: (if cs = [] then [] else '.' :: cs) := by
    intro h
    rcases List.mem_append.1 h with h | h
    · split_ifs at h <;> simp_all
    · rcases List.mem_cons.1 h with h | h
      · exact hne c (List.mem_cons_self _ _) h.symm
      · split_ifs at h
        · exact List.not_mem_nil _ h
        · rcases List.mem_cons.1 h with h | h
          · exact absurd h (by decide)
          · exact hne _ (List.mem_cons_of_mem _ h) rfl
  have hrd : ∀ x ∈ rest.head?, x.isDigit = false := fun x hx => (hr x hx).1
  have hx : (if dp - 1 < 0 then -(((dp - 1).natAbs : Nat) : Int) else (((dp - 1).natAbs : Nat) : Int)) =
      dp - 1 := by split <;> omega
  rw [hds, fmtE_eq, normalizeExponent_eq hP hEne]
  have hhead : ∀ (X : List Char), ∀ x ∈ (c :: X).head?, x ≠ '-' := fun X x hx h => by
    cases hx
    exact absurd (h ▸ hdig c (List.mem_cons_self _ _)) (by decide)
  rcases cs with _ | ⟨c', cs'⟩
  · simp only [if_true, List.append_nil, List.append_assoc, List.singleton_append, List.cons_append]
    refine (parseNumber_of_parts neg (hhead _) (parseIntPart_digits hc (by simp) (by simp))
      (parseFrac_none (by simp)) (parseExp_signed (dp - 1 < 0) hTne hTd hrd)).trans ?_
    rw [hTv, hx, List.append_nil, hval]
    simp
  · simp only [List.cons_ne_nil, if_false, List.append_assoc, List.singleton_append,
      List.cons_append]
    refine (parseNumber_of_parts neg (hhead _) (parseIntPart_digits hc (List.forall_mem_nil _)
      (by simp)) (parseFrac_digits (List.cons_ne_nil _ _) (fun x hx => hdig x (List.mem_cons_of_mem _ hx))
        (by simp)) (parseExp_signed (dp - 1 < 0) hTne hTd hrd)).trans ?_
    rw [hTv, hx, List.singleton_append, hval]
    congr 2
    simp only [List.length_cons]
    omega

/-! ### The plain form -/

/-- The digits at positions `0 … n-1`, with `0` past the end, as `fmtF` reads them. -/
theorem map_range_getD (ds : List Char) (n : Nat) :
    (List.range n).map (fun i => ds.getD i '0') =
      ds.take n ++ List.replicate (n - ds.length) '0' := by
  induction n with
  | zero => simp
  | succ n ih =>
    rw [List.range_succ, List.map_append, ih, List.take_succ, List.map_singleton]
    rcases Nat.lt_or_ge n ds.length with h | h
    · rw [List.getElem?_eq_getElem h, Nat.sub_eq_zero_of_le (by omega), Nat.sub_eq_zero_of_le h]
      simp [h]
    · rw [List.getElem?_eq_none h, show n + 1 - ds.length = (n - ds.length) + 1 by omega,
        List.replicate_succ']
      simp [h, List.getElem?_eq_none h]

/-- Below one, `fmtF` writes `0.`, the zeros after the point, then the digits. -/
theorem fmtF_of_nonpos (neg : Bool) {ds : List Char} (hne : ds ≠ []) {dp : Int} (h : dp ≤ 0) :
    (Float64.fmtF neg ds dp).toList =
      (if neg then ['-'] else []) ++ '0' :: '.' :: (List.replicate (-dp).toNat '0' ++ ds) := by
  have hprec : ((ds.length : Int) - dp).toNat = (-dp).toNat + ds.length := by omega
  have hfrac : (List.range ((-dp).toNat + ds.length)).map
      (fun i : Nat => if 0 ≤ dp + i then ds.getD (dp + i).toNat '0' else '0') =
      List.replicate (-dp).toNat '0' ++ ds := by
    rw [List.range_add, List.map_append, List.map_map]
    congr 1
    · refine (List.map_congr_left fun i hi => ?_).trans
        ((List.map_const' _ '0').trans (by rw [List.length_range]))
      rw [if_neg (by rw [List.mem_range] at hi; omega)]
    · refine (List.map_congr_left fun i _ => ?_).trans ((map_range_getD ds _).trans
        (by rw [List.take_length, Nat.sub_self, List.replicate_zero, List.append_nil]))
      simp only [Function.comp, if_pos (show 0 ≤ dp + ((-dp).toNat + i : Nat) by omega)]
      congr 1
      omega
  have hpos : ¬ ((ds.length : Int) - dp).toNat = 0 := by
    have : ds.length ≠ 0 := fun h0 => hne (List.length_eq_zero.1 h0)
    omega
  simp only [Float64.fmtF, if_neg (show ¬ 0 < dp by omega), hpos, if_false, hprec, hfrac]
  simp [hne]

/-- From one up, `fmtF` writes the digits before the point, padded with zeros, then the others
after a point. -/
theorem fmtF_of_pos (neg : Bool) (ds : List Char) {dp : Int} (h : 0 < dp) :
    (Float64.fmtF neg ds dp).toList = (if neg then ['-'] else []) ++
      (ds.take dp.toNat ++ List.replicate (dp.toNat - ds.length) '0') ++
      (if ds.length ≤ dp.toNat then [] else '.' :: ds.drop dp.toNat) := by
  have hint : (List.range dp.toNat).map
      (fun i : Nat => if 0 ≤ (i : Int) then ds.getD (i : Int).toNat '0' else '0') =
      ds.take dp.toNat ++ List.replicate (dp.toNat - ds.length) '0' :=
    (List.map_congr_left fun i _ => by rw [if_pos (by omega)]; simp).trans (map_range_getD ds _)
  have hfrac : (List.range ((ds.length : Int) - dp).toNat).map
      (fun i : Nat => if 0 ≤ dp + i then ds.getD (dp + i).toNat '0' else '0') =
      ds.drop dp.toNat := by
    refine (List.map_congr_left fun i _ => ?_).trans
      ((map_range_getD (ds.drop dp.toNat) _).trans ?_)
    · rw [if_pos (by omega)]
      simp only [List.getD_eq_getElem?_getD, List.getElem?_drop]
      congr 2
      omega
    · rw [List.length_drop, show ((ds.length : Int) - dp).toNat = ds.length - dp.toNat by omega,
        Nat.sub_self, List.replicate_zero, List.append_nil,
        List.take_of_length_le (by rw [List.length_drop])]
  by_cases hk : ds.length ≤ dp.toNat
  · simp only [Float64.fmtF, h, if_true, hint, if_pos hk,
      show ((ds.length : Int) - dp).toNat = 0 by omega]
    simp
  · simp only [Float64.fmtF, h, if_true, hint, hfrac, if_neg hk,
      show ¬ ((ds.length : Int) - dp).toNat = 0 by omega, if_false]
    simp

/-- The plain form reads back as the decimal `d · 10^(dp - len d)`. -/
theorem parseNumber_fmtF (neg : Bool) {d : Nat} (hd : d ≠ 0) (dp : Int) {rest : List Char}
    (hr : EndsNumber rest) :
    parseNumber ((Float64.fmtF neg (digitChars d) dp).toList ++ rest) =
      (Float64.ofDecimal neg d (dp - (digitChars d).length)).map (·, rest) := by
  obtain ⟨c, cs, hds, hc⟩ := digitChars_head hd
  have hdig : ∀ x ∈ digitChars d, x.isDigit = true := isDigit_of_mem_digitChars d
  have hrd : ∀ x ∈ rest.head?, x.isDigit = false := fun x hx => (hr x hx).1
  have hre : parseExp rest = some (0, rest) := parseExp_none fun x hx => (hr x hx).2.2
  have hhead : ∀ (X : List Char), ∀ x ∈ (c :: X).head?, x ≠ '-' := fun X x hx h => by
    cases hx
    exact absurd (h ▸ hdig c (hds ▸ List.mem_cons_self _ _)) (by decide)
  rcases le_or_lt dp 0 with h0 | h0
  · -- `0.` and the digits after zeros
    have hfp : ∀ x ∈ List.replicate (-dp).toNat '0' ++ digitChars d, x.isDigit = true := by
      intro x hx
      rcases List.mem_append.1 hx with hx | hx
      · rw [List.eq_of_mem_replicate hx]; rfl
      · exact hdig x hx
    rw [fmtF_of_nonpos neg (hds ▸ List.cons_ne_nil _ _) h0, List.append_assoc, List.cons_append,
      List.cons_append]
    refine (parseNumber_of_parts neg (fun x hx h => by cases hx; exact absurd h (by decide))
      (parseIntPart_zero _) (parseFrac_digits (by simp [hds]) hfp hrd) hre).trans ?_
    rw [show ['0'] ++ (List.replicate (-dp).toNat '0' ++ digitChars d) =
      List.replicate ((-dp).toNat + 1) '0' ++ digitChars d by
        rw [List.replicate_succ, List.cons_append, List.cons_append, List.nil_append],
      digitsValue_append, digitsValue_replicate_zero, Nat.zero_mul, Nat.zero_add,
      digitsValue_digitChars, List.length_append, List.length_replicate]
    congr 2
    omega
  · rw [fmtF_of_pos neg _ h0]
    by_cases hk : (digitChars d).length ≤ dp.toNat
    · -- the digits, then zeros
      rw [if_pos hk, List.take_of_length_le hk, List.append_nil, hds]
      simp only [List.append_assoc, List.cons_append]
      rw [← List.append_assoc cs]
      have hz : ∀ x ∈ cs ++ List.replicate (dp.toNat - (c :: cs).length) '0', x.isDigit = true := by
        intro x hx
        rcases List.mem_append.1 hx with hx | hx
        · exact hdig x (hds ▸ List.mem_cons_of_mem _ hx)
        · rw [List.eq_of_mem_replicate hx]; rfl
      refine (parseNumber_of_parts neg (hhead _) (parseIntPart_digits hc hz hrd)
        (parseFrac_none fun x hx => (hr x hx).2.1) hre).trans ?_
      rw [List.append_nil, ← List.cons_append, ← hds, digitsValue_append,
        digitsValue_replicate_zero, Nat.add_zero, digitsValue_digitChars, List.length_replicate]
      simp only [Float64.ofDecimal, List.length_nil, Nat.cast_zero, sub_zero, le_refl, if_true,
        if_pos (show 0 ≤ dp - ((digitChars d).length : Int) by omega), Int.toNat_zero, pow_zero,
        Nat.mul_one]
      congr 4
      omega
    · -- digits, a point, more digits
      rw [if_neg hk, Nat.sub_eq_zero_of_le (by omega), List.replicate_zero, List.append_nil]
      have htake : (digitChars d).take dp.toNat = c :: cs.take (dp.toNat - 1) := by
        rw [hds, show dp.toNat = (dp.toNat - 1) + 1 by omega, List.take_succ_cons,
          Nat.add_sub_cancel]
      have hdrop : (digitChars d).drop dp.toNat ≠ [] := by
        rw [Ne, List.drop_eq_nil_iff]; omega
      rw [htake, List.append_assoc, List.cons_append, List.append_assoc, List.cons_append]
      refine (parseNumber_of_parts neg (hhead _) (parseIntPart_digits hc
        (fun x hx => hdig x (hds ▸ List.mem_cons_of_mem _ (List.mem_of_mem_take hx))) (by simp))
        (parseFrac_digits hdrop (fun x hx => hdig x (List.mem_of_mem_drop hx)) hrd) hre).trans ?_
      rw [← htake, List.take_append_drop, digitsValue_digitChars, List.length_drop]
      congr 2
      omega

/-! ### `formatJCSFloat64` -/

/-- A double with mantissa zero is the double `0`. -/
theorem Float64.eq_zero_of_mant {f : Float64} (h : f.mant = 0) : f = Float64.zero := by
  obtain ⟨neg, m, e, hb⟩ := f
  simp only at h
  subst h
  simp only [IsBinary64, if_true, Bool.and_eq_true, Bool.not_eq_true', beq_iff_eq] at hb
  obtain ⟨rfl, rfl⟩ := hb
  rfl

theorem parseNumber_zero (neg : Bool) {rest : List Char} (hr : EndsNumber rest) :
    parseNumber ((if neg then ['-'] else []) ++ '0' :: rest) = some (Float64.zero, rest) := by
  refine (parseNumber_of_parts neg (fun x hx h => by cases hx; exact absurd h (by decide))
    (parseIntPart_zero _) (parseFrac_none fun x hx => (hr x hx).2.1)
    (parseExp_none fun x hx => (hr x hx).2.2)).trans ?_
  rw [List.append_nil, show digitsValue ['0'] = 0 from rfl, Float64.ofDecimal_zero]
  rfl

/-- `FormatFloat` once the shortest digits are known. -/
theorem formatFloat_of_shortestDigits {f : Float64} {d : Nat} {dp : Int}
    (hs : f.shortestDigits = (d, dp)) (fmt : Char) :
    f.formatFloat fmt =
      if fmt = 'e' then Float64.fmtE f.neg (digitChars d) dp else Float64.fmtF f.neg (digitChars d) dp := by
  unfold Float64.formatFloat
  rw [hs]

/-- The decoder reads `formatJCSFloat64 f` back as `f`, whatever follows that cannot continue a
number: both forms write the shortest digits of `f`, which round back to `f`, and the `-0` guard
never fires on a nonzero double. -/
theorem parseNumber_formatJCSFloat64 (f : Float64) {rest : List Char} (hr : EndsNumber rest) :
    parseNumber ((formatJCSFloat64 f).toList ++ rest) = some (f, rest) := by
  dsimp only [formatJCSFloat64]
  by_cases hf : f.mant = 0
  · rw [if_pos hf, Float64.eq_zero_of_mant hf]
    exact parseNumber_zero false hr
  rw [if_neg hf]
  obtain ⟨hd, hdec⟩ := Float64.ofDecimal_shortestDigits hf
  rcases hs : Float64.shortestDigits f with ⟨d, dp⟩
  rw [hs] at hd hdec
  rw [Float64.decLen_eq_length hd] at hdec
  have hform : parseNumber ((if Float64.e21 ≤ f.abs ∨ f.abs < Float64.em6 then
      normalizeExponent (f.formatFloat 'e') else f.formatFloat 'f').toList ++ rest) =
      some (f, rest) := by
    split
    · rw [formatFloat_of_shortestDigits hs, if_pos rfl, parseNumber_fmtE f.neg hd dp hr, hdec]; rfl
    · rw [formatFloat_of_shortestDigits hs, if_neg (by decide), parseNumber_fmtF f.neg hd dp hr, hdec]
      rfl
  generalize (if Float64.e21 ≤ f.abs ∨ f.abs < Float64.em6 then
      normalizeExponent (f.formatFloat 'e') else f.formatFloat 'f') = s at hform ⊢
  split
  · rename_i hneg
    rw [hneg] at hform
    have hz := (parseNumber_zero true hr).symm.trans hform
    simp only [Option.some.injEq, Prod.mk.injEq] at hz
    exact absurd (congrArg Float64.mant hz.1).symm hf
  · exact hform

end CanonicalJson

end OpenBindings
