import Mathlib.Data.Int.Defs
import Mathlib.Algebra.Group.Nat.Basic

/-! # Go's `float64` and the `strconv` routines the encoder calls

The canonical JSON encoder and the schema decider read JSON numbers as IEEE-754 doubles. A finite
double is kept exactly, as `±mant · 2^exp` in lowest terms (`mant` odd, or the number is zero),
so two `Float64` values are equal exactly when the doubles are `==`. Go also has a negative zero;
every path of the repository that reads a number (the bound comparisons `<`, `>`, and
`formatJCSFloat64`, which prints `0` for both zeros) treats it as `0`, so the model has one zero.
NaN and the infinities cannot come out of a JSON decoder and are not values here: an overflowing
literal is a `strconv.ParseFloat` error.

`roundRat` is round-to-nearest-even, the rounding of `strconv.ParseFloat(s, 64)`, and
`shortestDigits` is the digit string of `strconv.FormatFloat(f, fmt, -1, 64)`: the fewest
significant digits that parse back to `f`, the closest such string, ties to an even last digit.
Everything computes with `Nat` and `Int` so that `decide` evaluates small cases. -/

namespace OpenBindings

/-- Binary digits of `n` (`0` for `0`); `fuel` bounds the halvings. -/
def bitLenAux : Nat → Nat → Nat
  | 0, _ => 0
  | fuel + 1, n => if n = 0 then 0 else bitLenAux fuel (n / 2) + 1

/-- Number of binary digits of `n`. -/
def bitLen (n : Nat) : Nat := bitLenAux n n

/-- Decimal digits of `n` (`0` for `0`); `fuel` bounds the divisions. -/
def decLenAux : Nat → Nat → Nat
  | 0, _ => 0
  | fuel + 1, n => if n = 0 then 0 else decLenAux fuel (n / 10) + 1

/-- Number of decimal digits of `n`. -/
def decLen (n : Nat) : Nat := decLenAux n n

/-- Moves the factors of two of `m` into the exponent `e`. -/
def oddPartAux : Nat → Nat → Int → Nat × Int
  | 0, m, e => (m, e)
  | fuel + 1, m, e => if m ≠ 0 ∧ m % 2 = 0 then oddPartAux fuel (m / 2) (e + 1) else (m, e)

/-- `m · 2^e` written with an odd mantissa. -/
def oddPart (m : Nat) (e : Int) : Nat × Int := oddPartAux m m e

/-- `±mant · 2^exp` is a finite binary64 value in lowest terms: zero is `+0 · 2^0`, otherwise
the mantissa is odd, fits in 53 bits, and the value lies in `[2^-1074, 2^1024)`. -/
def IsBinary64 (neg : Bool) (mant : Nat) (exp : Int) : Bool :=
  if mant = 0 then !neg && exp == 0
  else mant % 2 == 1 && decide (bitLen mant ≤ 53) && decide (-1074 ≤ exp) &&
    decide ((bitLen mant : Int) + exp ≤ 1024)

/-- A finite Go `float64`, `±mant · 2^exp`; the field `isBinary64` makes every value a real
double in lowest terms. -/
structure Float64 where
  neg : Bool
  mant : Nat
  exp : Int
  isBinary64 : IsBinary64 neg mant exp = true
deriving DecidableEq

namespace Float64

/-- The double `0`. -/
def zero : Float64 := ⟨false, 0, 0, rfl⟩

/-- Builds `±m · 2^e` in lowest terms; `none` when it is not a finite double. -/
def make? (neg : Bool) (m : Nat) (e : Int) : Option Float64 :=
  if m = 0 then some zero else
  let p := oddPart m e
  if h : IsBinary64 neg p.1 p.2 = true then some ⟨neg, p.1, p.2, h⟩ else none

/-- `⌊log₂ (n / q)⌋` for positive `n` and `q`. -/
def log2Ratio (n q : Nat) : Int :=
  let g : Int := (bitLen n : Int) - bitLen q
  if (if 0 ≤ g then q * 2 ^ g.toNat ≤ n else q ≤ n * 2 ^ (-g).toNat) then g else g - 1

/-- `⌊log₁₀ (n / q)⌋` for positive `n` and `q`. -/
def log10Ratio (n q : Nat) : Int :=
  let g : Int := (decLen n : Int) - decLen q
  if (if 0 ≤ g then q * 10 ^ g.toNat ≤ n else q ≤ n * 10 ^ (-g).toNat) then g else g - 1

/-- IEEE-754 round-to-nearest-even of `±n / q` (`0 < q`) to binary64; `none` when the result
overflows. The unit in the last place is `2^k` with 53 significant bits, or `2^-1074` for
subnormals. -/
def roundRat (neg : Bool) (n q : Nat) : Option Float64 :=
  if n = 0 then some zero else
  let k : Int := max (log2Ratio n q - 52) (-1074)
  let num := if 0 ≤ k then n else n * 2 ^ (-k).toNat
  let den := if 0 ≤ k then q * 2 ^ k.toNat else q
  let m := num / den
  let r := num % den
  let m' := if den < 2 * r ∨ (2 * r = den ∧ m % 2 = 1) then m + 1 else m
  make? neg m' k

/-- The double nearest to `±d · 10^x`: the value `strconv.ParseFloat` returns for a decimal
literal; `none` when it is out of range. -/
def ofDecimal (neg : Bool) (d : Nat) (x : Int) : Option Float64 :=
  if 0 ≤ x then roundRat neg (d * 10 ^ x.toNat) 1 else roundRat neg d (10 ^ (-x).toNat)

/-- The magnitude `|f| = n / q` as a pair of naturals. -/
def ratio (f : Float64) : Nat × Nat :=
  if 0 ≤ f.exp then (f.mant * 2 ^ f.exp.toNat, 1) else (f.mant, 2 ^ (-f.exp).toNat)

/-- `math.Abs`. -/
def abs (f : Float64) : Float64 :=
  ⟨false, f.mant, f.exp, by
    have h := f.isBinary64
    unfold IsBinary64 at h ⊢
    split <;> simp_all⟩

/-- The signed mantissa `±mant`. -/
def num (f : Float64) : Int := if f.neg then -(f.mant : Int) else f.mant

/-- Go's `a < b` on two doubles: compare the mantissas at the smaller exponent. -/
def blt (a b : Float64) : Bool :=
  let e := min a.exp b.exp
  decide (a.num * ((2 ^ (a.exp - e).toNat : Nat) : Int) < b.num * ((2 ^ (b.exp - e).toNat : Nat) : Int))

instance : LT Float64 := ⟨fun a b => a.blt b = true⟩

instance (a b : Float64) : Decidable (a < b) := inferInstanceAs (Decidable (a.blt b = true))

instance : LE Float64 := ⟨fun a b => ¬ b < a⟩

instance (a b : Float64) : Decidable (a ≤ b) := inferInstanceAs (Decidable ¬ b < a)

/-- The double `1e21`, exactly `5^21 · 2^21`. -/
def e21 : Float64 := ⟨false, 476837158203125, 21, by decide⟩

/-- The double nearest to `1e-6`, the constant Go compares with. -/
def em6 : Float64 := (ofDecimal false 1 (-6)).getD zero

/-! ### Shortest digits -/

/-- The two candidates with `p` significant digits around `|f| = n / q`, whose decimal
exponent is `k`: `⌊|f| · 10^s⌋` and the next integer, with `s = p - 1 - k`, together with the
remainder that says which is closer (`2 · rem < den` means the lower one). -/
def candidates (n q : Nat) (k : Int) (p : Nat) : Nat × Nat × Nat × Int :=
  let s : Int := (p : Int) - 1 - k
  let num := if 0 ≤ s then n * 10 ^ s.toNat else n
  let den := if 0 ≤ s then q else q * 10 ^ (-s).toNat
  (num / den, num % den, den, s)

/-- `c · 10^-s` rounds back to the double `f`. -/
def roundsTo (f : Float64) (c : Nat) (s : Int) : Bool :=
  (if 0 ≤ s then roundRat false c (10 ^ s.toNat) else roundRat false (c * 10 ^ (-s).toNat) 1)
    == some f.abs

/-- The closest of the candidates at precision `p` that parse back to `f`, ties to the even
one. -/
def pickAt (f : Float64) (p : Nat) : Option (Nat × Int) :=
  let (n, q) := f.ratio
  let (lo, rem, den, s) := candidates n q (log10Ratio n q) p
  let okLo := roundsTo f lo s
  let okHi := rem ≠ 0 && roundsTo f (lo + 1) s
  if okLo && okHi then
    some (if 2 * rem < den ∨ (2 * rem = den ∧ lo % 2 = 0) then lo else lo + 1, s)
  else if okLo then some (lo, s)
  else if okHi then some (lo + 1, s)
  else none

/-- The exact decimal expansion of `|f|`, `c · 10^-s`; every double has one. -/
def exactDigits (f : Float64) : Nat × Int :=
  if 0 ≤ f.exp then (f.mant * 2 ^ f.exp.toNat, 0)
  else (f.mant * 5 ^ (-f.exp).toNat, -f.exp)

/-- Searches precisions `p, p+1, …` for the first that round-trips. Seventeen digits always
suffice for a double, so the exact expansion after them is never reached. -/
def searchDigits (f : Float64) : Nat → Nat → Nat × Int
  | 0, _ => exactDigits f
  | fuel + 1, p => match pickAt f p with
    | some r => r
    | none => searchDigits f fuel (p + 1)

/-- Drops trailing zeros of `c · 10^-s`. -/
def trimZeros : Nat → Nat → Int → Nat × Int
  | 0, c, s => (c, s)
  | fuel + 1, c, s => if c ≠ 0 ∧ c % 10 = 0 then trimZeros fuel (c / 10) (s - 1) else (c, s)

/-- The shortest digits of a nonzero double as Go's `decimalSlice` holds them: the digits `d`
and the decimal point `dp`, so that `|f| = 0.d × 10^dp`. -/
def shortestDigits (f : Float64) : Nat × Int :=
  let (c, s) := searchDigits f 17 1
  let (d, s') := trimZeros c c s
  (d, (decLen d : Int) - s')

/-! ### `strconv.FormatFloat(f, fmt, -1, 64)` -/

/-- The decimal digits of `n` as characters. -/
def digitChars (n : Nat) : List Char := Nat.toDigits 10 n

/-- Two or three exponent digits, as `fmtE` writes them. -/
def expDigits (x : Nat) : List Char :=
  if x < 10 then ['0', Char.ofNat (48 + x)] else Nat.toDigits 10 x

/-- Go's `fmtE` with the shortest digits: `d.ddde±dd`. -/
def fmtE (neg : Bool) (ds : List Char) (dp : Int) : String :=
  let x := dp - 1
  let mant := match ds with
    | [] => ['0']
    | [d] => [d]
    | d :: rest => d :: '.' :: rest
  String.mk ((if neg then ['-'] else []) ++ mant ++ ['e', if x < 0 then '-' else '+'] ++
    expDigits x.natAbs)

/-- Go's `fmtF` with the shortest digits: the integer part padded with zeros, then the
fraction, if any. -/
def fmtF (neg : Bool) (ds : List Char) (dp : Int) : String :=
  let digitAt (j : Int) : Char := if 0 ≤ j then ds.getD j.toNat '0' else '0'
  let intPart := if 0 < dp then (List.range dp.toNat).map (fun (i : Nat) => digitAt i) else ['0']
  let prec := ((ds.length : Int) - dp).toNat
  let frac := (List.range prec).map (fun (i : Nat) => digitAt (dp + i))
  String.mk ((if neg then ['-'] else []) ++ intPart ++ (if prec = 0 then [] else '.' :: frac))

/-- `strconv.FormatFloat(f, fmt, -1, 64)` for `fmt` `'e'` or `'f'` and a nonzero `f`. -/
def formatFloat (f : Float64) (fmt : Char) : String :=
  let (d, dp) := shortestDigits f
  if fmt = 'e' then fmtE f.neg (digitChars d) dp else fmtF f.neg (digitChars d) dp

end Float64

end OpenBindings
