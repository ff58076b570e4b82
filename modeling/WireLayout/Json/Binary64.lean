/-! Double-precision numbers in exact arithmetic: a sign, a mantissa below `2 ^ 53` and a power of two.
`ofRatio` rounds to nearest with ties to even, and `shortest` finds the fewest decimal digits that
lie closer to the number than to any other. -/

namespace WireLayout

/-- The number `mantissa * 2 ^ exponent`, negated when `negative`. -/
structure Binary64 where
  negative : Bool
  mantissa : Nat
  exponent : Int
  deriving DecidableEq, Repr

namespace Binary64

def zero : Binary64 := ⟨false, 0, 0⟩

def withSign (x : Binary64) (negative : Bool) : Binary64 := { x with negative }

def leastExponent : Int := -1074

/-- The numerator and denominator of `n / d` over `2 ^ q`. -/
def scale (n d : Nat) (q : Int) : Nat × Nat :=
  if 0 ≤ q then (n, d <<< q.toNat) else (n <<< (-q).toNat, d)

/-- The nearest integer to `n / d`, the even one of two. -/
def roundDiv (n d : Nat) : Nat :=
  let quotient := n / d
  let twice := 2 * (n % d)
  if twice < d then quotient
  else if twice = d then quotient + quotient % 2
  else quotient + 1

/-- The double nearest to `n / d`; none when it is beyond the largest one. -/
def ofRatio (n d : Nat) : Option Binary64 :=
  if n = 0 then some zero
  else
    let e : Int := n.log2 - d.log2
    let (n₀, d₀) := scale n d e
    let top : Int := if n₀ < d₀ then e - 1 else e
    let q := max (top - 52) leastExponent
    let (n₁, d₁) := scale n d q
    let m := roundDiv n₁ d₁
    let (m, q) := if m = 1 <<< 53 then (1 <<< 52, q + 1) else (m, q)
    if 971 < q then none else some ⟨false, m, q⟩

def ratio (x : Binary64) : Nat × Nat :=
  if 0 ≤ x.exponent then (x.mantissa <<< x.exponent.toNat, 1)
  else (x.mantissa, 1 <<< (-x.exponent).toNat)

def isZero (x : Binary64) : Bool := x.mantissa = 0

def mul (x y : Binary64) : Option Binary64 :=
  ofRatio (x.ratio.1 * y.ratio.1) (x.ratio.2 * y.ratio.2)

def div (x y : Binary64) : Option Binary64 :=
  ofRatio (x.ratio.1 * y.ratio.2) (x.ratio.2 * y.ratio.1)

def tenPower (k : Nat) : Binary64 := (ofRatio (Nat.pow 10 k) 1).getD zero

/-- Divides by the largest power of ten until one division is left. -/
def divByTens : Nat → Binary64 → Nat → Option Binary64
  | 0, _, _ => some zero
  | fuel + 1, x, k =>
    if k ≤ 308 then x.div (tenPower k)
    else if x.isZero then some zero
    else do divByTens fuel (← x.div (tenPower 308)) (k - 308)

/-- The reading of `significand * 10 ^ exponent`: the significand is rounded first, then the product or
quotient with the power of ten. None when the number is too large. -/
def ofDecimal (significand : Nat) (exponent : Int) : Option Binary64 := do
  let x ← ofRatio significand 1
  if 0 ≤ exponent then
    if exponent ≤ 308 then x.mul (tenPower exponent.toNat)
    else if x.isZero then some zero
    else none
  else divByTens 4 x (-exponent).toNat

/-- Digits of a decimal with its exponent, without trailing zeros. -/
def stripZeros : Nat → Nat → Int → Nat × Int
  | 0, digits, k => (digits, k)
  | fuel + 1, digits, k =>
    if digits ≠ 0 && digits % 10 = 0 then stripZeros fuel (digits / 10) (k + 1) else (digits, k)

def decimalRatio (digits : Nat) (k : Int) : Nat × Nat :=
  if 0 ≤ k then (digits * Nat.pow 10 k.toNat, 1) else (digits, Nat.pow 10 (-k).toNat)

def ratioLt (a b : Nat × Nat) : Bool := a.1 * b.2 < b.1 * a.2

def ratioLe (a b : Nat × Nat) : Bool := a.1 * b.2 ≤ b.1 * a.2

def quarter (m : Nat) (q : Int) : Nat × Nat :=
  if 2 ≤ q then (m <<< (q - 2).toNat, 1) else (m, 1 <<< (2 - q).toNat)

/-- A decimal reads back as the number: it lies between the middles to the neighbours, the middles
included when the mantissa is even. -/
def readsBack (x : Binary64) (decimal : Nat × Nat) : Bool :=
  let m := x.mantissa
  let below := if m = 1 <<< 52 && leastExponent < x.exponent then 4 * m - 1 else 4 * m - 2
  let low := quarter below x.exponent
  let high := quarter (4 * m + 2) x.exponent
  if m % 2 = 0 then ratioLe low decimal && ratioLe decimal high
  else ratioLt low decimal && ratioLt decimal high

/-- The greatest `p` with `10 ^ p` at most `n / d`. -/
def tenExponent (n d : Nat) : Int :=
  let guess : Int := (n.log2 - d.log2 : Int) * 30103 / 100000
  let fits (p : Int) : Bool := ratioLe (decimalRatio 1 p) (n, d)
  if fits (guess + 1) then guess + 1 else if fits guess then guess else guess - 1

/-- The best decimal with the given count of digits, if one reads back: of two the nearer, of two
equally near the even one. -/
def digitsOf (x : Binary64) (count : Nat) : Option (Nat × Int) :=
  let (n, d) := x.ratio
  let k := tenExponent n d - count + 1
  let (un, ud) := decimalRatio 1 k
  let lower := n * ud / (d * un)
  let lowFits := readsBack x (decimalRatio lower k)
  let highFits := readsBack x (decimalRatio (lower + 1) k)
  if lowFits && highFits then
    let twice := 2 * (n * ud % (d * un))
    if twice < d * un then some (lower, k)
    else if twice = d * un then some (lower + lower % 2, k)
    else some (lower + 1, k)
  else if lowFits then some (lower, k)
  else if highFits then some (lower + 1, k)
  else none

/-- The shortest decimal that reads back, as digits and a power of ten. -/
def shortest (x : Binary64) : Nat × Int :=
  if x.isZero then (0, 0)
  else
    let (digits, k) := ((List.range' 1 17).findSome? (digitsOf x)).getD (x.mantissa, 0)
    stripZeros 20 digits k

end Binary64

end WireLayout
