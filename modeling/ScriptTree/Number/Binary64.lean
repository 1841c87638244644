/-!
Floating-point numbers of double precision, held exactly: a finite number is an integer mantissa
times a power of two. Comparison with integers is exact, and rounding goes to the nearest number,
a tie to the even mantissa.
-/
namespace ScriptTree

/-- A number of double precision. A finite one is `mantissa * 2 ^ exponent` with its sign; the sign
of zero is kept. -/
inductive Binary64
  | nan
  | infinite (negative : Bool)
  | finite (negative : Bool) (mantissa : Nat) (exponent : Int)
  deriving DecidableEq, Inhabited

/-- Two to a power; negative powers count as zero. -/
def twoTo (exponent : Int) : Nat := Nat.pow 2 exponent.toNat

def tenTo (exponent : Int) : Nat := Nat.pow 10 exponent.toNat

structure Dyadic where
  coefficient : Int
  exponent : Int

namespace Dyadic

/-- The coefficient over a power of two no greater than the number's own. -/
def scaledTo (x : Dyadic) (exponent : Int) : Int := x.coefficient * twoTo (x.exponent - exponent)

/-- Equality of the numbers themselves: their coefficients over a common power of two agree. -/
def same (x y : Dyadic) : Bool :=
  let common := min x.exponent y.exponent
  x.scaledTo common == y.scaledTo common

def atMost (x y : Dyadic) : Bool :=
  let common := min x.exponent y.exponent
  x.scaledTo common ≤ y.scaledTo common

def plus (x y : Dyadic) : Dyadic :=
  let common := min x.exponent y.exponent
  ⟨x.scaledTo common + y.scaledTo common, common⟩

def ofInt (n : Int) : Dyadic := ⟨n, 0⟩

end Dyadic

namespace Binary64

/-- The least power of two that a finite number uses. -/
abbrev leastExponent : Int := -1074

abbrev greatestExponent : Int := 971

def dyadic? : Binary64 → Option Dyadic
  | finite negative mantissa exponent =>
    some ⟨if negative then -(mantissa : Int) else mantissa, exponent⟩
  | _ => none

/-- Equality of numbers: a number that is not one differs from all, and the two zeros agree. -/
def same : Binary64 → Binary64 → Bool
  | infinite a, infinite b => a == b
  | x, y =>
    match x.dyadic?, y.dyadic? with
    | some a, some b => a.same b
    | _, _ => false

def sameInt (x : Binary64) (n : Int) : Bool :=
  match x.dyadic? with
  | some a => a.same (Dyadic.ofInt n)
  | none => false

/-- The integer nearest to a fraction; a half goes to the even neighbour. -/
def roundQuotient (num den : Nat) : Nat :=
  let quotient := num / den
  let twice := 2 * (num % den)
  if den < twice ∨ (twice = den ∧ quotient % 2 = 1) then quotient + 1 else quotient

/-- A fraction over a power of two, as a numerator and a denominator. -/
def scaleRatio (num den : Nat) (exponent : Int) : Nat × Nat :=
  if 0 ≤ exponent then (num, den * twoTo exponent) else (num * twoTo (-exponent), den)

/-- The power of two over which a positive fraction has a 53-bit integer part, or the least one. -/
def ratioExponent (num den : Nat) : Int :=
  let guess : Int := (num.log2 : Int) - (den.log2 : Int) - 52
  let (n, d) := scaleRatio num den guess
  max (if n < twoTo 52 * d then guess - 1 else guess) leastExponent

/-- The number nearest to a fraction; beyond the greatest finite number it is infinite. -/
def ofRatio (negative : Bool) (num den : Nat) : Binary64 :=
  if num = 0 then finite negative 0 leastExponent
  else
    let exponent := ratioExponent num den
    let (n, d) := scaleRatio num den exponent
    let mantissa := roundQuotient n d
    let (mantissa, exponent) :=
      if mantissa = twoTo 53 then (twoTo 52, exponent + 1) else (mantissa, exponent)
    if greatestExponent < exponent then infinite negative else finite negative mantissa exponent

/-- The number nearest to `digits * 10 ^ exponent`. Scales far outside the range are settled
before any power is computed. -/
def ofDecimal (negative : Bool) (digits : Nat) (exponent : Int) : Binary64 :=
  let scale : Int := (Nat.toDigits 10 digits).length + exponent
  if digits = 0 ∨ scale < -330 then finite negative 0 leastExponent
  else if 310 < scale then infinite negative
  else if 0 ≤ exponent then ofRatio negative (digits * tenTo exponent) 1
  else ofRatio negative digits (tenTo (-exponent))

/-- The number nearest to an integer, unless that is beyond the finite numbers. -/
def ofInt? (n : Int) : Option Binary64 :=
  match ofRatio (n < 0) n.natAbs 1 with
  | infinite _ => none
  | x => some x

/-- The number nearest to a dyadic number; a zero gets the given sign. -/
def ofDyadic (zeroNegative : Bool) (x : Dyadic) : Binary64 :=
  if x.coefficient = 0 then finite zeroNegative 0 leastExponent
  else
    ofRatio (x.coefficient < 0) (x.coefficient.natAbs * twoTo x.exponent) (twoTo (-x.exponent))

/-- The sum of two numbers, rounded once. -/
def plus : Binary64 → Binary64 → Binary64
  | infinite a, infinite b => if a = b then infinite a else nan
  | infinite a, finite .. => infinite a
  | finite .., infinite b => infinite b
  | finite n m e, finite k l f =>
    let sign (negative : Bool) (size : Nat) : Int := if negative then -(size : Int) else size
    ofDyadic (n && k) (Dyadic.plus ⟨sign n m, e⟩ ⟨sign k l, f⟩)
  | _, _ => nan

/-- Whether a number is no greater than another; what is no number is not comparable. -/
def atMost : Binary64 → Binary64 → Bool
  | nan, _ => false
  | _, nan => false
  | infinite negative, y => negative || y == infinite false
  | _, infinite negative => !negative
  | x, y =>
    match x.dyadic?, y.dyadic? with
    | some a, some b => a.atMost b
    | _, _ => false

def toInt? : Binary64 → Option Int
  | finite negative mantissa exponent =>
    let size : Option Nat :=
      if 0 ≤ exponent then some (mantissa * twoTo exponent)
      else if mantissa % twoTo (-exponent) = 0 then some (mantissa / twoTo (-exponent))
      else none
    size.map fun n => if negative then -(n : Int) else n
  | _ => none

/-- Whether a number counts as false: only the zeros do. -/
def isZero : Binary64 → Bool
  | finite _ mantissa _ => mantissa == 0
  | _ => false

end Binary64

end ScriptTree
