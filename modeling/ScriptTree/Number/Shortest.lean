import ScriptTree.Number.Binary64
import ScriptTree.Text.Basic

/-!
The decimal text of a floating-point number with the fewest digits that read back as that number.
Of two candidates of that length the nearer one is taken, and of two equally near ones the even.
-/
namespace ScriptTree.Shortest

/-- The numbers that round to `mantissa * 2 ^ exponent`, in quarters of its last place: from
`4 * mantissa - below` to `4 * mantissa + 2`. The gap below a power of two is half as wide. -/
def below (mantissa : Nat) (exponent : Int) : Nat :=
  if mantissa = twoTo 52 ∧ Binary64.leastExponent < exponent then 1 else 2

/-- Whether `candidate * 10 ^ place` rounds to the number; the ends of the interval belong to it
when the mantissa is even. -/
def reads (mantissa : Nat) (exponent : Int) (candidate : Nat) (place : Int) : Bool :=
  let quarter := exponent - 2
  let scale := fun (n : Nat) => n * twoTo quarter * tenTo (-place)
  let point := candidate * tenTo place * twoTo (-quarter)
  let low := scale (4 * mantissa - below mantissa exponent)
  let high := scale (4 * mantissa + 2)
  if mantissa % 2 = 0 then low ≤ point && point ≤ high else low < point && point < high

def overPlace (mantissa : Nat) (exponent place : Int) : Nat × Nat :=
  (mantissa * twoTo exponent * tenTo (-place), twoTo (-exponent) * tenTo place)

/-- The least power of ten above a positive number, searched upwards from a start. -/
def magnitudeFrom : Nat → Nat → Int → Int → Int
  | 0, _, _, k => k
  | fuel + 1, mantissa, exponent, k =>
    let (n, d) := overPlace mantissa exponent k
    if n < d then k else magnitudeFrom fuel mantissa exponent (k + 1)

/-- The least `k` with the positive number below `10 ^ k`. -/
def magnitude (mantissa : Nat) (exponent : Int) : Int :=
  let bits : Int := (mantissa.log2 : Int) + exponent
  magnitudeFrom 4 mantissa exponent (Int.fdiv (bits * 30103) 100000 - 1)

/-- The number's best neighbour on the grid of `10 ^ place`, if one of the two reads back. -/
def onGrid? (mantissa : Nat) (exponent place : Int) : Option Nat :=
  let (n, d) := overPlace mantissa exponent place
  let floor := n / d
  match reads mantissa exponent floor place, reads mantissa exponent (floor + 1) place with
  | false, false => none
  | true, false => some floor
  | false, true => some (floor + 1)
  | true, true =>
    let twice := 2 * (n % d)
    if twice < d ∨ (twice = d ∧ floor % 2 = 0) then some floor else some (floor + 1)

/-- The first grid, from coarse to fine, that has a neighbour which reads back. -/
def search (mantissa : Nat) (exponent : Int) : Nat → Int → Nat × Int
  | 0, place =>
    let (n, d) := overPlace mantissa exponent place
    (n / d, place)
  | fuel + 1, place =>
    match onGrid? mantissa exponent place with
    | some n => (n, place)
    | none => search mantissa exponent fuel (place - 1)

def dropZeros : Nat → Nat → Int → Nat × Int
  | 0, n, place => (n, place)
  | fuel + 1, n, place => if n % 10 = 0 then dropZeros fuel (n / 10) (place + 1) else (n, place)

/-- The shortest digits of a positive finite number, and the power of ten of the last one. -/
def digits (mantissa : Nat) (exponent : Int) : Nat × Int :=
  let (n, place) := search mantissa exponent 17 (magnitude mantissa exponent - 1)
  dropZeros 17 n place

structure Style where
  /-- The least power of ten of the first digit that is written without an exponent. -/
  least : Int
  /-- The first power of ten of the first digit that needs an exponent. -/
  most : Int
  /-- The fewest digits of an exponent. -/
  exponentWidth : Nat

/-- Exponents are written from `1e+16` up and from `1e-05` down, in two digits at least. -/
def plain : Style := ⟨-4, 16, 2⟩

def writeExponent (style : Style) (n : Int) : Text :=
  let digits := Text.decimal n.natAbs
  (if n < 0 then text "e-" else text "e+") ++
    List.replicate (style.exponentWidth - digits.length) 48 ++ digits

/-- Digits with the point `point` places after the start, or with an exponent. -/
def write (style : Style) (n : Nat) (place : Int) : Text :=
  let digits := Text.decimal n
  let point : Int := digits.length + place
  if point - 1 < style.least ∨ style.most ≤ point - 1 then
    digits.take 1 ++ (if digits.length = 1 then [] else 46 :: digits.drop 1) ++
      writeExponent style (point - 1)
  else if point ≤ 0 then text "0." ++ List.replicate (-point).toNat 48 ++ digits
  else if digits.length ≤ point then
    digits ++ List.replicate (point.toNat - digits.length) 48 ++ text ".0"
  else digits.take point.toNat ++ 46 :: digits.drop point.toNat

end ScriptTree.Shortest

/-- A number of double precision as messages show it: the fewest digits that read back. -/
def ScriptTree.Binary64.shown : Binary64 → Text
  | nan => text "nan"
  | infinite negative => if negative then text "-inf" else text "inf"
  | finite negative mantissa exponent =>
    let size :=
      if mantissa = 0 then text "0.0"
      else
        let (n, place) := Shortest.digits mantissa exponent
        Shortest.write Shortest.plain n place
    if negative then 45 :: size else size
