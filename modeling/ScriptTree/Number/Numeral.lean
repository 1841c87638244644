import ScriptTree.Number.Binary64
import ScriptTree.Text.Blank
import ScriptTree.Text.Digit

/-!
Numerals in text: decimal integers and fractions in the digits of any script, and hexadecimal
integers as escapes write them.
-/
namespace ScriptTree.Numeral

/-- The longest decimal integer that is read or written, in digits. -/
abbrev digitLimit : Nat := 4300

def ofDigits (base : Nat) (digits : List Nat) : Nat := digits.foldl (fun n d => n * base + d) 0

def decimalDigits? (t : Text) : Option (List Nat) := t.mapM Point.decimalValue?

/-- A decimal integer without a sign; a text of too many digits is refused. -/
def readNat? (t : Text) : Option Nat :=
  if t.length ≤ digitLimit then (decimalDigits? t).map (ofDigits 10) else none

/-- The decimal text of an integer, unless it has too many digits. -/
def writeInt? (n : Int) : Option Text :=
  if (Text.decimal n.natAbs).length ≤ digitLimit then some (Text.ofInt n) else none

def readHexDigits (t : Text) : Nat := ofDigits 16 (t.filterMap Point.hexValue?)

/-- The exponent part of a decimal fraction: nothing, or a mark, a sign and digits. -/
def readExponent? : Text → Option Int
  | [] => some 0
  | mark :: rest =>
    if mark = 101 ∨ mark = 69 then
      let (negative, digits) : Bool × Text :=
        match rest with
        | 43 :: digits => (false, digits)
        | 45 :: digits => (true, digits)
        | digits => (false, digits)
      match decimalDigits? digits with
      | some (d :: ds) =>
        let n : Int := ofDigits 10 (d :: ds)
        some (if negative then -n else n)
      | _ => none
    else none

/-- A decimal fraction without a sign: digits with an optional point among them, then an optional
exponent. -/
def readFraction? (negative : Bool) (t : Text) : Option Binary64 := do
  let whole := t.takeWhile Point.isDigit
  let rest := t.dropWhile Point.isDigit
  let (part, rest) : Text × Text :=
    match rest with
    | 46 :: rest => (rest.takeWhile Point.isDigit, rest.dropWhile Point.isDigit)
    | rest => ([], rest)
  let digits ← decimalDigits? (whole ++ part)
  guard (digits ≠ [])
  let exponent ← readExponent? rest
  return Binary64.ofDecimal negative (ofDigits 10 digits) (exponent - part.length)

def readBinary64? (t : Text) : Option Binary64 :=
  if t = text "nan" then some .nan
  else if t = text "inf" then some (.infinite false)
  else if t = text "-inf" then some (.infinite true)
  else
    match t with
    | 45 :: rest => readFraction? true rest
    | rest => readFraction? false rest

/-- An integer in decimal with an optional minus sign; a text of too many digits is refused. -/
def readInt? : Text → Option Int
  | 45 :: rest => (readNat? rest).map fun n => -(n : Int)
  | rest => (readNat? rest).map Int.ofNat

/-- Hexadecimal digits with single underscores between them. -/
def hexGroups? : Text → Option (List Nat)
  | [] => none
  | [c] => c.hexValue?.map ([·])
  | c :: 95 :: rest => do return (← c.hexValue?) :: (← hexGroups? rest)
  | c :: rest => do return (← c.hexValue?) :: (← hexGroups? rest)

/-- A code point of a hexadecimal numeral in ASCII: wider blanks become spaces and decimal digits of
other scripts their ASCII digits. -/
def plainPoint? (c : Point) : Option Point :=
  if c < 128 then some c
  else if c.isBlank then some 32
  else c.decimalValue?.map (48 + ·)

def isPlainBlank (c : Point) : Bool := (9 ≤ c && c ≤ 13) || c == 32

/-- A hexadecimal integer: blanks around it, a sign, the mark `0x` with an underscore after it, and
underscores between digits may all be there. -/
def readHex? (t : Text) : Option Int := do
  let plain ← t.mapM plainPoint?
  let inner := ((plain.dropWhile isPlainBlank).reverse.dropWhile isPlainBlank).reverse
  let (negative, rest) : Bool × Text :=
    match inner with
    | 43 :: rest => (false, rest)
    | 45 :: rest => (true, rest)
    | rest => (false, rest)
  let digits : Text :=
    match rest with
    | 48 :: 120 :: 95 :: digits => digits
    | 48 :: 88 :: 95 :: digits => digits
    | 48 :: 120 :: digits => digits
    | 48 :: 88 :: digits => digits
    | digits => digits
  let n : Int := ofDigits 16 (← hexGroups? digits)
  return if negative then -n else n

end ScriptTree.Numeral
