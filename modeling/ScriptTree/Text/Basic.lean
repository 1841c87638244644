/-!
Text as a sequence of code points. Surrogate code points are ordinary members, so what an escape
names and what a file holds are values of one type.
-/
namespace ScriptTree

/-- A code point; surrogates are included. -/
abbrev Point := Nat

abbrev Text := List Point

def text (s : String) : Text := s.toList.map Char.toNat

namespace Point

abbrev lineFeed : Point := 10

abbrev carriageReturn : Point := 13

abbrev lineSeparator : Point := 0x2028

abbrev paragraphSeparator : Point := 0x2029

abbrev backslash : Point := 92

abbrev apostrophe : Point := 39

abbrev doubleQuote : Point := 34

/-- The code points that end a line of source text. -/
def isLineEnd (c : Point) : Bool :=
  c == lineFeed || c == carriageReturn || c == lineSeparator || c == paragraphSeparator

def hexDigit (n : Nat) : Point := if n < 10 then 48 + n else 87 + n

def hexValue? (c : Point) : Option Nat :=
  if 48 ≤ c ∧ c ≤ 57 then some (c - 48)
  else if 97 ≤ c ∧ c ≤ 102 then some (c - 87)
  else if 65 ≤ c ∧ c ≤ 70 then some (c - 55)
  else none

/-- Upper-case ASCII letters become lower case; nothing else changes. -/
def lower (c : Point) : Point := if 65 ≤ c ∧ c ≤ 90 then c + 32 else c

end Point

namespace Text

/-- The decimal digits of a number, the most significant first. -/
def decimal (n : Nat) : Text := (Nat.toDigits 10 n).map Char.toNat

def ofInt : Int → Text
  | .ofNat n => decimal n
  | .negSucc n => 45 :: decimal (n + 1)

/-- The lowest `width` hexadecimal digits of a number. -/
def hex : Nat → Nat → Text
  | 0, _ => []
  | width + 1, n => hex width (n / 16) ++ [Point.hexDigit (n % 16)]

def spaces (count : Nat) : Text := List.replicate count 32

def join (separator : Text) (parts : List Text) : Text := separator.intercalate parts

def startsWith (t head : Text) : Bool := head.isPrefixOf t

def lastLine (t : Text) : Text := (t.reverse.takeWhile (· != Point.lineFeed)).reverse

def lower (t : Text) : Text := t.map Point.lower

end Text

end ScriptTree
