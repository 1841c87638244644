import ScriptTree.Text.Letter

/-!
Digits of all scripts. A decimal digit has a place in a positional numeral and hence a value from
zero to nine; other digits, such as superscripts, are digits by class only.
-/
namespace ScriptTree.Point

/-- The zeros of the decimal scripts; the nine digits after each zero follow it in order. -/
def zeros : List Point :=
  [ 48, 1632, 1776, 1984, 2406, 2534, 2662, 2790, 2918, 3046, 3174, 3302, 3430, 3558, 3664, 3792,
    3872, 4160, 4240, 6112, 6160, 6470, 6608, 6784, 6800, 6992, 7088, 7232, 7248, 42528, 43216,
    43264, 43472, 43504, 43600, 44016, 65296, 66720, 68912, 69734, 69872, 69942, 70096, 70384,
    70736, 70864, 71248, 71360, 71472, 71904, 72016, 72784, 73040, 73120, 92768, 92864, 93008,
    120782, 120792, 120802, 120812, 120822, 123200, 123632, 125264, 130032 ]

/-- Digits without a place in positional numerals. -/
def otherDigits : Ranges :=
  [ (178, 179), (185, 185), (4969, 4977), (6618, 6618), (8304, 8304), (8308, 8313), (8320, 8329),
    (9312, 9320), (9332, 9340), (9352, 9360), (9450, 9450), (9461, 9469), (9471, 9471),
    (10102, 10110), (10112, 10120), (10122, 10130), (68160, 68163), (69216, 69224), (69714, 69722),
    (127232, 127242) ]

/-- Numerals that are neither digits nor letters, such as vulgar fractions. -/
def numerals : Ranges :=
  [ (188, 190), (2548, 2553), (2930, 2935), (3056, 3058), (3192, 3198), (3416, 3422), (3440, 3448),
    (3882, 3891), (4978, 4988), (5870, 5872), (6128, 6137), (8528, 8578), (8581, 8585),
    (9321, 9331), (9341, 9351), (9361, 9371), (9451, 9460), (9470, 9470), (10111, 10111),
    (10121, 10121), (10131, 10131), (11517, 11517), (12295, 12295), (12321, 12329), (12344, 12346),
    (12690, 12693), (12832, 12841), (12872, 12879), (12881, 12895), (12928, 12937), (12977, 12991),
    (42726, 42735), (43056, 43061), (65799, 65843), (65856, 65912), (65930, 65931), (66273, 66299),
    (66336, 66339), (66369, 66369), (66378, 66378), (66513, 66517), (67672, 67679), (67705, 67711),
    (67751, 67759), (67835, 67839), (67862, 67867), (68028, 68029), (68032, 68047), (68050, 68095),
    (68164, 68168), (68221, 68222), (68253, 68255), (68331, 68335), (68440, 68447), (68472, 68479),
    (68521, 68527), (68858, 68863), (69225, 69246), (69405, 69414), (69457, 69460), (69573, 69579),
    (69723, 69733), (70113, 70132), (71482, 71483), (71914, 71922), (72794, 72812), (73664, 73684),
    (74752, 74862), (93019, 93025), (93824, 93846), (119520, 119539), (119648, 119672),
    (125127, 125135), (126065, 126123), (126125, 126127), (126129, 126132), (126209, 126253),
    (126255, 126269), (127243, 127244) ]

def decimalValue? (c : Point) : Option Nat :=
  if c < 128 then if 48 ≤ c ∧ c ≤ 57 then some (c - 48) else none
  else (zeros.find? fun start => start ≤ c && c < start + 10).map (c - ·)

/-- Digits of any script, decimal or not. -/
def isDigit (c : Point) : Bool := (decimalValue? c).isSome || otherDigits.has c

def isAlphanumeric (c : Point) : Bool := isLetter c || isDigit c || numerals.has c

end ScriptTree.Point
