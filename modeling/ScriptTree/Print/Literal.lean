import ScriptTree.Tree.Shown

/-! Literals in source text: strings in single quotes, numbers, and the words for the rest. -/
namespace ScriptTree.Literal

def quotedPoint (c : Point) : Text :=
  match c with
  | 92 => text "\\\\"
  | 39 => text "\\'"
  | 10 => text "\\n"
  | 13 => text "\\r"
  | 9 => text "\\t"
  | 8 => text "\\b"
  | 12 => text "\\f"
  | 11 => text "\\v"
  | 0 => text "\\0"
  | c => if c < 32 then text "\\x" ++ Text.hex 2 c else [c]

def quoted (t : Text) : Text := text "'" ++ t.flatMap quotedPoint ++ text "'"

/-- Integral numbers below this are written in full. -/
def integralLimit : Nat := tenTo 21

/-- A floating-point number: as an integer if it is one of moderate size. -/
def floatText (x : Binary64) : Text :=
  match x with
  | .nan => text "NaN"
  | .infinite negative => if negative then text "-Infinity" else text "Infinity"
  | x =>
    match x.toInt? with
    | some n => if n.natAbs < integralLimit then Text.ofInt n else x.shown
    | none => x.shown

def write : Value → Except Error Text
  | .null => .ok (text "null")
  | .bool b => .ok (if b then text "true" else text "false")
  | .text t => .ok (quoted t)
  | .int n => writeInteger n
  | .float x => .ok (floatText x)
  | v => do malformedLiteral (← v.shown)
where
  malformedLiteral (shown : Text) : Except Error Text :=
    .error (.malformed (.literal shown) (some Kind.literal.name))

end ScriptTree.Literal
