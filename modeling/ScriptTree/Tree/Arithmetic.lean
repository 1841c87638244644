import ScriptTree.Error
import ScriptTree.Tree.Value

/-!
Equality, order and sums of plain values. Integers and floating-point numbers are compared by what
they are worth, and a boolean counts as the number zero or one.
-/
namespace ScriptTree.Value

def sameNumber : Value → Value → Bool
  | int a, int b => a == b
  | int a, float y => y.sameInt a
  | float x, int b => x.sameInt b
  | float x, float y => x.same y
  | _, _ => false

/-- A boolean as the number zero or one; other values stay. -/
def asNumber : Value → Value
  | bool b => int (if b then 1 else 0)
  | v => v

mutual
/-- Plain equality of values of any shape, in which booleans are numbers. -/
def same : Value → Value → Bool
  | null, null => true
  | text a, text b => a == b
  | list xs, list ys => sameItems xs ys
  | node k xs _, node l ys _ => k == l && sameItems xs ys
  | a, b => sameNumber a.asNumber b.asNumber

def sameItems : List Value → List Value → Bool
  | [], [] => true
  | x :: xs, y :: ys => same x y && sameItems xs ys
  | _, _ => false
end

/-- Whether two values are one and the same because they exist only once: null, the truth values,
the integers from -5 to 256, and texts of at most one character, which is below 256. -/
def isOneWith : Value → Value → Bool
  | null, null => true
  | bool a, bool b => a == b
  | int a, int b => a == b && decide (-5 ≤ a ∧ a ≤ 256)
  | text a, text b => a == b && a.length ≤ 1 && a.all (· < 256)
  | _, _ => false

mutual
/-- Whether a value can be a key: lists cannot, nor can nodes that hold one. -/
def canBeKey : Value → Bool
  | list _ => false
  | node _ children _ => allCanBeKeys children
  | _ => true

def allCanBeKeys : List Value → Bool
  | [] => true
  | v :: vs => canBeKey v && allCanBeKeys vs
end

def isNumber : Value → Bool
  | bool _ | int _ | float _ => true
  | _ => false

def toBinary64 (n : Int) : Except Error Binary64 :=
  match Binary64.ofInt? n with
  | some x => .ok x
  | none => .error .hugeInteger

def atMost (a b : Value) : Bool :=
  match a.asNumber, b.asNumber with
  | int m, int n => m ≤ n
  | int m, float y => (Binary64.finite (m < 0) m.natAbs 0).atMost y
  | float x, int n => x.atMost (Binary64.finite (n < 0) n.natAbs 0)
  | float x, float y => x.atMost y
  | _, _ => false

/-- The sum of two numbers, or one list after the other. -/
def plus (a b : Value) : Except Error Value :=
  match a.asNumber, b.asNumber with
  | int m, int n => .ok (int (m + n))
  | int m, float y => do return float ((← toBinary64 m).plus y)
  | float x, int n => do return float (x.plus (← toBinary64 n))
  | float x, float y => .ok (float (x.plus y))
  | list xs, list ys => .ok (list (xs ++ ys))
  | _, _ => .error .wrongType

end ScriptTree.Value
