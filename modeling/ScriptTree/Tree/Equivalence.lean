import ScriptTree.Tree.Arithmetic
import ScriptTree.Tree.Fields
import ScriptTree.Tree.Shown

/-!
Equivalence of trees: the same kinds with equivalent fields. Notes take no part in it. Booleans are
no numbers here, while integers and floating-point numbers are compared by what they are worth.
-/
namespace ScriptTree.Value

/-- Equality of what plain fields hold: values of one type, where all numbers are of one type. -/
def sameScalar : Value → Value → Bool
  | bool a, bool b => a == b
  | bool _, _ => false
  | _, bool _ => false
  | a, b => a.same b

def incomparable {α : Type} (a b : Value) : Except Error α :=
  .error (.malformed (.incomparable a.typeName b.typeName) none)

mutual
/-- Equivalence of two nodes; null is equivalent to null only. -/
def equivalent : Value → Value → Except Error Bool
  | null, null => .ok true
  | null, _ => .ok false
  | node k xs m, b =>
    match b with
    | null => .ok false
    | node l ys _ =>
      if k ≠ l then .ok false
      else do
        let d ← definitionOf k xs.length
        let _ ← definitionOf l ys.length
        equivalentFields k d.fields xs ys
    | b => incomparable (node k xs m) b
  | a, b => if b.isNull then .ok false else incomparable a b

/-- Equivalence of fields in order; the first difference decides. -/
def equivalentFields (kind : Kind) : List Field → List Value → List Value → Except Error Bool
  | f :: fs, x :: xs, y :: ys => do
    let here ←
      match f.shape with
      | .list =>
        match x, y with
        | list as, list bs => if as.length ≠ bs.length then pure false else equivalentItems as bs
        | _, _ => malformedAt (.notList f.name) kind
      | .node =>
        if !f.optional && (x.isNull || y.isNull) then malformedAt (.missing f.name) kind
        else equivalent x y
      | .value => pure (sameScalar x y)
    if here then equivalentFields kind fs xs ys else return false
  | _, _, _ => .ok true

/-- Equivalence of the items of lists of one length; the first difference decides. -/
def equivalentItems : List Value → List Value → Except Error Bool
  | x :: xs, y :: ys => do
    if ← equivalent x y then equivalentItems xs ys else return false
  | _, _ => .ok true
end

/-- How a matcher that waits for its other node shows itself. -/
def matcherShown (v : Value) : Except Error Text := do
  let inner ←
    match v with
    | node kind _ _ => pure (ScriptTree.text kind.name).shown
    | v => v.shown
  return ScriptTree.text "EquivalenceMatcher(" ++ inner ++ ScriptTree.text ")"

end ScriptTree.Value
