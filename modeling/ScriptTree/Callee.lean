import ScriptTree.Pattern.Read
import ScriptTree.Print.Node

/-! What is called by a call or a construction, as source text, and patterns searched in it. -/
namespace ScriptTree

namespace Value

def callee (v : Value) : Except Error Value :=
  if v.isKind .callExpression || v.isKind .newExpression then v.field "callee"
  else .error (.mismatch Kind.callExpression.name v.kindName?)

/-- What the callee of a call or a construction prints as, without comments. -/
def calleePrinted (v : Value) : Except Error Value := do
  (← v.callee).printed { comments := false }

/-- The source text of the callee of a call or a construction, without comments. -/
def calleeText (v : Value) : Except Error Text := do
  (← v.callee).print { comments := false }

/-- Where a pattern fits in the callee of a call. -/
def calleeFit (v : Value) (p : Pattern) : Except Error (Option Pattern.Fit) := do
  return p.search (← v.calleeText)

end Value

def readPattern (t : Text) : Except Error Pattern :=
  match Pattern.read? t with
  | some p => .ok p
  | none => .error .badPattern

end ScriptTree
