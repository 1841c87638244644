import ScriptTree.Print.Literal
import ScriptTree.Print.Phrase
import ScriptTree.Tree.Fields

/-!
Printing of expressions on one line, with the fewest parentheses that ranks allow.

The rules for expressions and statements are mutually recursive. A rule takes the rules of the next
depth as an argument and uses them for the nodes below its own, so that a tree is printed by rules
of its depth.
-/
namespace ScriptTree.Print

open Layout

structure Context where
  /-- How many blocks stand around the line. -/
  depth : Nat := 0
  /-- Whether a bare `in` would be read as part of a loop head. -/
  noIn : Bool := false
  /-- Whether comments are printed. -/
  comments : Bool := true

namespace Context

/-- Inside brackets, where a bare `in` is an operator. -/
def lifted (c : Context) : Context := { c with noIn := false }

def loopHead (c : Context) : Context := { c with noIn := true }

def deeper (c : Context) : Context := { c with depth := c.depth + 1 }

end Context

structure Rules where
  /-- An expression that has to bind at least as tightly as a rank. -/
  expression : Context → Nat → Value → Except Error Phrase
  statement : Context → Value → Except Error Layout
  choice : Context → Value → Except Error Layout

abbrev sequenceRank : Nat := 1

/-- The rank of assignments and arrow functions. -/
abbrev assignmentRank : Nat := 2

/-- The rank of conditionals. The ranks of binary operators follow it. -/
abbrev conditionalRank : Nat := 3

abbrev unaryRank : Nat := 16

abbrev postfixRank : Nat := 17

/-- The rank of calls, constructions and members. -/
abbrev callRank : Nat := 18

/-- The rank of what no operator can take apart. -/
abbrev primaryRank : Nat := 19

def operatorRank (operator : Value) : Except Error Nat :=
  match operator with
  | .text op =>
    match TokenKind.rankOf? op with
    | some rank => .ok (conditionalRank + rank)
    | none => .error .unknownOperator
  | op => .error (if op.canBeKey then .unknownOperator else .wrongType)

def rank (v : Value) : Except Error Nat :=
  match v.kind? with
  | some .sequenceExpression => .ok sequenceRank
  | some .assignmentExpression => .ok assignmentRank
  | some .arrowFunctionExpression => .ok assignmentRank
  | some .conditionalExpression => .ok conditionalRank
  | some .binaryExpression => do operatorRank (← v.field "operator")
  | some .logicalExpression => do operatorRank (← v.field "operator")
  | some .unaryExpression => .ok unaryRank
  | some .updateExpression => do
    return if (← v.field "prefix").isTruthy then unaryRank else postfixRank
  | some .callExpression => .ok callRank
  | some .newExpression => .ok callRank
  | some .memberExpression => .ok callRank
  | _ => .ok primaryRank

/-- The items that a list field holds; a text in its place is the list of its code points. -/
def items (v : Value) (name : String) : Except Error (List Value) := do
  match ← v.field name with
  | .list items => return items
  | .text t => return t.map fun c => .text [c]
  | _ => .error .wrongType

/-- What a field holds if that is a text. -/
def word : Value → Except Error Text
  | .text t => .ok t
  | _ => .error .wrongType

def commaSeparated (r : Rules) (c : Context) (least : Nat) (vs : List Value) :
    Except Error Layout := do
  Phrase.separated (← vs.mapM (r.expression c least))

/-- The lines of a node's leading or trailing comments. -/
def commentLines (c : Context) (v : Value) (leading : Bool) : List Layout :=
  if c.comments then
    (v.comments.filter (·.leading == leading)).map fun comment => ofText comment.render
  else []

/-- A block over several lines; an empty one holds its trailing comments. -/
def block (r : Rules) (c : Context) (v : Value) : Except Error Layout := do
  let inner := c.lifted.deeper
  let lines ←
    if (← v.field "body").isTruthy then (← items v "body").mapM (r.statement inner)
    else pure (commentLines c v false)
  if lines.isEmpty then return lay "\x7b\x7d"
  return lay "\x7b" ++ [.line inner.depth] ++ join [.line inner.depth] lines ++ [.line c.depth] ++
    lay "\x7d"

/-- An array; a comma closes one that ends in a hole. -/
def array (r : Rules) (c : Context) (v : Value) : Except Error Layout := do
  let elements ← items v "elements"
  let parts ← elements.mapM fun e =>
    if e.isNull then pure (.source []) else r.expression c.lifted assignmentRank e
  let closing := if elements.getLast?.any Value.isNull then lay "," else []
  return lay "[" ++ (← Phrase.separated parts) ++ closing ++ lay "]"

def property (r : Rules) (c : Context) (v : Value) : Except Error Phrase := do
  let key ← v.field "key"
  let value ← v.field "value"
  if (← v.field "shorthand").isTruthy then r.expression c assignmentRank value
  else
    let key ← (← r.expression c assignmentRank key).spoken
    let key := if (← v.field "computed").isTruthy then lay "[" ++ key ++ lay "]" else key
    let value ← (← r.expression c assignmentRank value).spoken
    return .source (key ++ lay ": " ++ value)

def object (r : Rules) (c : Context) (v : Value) : Except Error Layout := do
  if !(← v.field "properties").isTruthy then return lay "\x7b\x7d"
  let parts ← (← items v "properties").mapM (property r c.lifted)
  return lay "\x7b " ++ (← Phrase.separated parts) ++ lay " \x7d"

def parameters (r : Rules) (c : Context) (v : Value) : Except Error Layout := do
  commaSeparated r c sequenceRank (← items v "params")

def function (r : Rules) (c : Context) (v : Value) : Except Error Layout := do
  let name ←
    match ← v.field "id" with
    | .null => pure []
    | id => do pure (lay " " ++ (← (← r.expression c sequenceRank id).strict))
  let params ← parameters r c v
  return lay "function" ++ name ++ parens params ++ lay " " ++ (← block r c (← v.field "body"))

/-- An arrow function; an object as its body stands in parentheses. -/
def arrow (r : Rules) (c : Context) (v : Value) : Except Error Layout := do
  let body ← v.field "body"
  let body ←
    if body.isKind .blockStatement then block r c body
    else
      let inner ← (← r.expression c.lifted assignmentRank body).begun
      pure (if inner.startsWith (text "\x7b") then parens inner else inner)
  return parens (← parameters r c v) ++ lay " => " ++ body

def isOperator (v : Value) (op : Text) : Bool :=
  match v with
  | .text t => t == op
  | _ => false

def isWordOperator (op : Text) : Bool :=
  op == text "typeof" || op == text "void" || op == text "delete"

/-- Whether a unary operator is a sign, which does not touch another of its sort. -/
def isSign (op : Text) : Bool := op == text "+" || op == text "-"

def unary (r : Rules) (c : Context) (v : Value) : Except Error Phrase := do
  let op ← v.field "operator"
  let argument ← r.expression c unaryRank (← v.field "argument")
  match op with
  | .text op =>
    if isWordOperator op then return .source (ofText op ++ lay " " ++ (← argument.spoken))
    else if isSign op then
      let inner ← argument.begun
      let space := if inner.startsWith op then lay " " else []
      return .source (ofText op ++ space ++ inner)
    else (Phrase.source (ofText op)).plus argument
  | op => if op.canBeKey then (Phrase.odd op).plus argument else .error .wrongType

def update (r : Rules) (c : Context) (v : Value) : Except Error Phrase := do
  let op := Phrase.ofValue (← v.field "operator")
  let argument ← v.field "argument"
  if (← v.field "prefix").isTruthy then op.plus (← r.expression c postfixRank argument)
  else (← r.expression c callRank argument).plus op

/-- Whether a value is one of the operators that cannot mix without parentheses. -/
def isLogicalWord (op : Text) : Bool :=
  op == text "??" || op == text "||" || op == text "&&"

/-- Whether an operand mixes `??` with another logical operator, and no rank divides them. -/
def mixesNullish (op : Text) (rankOfOp : Nat) (operand : Value) : Except Error Bool := do
  if operand.isKind .logicalExpression && isLogicalWord op then
    let inner ← operand.field "operator"
    if (op == text "??") == isOperator inner (text "??") then return false
    return rankOfOp ≤ (← rank operand)
  else return false

/-- An operand inside an operation, in parentheses if it mixes logical operators. -/
def operand (op : Text) (rankOfOp : Nat) (v : Value) (phrase : Phrase) : Except Error Phrase := do
  if ← mixesNullish op rankOfOp v then return .source (parens (← phrase.spoken))
  return phrase

/-- Two operands with an operator between them, and the parentheses that the operands need. -/
def operation (r : Rules) (c : Context) (v : Value) : Except Error Layout := do
  let operator ← v.field "operator"
  let own ← operatorRank operator
  let op ← word operator
  let left ← v.field "left"
  let right ← v.field "right"
  let power := op == text "**"
  let leftPhrase ← r.expression c (if power then own + 1 else own) left
  let rightPhrase ← r.expression c (if power then own else own + 1) right
  let leftPhrase ← operand op own left leftPhrase
  let rightPhrase ← operand op own right rightPhrase
  return (← leftPhrase.spoken) ++ lay " " ++ ofText op ++ lay " " ++ (← rightPhrase.spoken)

/-- A binary operation; in the head of a loop one with `in` stands in parentheses. -/
def binary (r : Rules) (c : Context) (v : Value) : Except Error Layout := do
  if isOperator (← v.field "operator") (text "in") && c.noIn then
    return parens (← operation r c.lifted v)
  else operation r c v

def assignment (r : Rules) (c : Context) (v : Value) : Except Error Layout := do
  let left ← r.expression c callRank (← v.field "left")
  let right ← r.expression c assignmentRank (← v.field "right")
  let left ← left.spoken
  let op ← (← v.field "operator").spoken
  return left ++ lay " " ++ ofText op ++ lay " " ++ (← right.spoken)

def conditional (r : Rules) (c : Context) (v : Value) : Except Error Layout := do
  let test ← r.expression c (conditionalRank + 1) (← v.field "test")
  let consequent ← r.expression c.lifted assignmentRank (← v.field "consequent")
  let alternate ← r.expression c assignmentRank (← v.field "alternate")
  return (← test.spoken) ++ lay " ? " ++ (← consequent.spoken) ++ lay " : " ++
    (← alternate.spoken)

def arguments (r : Rules) (c : Context) (v : Value) : Except Error Layout := do
  return parens (← commaSeparated r c.lifted assignmentRank (← items v "arguments"))

def call (r : Rules) (c : Context) (v : Value) : Except Error Layout := do
  let callee ← (← r.expression c callRank (← v.field "callee")).spoken
  return callee ++ (← arguments r c v)

/-- Whether a chain of members starts with a call. -/
def startsWithCall : Value → Bool
  | .node .callExpression _ _ => true
  | .node .memberExpression [object, _, _] _ => startsWithCall object
  | _ => false

/-- A construction; a callee that starts with a call stands in parentheses. -/
def construction (r : Rules) (c : Context) (v : Value) : Except Error Layout := do
  let callee ← v.field "callee"
  let calleeText ← (← r.expression c callRank callee).spoken
  let calleeText := if startsWithCall callee then parens calleeText else calleeText
  return lay "new " ++ calleeText ++ (← arguments r c v)

/-- Whether a value is a literal number, after which a point would be part of the number. -/
def isNumberLiteral : Value → Bool
  | .node .literal [.int _] _ => true
  | .node .literal [.float _] _ => true
  | _ => false

def member (r : Rules) (c : Context) (v : Value) : Except Error Layout := do
  let object ← v.field "object"
  let objectText ← (← r.expression c callRank object).spoken
  let objectText := if isNumberLiteral object then parens objectText else objectText
  let name ← v.field "property"
  if (← v.field "computed").isTruthy then
    let index ← (← r.expression c.lifted sequenceRank name).spoken
    return objectText ++ lay "[" ++ index ++ lay "]"
  return objectText ++ lay "." ++ (← (← r.expression c sequenceRank name).spoken)

/-- An expression without its comments and without parentheses around it. -/
def bare (r : Rules) (c : Context) (v : Value) (kind : Kind) : Except Error Phrase :=
  match kind with
  | .identifier => do return .ofValue (← v.field "name")
  | .literal => do return .source (ofText (← Literal.write (← v.field "value")))
  | .thisExpression => .ok (.source (lay "this"))
  | .arrayExpression => .source <$> array r c v
  | .objectExpression => .source <$> object r c v
  | .functionExpression => .source <$> function r c v
  | .arrowFunctionExpression => .source <$> arrow r c v
  | .unaryExpression => unary r c v
  | .updateExpression => update r c v
  | .binaryExpression => .source <$> binary r c v
  | .logicalExpression => .source <$> binary r c v
  | .assignmentExpression => .source <$> assignment r c v
  | .conditionalExpression => .source <$> conditional r c v
  | .callExpression => .source <$> call r c v
  | .newExpression => .source <$> construction r c v
  | .memberExpression => .source <$> member r c v
  | .sequenceExpression => do
    return .source (← commaSeparated r c assignmentRank (← items v "expressions"))
  | kind => malformedAt .notExpression kind

/-- Comments inside an expression, always in block form, with a space after each. -/
def inlineComments (c : Context) (v : Value) : Layout :=
  if c.comments then
    v.comments.flatMap fun comment => ofText { comment with block := true }.render ++ lay " "
  else []

def commented (c : Context) (v : Value) (phrase : Phrase) : Except Error Phrase := do
  if (inlineComments c v).isEmpty then return phrase
  return .source (inlineComments c v ++ (← phrase.strict))

/-- An expression that has to bind at least as tightly as a rank. -/
def expression (r : Rules) (c : Context) (least : Nat) (v : Value) : Except Error Phrase :=
  match v.kind? with
  | none => .error (.malformed (.expectedExpression v.typeName) none)
  | some kind => do
    if (← rank v) < least then
      commented c v (.source (parens (← (← bare r c.lifted v kind).strict)))
    else commented c v (← bare r c v kind)

end ScriptTree.Print
