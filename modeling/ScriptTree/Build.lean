import ScriptTree.Tree.Fields
import ScriptTree.Tree.Shown

/-! Building nodes from named fields. What is built has the fields of its kind. -/
namespace ScriptTree.Build

/-- A value as a list: a list itself, or the code points of a text. -/
def asList : Value → Except Error (List Value)
  | .list items => .ok items
  | .text t => .ok (t.map fun c => .text [c])
  | _ => .error .wrongType

/-- What a field of a new node gets: a missing list is empty, any other missing field null. -/
def fieldValue (f : Field) (v : Value) : Except Error Value :=
  match f.shape, v with
  | .list, .null => .ok (.list [])
  | .list, v => do return .list (← asList v)
  | _, v => .ok v

def node (kind : Kind) (fields : List (String × Value)) : Except Error Value := do
  match Vocabulary.standard.find? kind with
  | none => .error (.unknownKind kind.name)
  | some d =>
    if d.isAbstract then malformedAt .abstractKind kind
    else
      let unknown := (fields.map (·.1)).filter fun name => !d.fields.any (·.name == name)
      if unknown.isEmpty then
        let children ← d.fields.mapM fun f => fieldValue f ((fields.lookup f.name).getD .null)
        let made := Value.node kind children {}
        made.validate false
        return made
      else malformedAt (.unknownFields (unknown.mergeSort (· ≤ ·))) kind

def identifier (name : Value) : Except Error Value := node .identifier [("name", name)]

def literal (value : Value) : Except Error Value := node .literal [("value", value)]

def asExpression (v : Value) : Except Error Value :=
  match v with
  | .text _ => identifier v
  | v => .ok v

def member (object property computed : Value) : Except Error Value := do
  node .memberExpression
    [("object", ← asExpression object), ("property", ← asExpression property),
      ("computed", computed)]

def call (callee arguments : Value) : Except Error Value := do
  let callee ← asExpression callee
  node .callExpression [("callee", callee), ("arguments", .list (← asList arguments))]

def statement (expression : Value) : Except Error Value :=
  node .expressionStatement [("expression", expression)]

def isDeclarationWord : Value → Bool
  | .text word => word == text "var" || word == text "let" || word == text "const"
  | _ => false

def declare (word name init : Value) : Except Error Value := do
  if isDeclarationWord word then
    let declarator ← node .variableDeclarator [("id", ← asExpression name), ("init", init)]
    node .variableDeclaration [("kind", word), ("declarations", .list [declarator])]
  else malformedAt (.declarationWord (← word.spoken)) .variableDeclaration

/-- Members one of the other, from left to right. -/
def chain (members : Value) : Except Error Value := do
  if !members.isTruthy then .error .emptyChain
  match ← asList members with
  | [] => .error .emptyChain
  | first :: others =>
    others.foldlM (fun object name => member object name (.bool false)) (← asExpression first)

end ScriptTree.Build
