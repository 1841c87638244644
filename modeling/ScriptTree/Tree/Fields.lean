import ScriptTree.Error
import ScriptTree.Tree.Value
import ScriptTree.Vocabulary

/-!
Fields of nodes by name, and the check that a node has the fields of its kind. A node whose kind is
unknown or abstract, or whose number of fields is not that of its kind, has no fields to read.
-/
namespace ScriptTree

def malformedAt {α : Type} (how : Malformation) (kind : Kind) : Except Error α :=
  .error (.malformed how (some kind.name))

/-- The place of a field among the fields of a kind, which has to have it. -/
def Definition.index (d : Definition) (field : String) : Except Error Nat :=
  match d.indexOf? field with
  | some i => .ok i
  | none => malformedAt (.noField field) d.kind

namespace Value

def isKindIn (vocabulary : Vocabulary) (wider : Kind) : Value → Bool
  | node kind _ _ => vocabulary.includes wider kind
  | _ => false

/-- Whether a value is a node of a kind, or of a kind that belongs to it. -/
def isKind (v : Value) (wider : Kind) : Bool := v.isKindIn Vocabulary.standard wider

def isAmong (v : Value) (kinds : List Kind) : Bool :=
  match v with
  | node kind _ _ => (Vocabulary.standard.groups kind).any kinds.contains
  | _ => false

def definitionOf (kind : Kind) (count : Nat) : Except Error Definition :=
  match Vocabulary.standard.find? kind with
  | none => malformedAt .unknownKind kind
  | some d =>
    if d.isAbstract then malformedAt .unknownKind kind
    else if count ≠ d.fields.length then malformedAt (.fieldCount d.fields.length count) kind
    else .ok d

def definition : Value → Except Error Definition
  | node kind children _ => definitionOf kind children.length
  | _ => .error .lacksPart

def fields (v : Value) : Except Error (List (Field × Value)) := do
  let d ← v.definition
  return d.fields.zip v.children

def field (v : Value) (name : String) : Except Error Value := do
  let d ← v.definition
  return v.children.getD (← d.index name) .null

/-- Whether a field may hold a value. -/
def checkField (kind : Kind) (f : Field) (v : Value) : Except Error Unit :=
  match f.shape, v with
  | .list, list _ => .ok ()
  | .list, _ => malformedAt (.notList f.name) kind
  | .node, node .. => .ok ()
  | .node, null => if f.optional then .ok () else malformedAt (.missing f.name) kind
  | .node, _ => malformedAt (.notNode f.name) kind
  | .value, list _ => malformedAt (.notScalar f.name) kind
  | .value, node .. => malformedAt (.notScalar f.name) kind
  | .value, _ => .ok ()

mutual
/-- Checks a node against its kind, and with `deep` also the nodes below it. -/
def validate (deep : Bool) : Value → Except Error Unit
  | node kind children _ => do
    let d ← definitionOf kind children.length
    validateFields deep kind d.fields children
  | v => .error (.malformed (.expectedNode v.typeName) none)

def validateFields (deep : Bool) (kind : Kind) : List Field → List Value → Except Error Unit
  | f :: fs, v :: vs => do
    checkField kind f v
    if deep then
      match f.shape, v with
      | .list, list items => validateItems deep items
      | .node, node kind children notes => validate deep (node kind children notes)
      | _, _ => .ok ()
    validateFields deep kind fs vs
  | _, _ => .ok ()

/-- Checks the items of a list; holes are allowed. -/
def validateItems (deep : Bool) : List Value → Except Error Unit
  | [] => .ok ()
  | null :: vs => validateItems deep vs
  | v :: vs => do
    validate deep v
    validateItems deep vs
end

end Value

end ScriptTree
