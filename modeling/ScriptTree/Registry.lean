import ScriptTree.Tree.Arithmetic
import ScriptTree.Tree.Fields

/-! Registries: the kinds of a closed vocabulary, with a test and an assertion for each of them. -/
namespace ScriptTree

structure Registry where
  vocabulary : Vocabulary

namespace Registry

def standard : Registry := ⟨Vocabulary.standard⟩

/-- The registry of a vocabulary; a supertype without a definition is refused. -/
def build (v : Vocabulary) : Except Error Registry :=
  match v.undefined? with
  | some kind => .error (.unknownKind kind.name)
  | none => .ok ⟨v⟩

def definition (r : Registry) (kind : Kind) : Except Error Definition :=
  match r.vocabulary.find? kind with
  | some d => .ok d
  | none => .error (.unknownKind kind.name)

def has (r : Registry) (kind : Kind) : Bool := (r.vocabulary.find? kind).isSome

def kinds (r : Registry) : List Kind := r.vocabulary.map (·.kind)

inductive Access
  | lookup
  | attribute

/-- What a table answers with: the function of a kind, or an operation that every table has. -/
inductive Entry
  | ofKind (kind : Kind)
  | operation (name : String)

/-- The operations of tables, which hide kinds of the same name from access by attribute. -/
def operations : List String := ["keys", "items", "values", "get"]

def kindEntry (r : Registry) (kind : Kind) : Except Error Entry := do
  return .ofKind (← r.definition kind).kind

/-- The entry that a table is asked for; attributes with a leading underscore are never kinds. -/
def entry (r : Registry) (access : Access) (kind : Kind) : Except Error Entry :=
  match access with
  | .lookup => r.kindEntry kind
  | .attribute =>
    if operations.contains kind.name then .ok (.operation kind.name)
    else if kind.name.startsWith "_" then .error .hiddenName
    else r.kindEntry kind

/-- An operation of a table applied to a value: only the look-up takes one, and no node is found. -/
def operate (name : String) (v : Value) : Except Error Unit :=
  if name == "get" && v.canBeKey then .ok () else .error .wrongType

def test (r : Registry) (kind : Kind) (v : Value) : Bool := v.isKindIn r.vocabulary kind

def assert (r : Registry) (kind : Kind) (v : Value) : Except Error Unit :=
  if r.test kind v then .ok () else .error (.mismatch kind.name v.kindName?)

def testName (kind : Kind) : String := "is_" ++ kind.name

def assertionName (kind : Kind) : String := "assert_" ++ kind.name

/-- Tables cannot be changed. -/
def assign (_ : Registry) (_ : Kind) : Except Error Unit := .error .readOnly

def shown (r : Registry) : Text :=
  text "KindTable(" ++ Text.decimal r.vocabulary.length ++ text " kinds)"

end Registry

end ScriptTree
