import ScriptTree.Error
import ScriptTree.Number.Numeral
import ScriptTree.Number.Shortest
import ScriptTree.Tree.Value
import ScriptTree.Vocabulary

/-! Values in messages, and the indented dump of a tree with its field names. -/
namespace ScriptTree

/-- An integer in decimal; one with too many digits cannot be written. -/
def writeInteger (n : Int) : Except Error Text :=
  match Numeral.writeInt? n with
  | some t => .ok t
  | none => .error .longInteger

namespace Value

mutual
def shown : Value → Except Error Text
  | null => .ok (ScriptTree.text "None")
  | bool b => .ok (if b then ScriptTree.text "True" else ScriptTree.text "False")
  | int n => writeInteger n
  | float x => .ok x.shown
  | text t => .ok t.shown
  | list items => do
    return ScriptTree.text "[" ++ Text.join (ScriptTree.text ", ") (← shownItems items) ++
      ScriptTree.text "]"
  | node kind children _ => do
    return ScriptTree.text "Tree(" ++ (ScriptTree.text kind.name).shown ++
      ScriptTree.text ", [" ++ Text.join (ScriptTree.text ", ") (← shownItems children) ++
      ScriptTree.text "])"

def shownItems : List Value → Except Error (List Text)
  | [] => .ok []
  | v :: vs => do return (← shown v) :: (← shownItems vs)
end

/-- A value inside a sentence: texts stand for themselves, all else is shown. -/
def spoken : Value → Except Error Text
  | text t => .ok t
  | v => v.shown

def dumpLine (indent : Text) (level : Nat) (label content : Text) : Text :=
  (List.replicate level indent).flatten ++
    (if label.isEmpty then [] else label ++ ScriptTree.text ": ") ++ content

mutual
def dumpLines (indent : Text) (level : Nat) (label : Text) : Value → Except Error (List Text)
  | list items => do
    let count := ScriptTree.text "[" ++ Text.decimal items.length ++ ScriptTree.text "]"
    return dumpLine indent level label count :: (← dumpItems indent (level + 1) [] 0 items)
  | node kind children _ => do
    let names :=
      match Vocabulary.standard.find? kind with
      | some d => d.fields.map (·.name)
      | none => []
    return dumpLine indent level label (ScriptTree.text kind.name) ::
      (← dumpItems indent (level + 1) names 0 children)
  | v => do return [dumpLine indent level label (← v.shown)]

/-- The lines of the dump of items, labelled by names and, when those run out, by indexes. -/
def dumpItems (indent : Text) (level : Nat) (names : List String) (index : Nat) :
    List Value → Except Error (List Text)
  | [] => .ok []
  | v :: vs => do
    let label :=
      match names[index]? with
      | some name => ScriptTree.text name
      | none => Text.decimal index
    return (← dumpLines indent level label v) ++ (← dumpItems indent level names (index + 1) vs)
end

def dump (v : Value) (indent : Text) : Except Error Text := do
  return Text.join [Point.lineFeed] (← v.dumpLines indent 0 [])

end Value

end ScriptTree
