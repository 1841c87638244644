import ScriptTree.Kind
import ScriptTree.Number.Binary64
import ScriptTree.Text.Basic

/-!
Syntax trees. A node has a kind, its fields in the order of the kind's definition, and notes: where
it stands in its source, the text of a literal, and attached comments. A field holds a plain value,
a node, or a list.
-/
namespace ScriptTree

/-- A place in a source text. Lines and columns count from one, offsets from zero. -/
structure Mark where
  line : Nat
  column : Nat
  offset : Nat
  deriving DecidableEq, Inhabited

/-- From where to where a node reaches; the end may be unknown. -/
structure Span where
  start : Mark
  stop : Option Mark
  deriving DecidableEq

/-- A comment without its delimiters. It stands before its node if it is leading, else after it. -/
structure Comment where
  text : Text
  block : Bool := false
  leading : Bool := true
  deriving DecidableEq

def Comment.render (c : Comment) : Text :=
  if c.block then ScriptTree.text "/*" ++ c.text ++ ScriptTree.text "*/"
  else ScriptTree.text "//" ++ c.text

structure Notes where
  span : Option Span := none
  raw : Option Text := none
  comments : List Comment := []
  /-- Which node this is among the nodes of an editing session; zero outside of one. -/
  label : Nat := 0
  deriving DecidableEq, Inhabited

inductive Value
  | null
  | bool (b : Bool)
  | int (n : Int)
  | float (x : Binary64)
  | text (t : Text)
  | list (items : List Value)
  | node (kind : Kind) (children : List Value) (notes : Notes)
  deriving Inhabited

namespace Value

def isNode : Value → Bool
  | node .. => true
  | _ => false

def kind? : Value → Option Kind
  | node kind _ _ => some kind
  | _ => none

def kindName? (v : Value) : Option String := v.kind?.map Kind.name

def children : Value → List Value
  | node _ children _ => children
  | _ => []

def notes : Value → Notes
  | node _ _ notes => notes
  | _ => {}

def comments (v : Value) : List Comment := v.notes.comments

def mapNotes (f : Notes → Notes) : Value → Value
  | node kind children notes => node kind children (f notes)
  | v => v

def typeName : Value → String
  | null => "NoneType"
  | bool _ => "bool"
  | int _ => "int"
  | float _ => "float"
  | text _ => "str"
  | list _ => "list"
  | node .. => "Tree"

/-- Whether a value counts as true: neither null, false, zero nor empty. -/
def isTruthy : Value → Bool
  | null => false
  | bool b => b
  | int n => n != 0
  | float x => !x.isZero
  | text t => !t.isEmpty
  | list items => !items.isEmpty
  | node .. => true

def text? : Value → Option Text
  | text t => some t
  | _ => none

def isNull : Value → Bool
  | null => true
  | _ => false

mutual
/-- How many values lie on the longest way down, the value itself included. -/
@[simp] def depth : Value → Nat
  | list items => depthOfList items + 1
  | node _ children _ => depthOfList children + 1
  | _ => 1

@[simp] def depthOfList : List Value → Nat
  | [] => 0
  | v :: vs => max (depth v) (depthOfList vs)
end

end Value

end ScriptTree
