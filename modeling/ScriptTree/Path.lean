import ScriptTree.Tree.Fields

/-!
Paths: a node together with where it sits. A path knows its tree by a number, and every step from
the root: the field and, in a list, the index. The walk below a path is in pre-order; it ends at the
first node whose fields cannot be read.
-/
namespace ScriptTree

/-- A value and the way to it from the root of a tree. -/
inductive Path
  | root (tree : Nat) (value : Value)
  | child (parent : Path) (value : Value) (field : String) (index : Option Nat)
  deriving Inhabited

/-- Paths in the order in which they are met, and the fault that ended the walk, if one did. -/
structure Walk where
  paths : List Path := []
  fault : Option Error := none

namespace Walk

/-- One walk after another; a fault in the first ends both. -/
def append (first second : Walk) : Walk :=
  match first.fault with
  | some _ => first
  | none => ⟨first.paths ++ second.paths, second.fault⟩

def meet (p : Path) (w : Walk) : Walk := ⟨p :: w.paths, w.fault⟩

def halt (error : Error) : Walk := ⟨[], some error⟩

end Walk

namespace Path

def value : Path → Value
  | root _ value => value
  | child _ value _ _ => value

def parent? : Path → Option Path
  | root .. => none
  | child parent _ _ _ => some parent

def field? : Path → Option String
  | root .. => none
  | child _ _ field _ => some field

/-- The index of the last step, if it goes into a list. -/
def index? : Path → Option Nat
  | root .. => none
  | child _ _ _ index => index

def tree : Path → Nat
  | root tree _ => tree
  | child parent _ _ _ => parent.tree

/-- The steps from the root, each a field with an index. -/
def steps : Path → List (String × Option Nat)
  | root .. => []
  | child parent _ field index => parent.steps ++ [(field, index)]

def stepText (step : String × Option Nat) : Text :=
  match step.2 with
  | none => text step.1
  | some i => text step.1 ++ text "[" ++ Text.decimal i ++ text "]"

/-- The steps from the root as text; the root itself has none. -/
def place (p : Path) : Text := Text.join (text ".") (p.steps.map stepText)

/-- Whether two paths lead to one place of one tree: their steps agree, the last one first. -/
def samePlace : Path → Path → Bool
  | root t _, root u _ => t == u
  | child p _ f i, child q _ g j => f == g && i == j && samePlace p q
  | _, _ => false

/-- A path as messages show it: what is there, and its last step. -/
def shown (p : Path) : Text :=
  let label := text (p.value.kindName?.getD p.value.typeName)
  let last :=
    match p with
    | root .. => text "None"
    | child _ _ field index => (stepText (field, index)).shown
  text "NodePath(" ++ label.shown ++ text ", at=" ++ last ++ text ")"

mutual
def inside (p : Path) : Value → Walk
  | .node kind children _ =>
    match Value.definitionOf kind children.length with
    | .error e => .halt e
    | .ok d => insideFields p d.fields children
  | _ => {}

def insideFields (p : Path) : List Field → List Value → Walk
  | f :: fs, v :: vs =>
    let here : Walk :=
      match f.shape, v with
      | .list, .list items => insideItems p f.name 0 items
      | .list, .text _ => {}
      | .list, _ => .halt .wrongType
      | .node, .node kind children notes =>
        let q := child p (.node kind children notes) f.name none
        .meet q (inside q (.node kind children notes))
      | _, _ => {}
    here.append (insideFields p fs vs)
  | _, _ => {}

def insideItems (p : Path) (field : String) (index : Nat) : List Value → Walk
  | [] => {}
  | .node kind children notes :: vs =>
    let q := child p (.node kind children notes) field (some index)
    (Walk.meet q (inside q (.node kind children notes))).append (insideItems p field (index + 1) vs)
  | _ :: vs => insideItems p field (index + 1) vs
end

/-- Everything below a path in pre-order, without the path itself. -/
def descendants (p : Path) : Walk := inside p p.value

def get (p : Path) (field : String) : Except Error (Option Path) :=
  match p.value with
  | .node kind children notes => do
    let fields ← (Value.node kind children notes).fields
    match fields.find? fun entry => entry.1.name == field && entry.1.shape == .node with
    | some (_, v) => return if v.isNode then some (child p v field none) else none
    | none => return none
  | _ => .ok none

end Path

end ScriptTree
