import ScriptTree.Grammar.Parse
import ScriptTree.Scope
import ScriptTree.Tree.Arithmetic

/-!
Queries over trees: collections of paths that are searched and filtered, the nodes that lie in a
scope, and the names that would clash in it.
-/
namespace ScriptTree

abbrev Collection := List Path

abbrev Test := Path → Except Error Bool

namespace Test

def ofKind (kind : Kind) : Test := fun p => .ok (p.value.isKind kind)

def negate (t : Test) : Test := fun p => do return !(← t p)

end Test

namespace Collection

def filter (c : Collection) (t : Test) : Except Error Collection := c.filterM t

/-- The paths of a walk that pass a test; the walk's fault counts after them. -/
def ofWalk (w : Walk) (t : Test) : Except Error Collection := do
  let found ← w.paths.filterM t
  match w.fault with
  | some e => .error e
  | none => return found

/-- Everything below the paths of a collection that passes a test. -/
def find (c : Collection) (t : Test) : Except Error Collection := do
  return (← c.mapM fun p => ofWalk p.descendants t).flatten

/-- The path at an index, which counts from the end if it is negative. -/
def item (c : Collection) (index : Int) : Except Error Path :=
  let i := if index < 0 then index + c.length else index
  if h : 0 ≤ i ∧ i.toNat < c.length then .ok (c.get ⟨i.toNat, h.2⟩) else .error .indexOutOfRange

def shown (c : Collection) : Text := text "Collection(" ++ Text.decimal c.length ++ text " paths)"

end Collection

/-- The collection of one root; a text is read as source first. -/
def query (tree : Nat) : Value → Except Error Collection
  | .text source => do return [.root tree (← parse source)]
  | v => .ok [.root tree v]

/-- Puts a value among distinct ones, unless it equals one of them. -/
def collect (seen : List Value) (v : Value) : Except Error (List Value) :=
  if !v.canBeKey then .error .wrongType
  else if seen.any (·.same v) then .ok seen
  else .ok (seen ++ [v])

namespace Scope

def nodes (s : Scope) (kind : Kind) : Except Error Collection := do
  let found ← Collection.find [s.path] (Test.ofKind kind)
  return List.filter (·.scope.same s) found

/-- The identifiers that lie in exactly a scope and name no property. -/
def identifiers (s : Scope) : Except Error Collection := do
  (← s.nodes .identifier).filter (Test.negate Path.isPropertyName)

/-- The names that would clash with a declaration in a scope, as often as they occur. -/
def occurrences (s : Scope) : Except Error (List Value) := do
  (← s.identifiers).mapM fun q => q.value.field "name"

def names (s : Scope) : Except Error (List Value) := do
  (← s.identifiers).foldlM (fun seen q => do collect seen (← q.value.field "name")) []

end Scope

namespace Path

def nodesInScope (p : Path) (kind : Kind) : Except Error Collection := p.scope.nodes kind

def namesInScope (p : Path) : Except Error (List Value) := p.scope.names

/-- The innermost scope around two paths. Paths of two trees have none, unless one value is
at both. -/
def sharedScope (p q : Path) : Except Error Scope :=
  match q.scope.chain.find? fun s => p.scope.chain.any s.same with
  | some s => .ok s
  | none => if p.value.isOneWith q.value then .ok q.scope else .error .separateTrees

end Path

end ScriptTree
