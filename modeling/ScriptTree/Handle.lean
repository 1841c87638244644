import ScriptTree.Query

/-! Handles on trees, bare or as paths, and the choice of one path below a handle. -/
namespace ScriptTree

/-- A value by itself, or a path to one. -/
inductive Handle
  | bare (v : Value)
  | path (p : Path)

namespace Handle

def value : Handle → Value
  | bare v => v
  | path p => p.value

/-- A handle as a path; a bare value becomes the root of a tree. -/
def toPath (tree : Nat) : Handle → Path
  | bare v => .root tree v
  | path p => p

/-- The collection that a query from a handle starts with. -/
def query (tree : Nat) : Handle → Except Error Collection
  | bare v => ScriptTree.query tree v
  | path p => .ok [p]

end Handle

structure Selector where
  asPath : Bool := false
  kind : Option Kind := none
  name : Option Text := none
  /-- Which of the paths found; a negative index counts from the end. -/
  index : Int := 0

namespace Selector

def named (name : Text) : Test := fun p =>
  match p.value with
  | .node .identifier [.text own] _ => .ok (own == name)
  | _ => .ok false

/-- Where the search for a path starts: below a bare text, from the program that it reads as. -/
def start (s : Selector) : Handle → Except Error Handle
  | .bare (.text source) => do
    if s.kind.isSome && !s.asPath then return .bare (← parse source)
    else return .bare (.text source)
  | h => .ok h

/-- The path that is meant, or the handle itself if none below it is. -/
def select (s : Selector) (tree : Nat) (h : Handle) : Except Error Handle := do
  let h := if s.asPath then .path (h.toPath tree) else h
  match s.kind with
  | none => return h
  | some kind =>
    let found ← (← h.query tree).find (Test.ofKind kind)
    let found ←
      match s.name with
      | some name => found.filter (named name)
      | none => pure found
    match Collection.item found s.index with
    | .ok p => return .path p
    | .error _ => .error .noSuchPath

end Selector

end ScriptTree
