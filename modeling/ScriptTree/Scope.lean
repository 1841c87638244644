import ScriptTree.Path

/-!
Lexical scopes. A path establishes a scope if it is a root, a program, a function, a catch clause, a
loop with a head, or a block that is not the body of a function or a catch clause. Every path lies
in one scope, which is found by going outwards.
-/
namespace ScriptTree

/-- A scope: the path that establishes it and those of the scopes around it, from the inside out. -/
structure Scope where
  path : Path
  outer : List Path := []

namespace Scope

def depth (s : Scope) : Nat := s.outer.length

def isGlobal (s : Scope) : Bool := s.outer.isEmpty

/-- The next scope outwards, or the scope itself if there is none. -/
def enclosing (s : Scope) : Scope :=
  match s.outer with
  | [] => s
  | p :: rest => ⟨p, rest⟩

/-- The scopes outwards, from one that some others are around. -/
def outwards : Path → List Path → List Scope
  | p, [] => [⟨p, []⟩]
  | p, q :: rest => ⟨p, q :: rest⟩ :: outwards q rest

def chain (s : Scope) : List Scope := outwards s.path s.outer

/-- Whether two scopes are one: the same place of the same tree establishes them. -/
def same (s t : Scope) : Bool := s.path.samePlace t.path

/-- The nearest scope of a function or a program, or the outermost one. -/
def functionScope (s : Scope) : Scope := nearest s.path s.outer
where
  nearest : Path → List Path → Scope
    | p, [] => ⟨p, []⟩
    | p, q :: rest =>
      if p.value.isKind .function || p.value.isKind .program then ⟨p, q :: rest⟩
      else nearest q rest

/-- A scope as messages show it: the kind of the node that establishes it, and its depth. -/
def shown (s : Scope) : Except Error Text :=
  match s.path.value.kindName? with
  | some name =>
    .ok (text "Scope(" ++ (text name).shown ++ text ", depth=" ++ Text.decimal s.depth ++ text ")")
  | none => .error .lacksPart

end Scope

namespace Path

def scopeKinds : List Kind :=
  [.program, .function, .catchClause, .forStatement, .forInStatement, .forOfStatement]

/-- Whether a value is of a kind whose body shares its scope. -/
def ownsBody (v : Value) : Bool := v.isAmong [.function, .catchClause]

def establishes : Path → Bool
  | root .. => true
  | child parent v field _ =>
    v.isAmong scopeKinds ||
      (v.isKind .blockStatement && !(field == "body" && ownsBody parent.value))

def declaresVar : Value → Bool
  | .node .variableDeclaration [.text word, _] _ => word == text "var"
  | _ => false

def isDeclaredByVar : Path → Bool
  | root .. => false
  | child parent _ field _ =>
    field == "id" && parent.value.isKind .variableDeclarator &&
      parent.parent?.any (declaresVar ·.value)

/-- The scope that a path lies in, if it is known of some steps, the last one first, whether they
lead to a name declared by `var`; of the others the tree tells. -/
def scopeKnowing (known : List (Option Bool)) : Path → Scope
  | root tree v => ⟨root tree v, []⟩
  | child parent v field index =>
    let around := parent.scopeKnowing known.tail
    let p := child parent v field index
    if p.establishes then ⟨p, around.path :: around.outer⟩
    else if field == "id" && parent.value.isKind .functionDeclaration then around.enclosing
    else if known.head?.join.getD p.isDeclaredByVar then around.functionScope
    else around

/-- The scope that a path lies in; one that it establishes is its own. A declared function's name
lies where the declaration does, and a name declared by `var` in the function around. -/
def scope (p : Path) : Scope := p.scopeKnowing []

/-- Of every step of a path, the last one first, whether it leads to a name declared by `var`. -/
def varSteps : Path → List Bool
  | root .. => []
  | child parent v field index => (child parent v field index).isDeclaredByVar :: parent.varSteps

/-- Whether an identifier names a property and is no binding or use of a variable. -/
def isPropertyName : Path → Except Error Bool
  | root .. => .ok false
  | child parent _ field _ => do
    let owner := parent.value
    if owner.isKind .memberExpression then
      return field == "property" && !(← owner.field "computed").isTruthy
    else if owner.isKind .property then
      return field == "key" && !(← owner.field "computed").isTruthy &&
        !(← owner.field "shorthand").isTruthy
    else return false

end Path

end ScriptTree
