import ScriptTree.Print.Statement

/-!
Printing of any node. The rules for expressions and statements are tied together to the depth of the
tree; the width of an indentation step is applied to the finished layout.
-/
namespace ScriptTree

namespace Print

open Layout

def rules : Nat → Rules
  | 0 =>
    { expression := fun _ _ _ => .error .wrongType
      statement := fun _ _ => .error .wrongType
      choice := fun _ _ => .error .wrongType }
  | depth + 1 =>
    let r := rules depth
    { expression := expression r
      statement := statement r
      choice := choice r }

/-- A whole program: its statements, then the comments that no statement has. -/
def program (r : Rules) (c : Context) (v : Value) : Except Error Layout := do
  let lines ← (← items v "body").mapM (r.statement c)
  return join [.line c.depth] (lines ++ commentLines c v false)

def node (r : Rules) (c : Context) (v : Value) : Except Error Phrase :=
  if !v.isNode then .error (.malformed (.unprintable v.typeName) none)
  else if v.isKind .program then .source <$> program r c v
  else if v.isKind .statement then .source <$> statement r c v
  else if v.isKind .property then property r c v
  else if v.isKind .variableDeclarator then declarator r c v
  else if v.isKind .catchClause then .source <$> handler r c v
  else expression r c sequenceRank v

end Print

structure PrintOptions where
  /-- The width of a step of indentation. -/
  tabWidth : Int := 4
  comments : Bool := true

namespace Value

/-- What a node prints as, before its indentation is chosen. -/
def phrase (v : Value) (comments : Bool) : Except Error Phrase :=
  Print.node (Print.rules v.depth) { comments } v

/-- What a node prints as: its source text, or an odd name by itself. -/
def printed (v : Value) (options : PrintOptions) : Except Error Value := do
  return (← v.phrase options.comments).render options.tabWidth

def layout (v : Value) (comments : Bool) : Except Error Layout := do
  (← v.phrase comments).strict

def print (v : Value) (options : PrintOptions) : Except Error Text := do
  return (← v.layout options.comments).render options.tabWidth

end Value

end ScriptTree
