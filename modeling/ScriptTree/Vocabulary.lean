import ScriptTree.Kind

/-!
Vocabularies: what fields each kind of node has, in child order, and which wider kinds it belongs
to. Abstract kinds have no nodes of their own; they stand for groups of kinds.
-/
namespace ScriptTree

/-- What a field holds: one node, a list of nodes, or a plain value. -/
inductive Shape
  | node
  | list
  | value
  deriving DecidableEq

def Shape.name : Shape → String
  | node => "node"
  | list => "list"
  | value => "value"

/-- A field of a kind. Only a field that holds a node can be left out. -/
structure Field where
  name : String
  shape : Shape := .node
  optional : Bool := false
  deriving DecidableEq

structure Definition where
  kind : Kind
  fields : List Field := []
  supertypes : List Kind := []
  isAbstract : Bool := false
  deriving DecidableEq

def Definition.indexOf? (d : Definition) (field : String) : Option Nat :=
  d.fields.findIdx? (·.name == field)

/-- Definitions of kinds, at most one for each, in their order. -/
abbrev Vocabulary := List Definition

namespace Vocabulary

def find? (v : Vocabulary) (kind : Kind) : Option Definition := List.find? (·.kind == kind) v

/-- Adds a definition, in the place of an earlier one for the same kind. -/
def define (v : Vocabulary) (d : Definition) : Vocabulary :=
  if v.any (·.kind == d.kind) then v.map fun old => if old.kind == d.kind then d else old
  else v ++ [d]

def groups (v : Vocabulary) (kind : Kind) : List Kind :=
  match v.find? kind with
  | some d => kind :: d.supertypes
  | none => [kind]

/-- Whether nodes of `kind` count as nodes of `wider`. -/
def includes (v : Vocabulary) (wider kind : Kind) : Bool :=
  kind == wider || (v.groups kind).contains wider

/-- The first supertype that the vocabulary does not define. -/
def undefined? (v : Vocabulary) : Option Kind :=
  (v.flatMap (·.supertypes)).find? fun kind => !v.any (·.kind == kind)

def inExpression : List Kind := [.expression, .node]

def inStatement : List Kind := [.statement, .node]

def abstractKind (kind : Kind) (supertypes : List Kind) : Definition :=
  ⟨kind, [], supertypes, true⟩

def kindOf (kind : Kind) (fields : List Field) (supertypes : List Kind) : Definition :=
  ⟨kind, fields, supertypes, false⟩

def nodeField (name : String) : Field := ⟨name, .node, false⟩

/-- A field that holds a node or null. -/
def optionalField (name : String) : Field := ⟨name, .node, true⟩

def listField (name : String) : Field := ⟨name, .list, false⟩

def valueField (name : String) : Field := ⟨name, .value, false⟩

def standard : Vocabulary :=
  [ abstractKind .node [],
    abstractKind .expression [.node],
    abstractKind .statement [.node],
    abstractKind .declaration [.statement, .node],
    abstractKind .function [.node],
    abstractKind .pattern [.node],
    kindOf .program [listField "body"] [.node],
    kindOf .identifier [valueField "name"] [.expression, .pattern, .node],
    kindOf .literal [valueField "value"] inExpression,
    kindOf .thisExpression [] inExpression,
    kindOf .arrayExpression [listField "elements"] inExpression,
    kindOf .objectExpression [listField "properties"] inExpression,
    kindOf .property
      [nodeField "key", nodeField "value", valueField "computed", valueField "shorthand"] [.node],
    kindOf .functionExpression [optionalField "id", listField "params", nodeField "body"]
      (.function :: inExpression),
    kindOf .arrowFunctionExpression
      [listField "params", nodeField "body", valueField "expression"] (.function :: inExpression),
    kindOf .unaryExpression [valueField "operator", nodeField "argument"] inExpression,
    kindOf .updateExpression [valueField "operator", valueField "prefix", nodeField "argument"]
      inExpression,
    kindOf .binaryExpression [valueField "operator", nodeField "left", nodeField "right"]
      inExpression,
    kindOf .logicalExpression [valueField "operator", nodeField "left", nodeField "right"]
      inExpression,
    kindOf .assignmentExpression [valueField "operator", nodeField "left", nodeField "right"]
      inExpression,
    kindOf .conditionalExpression [nodeField "test", nodeField "consequent", nodeField "alternate"]
      inExpression,
    kindOf .callExpression [nodeField "callee", listField "arguments"] inExpression,
    kindOf .newExpression [nodeField "callee", listField "arguments"] inExpression,
    kindOf .memberExpression [nodeField "object", nodeField "property", valueField "computed"]
      [.expression, .pattern, .node],
    kindOf .sequenceExpression [listField "expressions"] inExpression,
    kindOf .expressionStatement [nodeField "expression"] inStatement,
    kindOf .blockStatement [listField "body"] inStatement,
    kindOf .emptyStatement [] inStatement,
    kindOf .variableDeclaration [valueField "kind", listField "declarations"]
      (.declaration :: inStatement),
    kindOf .variableDeclarator [nodeField "id", optionalField "init"] [.node],
    kindOf .functionDeclaration [nodeField "id", listField "params", nodeField "body"]
      (.function :: .declaration :: inStatement),
    kindOf .returnStatement [optionalField "argument"] inStatement,
    kindOf .ifStatement [nodeField "test", nodeField "consequent", optionalField "alternate"]
      inStatement,
    kindOf .forStatement
      [optionalField "init", optionalField "test", optionalField "update", nodeField "body"]
      inStatement,
    kindOf .forInStatement [nodeField "left", nodeField "right", nodeField "body"] inStatement,
    kindOf .forOfStatement [nodeField "left", nodeField "right", nodeField "body"] inStatement,
    kindOf .whileStatement [nodeField "test", nodeField "body"] inStatement,
    kindOf .doWhileStatement [nodeField "body", nodeField "test"] inStatement,
    kindOf .breakStatement [optionalField "label"] inStatement,
    kindOf .continueStatement [optionalField "label"] inStatement,
    kindOf .throwStatement [nodeField "argument"] inStatement,
    kindOf .tryStatement [nodeField "block", optionalField "handler", optionalField "finalizer"]
      inStatement,
    kindOf .catchClause [optionalField "param", nodeField "body"] [.node] ]

end Vocabulary

end ScriptTree
