import Mathlib.Algebra.Order.Group.Multiset
import Mathlib.Tactic.Tauto
import ScriptTree.Proofs.Grammar.Conformance

/-!
What tokens and trees are counted by: the names, literals and `this` in them, in their order, and
the operators in them, in any order. A token is counted by its class and by its neighbours: after a
dot or before the colon of a property, a keyword is a name.
-/
namespace ScriptTree

/-- What a tree says without having nodes below. -/
inductive Leaf
  | name (value : Value)
  | literal (value : Value)
  | this

/-- The word between the parts of the head of a loop over items. -/
def Leaf.of : Leaf := .name (.text (text "of"))

def TokenKind.isOperator (k : TokenKind) : Bool :=
  k.rank?.isSome || k.isAssignment || k.isUnary || k.isUpdate

/-- What a token says where a keyword is no name. -/
def Token.leaves (t : Token) : List Leaf :=
  match t.kind with
  | .ident => [.name t.value]
  | .number | .string => [.literal t.value]
  | .kwTrue => [.literal (.bool true)]
  | .kwFalse => [.literal (.bool false)]
  | .kwNull => [.literal .null]
  | .kwThis => [.this]
  | _ => []

/-- Whether a keyword is the name of a property: after a dot, or as a key before a colon. -/
def Token.isPropertyName (before : TokenKind) (t : Token) (after : List Token) : Bool :=
  t.kind.isKeyword && (before == .dot ||
    (before == .leftBrace || before == .comma) && after.head?.any (·.kind == .colon))

/-- The leaves that tokens spell after a token of some class. -/
def spelledLeaves (before : TokenKind) : List Token → List Leaf
  | [] => []
  | t :: rest =>
    (if t.isPropertyName before rest then [.name (.text t.raw)] else t.leaves) ++
      spelledLeaves t.kind rest

def spelledOperators (before : TokenKind) : List Token → List Value
  | [] => []
  | t :: rest =>
    (if t.kind.isOperator && !t.isPropertyName before rest then [t.value] else []) ++
      spelledOperators t.kind rest

namespace Value

mutual
/-- The leaves of a tree in the order of its fields. The key of a shorthand property stands for its
value as well. Between the parts of the head of a loop over items stands what is given as `of`. -/
def leaves (of : List Leaf) : Value → List Leaf
  | .node .identifier [v] _ => [.name v]
  | .node .literal [v] _ => [.literal v]
  | .node .thisExpression _ _ => [.this]
  | .node .property [key, _, _, .bool true] _ => key.leaves of
  | .node .forOfStatement [left, right, body] _ =>
    left.leaves of ++ of ++ right.leaves of ++ body.leaves of
  | .node _ children _ => leavesOf of children
  | .list items => leavesOf of items
  | _ => []

def leavesOf (of : List Leaf) : List Value → List Leaf
  | [] => []
  | v :: vs => v.leaves of ++ leavesOf of vs
end

mutual
def gather (own : Value → List Value) : Value → List Value
  | .node kind children notes => own (.node kind children notes) ++ gatherOf own children
  | .list items => gatherOf own items
  | _ => []

def gatherOf (own : Value → List Value) : List Value → List Value
  | [] => []
  | v :: vs => v.gather own ++ gatherOf own vs
end

def operator : Value → List Value
  | .node .unaryExpression [op, _] _ => [op]
  | .node .updateExpression [op, _, _] _ => [op]
  | .node .binaryExpression [op, _, _] _ => [op]
  | .node .logicalExpression [op, _, _] _ => [op]
  | .node .assignmentExpression [op, _, _] _ => [op]
  | _ => []

def initSign : Value → List Value
  | .node .variableDeclarator [_, .null] _ => []
  | .node .variableDeclarator [_, _] _ => [.text (ScriptTree.text "=")]
  | _ => []

def loopSign : Value → List Value
  | .node .forInStatement [_, _, _] _ => [.text (ScriptTree.text "in")]
  | _ => []

/-- The operators that a node itself is written with. -/
def signs (v : Value) : List Value := v.operator ++ v.initSign ++ v.loopSign

end Value

@[ext]
structure Tally where
  leaves : List Leaf
  operators : Multiset Value

namespace Tally

instance : Zero Tally := ⟨⟨[], 0⟩⟩

instance : Add Tally := ⟨fun a b => ⟨a.leaves ++ b.leaves, a.operators + b.operators⟩⟩

instance : AddMonoid Tally where
  add_assoc a b c := Tally.ext (List.append_assoc ..) (add_assoc ..)
  zero_add a := Tally.ext (List.nil_append _) (zero_add _)
  add_zero a := Tally.ext (List.append_nil _) (add_zero _)
  nsmul := nsmulRec

@[simp] theorem leaves_zero : (0 : Tally).leaves = [] := rfl

@[simp] theorem operators_zero : (0 : Tally).operators = 0 := rfl

@[simp] theorem leaves_add (a b : Tally) : (a + b).leaves = a.leaves ++ b.leaves := rfl

@[simp] theorem operators_add (a b : Tally) : (a + b).operators = a.operators + b.operators := rfl

def leaf (l : Leaf) : Tally := ⟨[l], 0⟩

def operator (v : Value) : Tally := ⟨[], {v}⟩

/-- Operators have no place among the leaves. -/
theorem operator_add (v : Value) (a : Tally) : operator v + a = a + operator v :=
  Tally.ext (List.append_nil _).symm (add_comm ..)

theorem operator_add_left (v : Value) (a b : Tally) :
    a + (operator v + b) = operator v + (a + b) := by
  rw [← add_assoc, ← operator_add, add_assoc]

end Tally

def Value.tally (v : Value) : Tally :=
  ⟨v.leaves [.of], (v.gather Value.signs : Multiset Value)⟩

def Value.tallyOf (vs : List Value) : Tally := (vs.map Value.tally).sum

namespace Value

variable {v : Value} {vs : List Value} {n : Notes}

@[simp] theorem tallyOf_nil : tallyOf [] = 0 := rfl

@[simp] theorem tallyOf_cons : tallyOf (v :: vs) = v.tally + tallyOf vs := rfl

theorem leavesOf_eq : leavesOf [.of] vs = (tallyOf vs).leaves := by
  induction vs with
  | nil => rfl
  | cons v vs ih =>
    rw [tallyOf_cons, Tally.leaves_add, ← ih]
    rfl

theorem gatherOf_eq : (gatherOf signs vs : Multiset Value) = (tallyOf vs).operators := by
  induction vs with
  | nil => rfl
  | cons v vs ih =>
    rw [tallyOf_cons, Tally.operators_add, ← ih]
    rfl

@[simp] theorem tally_null : Value.null.tally = 0 := rfl

@[simp] theorem tally_bool (b : Bool) : (Value.bool b).tally = 0 := rfl

@[simp] theorem tally_text (t : Text) : (Value.text t).tally = 0 := rfl

@[simp] theorem tally_list : (Value.list vs).tally = tallyOf vs :=
  Tally.ext leavesOf_eq gatherOf_eq

/-- The kinds of nodes whose leaves are not just those of their fields. -/
def leafy : List Kind := [.identifier, .literal, .thisExpression, .property, .forOfStatement]

/-- The kinds of nodes that are written with operators of their own. -/
def signed : List Kind :=
  [.unaryExpression, .updateExpression, .binaryExpression, .logicalExpression,
    .assignmentExpression, .variableDeclarator, .forInStatement]

theorem tally_signed {kind : Kind} (plain : kind ∉ leafy) :
    (Value.node kind vs n).tally =
      ⟨[], ((Value.node kind vs n).signs : Multiset Value)⟩ + tallyOf vs := by
  refine Tally.ext ?_ ?_
  · rw [Tally.leaves_add, ← leavesOf_eq]
    cases kind <;> first | exact absurd (by decide) plain | rfl
  · rw [Tally.operators_add, ← gatherOf_eq]
    rfl

theorem tally_node {kind : Kind} (plain : kind ∉ leafy ++ signed) :
    (Value.node kind vs n).tally = tallyOf vs := by
  obtain ⟨leafless, signless⟩ := not_or.mp (mt List.mem_append.mpr plain)
  rw [tally_signed leafless]
  have none : (Value.node kind vs n).signs = [] := by
    cases kind <;> first | exact absurd (by decide) signless | rfl
  rw [none]
  exact zero_add _

/-- Only nodes and lists have anything below them. -/
theorem tally_scalar (scalar : v.isScalar) : v.tally = 0 := by
  cases v with
  | list => cases scalar
  | node => cases scalar
  | _ => rfl

theorem tally_name (scalar : v.isScalar) :
    (Value.node .identifier [v] n).tally = .leaf (.name v) := by
  refine Tally.ext rfl ?_
  change (gatherOf signs [v] : Multiset Value) = 0
  rw [gatherOf_eq, tallyOf_cons, tally_scalar scalar]
  rfl

theorem tally_literal (scalar : v.isScalar) :
    (Value.node .literal [v] n).tally = .leaf (.literal v) := by
  refine Tally.ext rfl ?_
  change (gatherOf signs [v] : Multiset Value) = 0
  rw [gatherOf_eq, tallyOf_cons, tally_scalar scalar]
  rfl

@[simp] theorem tally_this : (Value.node .thisExpression [] n).tally = .leaf .this := rfl

theorem tally_property {key value : Value} {computed : Bool} :
    (Value.node .property [key, value, .bool computed, .bool false] n).tally =
      key.tally + value.tally := by
  refine Tally.ext ?_ ?_
  · change leavesOf [.of] [key, value, .bool computed, .bool false] = _
    simp [leavesOf_eq]
  · change (gatherOf signs [key, value, .bool computed, .bool false] : Multiset Value) = _
    simp [gatherOf_eq]

/-- A property in short is its key. -/
theorem tally_shorthand {key value : Value} {m : Notes} (scalar : value.isScalar) :
    (Value.node .property [key, .node .identifier [value] m, .bool false, .bool true] n).tally =
      key.tally := by
  refine Tally.ext rfl ?_
  change (gatherOf signs [key, .node .identifier [value] m, .bool false, .bool true] :
    Multiset Value) = _
  rw [gatherOf_eq]
  simp [tally_name scalar, Tally.leaf]

variable {op : Text} {left right body : Value}

theorem tally_unary : (Value.node .unaryExpression [.text op, v] n).tally =
    .operator (.text op) + v.tally := by
  rw [tally_signed (by decide)]
  simp only [tallyOf_cons, tally_text, tallyOf_nil, zero_add, add_zero]
  rfl

theorem tally_update {first : Bool} :
    (Value.node .updateExpression [.text op, .bool first, v] n).tally =
      .operator (.text op) + v.tally := by
  rw [tally_signed (by decide)]
  simp only [tallyOf_cons, tally_text, tally_bool, tallyOf_nil, zero_add, add_zero]
  rfl

theorem tally_operation {k : TokenKind} :
    (Value.node (Grammar.operationKind k) [.text op, left, right] n).tally =
      .operator (.text op) + (left.tally + right.tally) := by
  unfold Grammar.operationKind
  split <;> rw [tally_signed (by decide)] <;>
    simp only [tallyOf_cons, tally_text, tallyOf_nil, zero_add, add_zero] <;> rfl

theorem tally_assignment :
    (Value.node .assignmentExpression [.text op, left, right] n).tally =
      .operator (.text op) + (left.tally + right.tally) := by
  rw [tally_signed (by decide)]
  simp only [tallyOf_cons, tally_text, tallyOf_nil, zero_add, add_zero]
  rfl

theorem tally_declarator_bare : (Value.node .variableDeclarator [v, .null] n).tally = v.tally := by
  rw [tally_signed (by decide)]
  simp only [tallyOf_cons, tally_null, tallyOf_nil, add_zero]
  exact zero_add _

theorem tally_declarator (node : right.isNode) :
    (Value.node .variableDeclarator [v, right] n).tally =
      .operator (.text (ScriptTree.text "=")) + (v.tally + right.tally) := by
  rw [tally_signed (by decide)]
  simp only [tallyOf_cons, tallyOf_nil, add_zero]
  cases right with
  | node => rfl
  | _ => cases node

theorem tally_forIn : (Value.node .forInStatement [left, right, body] n).tally =
    .operator (.text (ScriptTree.text "in")) + (left.tally + (right.tally + body.tally)) := by
  rw [tally_signed (by decide)]
  simp only [tallyOf_cons, tallyOf_nil, add_zero]
  rfl

theorem tally_forOf : (Value.node .forOfStatement [left, right, body] n).tally =
    left.tally + (.leaf .of + (right.tally + body.tally)) := by
  refine Tally.ext ?_ ?_
  · change left.leaves [.of] ++ [.of] ++ right.leaves [.of] ++ body.leaves [.of] = _
    simp [tally, Tally.leaf]
  · change (gatherOf signs [left, right, body] : Multiset Value) = _
    simp [gatherOf_eq, Tally.leaf]

theorem signs_notes {kind : Kind} {m : Notes} :
    (Value.node kind vs n).signs = (Value.node kind vs m).signs := by
  unfold signs
  congr 1
  · congr 1
    · unfold operator
      split <;> simp_all
    · unfold initSign
      split <;> simp_all
  · unfold loopSign
    split <;> simp_all

/-- Notes are not counted. -/
@[simp] theorem tally_mapNotes (change : Notes → Notes) :
    (v.mapNotes change).tally = v.tally := by
  cases v with
  | node kind children notes =>
    refine Tally.ext ?_ ?_
    · simp only [tally, mapNotes]
      rw [leaves.eq_def, leaves.eq_def]
      split <;> simp_all
    · simp only [tally, mapNotes, gather]
      rw [signs_notes]
  | _ => rfl

end Value

end ScriptTree
