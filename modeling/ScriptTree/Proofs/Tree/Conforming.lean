import ScriptTree.Proofs.Grammar.Reading
import ScriptTree.Proofs.Token.Faithful
import ScriptTree.Proofs.Tree.Likeness

/-!
Trees that follow the grammar. A place in a tree has a role, and the role says which nodes may stand
there. A convention says what literals hold and where comments are attached; the rest is the same
for all conventions.
-/
namespace ScriptTree

/-- What a place in a tree is for. -/
inductive Role
  | program
  | statement
  | block
  | declaration
  | declarator
  | loopInit
  | loopTarget
  | handler
  | expression
  | property
  | key
  | binding
  | word
  deriving DecidableEq

structure Convention where
  /-- What a literal may hold. -/
  literal : Value → Prop
  /-- The notes of a node that comments are not attached to. -/
  silent : Notes → Prop
  /-- A program, or a statement that stands by itself, as far as its own comments go. -/
  alone : Value → Prop
  /-- Statements that follow each other in a list, as far as their own comments go. -/
  listed : List Value → Prop

/-- A literal that is printed as it was read: null, a boolean, a string, or a natural number that is
not too long. -/
def Value.isPlain : Value → Bool
  | .null | .bool _ | .text _ => true
  | .int n => 0 ≤ n && (Text.decimal n.natAbs).length ≤ Numeral.digitLimit
  | _ => false

/-- Whether a value is a block or a program without statements. -/
def Value.isHollow : Value → Bool
  | .node .blockStatement [.list []] _ | .node .program [.list []] _ => true
  | _ => false

/-- A comment that stands before its node. -/
def Comment.Before (c : Comment) : Prop := c.legible ∧ c.leading

/-- A comment that stands after its node, or in it. -/
def Comment.After (c : Comment) : Prop := c.legible ∧ c.leading = false

/-- A node that is not in a list has comments only if it is hollow, and they are inside. -/
def Value.Alone (v : Value) : Prop :=
  if v.isHollow then ∀ c ∈ v.comments, c.After else v.comments = []

/-- In a list, comments stand before the statements; the last statement may also have some after
it. Nothing is said of hollow blocks. -/
def Arranged : List Value → Prop
  | [] => True
  | [v] => v.isHollow = false → ∃ before after, v.comments = before ++ after ∧
      (∀ c ∈ before, c.Before) ∧ ∀ c ∈ after, c.After
  | v :: w :: rest => (v.isHollow = false → ∀ c ∈ v.comments, c.Before) ∧ Arranged (w :: rest)

namespace Convention

/-- Any notes, and literals that are printed as they were read. -/
def plain : Convention := ⟨(·.isPlain), fun _ => True, fun _ => True, fun _ => True⟩

/-- What is read from a source. -/
def parsed : Convention where
  literal v := v = .null ∨ (∃ b, v = .bool b) ∨ (∃ t, v = .text t) ∨ v.IsNumber
  silent n := n.comments = []
  alone := Value.Alone
  listed := Arranged

/-- What is printed and read again as it was, with comments if they are kept. -/
def tidy (keep : Bool) : Convention where
  literal := (·.isPlain)
  silent n := keep → n.comments = []
  alone v := keep → v.Alone
  listed es := keep → Arranged es ∧ ∀ e ∈ es, e.isHollow = false

end Convention

/-- Whether a statement ends in a choice that an `else` after it would go on. -/
def Value.endsOpen : Value → Bool
  | .node .ifStatement [_, _, .null] _ => true
  | .node .ifStatement [_, _, alternate] _ => alternate.endsOpen
  | .node .forStatement [_, _, _, body] _ => body.endsOpen
  | .node .forInStatement [_, _, body] _ => body.endsOpen
  | .node .forOfStatement [_, _, body] _ => body.endsOpen
  | .node .whileStatement [_, body] _ => body.endsOpen
  | _ => false

/-- Whether a literal can be the name of a property: a string or a number. -/
def Value.isKeyLiteral : Value → Bool
  | .text _ | .int _ | .float _ => true
  | _ => false

open Grammar

/-- A value can stand in the place of a role. Who holds a statement says what its own comments may
be. -/
inductive Conforms (s : Convention) : Role → Value → Prop
  | binding {w : Text} {n : Notes} (name : isName w) (silent : s.silent n) :
      Conforms s .binding (.node .identifier [.text w] n)
  | word {w : Text} {n : Notes} (word : isWord w) (silent : s.silent n) :
      Conforms s .word (.node .identifier [.text w] n)
  | keyWord {v : Value} (inner : Conforms s .word v) : Conforms s .key v
  | keyLiteral {v : Value} {n : Notes} (key : v.isKeyLiteral) (literal : s.literal v)
      (silent : s.silent n) : Conforms s .key (.node .literal [v] n)
  | name {v : Value} (inner : Conforms s .binding v) : Conforms s .expression v
  | literal {v : Value} {n : Notes} (literal : s.literal v) (silent : s.silent n) :
      Conforms s .expression (.node .literal [v] n)
  | this {n : Notes} (silent : s.silent n) : Conforms s .expression (.node .thisExpression [] n)
  | array {es : List Value} {n : Notes}
      (elements : ∀ e ∈ es, e ≠ .null → Conforms s .expression e) (silent : s.silent n) :
      Conforms s .expression (.node .arrayExpression [.list es] n)
  | object {es : List Value} {n : Notes} (properties : ∀ e ∈ es, Conforms s .property e)
      (silent : s.silent n) : Conforms s .expression (.node .objectExpression [.list es] n)
  | computed {k v : Value} {n : Notes} (key : Conforms s .expression k)
      (value : Conforms s .expression v) (silent : s.silent n) :
      Conforms s .property (.node .property [k, v, .bool true, .bool false] n)
  | keyed {k v : Value} {n : Notes} (key : Conforms s .key k)
      (value : Conforms s .expression v) (silent : s.silent n) :
      Conforms s .property (.node .property [k, v, .bool false, .bool false] n)
  | shorthand {w : Text} {m n o : Notes} (name : isName w) (key : s.silent m)
      (value : s.silent n) (silent : s.silent o) :
      Conforms s .property (.node .property
        [.node .identifier [.text w] m, .node .identifier [.text w] n, .bool false, .bool true] o)
  | functionExpression {i b : Value} {ps : List Value} {n : Notes}
      (name : i ≠ .null → Conforms s .binding i) (params : ∀ p ∈ ps, Conforms s .binding p)
      (body : Conforms s .block b) (alone : s.alone b) (silent : s.silent n) :
      Conforms s .expression (.node .functionExpression [i, .list ps, b] n)
  | arrowBlock {b : Value} {ps : List Value} {n : Notes} (params : ∀ p ∈ ps, Conforms s .binding p)
      (body : Conforms s .block b) (alone : s.alone b) (silent : s.silent n) :
      Conforms s .expression (.node .arrowFunctionExpression [.list ps, b, .bool false] n)
  | arrowValue {b : Value} {ps : List Value} {n : Notes} (params : ∀ p ∈ ps, Conforms s .binding p)
      (body : Conforms s .expression b) (silent : s.silent n) :
      Conforms s .expression (.node .arrowFunctionExpression [.list ps, b, .bool true] n)
  | unary {o : TokenKind} {v : Value} {n : Notes} (operator : o.isUnary)
      (operand : Conforms s .expression v) (silent : s.silent n) :
      Conforms s .expression (.node .unaryExpression [.text (text o.spelling), v] n)
  | update {o : TokenKind} {before : Bool} {v : Value} {n : Notes} (operator : o.isUpdate)
      (target : isTarget v) (operand : Conforms s .expression v) (silent : s.silent n) :
      Conforms s .expression
        (.node .updateExpression [.text (text o.spelling), .bool before, v] n)
  | operation {o : TokenKind} {rank : Nat} {l r : Value} {n : Notes} (ranked : o.rank? = some rank)
      (left : Conforms s .expression l) (right : Conforms s .expression r) (silent : s.silent n) :
      Conforms s .expression (.node (operationKind o) [.text (text o.spelling), l, r] n)
  | assignment {o : TokenKind} {l r : Value} {n : Notes} (operator : o.isAssignment)
      (target : isTarget l) (left : Conforms s .expression l) (right : Conforms s .expression r)
      (silent : s.silent n) :
      Conforms s .expression (.node .assignmentExpression [.text (text o.spelling), l, r] n)
  | conditional {t l r : Value} {n : Notes} (test : Conforms s .expression t)
      (consequent : Conforms s .expression l) (alternate : Conforms s .expression r)
      (silent : s.silent n) : Conforms s .expression (.node .conditionalExpression [t, l, r] n)
  | call {c : Value} {es : List Value} {n : Notes} (callee : Conforms s .expression c)
      (arguments : ∀ e ∈ es, Conforms s .expression e) (silent : s.silent n) :
      Conforms s .expression (.node .callExpression [c, .list es] n)
  | construction {c : Value} {es : List Value} {n : Notes} (callee : Conforms s .expression c)
      (arguments : ∀ e ∈ es, Conforms s .expression e) (silent : s.silent n) :
      Conforms s .expression (.node .newExpression [c, .list es] n)
  | memberNamed {o p : Value} {n : Notes} (object : Conforms s .expression o)
      (name : Conforms s .word p) (silent : s.silent n) :
      Conforms s .expression (.node .memberExpression [o, p, .bool false] n)
  | memberIndexed {o p : Value} {n : Notes} (object : Conforms s .expression o)
      (index : Conforms s .expression p) (silent : s.silent n) :
      Conforms s .expression (.node .memberExpression [o, p, .bool true] n)
  | sequence {es : List Value} {n : Notes} (many : 2 ≤ es.length)
      (items : ∀ e ∈ es, Conforms s .expression e) (silent : s.silent n) :
      Conforms s .expression (.node .sequenceExpression [.list es] n)
  | block {es : List Value} {n : Notes} (items : ∀ e ∈ es, Conforms s .statement e)
      (listed : s.listed es) : Conforms s .block (.node .blockStatement [.list es] n)
  | declarator {i v : Value} {n : Notes} (name : Conforms s .binding i)
      (init : v ≠ .null → Conforms s .expression v) (silent : s.silent n) :
      Conforms s .declarator (.node .variableDeclarator [i, v] n)
  | declaration {k : TokenKind} {es : List Value} {n : Notes} (word : k.declares) (some : es ≠ [])
      (declarators : ∀ e ∈ es, Conforms s .declarator e) :
      Conforms s .declaration (.node .variableDeclaration [.text (text k.spelling), .list es] n)
  | loopDeclaration {v : Value} (inner : Conforms s .declaration v) (silent : s.silent v.notes) :
      Conforms s .loopInit v
  | loopExpression {v : Value} (inner : Conforms s .expression v) : Conforms s .loopInit v
  | loopVariable {k : TokenKind} {i : Value} {m n : Notes} (word : k.declares)
      (name : Conforms s .binding i) (inner : s.silent m) (silent : s.silent n) :
      Conforms s .loopTarget (.node .variableDeclaration
        [.text (text k.spelling), .list [.node .variableDeclarator [i, .null] m]] n)
  | loopPlace {v : Value} (target : isTarget v) (inner : Conforms s .expression v) :
      Conforms s .loopTarget v
  | blockStatement {v : Value} (inner : Conforms s .block v) : Conforms s .statement v
  | declarationStatement {v : Value} (inner : Conforms s .declaration v) : Conforms s .statement v
  | emptyStatement {n : Notes} : Conforms s .statement (.node .emptyStatement [] n)
  | expressionStatement {v : Value} {n : Notes} (inner : Conforms s .expression v) :
      Conforms s .statement (.node .expressionStatement [v] n)
  | functionDeclaration {i b : Value} {ps : List Value} {n : Notes} (name : Conforms s .binding i)
      (params : ∀ p ∈ ps, Conforms s .binding p) (body : Conforms s .block b) (alone : s.alone b) :
      Conforms s .statement (.node .functionDeclaration [i, .list ps, b] n)
  | returnStatement {v : Value} {n : Notes} (value : v ≠ .null → Conforms s .expression v) :
      Conforms s .statement (.node .returnStatement [v] n)
  | breakStatement {v : Value} {n : Notes} (label : v ≠ .null → Conforms s .binding v) :
      Conforms s .statement (.node .breakStatement [v] n)
  | continueStatement {v : Value} {n : Notes} (label : v ≠ .null → Conforms s .binding v) :
      Conforms s .statement (.node .continueStatement [v] n)
  | throwStatement {v : Value} {n : Notes} (value : Conforms s .expression v) :
      Conforms s .statement (.node .throwStatement [v] n)
  | ifShort {t l : Value} {n : Notes} (test : Conforms s .expression t)
      (consequent : Conforms s .statement l) (alone : s.alone l) :
      Conforms s .statement (.node .ifStatement [t, l, .null] n)
  | ifElse {t l r : Value} {n : Notes} (test : Conforms s .expression t)
      (consequent : Conforms s .statement l) (alternate : Conforms s .statement r)
      (closed : l.endsOpen = false) (first : s.alone l) (second : s.alone r) :
      Conforms s .statement (.node .ifStatement [t, l, r] n)
  | forStatement {i t u b : Value} {n : Notes} (init : i ≠ .null → Conforms s .loopInit i)
      (test : t ≠ .null → Conforms s .expression t) (update : u ≠ .null → Conforms s .expression u)
      (body : Conforms s .statement b) (alone : s.alone b) :
      Conforms s .statement (.node .forStatement [i, t, u, b] n)
  | forIn {l r b : Value} {n : Notes} (left : Conforms s .loopTarget l)
      (right : Conforms s .expression r) (body : Conforms s .statement b) (alone : s.alone b) :
      Conforms s .statement (.node .forInStatement [l, r, b] n)
  | forOf {l r b : Value} {n : Notes} (left : Conforms s .loopTarget l)
      (right : Conforms s .expression r) (body : Conforms s .statement b) (alone : s.alone b) :
      Conforms s .statement (.node .forOfStatement [l, r, b] n)
  | whileStatement {t b : Value} {n : Notes} (test : Conforms s .expression t)
      (body : Conforms s .statement b) (alone : s.alone b) :
      Conforms s .statement (.node .whileStatement [t, b] n)
  | doWhile {t b : Value} {n : Notes} (body : Conforms s .statement b)
      (test : Conforms s .expression t) (alone : s.alone b) :
      Conforms s .statement (.node .doWhileStatement [b, t] n)
  | handler {p b : Value} {n : Notes} (param : p ≠ .null → Conforms s .binding p)
      (body : Conforms s .block b) (alone : s.alone b) (silent : s.silent n) :
      Conforms s .handler (.node .catchClause [p, b] n)
  | tryStatement {b h z : Value} {n : Notes} (guarded : Conforms s .block b)
      (handler : h ≠ .null → Conforms s .handler h) (finalizer : z ≠ .null → Conforms s .block z)
      (both : (h.isNull && z.isNull) = false) (first : s.alone b)
      (last : z ≠ .null → s.alone z) : Conforms s .statement (.node .tryStatement [b, h, z] n)
  | program {es : List Value} {n : Notes} (items : ∀ e ∈ es, Conforms s .statement e)
      (listed : s.listed es) (alone : s.alone (.node .program [.list es] n)) :
      Conforms s .program (.node .program [.list es] n)

namespace Value

open Vocabulary

/-- Whether a value is neither a list nor a node. -/
def isScalar : Value → Bool
  | .list _ | .node .. => false
  | _ => true

mutual
@[simp] def all (p : Value → Bool) : Value → Bool
  | .list items => allOf p items
  | .node kind children notes => p (.node kind children notes) && allOf p children
  | _ => true

@[simp] def allOf (p : Value → Bool) : List Value → Bool
  | [] => true
  | v :: vs => all p v && allOf p vs
end

theorem allOf_iff {p : Value → Bool} {vs : List Value} :
    allOf p vs = true ↔ ∀ v ∈ vs, v.all p = true := by
  induction vs with
  | nil => simp [allOf]
  | cons v vs ih => simp [allOf, ih]

mutual
theorem all_true : (v : Value) → v.all (fun _ => true) = true
  | .list items => allOf_true items
  | .node _ children _ => allOf_true children
  | .null | .bool _ | .int _ | .float _ | .text _ => rfl

theorem allOf_true : (vs : List Value) → allOf (fun _ => true) vs = true
  | [] => rfl
  | v :: vs => by rw [allOf, all_true v, allOf_true vs]; rfl
end

variable {kind : Kind} {name : String} {fs : List Field} {v : Value} {vs items : List Value}
  {notes : Notes} {d : Definition}

theorem validate_node (known : definitionOf kind vs.length = .ok d)
    (valid : validateFields true kind d.fields vs = .ok ()) :
    validate true (.node kind vs notes) = .ok () := by
  rw [validate, known]
  exact valid

theorem node_of_validate (valid : v.validate true = .ok ()) : ∃ k cs n, v = .node k cs n := by
  cases v with
  | node k cs n => exact ⟨k, cs, n, rfl⟩
  | _ => cases valid

theorem validateFields_nil : validateFields true kind [] vs = .ok () := by
  cases vs <;> rfl

theorem validateFields_node (valid : v.validate true = .ok ()) :
    validateFields true kind (nodeField name :: fs) (v :: vs) = validateFields true kind fs vs := by
  obtain ⟨k, cs, n, rfl⟩ := node_of_validate valid
  change (validate true (.node k cs n) >>= fun _ => validateFields true kind fs vs) = _
  rw [valid]
  rfl

theorem validateFields_optional (valid : v ≠ .null → v.validate true = .ok ()) :
    validateFields true kind (optionalField name :: fs) (v :: vs) =
      validateFields true kind fs vs := by
  by_cases null : v = .null
  · subst null
    rfl
  · obtain ⟨k, cs, n, rfl⟩ := node_of_validate (valid null)
    change (validate true (.node k cs n) >>= fun _ => validateFields true kind fs vs) = _
    rw [valid null]
    rfl

theorem validateItems_ok (valid : ∀ v ∈ items, v ≠ .null → v.validate true = .ok ()) :
    validateItems true items = .ok () := by
  induction items with
  | nil => rfl
  | cons v vs ih =>
    have rest := ih fun w mem => valid w (List.mem_cons_of_mem v mem)
    by_cases null : v = .null
    · subst null
      rw [validateItems, rest]
    · rw [validateItems, valid v List.mem_cons_self null]
      · exact rest
      · exact null

theorem validateFields_list (valid : ∀ v ∈ items, v ≠ .null → v.validate true = .ok ()) :
    validateFields true kind (listField name :: fs) (.list items :: vs) =
      validateFields true kind fs vs := by
  change (validateItems true items >>= fun _ => validateFields true kind fs vs) = _
  rw [validateItems_ok valid]
  rfl

theorem validateFields_text {t : Text} :
    validateFields true kind (valueField name :: fs) (.text t :: vs) =
      validateFields true kind fs vs := rfl

theorem validateFields_bool {b : Bool} :
    validateFields true kind (valueField name :: fs) (.bool b :: vs) =
      validateFields true kind fs vs := rfl

theorem validateFields_scalar (scalar : v.isScalar) :
    validateFields true kind (valueField name :: fs) (v :: vs) =
      validateFields true kind fs vs := by
  cases v with
  | list | node => cases scalar
  | _ => rfl

end Value

variable {s t : Convention} {r : Role} {v : Value}

theorem Conforms.isNode (conforms : Conforms s r v) : v.isNode := by
  induction conforms <;> first | rfl | assumption

/-- The kind of the nodes in a role, if one kind says it. -/
def Role.kind? : Role → Option Kind
  | program => some .program
  | statement => some .statement
  | block => some .blockStatement
  | declaration => some .variableDeclaration
  | declarator => some .variableDeclarator
  | handler => some .catchClause
  | expression => some .expression
  | property => some .property
  | binding | word => some .identifier
  | loopInit | loopTarget | key => none

/-- Every place holds a node of the kind that the place is for. -/
theorem Conforms.isKind {k : Kind} (conforms : Conforms s r v) (kind : r.kind? = some k) :
    v.isKind k := by
  cases conforms with
  | name inner | blockStatement inner | declarationStatement inner =>
    cases kind
    cases inner
    rfl
  | operation =>
    cases kind
    unfold operationKind
    split <;> rfl
  | _ => cases kind <;> rfl

open Value in
/-- A tree that follows the grammar has the fields of its kinds. -/
theorem Conforms.valid (scalar : ∀ {v}, s.literal v → v.isScalar) (conforms : Conforms s r v) :
    v.validate true = .ok () := by
  induction conforms with
  | name _ ih | keyWord _ ih | loopDeclaration _ _ ih | loopExpression _ ih | loopPlace _ _ ih
  | blockStatement _ ih | declarationStatement _ ih => exact ih
  | literal literal | keyLiteral _ literal =>
    exact validate_node rfl (validateFields_scalar (scalar literal))
  | shorthand => exact validate_node rfl rfl
  | loopVariable _ _ _ _ name =>
    refine validate_node rfl ((validateFields_scalar rfl).trans (validateFields_list ?_))
    simpa using validate_node rfl ((validateFields_node name).trans rfl)
  | operation _ _ _ _ left right =>
    unfold operationKind
    split <;>
      exact validate_node rfl ((validateFields_scalar rfl).trans
        ((validateFields_node left).trans (validateFields_node right)))
  | _ =>
    refine validate_node rfl ?_
    simp_all [Vocabulary.kindOf, validateFields_node, validateFields_list, validateFields_optional,
      validateFields_text, validateFields_bool, validateFields_nil]

inductive Role.Family
  | names
  | expressions
  | parts
  | blocks
  | statements

def Role.family : Role → Role.Family
  | binding | word | key => .names
  | expression => .expressions
  | property | declaration | declarator | loopInit | loopTarget => .parts
  | block | handler | program => .blocks
  | statement => .statements

/-- The rule by which a value conforms, with what is known of the values that the rule takes. -/
abbrev Conforms.Rule (known : Role → Value → Prop) (conforms : Conforms s r v) : Prop :=
  Conforms.below (motive := fun r v _ => known r v) conforms

/-- What is known of the values that a rule takes is known of what it makes, in a family. -/
def Role.Family.Keeps (family : Role.Family) (s : Convention) (known : Role → Value → Prop) :
    Prop :=
  ∀ {r v} {conforms : Conforms s r v}, conforms.Rule known → r.family = family → known r v

theorem Conforms.byFamily {known : Role → Value → Prop}
    (keeps : ∀ family : Role.Family, family.Keeps s known) (conforms : Conforms s r v) :
    known r v :=
  Conforms.brecOn (motive := fun r v _ => known r v) conforms
    fun r _ _ rule => keeps r.family rule rfl

/-- What follows one convention follows another where the nodes satisfy a condition. -/
structure Convention.Weakens (s t : Convention) (p : Value → Bool) : Prop where
  literal : ∀ {v n}, p (.node .literal [v] n) → s.literal v → t.literal v
  silent : ∀ {n}, s.silent n → t.silent n
  alone : ∀ {v}, s.alone v → t.alone v
  listed : ∀ {k es n}, p (.node k [.list es] n) → k = .blockStatement ∨ k = .program →
    s.listed es → t.listed es

def Role.Weakened (r : Role) (t : Convention) (p : Value → Bool) (v : Value) : Prop :=
  v.all p → Conforms t r v

variable {p : Value → Bool}

theorem weaken_names (weakens : s.Weakens t p) :
    Role.Family.names.Keeps s (·.Weakened t p) := by
  intro r v conforms rule family all
  induction rule using Conforms.below.casesOn with
    (cases family
     try simp only [Value.all, Value.allOf, Bool.and_eq_true] at all)
  | binding name quiet => exact .binding name (weakens.silent quiet)
  | word name quiet => exact .word name (weakens.silent quiet)
  | keyWord _ _ ih => exact .keyWord (ih all)
  | keyLiteral key value quiet =>
    exact .keyLiteral key (weakens.literal all.1 value) (weakens.silent quiet)

theorem weaken_expressions (weakens : s.Weakens t p) :
    Role.Family.expressions.Keeps s (·.Weakened t p) := by
  intro r v conforms rule family all
  induction rule using Conforms.below.casesOn with
    (cases family
     try simp only [Value.all, Value.allOf, Value.allOf_iff, Bool.and_eq_true] at all)
  | name _ _ ih => exact .name (ih all)
  | literal value quiet =>
    exact .literal (weakens.literal all.1 value) (weakens.silent quiet)
  | this quiet => exact .this (weakens.silent quiet)
  | array _ quiet _ elements =>
    exact .array (fun e mem some => elements e mem some (all.2.1 e mem)) (weakens.silent quiet)
  | object _ quiet _ properties =>
    exact .object (fun e mem => properties e mem (all.2.1 e mem)) (weakens.silent quiet)
  | functionExpression _ _ _ single quiet _ name _ params _ body =>
    exact .functionExpression (fun some => name some all.2.1)
      (fun p mem => params p mem (all.2.2.1 p mem)) (body all.2.2.2.1) (weakens.alone single)
      (weakens.silent quiet)
  | arrowBlock _ _ single quiet _ params _ body =>
    exact .arrowBlock (fun p mem => params p mem (all.2.1 p mem)) (body all.2.2.1)
      (weakens.alone single) (weakens.silent quiet)
  | arrowValue _ _ quiet _ params _ body =>
    exact .arrowValue (fun p mem => params p mem (all.2.1 p mem)) (body all.2.2.1)
      (weakens.silent quiet)
  | unary operator _ quiet _ operand =>
    exact .unary operator (operand all.2.2.1) (weakens.silent quiet)
  | update operator target _ quiet _ operand =>
    exact .update operator target (operand all.2.2.2.1) (weakens.silent quiet)
  | operation ranked _ _ quiet _ left _ right =>
    exact .operation ranked (left all.2.2.1) (right all.2.2.2.1) (weakens.silent quiet)
  | assignment operator target _ _ quiet _ left _ right =>
    exact .assignment operator target (left all.2.2.1) (right all.2.2.2.1) (weakens.silent quiet)
  | conditional _ _ _ quiet _ test _ left _ right =>
    exact .conditional (test all.2.1) (left all.2.2.1) (right all.2.2.2.1) (weakens.silent quiet)
  | call _ _ quiet _ callee _ args =>
    exact .call (callee all.2.1) (fun e mem => args e mem (all.2.2.1 e mem)) (weakens.silent quiet)
  | construction _ _ quiet _ callee _ args =>
    exact .construction (callee all.2.1) (fun e mem => args e mem (all.2.2.1 e mem))
      (weakens.silent quiet)
  | memberNamed _ _ quiet _ object _ name =>
    exact .memberNamed (object all.2.1) (name all.2.2.1) (weakens.silent quiet)
  | memberIndexed _ _ quiet _ object _ index =>
    exact .memberIndexed (object all.2.1) (index all.2.2.1) (weakens.silent quiet)
  | sequence many _ quiet _ items =>
    exact .sequence many (fun e mem => items e mem (all.2.1 e mem)) (weakens.silent quiet)

theorem weaken_parts (weakens : s.Weakens t p) :
    Role.Family.parts.Keeps s (·.Weakened t p) := by
  intro r v conforms rule family all
  induction rule using Conforms.below.casesOn with
    (cases family
     try simp only [Value.all, Value.allOf, Value.allOf_iff, Bool.and_eq_true] at all)
  | computed _ _ quiet _ key _ value =>
    exact .computed (key all.2.1) (value all.2.2.1) (weakens.silent quiet)
  | keyed _ _ quiet _ key _ value =>
    exact .keyed (key all.2.1) (value all.2.2.1) (weakens.silent quiet)
  | shorthand name first second quiet =>
    exact .shorthand name (weakens.silent first) (weakens.silent second) (weakens.silent quiet)
  | declarator _ _ quiet _ name _ init =>
    exact .declarator (name all.2.1) (fun some => init some all.2.2.1) (weakens.silent quiet)
  | declaration word some _ _ items =>
    exact .declaration word some fun e mem => items e mem (all.2.2.1 e mem)
  | loopDeclaration _ quiet _ inner => exact .loopDeclaration (inner all) (weakens.silent quiet)
  | loopExpression _ _ inner => exact .loopExpression (inner all)
  | loopVariable word _ first quiet _ name =>
    exact .loopVariable word (name all.2.2.1.1.2.1) (weakens.silent first) (weakens.silent quiet)
  | loopPlace target _ _ inner => exact .loopPlace target (inner all)

theorem weaken_blocks (weakens : s.Weakens t p) :
    Role.Family.blocks.Keeps s (·.Weakened t p) := by
  intro r v conforms rule family all
  induction rule using Conforms.below.casesOn with
    (cases family
     try simp only [Value.all, Value.allOf, Value.allOf_iff, Bool.and_eq_true] at all)
  | block _ together _ items =>
    exact .block (fun e mem => items e mem (all.2.1 e mem))
      (weakens.listed all.1 (.inl rfl) together)
  | handler _ _ single quiet _ param _ body =>
    exact .handler (fun some => param some all.2.1) (body all.2.2.1) (weakens.alone single)
      (weakens.silent quiet)
  | program _ together single _ items =>
    exact .program (fun e mem => items e mem (all.2.1 e mem))
      (weakens.listed all.1 (.inr rfl) together) (weakens.alone single)

theorem weaken_statements (weakens : s.Weakens t p) :
    Role.Family.statements.Keeps s (·.Weakened t p) := by
  intro r v conforms rule family all
  induction rule using Conforms.below.casesOn with
    (cases family
     try simp only [Value.all, Value.allOf, Value.allOf_iff, Bool.and_eq_true] at all)
  | blockStatement _ _ inner => exact .blockStatement (inner all)
  | declarationStatement _ _ inner => exact .declarationStatement (inner all)
  | emptyStatement => exact .emptyStatement
  | expressionStatement _ _ inner =>
    exact .expressionStatement (inner all.2.1)
  | functionDeclaration _ _ _ single _ name _ params _ body =>
    exact .functionDeclaration (name all.2.1) (fun p mem => params p mem (all.2.2.1 p mem))
      (body all.2.2.2.1) (weakens.alone single)
  | returnStatement _ _ value =>
    exact .returnStatement fun some => value some all.2.1
  | breakStatement _ _ label =>
    exact .breakStatement fun some => label some all.2.1
  | continueStatement _ _ label =>
    exact .continueStatement fun some => label some all.2.1
  | throwStatement _ _ value =>
    exact .throwStatement (value all.2.1)
  | ifShort _ _ single _ test _ left =>
    exact .ifShort (test all.2.1) (left all.2.2.1) (weakens.alone single)
  | ifElse _ _ _ closed first second _ test _ left _ right =>
    exact .ifElse (test all.2.1) (left all.2.2.1) (right all.2.2.2.1) closed (weakens.alone first)
      (weakens.alone second)
  | forStatement _ _ _ _ single _ init _ test _ update _ body =>
    exact .forStatement (fun some => init some all.2.1) (fun some => test some all.2.2.1)
      (fun some => update some all.2.2.2.1) (body all.2.2.2.2.1) (weakens.alone single)
  | forIn _ _ _ single _ left _ right _ body =>
    exact .forIn (left all.2.1) (right all.2.2.1) (body all.2.2.2.1) (weakens.alone single)
  | forOf _ _ _ single _ left _ right _ body =>
    exact .forOf (left all.2.1) (right all.2.2.1) (body all.2.2.2.1) (weakens.alone single)
  | whileStatement _ _ single _ test _ body =>
    exact .whileStatement (test all.2.1) (body all.2.2.1) (weakens.alone single)
  | doWhile _ _ single _ body _ test =>
    exact .doWhile (body all.2.1) (test all.2.2.1) (weakens.alone single)
  | tryStatement _ _ _ both first last _ guarded _ handler _ finalizer =>
    exact .tryStatement (guarded all.2.1) (fun some => handler some all.2.2.1)
      (fun some => finalizer some all.2.2.2.1) both (weakens.alone first)
      fun some => weakens.alone (last some)

theorem Conforms.weaken (weakens : s.Weakens t p) (conforms : Conforms s r v) :
    r.Weakened t p v :=
  conforms.byFamily fun
    | .names => weaken_names weakens
    | .expressions => weaken_expressions weakens
    | .parts => weaken_parts weakens
    | .blocks => weaken_blocks weakens
    | .statements => weaken_statements weakens

end ScriptTree
