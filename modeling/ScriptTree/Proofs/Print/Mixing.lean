import ScriptTree.Proofs.Print.Solo

/-!
Operators that do not mix. Every operation of a program stands somewhere in its printed text, and
there its operands have the parentheses that the printer gives them.
-/
namespace ScriptTree

open Print Value

namespace Value

mutual
/-- A node is a value, or occurs in it. -/
def Occurs (w : Value) : Value → Prop
  | .list items => OccursIn w items
  | .node k children n => w = .node k children n ∨ OccursIn w children
  | _ => False

def OccursIn (w : Value) : List Value → Prop
  | [] => False
  | v :: vs => Occurs w v ∨ OccursIn w vs
end

/-- Whether a value is an operation with an operator between two operands. -/
def isOperation : Value → Bool
  | .node .binaryExpression [.text _, _, _] _ | .node .logicalExpression [.text _, _, _] _ => true
  | _ => false

def isPowerOfUnary : Value → Bool
  | .node .binaryExpression [.text op, l, _] _ =>
    op == ScriptTree.text "**" && l.kind? == some .unaryExpression
  | _ => false

variable {v w : Value} {vs : List Value} {k : Kind} {n : Notes}

@[simp] theorem occurs_list : Occurs w (.list vs) ↔ OccursIn w vs := Iff.rfl

@[simp] theorem occurs_null : ¬Occurs w .null := id

@[simp] theorem occurs_bool {b : Bool} : ¬Occurs w (.bool b) := id

@[simp] theorem occurs_text {t : Text} : ¬Occurs w (.text t) := id

@[simp] theorem occursIn_nil : ¬OccursIn w [] := id

@[simp] theorem occursIn_cons : OccursIn w (v :: vs) ↔ Occurs w v ∨ OccursIn w vs := Iff.rfl

theorem not_occurs_scalar (scalar : v.isScalar) : ¬Occurs w v := by
  cases v with
  | list | node => cases scalar
  | _ => exact id

/-- An operation that occurs in a node of another kind occurs in a child of it. -/
theorem occurs_node (operation : w.isOperation) (binary : k ≠ .binaryExpression)
    (logical : k ≠ .logicalExpression) : Occurs w (.node k vs n) ↔ OccursIn w vs := by
  refine ⟨fun occurs => occurs.elim ?_ id, .inr⟩
  rintro rfl
  unfold isOperation at operation
  split at operation
  next same => exact absurd (Value.node.inj same).1 binary
  next same => exact absurd (Value.node.inj same).1 logical
  next => cases operation

end Value

/-- An operation is written without parentheses of its own somewhere in lexemes. -/
def Within (w : Value) (ls : List Lexeme) : Prop :=
  ∃ c rank ms, c.comments = false ∧ Writes false (.bare c rank) w ms ∧ ms <:+: ls

variable {f : Form} {v w : Value} {l : Lexeme} {ls ms : List Lexeme} {width : Int}

namespace Within

theorem part (within : Within w ls) (inside : ls <:+: ms) : Within w ms := by
  obtain ⟨c, rank, os, quiet, writes, part⟩ := within
  exact ⟨c, rank, os, quiet, writes, part.trans inside⟩

theorem cons (within : Within w ls) : Within w (l :: ls) :=
  within.part (List.suffix_cons l ls).isInfix

theorem left (within : Within w ls) : Within w (ls ++ ms) :=
  within.part (List.prefix_append ls ms).isInfix

theorem right (within : Within w ms) : Within w (ls ++ ms) :=
  within.part (List.suffix_append ls ms).isInfix

theorem inside (within : Within w ls) : Within w (enclosed ls) := within.left.cons

end Within

/-- An operation in a value is within the lexemes that the value is written with. -/
def Form.Shows (w : Value) (f : Form) (v : Value) (ls : List Lexeme) : Prop :=
  Occurs w v → f.context.comments = false → Within w ls

theorem shows_lists : Form.Family.lists.Keeps false (Form.Shows w) := by
  intro f v ls writes rule family occurs quiet
  induction rule using Writes.below.casesOn with cases family <;>
    simp only [occurs_list, occurs_null, occursIn_nil, occursIn_cons, or_false, false_or] at occurs
  | commasLast _ _ item | elementsLast _ _ item | linesLast _ _ item => exact item occurs quiet
  | commasMore _ _ _ item _ more | elementsMore _ _ _ item _ more =>
    rcases occurs with first | rest
    · exact (item first quiet).left
    · exact (more rest quiet).cons.cons.right
  | linesMore _ _ _ _ item _ more =>
    rcases occurs with first | rest
    · exact (item first quiet).left
    · exact (more rest quiet).cons.right
  | elementsSkip _ _ more => exact (more occurs quiet).cons.cons
  | arguments _ _ items => exact (items occurs quiet).inside

theorem shows_names (operation : w.isOperation) : Form.Family.names.Keeps false (Form.Shows w) := by
  intro f v ls writes rule family occurs quiet
  -- the node itself is no operation, so the operation is in one of its children
  induction rule using Writes.below.casesOn with cases family <;>
    try simp only [occurs_node operation, occurs_text, occursIn_nil, occursIn_cons, or_false, ne_eq,
      reduceCtorEq, not_false_eq_true] at occurs
  | keyWord _ _ inner => exact inner occurs quiet
  | keyLiteral _ plain => exact absurd occurs (not_occurs_scalar (Convention.plain_scalar plain))

theorem shows_places : Form.Family.places.Keeps false (Form.Shows w) := by
  intro f v ls writes rule family occurs quiet
  induction rule using Writes.below.casesOn with cases family
  | opened _ _ _ _ _ inner => exact (inner occurs quiet).right
  | closed _ _ _ _ _ inner => exact (inner occurs quiet).inside.right
  | operandPlain _ _ _ inner | objectPlain _ _ _ inner | calleePlain _ _ _ inner =>
    exact inner occurs quiet
  | operandMixed _ _ _ inner | objectNumber _ _ _ inner | calleeCall _ _ _ inner =>
    exact (inner occurs quiet).inside

theorem shows_expressions (operation : w.isOperation) :
    Form.Family.expressions.Keeps false (Form.Shows w) := by
  intro f v ls writes rule family occurs quiet
  induction rule using Writes.below.casesOn with cases family <;>
    try simp only [occurs_node operation, occurs_list, occurs_null, occurs_bool, occurs_text,
      occursIn_nil, occursIn_cons, or_false, false_or, ne_eq, reduceCtorEq,
      not_false_eq_true] at occurs
  | literal plain => exact absurd occurs (not_occurs_scalar (Convention.plain_scalar plain))
  | array _ _ inner => exact (inner occurs quiet).left.cons
  | objectSome _ _ inner => exact (inner occurs quiet).left.cons.cons
  | @functionNamed _ declared _ _ _ _ _ _ _ _ _ _ _ _ name _ params _ body =>
    rw [occurs_node operation (by cases declared <;> nofun) (by cases declared <;> nofun)] at occurs
    simp only [occurs_list, occursIn_nil, occursIn_cons, or_false] at occurs
    rcases occurs with inner | inner | inner
    · exact (name inner quiet).left.cons.cons
    · exact (params inner quiet).inside.left.right.cons.cons
    · exact (body inner quiet).cons.right.right.cons.cons
  | functionUnnamed _ _ _ _ params _ body =>
    rcases occurs with inner | inner
    · exact (params inner quiet).inside.left.cons
    · exact (body inner quiet).cons.right.cons
  | functionExpression _ _ inner => exact inner occurs quiet
  | arrowBlock _ _ _ _ params _ body | arrowValue _ _ _ _ params _ body =>
    rcases occurs with inner | inner
    · exact (params inner quiet).inside.left
    · exact (body inner quiet).cons.cons.cons.right
  | arrowObject _ _ _ _ params _ body =>
    rcases occurs with inner | inner
    · exact (params inner quiet).inside.left
    · exact (body inner quiet).inside.cons.cons.cons.right
  | unary _ _ _ operand => exact (operand occurs quiet).right.cons
  | stepBefore _ _ _ _ operand => exact (operand occurs quiet).cons
  | stepAfter _ _ _ _ operand => exact (operand occurs quiet).left
  | operation ranked bar left right _ first _ second =>
    simp only [Occurs, OccursIn, or_false, false_or] at occurs
    rcases occurs with rfl | inner | inner
    · exact ⟨_, _, _, quiet, .operation ranked bar left right, List.infix_rfl⟩
    · exact (first inner quiet).left
    · exact (second inner quiet).cons.cons.cons.right
  | assignment _ _ _ _ _ left _ right =>
    rcases occurs with inner | inner
    · exact (left inner quiet).left
    · exact (right inner quiet).cons.cons.cons.right
  | conditional _ _ _ _ test _ left _ right =>
    rcases occurs with inner | inner | inner
    · exact (test inner quiet).left
    · exact (left inner quiet).left.cons.cons.cons.right
    · exact (right inner quiet).cons.cons.cons.right.cons.cons.cons.right
  | sequence _ _ items => exact items occurs quiet
  | call _ _ _ callee _ args =>
    rcases occurs with inner | inner
    · exact (callee inner quiet).left
    · exact (args inner quiet).right
  | construction _ _ _ callee _ args =>
    rcases occurs with inner | inner
    · exact (callee inner quiet).left.cons.cons
    · exact (args inner quiet).right.cons.cons
  | memberNamed _ _ _ object _ name =>
    rcases occurs with inner | inner
    · exact (object inner quiet).left
    · exact (name inner quiet).cons.right
  | memberIndexed _ _ _ object _ index =>
    rcases occurs with inner | inner
    · exact (object inner quiet).left
    · exact (index inner quiet).left.cons.right

theorem shows_parts (operation : w.isOperation) : Form.Family.parts.Keeps false (Form.Shows w) := by
  intro f v ls writes rule family occurs quiet
  induction rule using Writes.below.casesOn with cases family <;>
    try simp only [occurs_node operation, occurs_list, occurs_null, occurs_bool, occurs_text,
      occursIn_nil, occursIn_cons, or_false, false_or, ne_eq, reduceCtorEq,
      not_false_eq_true] at occurs
  | computed _ _ _ _ key _ value =>
    rcases occurs with inner | inner
    · exact (key inner quiet).left.cons
    · exact (value inner quiet).cons.cons.cons.right.cons
  | keyed _ _ _ _ key _ value =>
    rcases occurs with inner | inner
    · exact (key inner quiet).left
    · exact (value inner quiet).cons.cons.right
  | declaratorBare _ _ _ name => exact name occurs quiet
  | declaratorInit _ _ _ _ name _ init =>
    rcases occurs with inner | inner
    · exact (name inner quiet).left
    · exact (init inner quiet).cons.cons.cons.right
  | declaration _ _ _ items => exact (items occurs quiet).cons.cons
  | initDeclaration _ _ _ inner | initExpression _ _ inner | targetPlace _ _ _ inner =>
    exact inner occurs quiet
  | partSome _ _ inner => exact (inner occurs quiet).cons
  | targetVariable _ _ _ _ name => exact (name occurs quiet).cons.cons

theorem shows_blocks (operation : w.isOperation) :
    Form.Family.blocks.Keeps false (Form.Shows w) := by
  intro f v ls writes rule family occurs quiet
  induction rule using Writes.below.casesOn with cases family <;>
    try simp only [occurs_node operation, occurs_list, occurs_null, occursIn_nil, occursIn_cons,
      or_false, false_or, ne_eq, reduceCtorEq, not_false_eq_true] at occurs
  | block _ _ body => exact (body occurs quiet).left.cons.cons
  | bodyBlock _ _ _ inner | bodyLine _ _ _ _ inner => exact (inner occurs quiet).cons
  | handlerBare _ _ _ _ body => exact (body occurs quiet).cons.cons
  | handlerNamed _ _ _ _ _ param _ body =>
    rcases occurs with inner | inner
    · exact (param inner quiet).inside.left.cons.cons
    · exact (body inner quiet).cons.right.cons.cons
  | statement _ _ _ _ _ own => exact (own occurs quiet).left.right
  | program _ _ _ body => exact body occurs quiet

theorem shows_statements (operation : w.isOperation) :
    Form.Family.statements.Keeps false (Form.Shows w) := by
  intro f v ls writes rule family occurs quiet
  induction rule using Writes.below.casesOn with cases family <;>
    try simp only [occurs_node operation, occurs_null, occursIn_nil, occursIn_cons, or_false,
      false_or, ne_eq, reduceCtorEq, not_false_eq_true] at occurs
  | ownExpression _ _ _ inner | ownDeclaration _ _ inner => exact (inner occurs quiet).left
  | ownClash _ _ _ inner => exact (inner occurs quiet).inside.left
  | ownBlock _ _ inner | ownFunction _ _ inner | ownChoice _ _ inner => exact inner occurs quiet
  | returnValue _ _ inner | breakLabel _ _ inner | continueLabel _ _ inner
  | throwValue _ _ inner => exact (inner occurs quiet).left.cons.cons
  | choiceShort _ _ _ test _ left | whileLoop _ _ _ test _ left =>
    rcases occurs with inner | inner
    · exact (test inner quiet).inside.left.cons.cons
    · exact (left inner quiet).right.cons.cons
  | choiceElse _ _ _ _ _ _ test _ left _ right =>
    rcases occurs with inner | inner | inner
    · exact (test inner quiet).inside.left.cons.cons
    · exact (left inner quiet).left.right.cons.cons
    · exact (right inner quiet).cons.cons.right.right.cons.cons
  | choiceChain _ _ _ _ _ _ test _ left _ right =>
    rcases occurs with inner | inner | inner
    · exact (test inner quiet).inside.left.cons.cons
    · exact (left inner quiet).left.right.cons.cons
    · exact (right inner quiet).cons.cons.cons.right.right.cons.cons
  | forCounted _ _ _ _ _ init _ test _ update _ body =>
    rcases occurs with inner | inner | inner | inner
    · exact (init inner quiet).left.inside.left.cons.cons
    · exact (test inner quiet).left.cons.right.inside.left.cons.cons
    · exact (update inner quiet).cons.right.cons.right.inside.left.cons.cons
    · exact (body inner quiet).right.cons.cons
  | forIn _ _ _ _ left _ right _ body | forOf _ _ _ _ left _ right _ body =>
    rcases occurs with inner | inner | inner
    · exact (left inner quiet).left.inside.left.cons.cons
    · exact (right inner quiet).cons.cons.cons.right.inside.left.cons.cons
    · exact (body inner quiet).right.cons.cons
  | doLoop _ _ _ body _ test =>
    rcases occurs with inner | inner
    · exact (body inner quiet).left.cons
    · exact (test inner quiet).inside.left.cons.cons.cons.right.cons
  | tryHandled _ _ _ _ guarded _ handler =>
    rcases occurs with inner | inner
    · exact (guarded inner quiet).left.cons.cons
    · exact (handler inner quiet).cons.right.cons.cons
  | tryFinal _ _ _ _ _ guarded _ finalizer =>
    rcases occurs with inner | inner
    · exact (guarded inner quiet).left.cons.cons
    · exact (finalizer inner quiet).cons.cons.cons.right.cons.cons
  | tryBoth _ _ _ _ _ _ guarded _ handler _ finalizer =>
    rcases occurs with inner | inner | inner
    · exact (guarded inner quiet).left.cons.cons
    · exact (handler inner quiet).left.cons.right.cons.cons
    · exact (finalizer inner quiet).cons.cons.cons.right.cons.right.cons.cons

/-- Every operation in what is written stands there without parentheses of its own. -/
theorem Writes.within (writes : Writes false f v ls) (operation : w.isOperation)
    (occurs : Occurs w v) (quiet : f.context.comments = false) : Within w ls := by
  have shows : f.Shows w v ls := writes.byFamily fun
    | .lists => shows_lists
    | .names => shows_names operation
    | .places => shows_places
    | .expressions => shows_expressions operation
    | .parts => shows_parts operation
    | .blocks => shows_blocks operation
    | .statements => shows_statements operation
  exact shows occurs quiet

namespace Value

theorem occursIn_of_mem {u : Value} {vs : List Value} (mem : u ∈ vs) (occurs : Occurs w u) :
    OccursIn w vs := by
  induction vs with
  | nil => cases mem
  | cons v vs ih =>
    rcases List.mem_cons.mp mem with rfl | mem
    · exact .inl occurs
    · exact .inr (ih mem)

/-- What occurs in a part of a value occurs in the value. -/
theorem occurs_part {part : Step × Value} (mem : part ∈ v.parts) (occurs : Occurs w part.2) :
    Occurs w v := by
  obtain ⟨_, _, _, _, rfl, field⟩ := field_of_mem_parts mem
  rcases field with field | ⟨items, field, item⟩
  · exact .inr (occursIn_of_mem field occurs)
  · have inside : Occurs w (.list items) := occursIn_of_mem item occurs
    exact .inr (occursIn_of_mem field inside)

end Value

theorem Path.Under.occurs {p q : Path} (under : q.Under p) (occurs : Occurs w p.value) :
    Occurs w q.value := by
  induction under with
  | step mem => exact occurs_part mem occurs
  | more _ mem ih => exact ih (occurs_part mem occurs)

theorem occurs_self (operation : v.isOperation) : Occurs v v := by
  cases v with
  | node => exact .inl rfl
  | _ => cases operation

/-- What an expression prints as without comments and without parentheses around it. -/
def Value.Bare (v : Value) (width : Int) (t : Text) : Prop :=
  ∃ c kind l, c.comments = false ∧ v.kind? = some kind ∧
    Print.bare (rules v.depth) c v kind = .ok (.source l) ∧ t = Layout.render width l

def Value.Enclosed (v : Value) (width : Int) (t : Text) : Prop :=
  ∃ s, v.Bare width s ∧ t = ScriptTree.text "(" ++ s ++ ScriptTree.text ")"

/-- Whether an operator is one of the logical operators that `??` does not mix with. -/
def isStrictLogical (operator : Text) : Bool := operator == text "||" || operator == text "&&"

/-- Whether an operand cannot stand beside an operator without parentheses: one of the two is `??`,
and the other is `||` or `&&`. -/
def Value.mixes (operator : Text) : Value → Bool
  | .node .logicalExpression [.text inner, _, _] _ =>
    operator == ScriptTree.text "??" && isStrictLogical inner ||
      isStrictLogical operator && inner == ScriptTree.text "??"
  | _ => false

variable {c : Context} {o : TokenKind} {rank least : Nat}

theorem textOf_append : textOf width (ls ++ ms) = textOf width ls ++ textOf width ms := by
  induction ls with
  | nil => rfl
  | cons l ls ih => rw [List.cons_append, textOf_cons, textOf_cons, ih, List.append_assoc]

namespace Writes

theorem rank_eq (writes : Writes false (.bare c rank) v ls) : Print.rank v = .ok rank :=
  (writes.printed v v.depth Like.refl (Nat.le_succ _)).1

theorem shown (writes : Writes false (.bare c rank) v ls) (quiet : c.comments = false) :
    v.Bare width (textOf width ls) := by
  obtain ⟨_, kind, known, printed⟩ := writes.printed v v.depth Like.refl (Nat.le_succ _)
  exact ⟨c, kind, _, quiet, known, printed, rfl⟩

theorem enclosed_shown (writes : Writes false (.bare c rank) v ls) (quiet : c.comments = false) :
    v.Enclosed width (textOf width (enclosed ls)) :=
  ⟨_, writes.shown quiet, by
    simp [enclosed, textOf_append, show TokenKind.leftParen.spelling = "(" from rfl,
      show TokenKind.rightParen.spelling = ")" from rfl]⟩

/-- An operation is written with its operator between its operands. -/
theorem operation_cases (writes : Writes false (.bare c rank) v ls) (operation : v.isOperation) :
    ∃ o own l r n ms ns, v = .node (Grammar.operationKind o) [.text (text o.spelling), l, r] n ∧
      o.rank? = some own ∧ ls = ms ++ .blank :: .mark o :: .blank :: ns ∧
      Writes false (.operand c o own (leftLeast o own)) l ms ∧
      Writes false (.operand c o own (rightLeast o own)) r ns := by
  cases writes with
  | operation ranked _ left right => exact ⟨_, _, _, _, _, _, _, rfl, ranked, rfl, left, right⟩
  | functionExpression inner => cases inner <;> cases operation
  | _ => cases operation

end Writes

/-- Operators that do not mix have different ranks, and the printer sees that they do not mix if the
operand binds more tightly. -/
theorem mixes_ranks {own inner : Nat} {op operator : Text} {l r : Value} {n : Notes}
    (ranked : TokenKind.rankOf? operator = some own)
    (mixes : (Value.node .logicalExpression [.text op, l, r] n).mixes operator)
    (known : Print.rank (.node .logicalExpression [.text op, l, r] n) = .ok inner) :
    inner ≠ conditionalRank + own ∧ mixesNullish operator (conditionalRank + own)
      (.node .logicalExpression [.text op, l, r] n) =
        .ok (decide (conditionalRank + own ≤ inner)) := by
  have words : (operator = text "??" ∧ (op = text "||" ∨ op = text "&&")) ∨
      ((operator = text "||" ∨ operator = text "&&") ∧ op = text "??") := by
    simpa [Value.mixes, isStrictLogical] using mixes
  have rankedOp : operatorRank (.text op) = .ok inner := known
  rw [mixesNullish_logical, known]
  rcases words with ⟨rfl, rfl | rfl⟩ | ⟨rfl | rfl, rfl⟩ <;> cases ranked <;> cases rankedOp <;>
    exact ⟨by decide, rfl⟩

/-- An operand that does not mix with its operator is written in parentheses. -/
theorem Writes.operand_enclosed (writes : Writes false (.operand c o rank least) v ls)
    (ranked : o.rank? = some rank) (mixes : v.mixes (text o.spelling))
    (low : conditionalRank + rank ≤ least) (high : least ≤ conditionalRank + rank + 1) :
    ∃ c' inner ms, c'.comments = c.comments ∧ ls = enclosed ms ∧
      Writes false (.bare c' inner) v ms := by
  obtain ⟨op, l, r, n, rfl⟩ : ∃ op l r n, v = .node .logicalExpression [.text op, l, r] n := by
    unfold Value.mixes at mixes
    split at mixes
    · exact ⟨_, _, _, _, rfl⟩
    · cases mixes
  have known {c inner ms} (inside : Writes false (.bare c inner)
      (.node .logicalExpression [.text op, l, r] n) ms) :=
    mixes_ranks (rankOf?_spelling ranked) mixes inside.rank_eq
  cases writes with
  | operandPlain apart inner =>
    cases inner with
    | opened inside fits =>
      rw [(known inside).2] at apart
      simp at apart
      omega
    | closed inside => exact ⟨c.lifted, _, _, rfl, rfl, inside⟩
  | operandMixed mixed inner =>
    cases inner with
    | opened inside => exact ⟨_, _, _, rfl, rfl, inside⟩
    | closed inside loose =>
      obtain ⟨differ, same⟩ := known inside
      rw [same] at mixed
      simp [Value.isIn] at mixed loose
      omega

/-- A unary operation before an operator is written without parentheses. -/
theorem Writes.operand_unary
    (writes : Writes false (.operand c o rank least) v ls) (low : least ≤ unaryRank)
    (unary : v.kind? = some .unaryExpression) :
    ∃ inner k e n ms, Writes false (.bare c inner) v ls ∧
      v = .node .unaryExpression [.text (text k.spelling), e] n ∧ ls = .mark k :: ms := by
  cases writes with
  | operandPlain _ inner =>
    cases inner with
    | opened inside =>
      have known := inside
      cases inside with
      | unary => exact ⟨_, _, _, _, _, known, rfl, rfl⟩
      | operation =>
        unfold Grammar.operationKind at unary
        split at unary <;> cases unary
      | functionExpression inner => cases inner <;> cases unary
      | _ => cases unary
    | closed inside loose =>
      obtain ⟨vs, n, rfl⟩ := kind?_node unary
      cases inside.rank_eq
      simp [Value.isIn] at loose
      omega
  | operandMixed mixed =>
    obtain ⟨vs, n, rfl⟩ := kind?_node unary
    cases mixed

/-- In a program that prints without comments, every operation stands somewhere in the text. There
an operand that is a logical operation is enclosed in parentheses if it does not mix with the
operator, and a unary operation before an operator is not, also if that is `**`. -/
theorem operands_enclosed {source : Text} {tree : Value} (parsed : parse source = .ok tree)
    (floatless : tree.all isFloatless) (width : Int) :
    Answers tree.isShort (fun printed => ∀ p ∈ (Path.root 0 tree).descendants.paths,
      ∀ k op l r n, p.value = .node k [.text op, l, r] n →
        k = .binaryExpression ∨ k = .logicalExpression →
        ∃ before left right after,
          printed = before ++ (left ++ text " " ++ op ++ text " " ++ right) ++ after ∧
          p.value.Bare width (left ++ text " " ++ op ++ text " " ++ right) ∧
          (l.mixes op → l.Enclosed width left) ∧ (r.mixes op → r.Enclosed width right) ∧
          (l.kind? = some .unaryExpression → l.Bare width left ∧
            ∃ sign e m, l = .node .unaryExpression [.text sign, e] m ∧ sign <+: left))
      (tree.print { tabWidth := width, comments := false }) := by
  have conforms := parse_program parsed
  refine (conforms.print _ Convention.parsed_scalar).sharpen fun short => ?_
  have heard := conforms.heard_of_parsed (parse_legible parsed) floatless short
  obtain ⟨ls, writes⟩ := heard.written (Convention.heard_suits false) { comments := false } rfl
  refine ⟨_, writes.print Like.refl, fun p mem k op l r n same kind => ?_⟩
  have operation : p.value.isOperation := by rcases kind with rfl | rfl <;> rw [same] <;> rfl
  have valid : (Path.root 0 tree).value.validate true = .ok () :=
    conforms.valid Convention.parsed_scalar
  have under := (Path.mem_descendants_iff valid).mp mem
  obtain ⟨c, rank, ms, quiet, bare, before, after, rfl⟩ :=
    writes.within operation (under.occurs (occurs_self operation)) rfl
  obtain ⟨o, own, l, r, n, ls, ns, shape, ranked, rfl, left, right⟩ :=
    bare.operation_cases operation
  cases same.symm.trans shape
  have spelled : textOf width (ls ++ .blank :: .mark o :: .blank :: ns) =
      textOf width ls ++ text " " ++ text o.spelling ++ text " " ++ textOf width ns := by
    simp only [textOf_append, textOf_cons, Lexeme.text_blank, Lexeme.text_mark, List.append_assoc]
    rfl
  refine ⟨textOf width before, textOf width ls, textOf width ns, textOf width after, ?_, ?_,
    fun mixes => ?_, fun mixes => ?_, fun unary => ?_⟩
  · rw [← spelled, ← textOf_append, ← textOf_append]
    rfl
  · rw [← spelled]
    exact bare.shown quiet
  · obtain ⟨c', _, _, same, rfl, inside⟩ := left.operand_enclosed ranked mixes
      (by unfold leftLeast; split <;> omega) (by unfold leftLeast; split <;> omega)
    exact inside.enclosed_shown (same.trans quiet)
  · obtain ⟨c', _, _, same, rfl, inside⟩ := right.operand_enclosed ranked mixes
      (by unfold rightLeast; split <;> omega) (by unfold rightLeast; split <;> omega)
    exact inside.enclosed_shown (same.trans quiet)
  · have low : leftLeast o own ≤ unaryRank := TokenKind.holds_of_rank ranked (by decide)
    obtain ⟨_, sign, e, m, _, inside, rfl, rfl⟩ := left.operand_unary low unary
    refine ⟨inside.shown quiet, _, _, _, rfl, ?_⟩
    rw [textOf_cons, Lexeme.text_mark]
    exact List.prefix_append _ _

/-- A conjunction beside `??`: the parentheses that it is read with are printed. -/
theorem operands_enclosed_conjunction :
    let source := text "f((a && b) ?? !c);"
    ∃ tree printed p op l r n, parse source = .ok tree ∧ tree.all isFloatless ∧
      tree.print { comments := false } = .ok printed ∧
      p ∈ (Path.root 0 tree).descendants.paths ∧
      p.value = .node .logicalExpression [.text op, l, r] n ∧ l.mixes op ∧
      ∃ before left after, printed = before ++ left ++ after ∧ l.Enclosed 4 left := by
  intro source
  have suits : (parse source).toOption.any (fun tree => tree.all isFloatless && tree.isShort &&
      (Path.root 0 tree).descendants.paths.any fun p => match p.value with
        | .node .logicalExpression [.text op, l, _] _ => l.mixes op
        | _ => false) = true := by decide +kernel
  obtain ⟨tree, parsed, suits⟩ := ok_of_any suits
  simp only [Bool.and_eq_true] at suits
  obtain ⟨⟨floatless, short⟩, suits⟩ := suits
  obtain ⟨p, mem, mixed⟩ := List.any_eq_true.mp suits
  split at mixed
  next op l r n same =>
    rcases operands_enclosed parsed floatless 4 with ⟨_, printed, prints, each⟩ | ⟨fails, _⟩
    · obtain ⟨before, left, right, after, whole, _, enclosed, _⟩ :=
        each p mem _ op l r n same (.inr rfl)
      refine ⟨tree, printed, p, op, l, r, n, parsed, floatless, prints, mem, same, mixed, before,
        left, text " " ++ op ++ text " " ++ right ++ after, ?_, enclosed mixed⟩
      simp only [whole, List.append_assoc]
    · exact absurd short fails
  next => cases mixed

/-- A negation before `**` loses the parentheses that it is read with. -/
theorem operands_unenclosed :
    let source := text "(-a) ** b;"
    ∃ tree p l r n, parse source = .ok tree ∧ tree.all isFloatless ∧
      p ∈ (Path.root 0 tree).descendants.paths ∧
      p.value = .node .binaryExpression [.text (text "**"), l, r] n ∧
      l.kind? = some .unaryExpression ∧
      tree.print { comments := false } = .ok (text "-a ** b;") := by
  intro source
  have bare : (parse source).toOption.any (fun tree => tree.all isFloatless &&
      (tree.print { comments := false }).toOption.any (· == text "-a ** b;") &&
      (Path.root 0 tree).descendants.paths.any (·.value.isPowerOfUnary)) = true := by
    decide +kernel
  obtain ⟨tree, parsed, bare⟩ := ok_of_any bare
  simp only [Bool.and_eq_true] at bare
  obtain ⟨⟨floatless, prints⟩, bare⟩ := bare
  obtain ⟨printed, prints, same⟩ := ok_of_any prints
  cases eq_of_beq same
  obtain ⟨p, mem, bare⟩ := List.any_eq_true.mp bare
  unfold isPowerOfUnary at bare
  split at bare
  next op l r n same =>
    obtain ⟨power, unary⟩ := Bool.and_eq_true_iff.mp bare
    cases eq_of_beq power
    exact ⟨tree, p, l, r, n, parsed, floatless, mem, same, eq_of_beq unary, prints⟩
  next => cases bare

end ScriptTree
