import Mathlib.Data.List.Forall2
import ScriptTree.Proofs.Path.Roles
import ScriptTree.Proofs.Print.RoundTrip

/-!
Choices built from parts of sources. A choice prints to a text that is read as the same choice,
unless an `else` follows a statement that ends in a choice without one: that choice takes it.
-/
namespace ScriptTree

open Print Value

/-- Some source holds an expression, and not as the name of a property. -/
def OccursAsExpression (v : Value) : Prop :=
  ∃ source tree p, parse source = .ok tree ∧ p ∈ (Path.root 0 tree).descendants.paths ∧
    p.value = v ∧ v.isKind .expression ∧ p.isPropertyName = .ok false

def OccursAsStatement (v : Value) : Prop :=
  ∃ source tree p, parse source = .ok tree ∧ p ∈ (Path.root 0 tree).descendants.paths ∧
    p.value = v ∧ v.isKind .statement

/-- Without comments, a statement prints to a text that is read as a program of one statement, which
is equivalent. -/
def Value.ReadsBack (v : Value) (width : Int) : Prop :=
  ∃ printed m statement, v.print { tabWidth := width, comments := false } = .ok printed ∧
    parse printed = .ok (.node .program [.list [statement]] m) ∧ v.equivalent statement = .ok true

variable {v w : Value} {r : Role} {keep : Bool} {width : Int} {ls : List Lexeme} {n : Notes}

/-- What is read from a source, as far as its comments do not matter. -/
theorem Conforms.plain_of_parsed (conforms : Conforms .parsed r v) (plain : v.all isPlainLiteral) :
    Conforms .plain r v := by
  refine conforms.weaken ⟨?_, ?_, ?_, ?_⟩ plain
  · exact fun holds _ => holds
  · exact fun _ => trivial
  · exact fun _ => trivial
  · exact fun _ _ _ => trivial

theorem parse_sits {source : Text} {tree : Value} {p : Path} (parsed : parse source = .ok tree)
    (mem : p ∈ (Path.root 0 tree).descendants.paths) : Sits .parsed p := by
  have conforms : Conforms .parsed .program (Path.root 0 tree).value := parse_program parsed
  have valid := conforms.valid Convention.parsed_scalar
  exact conforms.under ((Path.mem_descendants_iff valid).mp mem)

theorem OccursAsExpression.conforms (occurs : OccursAsExpression v) :
    Conforms .parsed .expression v := by
  obtain ⟨source, tree, p, parsed, mem, rfl, kind, plain⟩ := occurs
  obtain ⟨role, conforms, named⟩ := parse_sits parsed mem
  refine conforms.expression_of_kind (fun other => ?_) kind
  rw [named other] at plain
  cases plain

theorem OccursAsStatement.conforms (occurs : OccursAsStatement v) :
    Conforms .parsed .statement v := by
  obtain ⟨source, tree, p, parsed, mem, rfl, kind⟩ := occurs
  obtain ⟨role, conforms, _⟩ := parse_sits parsed mem
  exact conforms.statement_of_kind kind

/-- A statement prints as the program that it makes up. -/
theorem Writes.print_statement
    (writes : Writes false (.program { comments := keep }) (.node .program [.list [v]] n) ls)
    (kind : v.kind? = some .ifStatement) :
    v.print { tabWidth := width, comments := keep } = .ok ((layout ls).render width) := by
  obtain ⟨vs, m, rfl⟩ := kind?_node kind
  cases writes with
  | program body =>
    cases body with
    | linesLast item =>
      have done := item.printed _ _ Like.refl (Nat.le_succ (Value.node .ifStatement vs m).depth)
      have other : (Value.node .ifStatement vs m).isKind .program = false := rfl
      have this : (Value.node .ifStatement vs m).isKind .statement = true := rfl
      simp only [Form.Prints, Form.aloud, Print.Context.aloud, Bool.false_or] at done
      simp only [Value.print, Value.layout, Value.phrase, Print.node, Value.isNode, Bool.not_true,
        Bool.false_eq_true, if_false, other, this, if_true, done, map_ok, ok_bind, Phrase.strict,
        pure_ok]

namespace Value

theorem essence_eq_null (same : v.essence = .null) : v = .null := by
  cases v with
  | null => rfl
  | float x => cases x <;> cases same
  | _ => cases same

theorem essenceOf_same {vs ws : List Value} (same : essenceOf ws = essenceOf vs) :
    List.Forall₂ (fun w v : Value => w.essence = v.essence) ws vs := by
  induction ws generalizing vs with
  | nil => cases vs with
    | nil => exact .nil
    | cons => cases same
  | cons w ws ih => cases vs with
    | nil => cases same
    | cons v vs =>
      obtain ⟨first, rest⟩ := List.cons.inj same
      exact .cons first (ih rest)

theorem essence_same_node {k : Kind} {ws : List Value} {m : Notes}
    (same : (Value.node k ws m).essence = v.essence) : ∃ vs n, v = .node k vs n ∧
      List.Forall₂ (fun w v : Value => w.essence = v.essence) ws vs := by
  cases v with
  | node l vs n =>
    obtain ⟨rfl, fields⟩ := Essence.node.inj same
    exact ⟨vs, n, rfl, essenceOf_same fields⟩
  | float x => cases x <;> cases same
  | _ => cases same

/-- Whether a statement ends in an open choice shows in its essence. -/
theorem endsOpen_of_essence (same : w.essence = v.essence) (opened : w.endsOpen) : v.endsOpen := by
  fun_induction Value.endsOpen w generalizing v with
  | case1 =>
    obtain ⟨_, _, rfl, fields⟩ := essence_same_node same
    match fields with
    | .cons _ (.cons _ (.cons last .nil)) =>
      cases essence_eq_null last.symm
      rfl
  | case2 _ _ alternate _ some ih =>
    obtain ⟨_, _, rfl, fields⟩ := essence_same_node same
    match fields with
    | .cons _ (.cons _ (.cons last .nil)) =>
      have further := ih last opened
      rwa [Value.endsOpen]
      rintro rfl
      cases further
  | case3 _ _ _ _ _ ih =>
    obtain ⟨_, _, rfl, fields⟩ := essence_same_node same
    match fields with
    | .cons _ (.cons _ (.cons _ (.cons last .nil))) =>
      have further := ih last opened
      exact further
  | case4 _ _ _ _ ih | case5 _ _ _ _ ih =>
    obtain ⟨_, _, rfl, fields⟩ := essence_same_node same
    match fields with
    | .cons _ (.cons _ (.cons last .nil)) =>
      have further := ih last opened
      exact further
  | case6 _ _ _ ih =>
    obtain ⟨_, _, rfl, fields⟩ := essence_same_node same
    match fields with
    | .cons _ (.cons last .nil) =>
      have further := ih last opened
      exact further
  | case7 => cases opened

end Value

variable {test consequent alternate : Value}

theorem choice_conforms (condition : Conforms .plain .expression test)
    (left : Conforms .plain .statement consequent)
    (right : alternate ≠ .null → Conforms .plain .statement alternate)
    (closed : alternate ≠ .null → consequent.endsOpen = false) (n : Notes) :
    Conforms .plain .statement (.node .ifStatement [test, consequent, alternate] n) := by
  by_cases null : alternate = .null
  · rw [null]
    exact .ifShort condition left trivial
  · exact .ifElse condition left (right null) (closed null) trivial trivial

theorem choice_sound (condition : Conforms .plain .expression test)
    (left : Conforms .plain .statement consequent)
    (right : alternate ≠ .null → Conforms .plain .statement alternate) (n : Notes) :
    (Value.node .ifStatement [test, consequent, alternate] n).validate true = .ok () ∧
      (Value.node .ifStatement [test, consequent, alternate] n).isNumeric := by
  constructor
  · have valid := fun some => (right some).valid Convention.plain_scalar
    exact validate_node rfl ((validateFields_node (condition.valid Convention.plain_scalar)).trans
      ((validateFields_node (left.valid Convention.plain_scalar)).trans
        (validateFields_optional valid)))
  · have numeric := isNumeric_optional.mp fun some => (right some).isNumeric isNumeric_of_isPlain
    simp [Value.isNumeric, areNumeric, condition.isNumeric isNumeric_of_isPlain,
      left.isNumeric isNumeric_of_isPlain, numeric]

theorem parse_statement {source : Text} {statement : Value} {m : Notes}
    (parsed : parse source = .ok (.node .program [.list [statement]] m)) :
    Conforms .parsed .statement statement := by
  cases parse_program parsed with
  | program items => exact items statement List.mem_cons_self

/-- In what is read from a source, the statement before an `else` does not end in an open choice. -/
theorem closed_of_essence {source : Text} {statement : Value} {m : Notes}
    (parsed : parse source = .ok (.node .program [.list [statement]] m))
    (same : (Value.node .ifStatement [test, consequent, alternate] n).essence = statement.essence)
    (some : alternate ≠ .null) : consequent.endsOpen = false := by
  have conforms := parse_statement parsed
  obtain ⟨_, _, rfl, fields⟩ := essence_same_node same
  match fields with
  | .cons _ (.cons left (.cons right .nil)) =>
    by_contra opened
    have opened := endsOpen_of_essence left (Bool.eq_true_of_not_eq_false opened)
    cases conforms with
    | ifShort => exact some (essence_eq_null right)
    | ifElse _ _ _ closed =>
      rw [closed] at opened
      cases opened
    | blockStatement inner | declarationStatement inner => cases inner

/-- A choice that follows the grammar makes up a program by itself. -/
theorem Conforms.readsBack (conforms : Conforms .plain .statement v)
    (kind : v.kind? = some .ifStatement) (width : Int) : v.ReadsBack width := by
  have program : Conforms .plain .program (.node .program [.list [v]] {}) := by
    refine .program (fun e mem => ?_) trivial trivial
    cases List.mem_singleton.mp mem
    exact conforms
  obtain ⟨ls, u, writes, parsed, like⟩ := program.tidy_of_plain.reread width
  obtain ⟨body, m, rfl, items, _⟩ := like.one
  obtain ⟨us, rfl, each⟩ := like_list.mp items
  obtain ⟨statement, us, rfl, alike, none⟩ := allLike_cons.mp each
  cases allLike_nil.mp none
  refine ⟨textOf width ls, m, statement, writes.print_statement kind, parsed, ?_⟩
  have numeric := conforms.isNumeric isNumeric_of_isPlain
  refine alike.symm.equivalent (conforms.valid Convention.plain_scalar) ?_ ?_
  · exact (parse_statement parsed).valid Convention.parsed_scalar
  · exact isNumeric_of_essence v statement alike.symm.essence numeric

/-- A choice that reads back has no open choice before its `else`. -/
theorem closed_of_readsBack (condition : Conforms .plain .expression test)
    (left : Conforms .plain .statement consequent)
    (right : alternate ≠ .null → Conforms .plain .statement alternate) {width : Int}
    (back : (Value.node .ifStatement [test, consequent, alternate] n).ReadsBack width)
    (some : alternate ≠ .null) : consequent.endsOpen = false := by
  obtain ⟨printed, m, statement, _, parsed, same⟩ := back
  obtain ⟨valid, numeric⟩ := choice_sound condition left right n
  have decides := equivalent_decides _ statement (.inr valid)
    (.inr ((parse_statement parsed).valid Convention.parsed_scalar)) numeric
  exact closed_of_essence parsed (decides.ok_true.mp same) some

/-- A choice that is built from parts of sources prints to a text that is read as an equivalent one
exactly if it has no `else`, or the statement before the `else` does not end in an open choice. -/
theorem choice_reads_back_iff (condition : OccursAsExpression test)
    (first : OccursAsStatement consequent)
    (second : alternate ≠ .null → OccursAsStatement alternate)
    (plain : ∀ v ∈ [test, consequent, alternate], v.all isPlainLiteral) (n : Notes) (width : Int) :
    (Value.node .ifStatement [test, consequent, alternate] n).ReadsBack width ↔
      (alternate ≠ .null → consequent.endsOpen = false) := by
  have condition := condition.conforms.plain_of_parsed (plain _ (by simp))
  have left := first.conforms.plain_of_parsed (plain _ (by simp))
  have right := fun some => (second some).conforms.plain_of_parsed (plain _ (by simp))
  constructor
  · exact closed_of_readsBack condition left right
  · intro closed
    exact (choice_conforms condition left right closed n).readsBack rfl width

theorem occurs_name : ∃ v, OccursAsExpression v ∧ v.all isPlainLiteral :=
  ⟨_, ⟨text "a;", _, _, by rfl, .tail _ (.head _), rfl, by rfl, by rfl⟩, by rfl⟩

theorem occurs_closed : ∃ v, OccursAsStatement v ∧ v.all isPlainLiteral ∧ v.endsOpen = false :=
  ⟨_, ⟨text "while (b) c;", _, _, by rfl, .head _, rfl, by rfl⟩, by rfl, by rfl⟩

theorem occurs_open : ∃ v, OccursAsStatement v ∧ v.all isPlainLiteral ∧ v.endsOpen = true :=
  ⟨_, ⟨text "if (b) c;", _, _, by rfl, .head _, rfl, by rfl⟩, by rfl, by rfl⟩

theorem choice_reads_back_loop : ∃ test consequent alternate : Value,
    OccursAsExpression test ∧ OccursAsStatement consequent ∧ OccursAsStatement alternate ∧
      (Value.node .ifStatement [test, consequent, alternate] {}).ReadsBack 4 := by
  obtain ⟨test, condition, plainTest⟩ := occurs_name
  obtain ⟨consequent, first, plainFirst, closed⟩ := occurs_closed
  obtain ⟨alternate, second, plainSecond, _⟩ := occurs_open
  refine ⟨test, consequent, alternate, condition, first, second, ?_⟩
  refine (choice_reads_back_iff condition first (fun _ => second) ?_ {} 4).mpr fun _ => closed
  simp [plainTest, plainFirst, plainSecond]

/-- In `if (a) if (b) c; else while (b) c;` the `else` goes to the second choice, though the tree
was built with the first one. -/
theorem choice_loses_else : ∃ test consequent alternate : Value,
    OccursAsExpression test ∧ OccursAsStatement consequent ∧ OccursAsStatement alternate ∧
      (∀ v ∈ [test, consequent, alternate], v.all isPlainLiteral) ∧
      ¬(Value.node .ifStatement [test, consequent, alternate] {}).ReadsBack 4 := by
  obtain ⟨test, condition, plainTest⟩ := occurs_name
  obtain ⟨consequent, first, plainFirst, opened⟩ := occurs_open
  obtain ⟨alternate, second, plainSecond, _⟩ := occurs_closed
  refine ⟨test, consequent, alternate, condition, first, second, ?_, fun back => ?_⟩
  · simp [plainTest, plainFirst, plainSecond]
  · have right := second.conforms.plain_of_parsed plainSecond
    have closed := closed_of_readsBack (condition.conforms.plain_of_parsed plainTest)
      (first.conforms.plain_of_parsed plainFirst) (fun _ => right) back
      (ne_null_of_isNode right.isNode)
    rw [closed] at opened
    cases opened

end ScriptTree
