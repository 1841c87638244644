import ScriptTree.Proofs.Grammar.Conformance
import ScriptTree.Proofs.Print.Printing
import ScriptTree.Proofs.Print.Rereading
import ScriptTree.Proofs.Print.Writable
import ScriptTree.Proofs.Tree.Essence

/-!
Printing and reading again. A program that follows the grammar is read from its printed text as it
was, and what a source is read as prints to a text that stays as it is.
-/
namespace ScriptTree

open Print Value

variable {aloud keep : Bool} {v w : Value} {width : Int}

/-- Where no comments are printed but those that are kept, none hides the start of an expression. -/
theorem Value.unveiled_quiet (v : Value) : v.all (unveiled false) := by
  have every : unveiled false = fun _ => true := by
    funext w
    unfold unveiled
    split <;> rfl
  rw [every]
  exact all_true v

/-- What a program is written with is read as one that is like it. -/
theorem Conforms.reread_written {s : Convention} (conforms : Conforms s .program v)
    (suits : s.Suits aloud keep) (shown : v.all (unveiled aloud)) (width : Int) :
    ∃ ls u, Writes aloud (.program { comments := keep }) v ls ∧
      parse (textOf width ls) = .ok u ∧ Like keep u v := by
  obtain ⟨ls, writes⟩ := conforms.written suits { comments := keep } rfl
  have spaced : Spaced ls := by
    have fits := writes.fits rfl [] trivial rfl
    rwa [List.append_nil] at fits
  have reread : (Form.program { comments := keep }).Rereads width v ls := writes.rereads shown
  obtain ⟨u, ran, like⟩ := reread
  refine ⟨ls, u, writes, ?_, ?_⟩
  · exact parse_ok.mpr ⟨_, tokenize_spaced spaced, ran⟩
  · refine Like.of_alone like fun kept => ?_
    cases conforms with
    | program _ _ alone => exact (suits.alone alone).1 kept

theorem Conforms.reread (conforms : Conforms (.tidy keep) .program v) (width : Int) :
    ∃ ls u, Writes false (.program { comments := keep }) v ls ∧ parse (textOf width ls) = .ok u ∧
      Like keep u v :=
  conforms.reread_written (Convention.tidy_suits keep) v.unveiled_quiet width

namespace Value

mutual
theorem essence_strip (v : Value) : (v.strip keep).essence = v.essence := by
  cases v with
  | list items => simp [strip, essence, essenceOf_stripOf items]
  | node k children n => simp [strip, essence, essenceOf_stripOf children]
  | _ => rfl

theorem essenceOf_stripOf (vs : List Value) : essenceOf (stripOf keep vs) = essenceOf vs := by
  cases vs with
  | nil => rfl
  | cons v vs => simp [stripOf, essenceOf, essence_strip v, essenceOf_stripOf vs]
end

theorem Like.essence (like : Like keep w v) : w.essence = v.essence := by
  rw [← essence_strip w, ← essence_strip v, like]

/-- Alike valid trees without NaN are equivalent. -/
theorem Like.equivalent (like : Like keep w v) (left : w.validate true = .ok ())
    (right : v.validate true = .ok ()) (numeric : v.isNumeric) : w.equivalent v = .ok true :=
  (equivalent_decides w v (.inr left) (.inr right)
    (isNumeric_of_essence v w like.essence.symm numeric)).ok_true.mpr like.essence

end Value

theorem Convention.plain_scalar (literal : Convention.plain.literal v) : v.isScalar := by
  cases v <;> first | rfl | cases literal

theorem isNumeric_optional : (¬v = .null → v.isNumeric = true) ↔ v.isNumeric = true := by
  refine ⟨fun numeric => ?_, fun numeric _ => numeric⟩
  by_cases null : v = .null
  · rw [null]
    rfl
  · exact numeric null

theorem Conforms.isNumeric {s : Convention} {r : Role} (literal : ∀ {v}, s.literal v → v.isNumeric)
    (conforms : Conforms s r v) : v.isNumeric := by
  induction conforms with
  | name _ ih | keyWord _ ih | loopDeclaration _ _ ih | loopExpression _ ih | loopPlace _ _ ih
  | blockStatement _ ih | declarationStatement _ ih => exact ih
  | literal holds | keyLiteral _ holds =>
    simp [Value.isNumeric, areNumeric, literal holds]
  | _ => simp_all [Value.isNumeric, areNumeric, areNumeric_iff, isNumeric_optional]

theorem Conforms.tidy_of_plain (conforms : Conforms .plain .program v) :
    Conforms (.tidy false) .program v := by
  refine conforms.weaken (p := fun _ => true) ⟨?_, ?_, ?_, ?_⟩ (all_true v)
  · exact fun _ plain => plain
  · exact fun _ => nofun
  · exact fun _ => nofun
  · exact fun _ _ _ => nofun

theorem Value.isNumeric_of_isPlain (plain : v.isPlain) : v.isNumeric := by
  cases v with
  | float => cases plain
  | list => cases plain
  | node => cases plain
  | _ => rfl

/-- A program that follows the grammar prints to a text that is read as an equivalent program,
whatever the width of its indentation. -/
theorem print_reads_back (conforms : Conforms .plain .program v) (width : Int) :
    ∃ printed u, v.print { tabWidth := width, comments := false } = .ok printed ∧
      parse printed = .ok u ∧ u.equivalent v = .ok true := by
  obtain ⟨ls, u, writes, parsed, like⟩ := conforms.tidy_of_plain.reread width
  refine ⟨textOf width ls, u, writes.print Like.refl, parsed, like.equivalent ?_ ?_ ?_⟩
  · exact (parse_program parsed).valid Convention.parsed_scalar
  · exact conforms.valid Convention.plain_scalar
  · exact conforms.isNumeric isNumeric_of_isPlain

/-- A sign before a negative number, which is not read as one operator. -/
theorem print_reads_back_negation :
    let negation (v : Value) := Value.node .unaryExpression [.text (text "-"), v] {}
    let tree := Value.node .program [.list [.node .expressionStatement
      [negation (negation (.node .literal [.int 1] {}))] {}]] {}
    Conforms .plain .program tree ∧
      ∃ printed u, tree.print { tabWidth := 2, comments := false } = .ok printed ∧
        parse printed = .ok u ∧ u.equivalent tree = .ok true := by
  intro negation tree
  have conforms : Conforms .plain .program tree := by
    have negated (v : Value) (inner : Conforms .plain .expression v) :
        Conforms .plain .expression (negation v) :=
      .unary (o := .minus) rfl inner trivial
    refine .program (fun e mem => ?_) trivial trivial
    cases List.mem_singleton.mp mem
    exact .expressionStatement (negated _ (negated _ (.literal rfl trivial)))
  exact ⟨conforms, print_reads_back conforms 2⟩

/-- Whether a node is no literal, or one that is printed as it was read. -/
def Value.isPlainLiteral : Value → Bool
  | .node .literal [v] _ => v.isPlain
  | _ => true

/-- Whether no list of statements that a node has holds an empty block. -/
def Value.listsNoHollow : Value → Bool
  | .node .blockStatement [.list es] _ | .node .program [.list es] _ => es.all (!·.isHollow)
  | _ => true

mutual
theorem Value.all_and {p q : Value → Bool} (v : Value) :
    v.all (fun w => p w && q w) = (v.all p && v.all q) := by
  cases v with
  | list items => exact Value.allOf_and items
  | node k children n =>
    rw [Value.all, Value.all, Value.all, Value.allOf_and children]
    ac_rfl
  | _ => rfl

theorem Value.allOf_and {p q : Value → Bool} (vs : List Value) :
    Value.allOf (fun w => p w && q w) vs = (Value.allOf p vs && Value.allOf q vs) := by
  cases vs with
  | nil => rfl
  | cons v vs =>
    rw [Value.allOf, Value.allOf, Value.allOf, Value.all_and v, Value.allOf_and vs]
    ac_rfl
end

theorem Conforms.tidy_of_parsed (conforms : Conforms .parsed .program v)
    (plain : v.all isPlainLiteral) (solid : v.all listsNoHollow) :
    Conforms (.tidy true) .program v := by
  have both : v.all fun w => w.isPlainLiteral && w.listsNoHollow := by
    rw [all_and, plain, solid]
    rfl
  refine conforms.weaken ⟨?_, ?_, ?_, ?_⟩ both
  · exact fun holds _ => (Bool.and_eq_true_iff.mp holds).1
  · exact fun silent _ => silent
  · exact fun alone _ => alone
  · intro k es n holds kind arranged _
    have none := (Bool.and_eq_true_iff.mp holds).2
    rcases kind with rfl | rfl
    all_goals
      simp only [listsNoHollow, List.all_eq_true, Bool.not_eq_true'] at none
      exact ⟨arranged, none⟩

/-- What a source is read as prints, comments included, to a text that is read and printed as it
is. -/
theorem reprint_stable {source : Text} {t : Value} (parsed : parse source = .ok t)
    (plain : t.all isPlainLiteral) (solid : t.all listsNoHollow) :
    ∃ printed u, t.print {} = .ok printed ∧ parse printed = .ok u ∧ u.print {} = .ok printed := by
  have conforms := (parse_program parsed).tidy_of_parsed plain solid
  obtain ⟨ls, u, writes, again, like⟩ := conforms.reread 4
  exact ⟨textOf 4 ls, u, writes.print Like.refl, again, writes.print like⟩

/-- Comments before, inside and after statements. -/
theorem reprint_stable_comments :
    let source :=
      text "/* a */ if (x) \x7b // b\n \x7d else f(function () \x7b return 0x1F; /* c */ \x7d); //"
    ∃ t printed u, parse source = .ok t ∧ t.all isPlainLiteral ∧ t.all listsNoHollow ∧
      t.print {} = .ok printed ∧ parse printed = .ok u ∧ u.print {} = .ok printed := by
  intro source
  have suits : (parse source).toOption.any (fun t => t.all isPlainLiteral && t.all listsNoHollow) =
      true := by decide +kernel
  obtain ⟨t, parsed, plain, solid⟩ : ∃ t, parse source = .ok t ∧ t.all isPlainLiteral ∧
      t.all listsNoHollow := by
    cases parsed : parse source with
    | error e => rw [parsed] at suits; cases suits
    | ok t =>
      rw [parsed] at suits
      exact ⟨t, rfl, Bool.and_eq_true_iff.mp suits⟩
  obtain ⟨printed, u, first, second, third⟩ := reprint_stable parsed plain solid
  exact ⟨t, printed, u, parsed, plain, solid, first, second, third⟩

end ScriptTree
