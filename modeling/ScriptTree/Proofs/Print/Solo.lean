import ScriptTree.Proofs.Print.Attached
import ScriptTree.Proofs.Print.Totality

/-!
Expressions of a source that are printed by themselves, with comments or without. One prints as the
text that it is written with, unless an integer in it is too long.
-/
namespace ScriptTree

open Print Value

/-- Whether a node is no literal with a floating-point number. -/
def Value.isFloatless : Value → Bool
  | .node .literal [.float _] _ => false
  | _ => true

/-- What is read from a source, as far as it can be printed with comments or without. -/
def Convention.heard : Convention where
  literal := (·.isPlain)
  silent n := n.comments = []
  alone := Convention.noted.alone
  listed := Convention.noted.listed

/-- Whether a role is that of an expression or of the name of a property. -/
def Role.isSpoken : Role → Bool
  | expression | word | key => true
  | _ => false

/-- How an expression or the name of a property is written by itself. -/
def Solo (aloud : Bool) (v : Value) (ls : List Lexeme) : Prop :=
  Writes aloud (.expression { comments := false } sequenceRank) v ls ∨
    Writes aloud (.key { comments := false }) v ls

variable {s : Convention} {r : Role} {v tree : Value} {vs : List Value} {p q : Path} {source : Text}
  {aloud keep : Bool} {ls : List Lexeme} {c : Context}

theorem Convention.Suits.hushed (suits : s.Suits true keep) (aloud : Bool) :
    s.Suits aloud keep := by
  cases aloud with
  | true => exact suits
  | false =>
    refine ⟨suits.literal, fun quiet => ⟨(suits.silent quiet).silent, nofun⟩, fun alone => ?_,
      fun listed => ?_⟩
    · obtain ⟨kept, speaks, _⟩ := suits.alone alone
      exact ⟨kept, ⟨speaks.inside, nofun⟩, nofun⟩
    · obtain ⟨kept, speaks⟩ := suits.listed listed
      exact ⟨kept, fun e mem => ⟨(speaks e mem).inside, nofun⟩⟩

theorem Convention.heard_suits (aloud : Bool) : heard.Suits aloud false := by
  have suits : heard.Suits true false := by
    refine ⟨id, fun {n} silent => ⟨by simp, fun _ => ?_⟩, noted_suits.alone, noted_suits.listed⟩
    have none : n.comments = [] := silent
    simp [none]
  exact suits.hushed aloud

namespace Value

mutual
/-- If a value can be written, every node in it can be. -/
theorem all_isShort (v : Value) (short : v.isShort) : v.all isShort := by
  cases v with
  | list items => exact allOf_isShort items short
  | node k children n =>
    rw [all, short, allOf_isShort children short]
    rfl
  | _ => rfl

theorem allOf_isShort (vs : List Value) (short : areShort vs) : allOf isShort vs := by
  cases vs with
  | nil => rfl
  | cons v vs =>
    rw [areShort, Bool.and_eq_true] at short
    rw [allOf, all_isShort v short.1, allOf_isShort vs short.2]
    rfl
end

theorem isPlain_of_short (literal : Convention.parsed.literal v) (short : v.isShort)
    (floatless : ∀ x, v ≠ .float x) : v.isPlain := by
  rcases literal with rfl | ⟨b, rfl⟩ | ⟨t, rfl⟩ | ⟨n, rfl⟩ | ⟨x, rfl⟩
  · rfl
  · rfl
  · rfl
  · rw [isShort, Numeral.writeInt?, Option.isSome_ite] at short
    simpa [isPlain] using short
  · exact absurd rfl (floatless x)

/-- What holds of all nodes in a value holds of those in a part of it. -/
theorem all_part {P : Value → Bool} {part : Step × Value} (all : v.all P) (mem : part ∈ v.parts) :
    part.2.all P := by
  obtain ⟨_, _, _, _, rfl, field⟩ := field_of_mem_parts mem
  rw [Value.all, Bool.and_eq_true] at all
  rcases field with field | ⟨items, field, item⟩
  · exact allOf_iff.mp all.2 _ field
  · exact allOf_iff.mp (allOf_iff.mp all.2 _ field) _ item

end Value

theorem Path.Under.all {P : Value → Bool} (under : q.Under p) (all : q.value.all P) :
    p.value.all P := by
  induction under with
  | step mem => exact all_part all mem
  | more _ mem ih => exact all_part ih mem

theorem Conforms.spoken_of_kind (conforms : Conforms s r v) (kind : v.isKind .expression) :
    ∃ role : Role, role.isSpoken ∧ Conforms s role v := by
  by_cases named : r = .word ∨ r = .key
  · exact ⟨r, by rcases named with rfl | rfl <;> rfl, conforms⟩
  · exact ⟨.expression, rfl, conforms.expression_of_kind named kind⟩

theorem Conforms.heard_of_parsed (conforms : Conforms .parsed r v)
    (legible : v.all fun w => w.comments.all Comment.legible) (floatless : v.all isFloatless)
    (short : v.isShort) : Conforms .heard r v := by
  have every : v.all fun w => (w.isFloatless && w.isShort) && w.listsLegible := by
    rw [all_and, all_and, floatless, all_isShort v short, all_listsLegible v legible]
    rfl
  refine conforms.weaken (p := fun w => (w.isFloatless && w.isShort) && w.listsLegible)
    ⟨?_, ?_, ?_, ?_⟩ every
  · intro v n holds literal
    simp only [Bool.and_eq_true] at holds
    obtain ⟨⟨floatless, short⟩, _⟩ := holds
    refine isPlain_of_short literal ?_ ?_
    · simpa [isShort, areShort] using short
    · rintro x rfl
      cases floatless
  · exact fun silent => silent
  · exact Value.Alone.noted
  · intro k es n holds _ _ v mem c inside
    have lists := List.all_eq_true.mp (Bool.and_eq_true_iff.mp holds).2 v mem
    exact List.all_eq_true.mp lists c inside

theorem parse_legible_under (parsed : parse source = .ok tree)
    (mem : p ∈ (Path.root 0 tree).descendants.paths) :
    p.value.all fun w => w.comments.all Comment.legible := by
  have valid : (Path.root 0 tree).value.validate true = .ok () :=
    (parse_program parsed).valid Convention.parsed_scalar
  exact ((Path.mem_descendants_iff valid).mp mem).all (parse_legible parsed)

theorem Conforms.solo (conforms : Conforms .heard r v) (spoken : r.isSpoken) (aloud : Bool) :
    ∃ ls, Solo aloud v ls := by
  have written := conforms.written (Convention.heard_suits aloud)
  cases r with
  | expression =>
    obtain ⟨ls, writes⟩ := Expressible.written written sequenceRank { comments := false } rfl
    exact ⟨ls, .inl writes⟩
  | word =>
    obtain ⟨ls, writes⟩ := written { comments := false } rfl
    exact ⟨ls, .inr (.keyWord writes)⟩
  | key =>
    obtain ⟨ls, writes⟩ := written { comments := false } rfl
    exact ⟨ls, .inr writes⟩
  | _ => cases spoken

/-- An expression or the name of a property is printed by the rule for expressions. -/
theorem Conforms.node_spoken (conforms : Conforms s r v) (spoken : r.isSpoken) (n : Nat) :
    Print.node (rules n) c v = Print.expression (rules n) c sequenceRank v := by
  have others : v.isNode = true ∧ v.isKind .program = false ∧ v.isKind .statement = false ∧
      v.isKind .property = false ∧ v.isKind .variableDeclarator = false ∧
      v.isKind .catchClause = false := by
    cases conforms with
    | name inner | keyWord inner =>
      cases inner
      exact ⟨rfl, rfl, rfl, rfl, rfl, rfl⟩
    | operation =>
      unfold Grammar.operationKind
      split <;> exact ⟨rfl, rfl, rfl, rfl, rfl, rfl⟩
    | _ => first | cases spoken; done | exact ⟨rfl, rfl, rfl, rfl, rfl, rfl⟩
  obtain ⟨isNode, program, statement, property, declarator, clause⟩ := others
  simp only [Print.node, isNode, program, statement, property, declarator, clause, Bool.not_true,
    Bool.false_eq_true, if_false]

/-- An expression by itself prints exactly if every integer in it can be written. -/
theorem Conforms.print_spoken (conforms : Conforms .parsed r v) (spoken : r.isSpoken)
    (options : PrintOptions) : Answers v.isShort (fun _ => True) (v.print options) := by
  have expresses : Expresses (rules (v.depth + 1)) v := by
    have printable := conforms.printable Convention.parsed_scalar
    cases r with
    | expression | word | key => exact printable _ (Nat.le_succ _)
    | _ => cases spoken
  have printed := expresses { comments := options.comments } sequenceRank
  simp only [Value.print, Value.layout, Value.phrase, conforms.node_spoken spoken, bind_assoc]
  refine (printed.strict (q := True) fun l => ?_).congr (by rw [and_true])
  exact .ok trivial

theorem Answers.sharpen {α : Type} {fine : Prop} {good kind : α → Prop} {x : Except Error α}
    (answers : Answers fine good x) (sharp : fine → ∃ a, x = .ok a ∧ kind a) :
    Answers fine kind x := by
  rcases answers with ⟨holds, _⟩ | fails
  · exact .inl ⟨holds, sharp holds⟩
  · exact .inr fails

namespace Solo

theorem spaced (solo : Solo aloud v ls) : Spaced ls := by
  have fits : ∃ f : Form, f.isProper ∧ Writes aloud f v ls := by
    rcases solo with writes | writes
    · exact ⟨_, rfl, writes⟩
    · exact ⟨_, rfl, writes⟩
  obtain ⟨f, proper, writes⟩ := fits
  have spaced := writes.fits proper [] trivial rfl
  rwa [List.append_nil] at spaced

/-- What is written by itself prints so with rules that reach it. -/
theorem expression (solo : Solo aloud v ls) {n : Nat} (deep : v.depth ≤ n + 1) :
    Print.expression (rules n) { comments := aloud } sequenceRank v =
      .ok (.source (ScriptTree.layout ls)) := by
  have loud : Context.aloud aloud { comments := false } = { comments := aloud } := by
    simp [Context.aloud]
  rcases solo with writes | writes
  · have done := writes.printed v n Like.refl deep
    simpa only [Form.Prints, Form.aloud, loud] using done
  · have done := writes.printed v n Like.refl deep sequenceRank (by decide)
    simpa only [Form.aloud, loud] using done

theorem print (solo : Solo aloud v ls) (conforms : Conforms s r v) (spoken : r.isSpoken)
    (width : Int) :
    v.print { tabWidth := width, comments := aloud } = .ok (textOf width ls) := by
  simp only [Value.print, Value.layout, Value.phrase, conforms.node_spoken spoken,
    solo.expression (Nat.le_succ _), ok_bind, Phrase.strict, pure_ok]
  rfl

end Solo

end ScriptTree
