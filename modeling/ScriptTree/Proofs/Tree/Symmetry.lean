import Mathlib.Logic.Relation
import ScriptTree.Proofs.Path.Descent
import ScriptTree.Proofs.Tree.Essence

/-!
Equivalence of any two values, whether their trees are well-formed or not. It treats both alike: it
answers the same either way round, or it fails both ways because something is malformed. Where it
answers yes it has seen both trees whole, and nothing in them is malformed.
-/
namespace ScriptTree

theorem Dyadic.same_comm {x y : Dyadic} : x.same y = y.same x := by
  rw [Dyadic.same, Dyadic.same, min_comm, Bool.beq_comm]

theorem Binary64.same_comm {x y : Binary64} : x.same y = y.same x := by
  cases x <;> cases y
  case infinite.infinite => exact Bool.beq_comm
  case finite.finite => exact Dyadic.same_comm
  all_goals rfl

/-- What a field of a node whose tree has been seen whole may hold: a list of nodes and holes, a
node, which may be left out if it is optional, or anything in a field for plain values. -/
def Field.Frames (f : Field) (v : Value) : Prop :=
  match f.shape with
  | .list => ∃ items, v = .list items ∧ ∀ item ∈ items, item = .null ∨ item.isNode
  | .node => v.isNode ∨ f.optional ∧ v = .null
  | .value => True

namespace Value

variable {a b v w x y : Value} {f : Field} {fs : List Field} {xs ys : List Value} {kind : Kind}
  {part : Step × Value}

theorem sameNumber_comm : sameNumber a b = sameNumber b a := by
  cases a <;> cases b
  case int.int => exact Bool.beq_comm
  case float.float => exact Binary64.same_comm
  all_goals rfl

mutual
theorem same_comm (a b : Value) : a.same b = b.same a := by
  cases a <;> cases b
  case null.null => rfl
  case text.text => exact Bool.beq_comm
  case list.list xs ys => exact sameItems_comm xs ys
  case node.node k xs _ l ys _ =>
    exact congrArg₂ (· && ·) Bool.beq_comm (sameItems_comm xs ys)
  all_goals
    simp only [same]
    exact sameNumber_comm

theorem sameItems_comm (xs ys : List Value) : sameItems xs ys = sameItems ys xs := by
  cases xs with
  | nil => cases ys <;> rfl
  | cons x xs => cases ys with
    | nil => rfl
    | cons y ys => exact congrArg₂ (· && ·) (same_comm x y) (sameItems_comm xs ys)
end

theorem sameScalar_comm : sameScalar a b = sameScalar b a := by
  cases a <;> cases b
  case bool.bool => exact Bool.beq_comm
  all_goals first | rfl | exact same_comm _ _

/-- Two comparisons come out alike: with one answer, or both because something is malformed. -/
inductive SameOutcome : Except Error Bool → Except Error Bool → Prop
  | answer (b : Bool) : SameOutcome (.ok b) (.ok b)
  | malformed {how how' : Malformation} {kind kind' : Option String} :
      SameOutcome (.error (.malformed how kind)) (.error (.malformed how' kind'))

/-- Where the second of two comparisons is made only if the first agrees. -/
theorem SameOutcome.both {x x' y y' : Except Error Bool} (first : SameOutcome x y)
    (second : SameOutcome x' y') : SameOutcome (do if ← x then x' else return false)
      (do if ← y then y' else return false) := by
  cases first with
  | malformed => exact .malformed
  | answer b => cases b with
    | true => exact second
    | false => exact .answer false

theorem SameOutcome.true_of_true {x y : Except Error Bool} (alike : SameOutcome x y)
    (yes : x = .ok true) : y = .ok true := by
  cases alike with
  | answer => exact yes
  | malformed => cases yes

theorem definitionOf_cases (kind : Kind) (count : Nat) :
    (∃ d, definitionOf kind count = .ok d) ∨
      ∃ how kind', definitionOf kind count = .error (.malformed how kind') := by
  unfold definitionOf malformedAt
  split
  · exact .inr ⟨_, _, rfl⟩
  · split
    · exact .inr ⟨_, _, rfl⟩
    · split
      · exact .inr ⟨_, _, rfl⟩
      · exact .inl ⟨_, rfl⟩

/-- What a field holds comes out alike either way round if its nodes do. -/
theorem equivalentField_comm (part : SameOutcome (equivalent x y) (equivalent y x))
    (items : ∀ as bs, x = .list as → SameOutcome (equivalentItems as bs) (equivalentItems bs as)) :
    SameOutcome (equivalentField kind f x y) (equivalentField kind f y x) := by
  unfold equivalentField
  cases f.shape with
  | list =>
    cases x with
    | list as => cases y with
      | list bs =>
        simp only [ne_comm (a := as.length)]
        split
        · exact .answer false
        · exact items as bs rfl
      | _ => exact .malformed
    | _ => cases y <;> exact .malformed
  | node =>
    simp only [Bool.or_comm x.isNull]
    split
    · exact .malformed
    · exact part
  | value =>
    simp only [sameScalar_comm (a := x)]
    exact .answer _

mutual
/-- Equivalence comes out alike either way round. -/
theorem equivalent_comm (a b : Value) : SameOutcome (a.equivalent b) (b.equivalent a) := by
  cases a with
  | null => cases b <;> exact .answer _
  | node k xs n => cases b with
    | null => exact .answer false
    | node l ys m =>
      rw [equivalent, equivalent]
      by_cases same : k = l
      · subst same
        rw [if_neg (not_not.mpr rfl), if_neg (not_not.mpr rfl)]
        obtain ⟨d, left⟩ | ⟨_, _, left⟩ := definitionOf_cases k xs.length <;>
          obtain ⟨e, right⟩ | ⟨_, _, right⟩ := definitionOf_cases k ys.length <;>
          simp only [left, right, ok_bind]
        · cases definitionOf_unique left right
          exact equivalentFields_comm k d.fields xs ys
        all_goals exact .malformed
      · rw [if_pos same, if_pos (Ne.symm same)]
        exact .answer false
    | _ => exact .malformed
  | _ => cases b with
    | null => exact .answer false
    | _ => exact .malformed

theorem equivalentFields_comm (kind : Kind) (fs : List Field) (xs ys : List Value) :
    SameOutcome (equivalentFields kind fs xs ys) (equivalentFields kind fs ys xs) := by
  cases fs with
  | nil => cases xs <;> cases ys <;> exact .answer true
  | cons f fs => cases xs with
    | nil => cases ys <;> exact .answer true
    | cons x xs => cases ys with
      | nil => exact .answer true
      | cons y ys =>
        rw [equivalentFields_cons, equivalentFields_cons]
        refine .both ?_ (equivalentFields_comm kind fs xs ys)
        have part := equivalent_comm x y
        cases x with
        | list as =>
          exact equivalentField_comm part fun _ bs held =>
            Value.list.inj held ▸ equivalentItems_comm as bs
        | _ => exact equivalentField_comm part nofun

theorem equivalentItems_comm (xs ys : List Value) :
    SameOutcome (equivalentItems xs ys) (equivalentItems ys xs) := by
  cases xs with
  | nil => cases ys <;> exact .answer true
  | cons x xs => cases ys with
    | nil => exact .answer true
    | cons y ys =>
      rw [equivalentItems_cons, equivalentItems_cons]
      exact (equivalent_comm x y).both (equivalentItems_comm xs ys)
end

/-- A node of a known kind that is not abstract, with one value for every field, which is one that
the field may hold. -/
inductive Framed : Value → Prop
  | intro {kind : Kind} {vs : List Value} {n : Notes} {d : Definition}
      (known : Vocabulary.standard.find? kind = some d) (concrete : d.isAbstract = false)
      (count : vs.length = d.fields.length) (fields : List.Forall₂ Field.Frames d.fields vs) :
      Framed (.node kind vs n)

/-- A value is reached from another by steps to parts. -/
def Reaches : Value → Value → Prop :=
  Relation.ReflTransGen fun v w => ∃ step, (step, w) ∈ v.parts

/-- Every node that is reached is of a known kind and has the fields of its kind. -/
def Whole (v : Value) : Prop := ∀ w, v.Reaches w → w.Framed

theorem Framed.isNode (framed : v.Framed) : v.isNode := by
  cases framed
  rfl

theorem Whole.isNode (whole : v.Whole) : v.isNode := (whole v .refl).isNode

theorem whole_of_parts (framed : v.Framed) (parts : ∀ part ∈ v.parts, part.2.Whole) : v.Whole := by
  intro w reaches
  obtain rfl | ⟨u, ⟨step, mem⟩, rest⟩ := reaches.cases_head
  · exact framed
  · exact parts _ mem w rest

theorem definitionOf_concrete {count : Nat} {d : Definition}
    (known : definitionOf kind count = .ok d) : d.isAbstract = false := by
  unfold definitionOf at known
  split at known
  · cases known
  · split at known
    · cases known
    · rename_i concrete
      split at known
      · cases known
      · cases known
        exact Bool.eq_false_of_not_eq_true concrete

/-- Where the second of two comparisons is made only if the first agrees, a yes is one of both. -/
theorem both_true {x y : Except Error Bool}
    (same : (do if ← x then y else return false) = .ok true) : x = .ok true ∧ y = .ok true := by
  cases x with
  | error => cases same
  | ok b => cases b with
    | false => cases same
    | true => exact ⟨rfl, same⟩

/-- Where what a field holds is found equivalent, the field may hold it, and if its nodes have been
seen whole, so have its parts. -/
theorem equivalentField_whole (same : equivalentField kind f x y = .ok true)
    (part : equivalent x y = .ok true → x = .null ∨ x.Whole)
    (items : ∀ as bs, x = .list as → equivalentItems as bs = .ok true → as.length = bs.length →
      ∀ item ∈ as, item = .null ∨ item.Whole) :
    f.Frames x ∧ ∀ part ∈ fieldParts f x, part.2.Whole := by
  have some {v : Value} (whole : v = .null ∨ v.Whole) (node : v.isNode) : v.Whole := by
    refine whole.resolve_left ?_
    rintro rfl
    cases node
  unfold equivalentField at same
  rw [Field.Frames]
  cases shape : f.shape with
  | list =>
    simp only [shape] at same ⊢
    cases x with
    | list as => cases y with
      | list bs =>
        simp only at same
        split at same
        · cases same
        · rename_i lengths
          have whole := items as bs rfl same (not_not.mp lengths)
          refine ⟨⟨as, rfl, fun item mem => (whole item mem).imp_right Whole.isNode⟩, ?_⟩
          intro part mem
          obtain ⟨isNode, ⟨single, _⟩ | ⟨_, items, i, held, item, _⟩⟩ := mem_fieldParts.mp mem
          · cases shape.symm.trans single
          · cases held
            exact some (whole _ (List.mem_of_getElem? item)) isNode
      | _ => cases same
    | _ => cases y <;> cases same
  | node =>
    simp only [shape] at same ⊢
    split at same
    · cases same
    · rename_i present
      have whole := part same
      refine ⟨?_, fun part mem => ?_⟩
      · rcases whole with rfl | whole
        · refine .inr ⟨?_, rfl⟩
          simpa [isNull] using present
        · exact .inl whole.isNode
      · obtain ⟨isNode, ⟨_, rfl, _⟩ | ⟨several, _⟩⟩ := mem_fieldParts.mp mem
        · exact some whole isNode
        · cases shape.symm.trans several
  | value =>
    refine ⟨trivial, fun part mem => ?_⟩
    obtain ⟨_, ⟨single, _⟩ | ⟨several, _⟩⟩ := mem_fieldParts.mp mem
    · cases shape.symm.trans single
    · cases shape.symm.trans several

mutual
/-- Where a value is found equivalent to another, it is null or its tree has been seen whole. -/
theorem equivalent_whole (a b : Value) (same : a.equivalent b = .ok true) :
    a = .null ∨ a.Whole := by
  cases a with
  | null => exact .inl rfl
  | node k xs n =>
    right
    cases b with
    | node l ys m =>
      rw [equivalent] at same
      split at same
      · cases same
      · rename_i kinds
        cases not_not.mp kinds
        obtain ⟨d, left⟩ | ⟨_, _, left⟩ := definitionOf_cases k xs.length <;>
          obtain ⟨e, right⟩ | ⟨_, _, right⟩ := definitionOf_cases k ys.length <;>
          simp only [left, right, ok_bind] at same
        · cases definitionOf_unique left right
          obtain ⟨known, count⟩ := definitionOf_ok left
          obtain ⟨fields, parts⟩ := equivalentFields_whole k d.fields xs ys same count
            (definitionOf_ok right).2
          refine whole_of_parts (.intro known (definitionOf_concrete left) count fields) ?_
          rw [Value.parts, left]
          exact parts
        all_goals cases same
    | _ => cases same
  | _ => cases b <;> cases same

theorem equivalentFields_whole (kind : Kind) (fs : List Field) (xs ys : List Value)
    (same : equivalentFields kind fs xs ys = .ok true) (count : xs.length = fs.length)
    (other : ys.length = fs.length) :
    List.Forall₂ Field.Frames fs xs ∧ ∀ part ∈ fieldsParts fs xs, part.2.Whole := by
  cases fs with
  | nil =>
    cases List.length_eq_zero_iff.mp count
    exact ⟨.nil, nofun⟩
  | cons f fs => cases xs with
    | nil => cases count
    | cons x xs => cases ys with
      | nil => cases other
      | cons y ys =>
        rw [equivalentFields_cons] at same
        obtain ⟨here, rest⟩ := both_true same
        have seen : f.Frames x ∧ ∀ part ∈ fieldParts f x, part.2.Whole := by
          have part := equivalent_whole x y
          cases x with
          | list as =>
            exact equivalentField_whole here part fun _ bs held =>
              Value.list.inj held ▸ equivalentItems_whole as bs
          | _ => exact equivalentField_whole here part nofun
        obtain ⟨frames, first⟩ := seen
        obtain ⟨fields, later⟩ := equivalentFields_whole kind fs xs ys rest
          (Nat.succ.inj count) (Nat.succ.inj other)
        rw [fieldsParts]
        exact ⟨.cons frames fields, List.forall_mem_append.mpr ⟨first, later⟩⟩

theorem equivalentItems_whole (xs ys : List Value) (same : equivalentItems xs ys = .ok true)
    (count : xs.length = ys.length) : ∀ x ∈ xs, x = .null ∨ x.Whole := by
  cases xs with
  | nil => nofun
  | cons x xs => cases ys with
    | nil => cases count
    | cons y ys =>
      rw [equivalentItems_cons] at same
      obtain ⟨here, rest⟩ := both_true same
      exact List.forall_mem_cons.mpr
        ⟨equivalent_whole x y here, equivalentItems_whole xs ys rest (Nat.succ.inj count)⟩
end

/-- Any two values, well-formed or not, come out alike either way round: with one answer, or both
times with a failure because something is malformed. If the answer is yes, both are null, or every
node that is reached in either tree is of a known kind that is not abstract and has the fields of
its kind, with a list in every list field and a node in every field that requires one. -/
theorem equivalent_even (a b : Value) :
    SameOutcome (a.equivalent b) (b.equivalent a) ∧
      (a.equivalent b = .ok true →
        a = .null ∧ b = .null ∨
          (∀ w, a.Reaches w → w.Framed) ∧ ∀ w, b.Reaches w → w.Framed) := by
  refine ⟨equivalent_comm a b, fun same => ?_⟩
  have swapped : b.equivalent a = .ok true := (equivalent_comm a b).true_of_true same
  rcases equivalent_whole a b same with rfl | left <;>
    rcases equivalent_whole b _ swapped with rfl | right
  · exact .inl ⟨rfl, rfl⟩
  · obtain ⟨⟩ := right _ .refl
    cases same
  · obtain ⟨⟩ := left _ .refl
    cases same
  · exact .inr ⟨left, right⟩

/-- A call without a list of arguments cannot be compared, whichever side it is on; a statement is
found equivalent to itself, and the name in it has the fields of its kind. -/
theorem equivalent_even_call :
    let name := Value.node .identifier [.text (ScriptTree.text "f")] {}
    let call := Value.node .callExpression [name, .null] {}
    let statement := Value.node .expressionStatement [name] {}
    SameOutcome (call.equivalent (.node .callExpression [name, .list []] {}))
        ((Value.node .callExpression [name, .list []] {}).equivalent call) ∧
      call.equivalent call = .error (.malformed (.notList "arguments") (some "CallExpression")) ∧
      statement.equivalent statement = .ok true ∧ name.Framed := by
  intro name call statement
  have same : statement.equivalent statement = .ok true := rfl
  have reaches : statement.Reaches name := .single ⟨("expression", none), .head _⟩
  refine ⟨(equivalent_even call _).1, rfl, same, ?_⟩
  exact (((equivalent_even statement statement).2 same).resolve_left nofun).1 name reaches

end Value

end ScriptTree
