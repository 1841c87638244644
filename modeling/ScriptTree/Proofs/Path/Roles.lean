import ScriptTree.Proofs.Path.Descent
import ScriptTree.Scope

/-!
The roles of the nodes below a program. In a program that follows the grammar every node stands in a
place for its role, so that an expression or a statement anywhere in it is one by itself.
-/
namespace ScriptTree

open Vocabulary Value Grammar

namespace Value

variable {v : Value} {vs items : List Value} {fs : List Field} {name : String}
  {part : Step × Value}

theorem mem_parts_node : part ∈ fieldsParts (nodeField name :: fs) (v :: vs) ↔
    v.isNode ∧ part = ((name, none), v) ∨ part ∈ fieldsParts fs vs := by
  rw [fieldsParts, List.mem_append]
  change part ∈ (if v.isNode then [((name, none), v)] else []) ∨ _ ↔ _
  split <;> simp_all

theorem mem_parts_optional : part ∈ fieldsParts (optionalField name :: fs) (v :: vs) ↔
    v.isNode ∧ part = ((name, none), v) ∨ part ∈ fieldsParts fs vs :=
  mem_parts_node

theorem mem_parts_list : part ∈ fieldsParts (listField name :: fs) (.list items :: vs) ↔
    part.2 ∈ items ∧ part.2.isNode ∧ (∃ i, items[i]? = some part.2 ∧ part.1 = (name, some i)) ∨
      part ∈ fieldsParts fs vs := by
  rw [fieldsParts, List.mem_append]
  change part ∈ itemParts name 0 items ∨ _ ↔ _
  simp only [mem_itemParts, Nat.zero_add]
  grind -linarith [List.mem_of_getElem?]

theorem parts_value : fieldsParts (valueField name :: fs) (v :: vs) = fieldsParts fs vs := rfl

theorem parts_nil : fieldsParts [] vs = [] := rfl

theorem ne_null_of_isNode (isNode : v.isNode) : v ≠ .null := by
  rintro rfl
  cases isNode

end Value

variable {s : Convention} {r : Role} {v : Value} {p q : Path} {part : Step × Value}

/-- A path leads to a node in a place for its role; names of properties have a role of their own. -/
def Sits (s : Convention) (p : Path) : Prop :=
  ∃ role, Conforms s role p.value ∧ (role = .word ∨ role = .key → p.isPropertyName = .ok true)

theorem Conforms.sits {step : Step} (conforms : Conforms s r v) (other : ¬(r = .word ∨ r = .key)) :
    Sits s (p.next (step, v)) :=
  ⟨r, conforms, fun named => absurd named other⟩

theorem Conforms.step (conforms : Conforms s r v) (stands : p.value = v) (mem : part ∈ v.parts) :
    Sits s (p.next part) := by
  obtain ⟨step, w⟩ := part
  induction conforms with
  | name _ ih | keyWord _ ih | loopDeclaration _ _ ih | loopExpression _ ih | loopPlace _ _ ih
  | blockStatement _ ih | declarationStatement _ ih => exact ih stands mem
  | memberNamed object name =>
    change _ ∈ fieldsParts _ _ at mem
    simp only [kindOf, mem_parts_node, parts_value, parts_nil, List.not_mem_nil, or_false,
      Prod.mk.injEq] at mem
    rcases mem with ⟨_, _, rfl⟩ | ⟨_, rfl, rfl⟩
    · exact object.sits (by decide)
    · refine ⟨.word, name, fun _ => ?_⟩
      rw [Path.next, Path.isPropertyName, stands]
      rfl
  | keyed key value =>
    change _ ∈ fieldsParts _ _ at mem
    simp only [kindOf, mem_parts_node, parts_value, parts_nil, List.not_mem_nil, or_false,
      Prod.mk.injEq] at mem
    rcases mem with ⟨_, rfl, rfl⟩ | ⟨_, _, rfl⟩
    · refine ⟨.key, key, fun _ => ?_⟩
      rw [Path.next, Path.isPropertyName, stands]
      rfl
    · exact value.sits (by decide)
  | shorthand name key value =>
    change _ ∈ fieldsParts _ _ at mem
    simp only [kindOf, mem_parts_node, parts_value, parts_nil, List.not_mem_nil, or_false,
      Prod.mk.injEq] at mem
    rcases mem with ⟨_, _, rfl⟩ | ⟨_, _, rfl⟩
    · exact Conforms.sits (.binding name key) (by decide)
    · exact Conforms.sits (.binding name value) (by decide)
  | loopVariable _ name inner =>
    change _ ∈ fieldsParts _ _ at mem
    simp only [kindOf, mem_parts_list, parts_value, parts_nil, List.not_mem_nil, or_false,
      List.mem_singleton] at mem
    obtain ⟨rfl, _⟩ := mem
    exact Conforms.sits (.declarator name (absurd rfl ·) inner) (by decide)
  | @operation _ _ first second _ _ left right =>
    have operand : w = first ∨ w = second := by
      unfold operationKind at mem
      split at mem
      all_goals
        change _ ∈ fieldsParts _ _ at mem
        simp only [kindOf, mem_parts_node, parts_value, parts_nil, List.not_mem_nil, or_false,
          Prod.mk.injEq] at mem
        exact mem.imp (·.2.2) (·.2.2)
    rcases operand with rfl | rfl
    · exact left.sits (by decide)
    · exact right.sits (by decide)
  | _ =>
    change _ ∈ fieldsParts _ _ at mem
    simp only [kindOf, mem_parts_node, mem_parts_optional, mem_parts_list, parts_value, parts_nil,
      List.not_mem_nil, or_false, Prod.mk.injEq] at mem <;>
    grind -linarith [Conforms.sits, ne_null_of_isNode]

/-- Every node below one that follows the grammar stands in a place for its role. -/
theorem Conforms.under (conforms : Conforms s r q.value) (under : q.Under p) : Sits s p := by
  induction under with
  | step mem => exact conforms.step rfl mem
  | more _ mem ih =>
    obtain ⟨role, inner, _⟩ := ih
    exact inner.step rfl mem

theorem Conforms.expression_of_kind (conforms : Conforms s r v) (other : ¬(r = .word ∨ r = .key))
    (kind : v.isKind .expression) : Conforms s .expression v := by
  cases r with
  | expression => exact conforms
  | binding => exact .name conforms
  | word | key => simp at other
  | loopInit =>
    cases conforms with
    | loopExpression inner => exact inner
    | loopDeclaration inner =>
      cases inner
      cases kind
  | loopTarget =>
    cases conforms with
    | loopPlace _ inner => exact inner
    | loopVariable => cases kind
  | statement =>
    cases conforms with
    | blockStatement inner | declarationStatement inner =>
      cases inner
      cases kind
    | _ => cases kind
  | _ =>
    cases conforms
    all_goals cases kind

theorem Conforms.not_statement (conforms : Conforms s .expression v) :
    v.isKind .statement = false := by
  cases conforms with
  | name inner =>
    cases inner
    rfl
  | operation =>
    unfold operationKind
    split <;> rfl
  | _ => rfl

theorem Conforms.statement_of_kind (conforms : Conforms s r v) (kind : v.isKind .statement) :
    Conforms s .statement v := by
  cases r with
  | statement => exact conforms
  | block => exact .blockStatement conforms
  | declaration => exact .declarationStatement conforms
  | expression => rw [conforms.not_statement] at kind; cases kind
  | loopInit =>
    cases conforms with
    | loopExpression inner => rw [inner.not_statement] at kind; cases kind
    | loopDeclaration inner => exact .declarationStatement inner
  | loopTarget =>
    cases conforms with
    | loopPlace _ inner => rw [inner.not_statement] at kind; cases kind
    | loopVariable word name inner =>
      refine .declarationStatement (.declaration word (by simp) fun e mem => ?_)
      cases List.mem_singleton.mp mem
      exact .declarator name nofun inner
  | key =>
    cases conforms with
    | keyWord inner =>
      cases inner
      cases kind
    | keyLiteral => cases kind
  | _ =>
    cases conforms
    all_goals cases kind

end ScriptTree
