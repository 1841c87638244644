import Mathlib.Data.List.Flatten
import Mathlib.Data.List.Nodup
import ScriptTree.Path
import ScriptTree.Proofs.Tree.Validity

/-!
What lies below a path. A node has parts, each reached by a step, and the walk below a path meets
its parts one after the other, each followed by what lies below it.
-/
namespace ScriptTree

/-- A step down: a field and, in a list, an index. -/
abbrev Step := String × Option Nat

namespace Value

/-- The nodes in the items of a list field from an index on, with the steps to them. -/
def itemParts (field : String) : Nat → List Value → List (Step × Value)
  | _, [] => []
  | i, v :: vs =>
    if v.isNode then ((field, some i), v) :: itemParts field (i + 1) vs
    else itemParts field (i + 1) vs

def fieldParts (f : Field) (v : Value) : List (Step × Value) :=
  match f.shape, v with
  | .list, .list items => itemParts f.name 0 items
  | .node, v => if v.isNode then [((f.name, none), v)] else []
  | _, _ => []

def fieldsParts : List Field → List Value → List (Step × Value)
  | f :: fs, v :: vs => fieldParts f v ++ fieldsParts fs vs
  | _, _ => []

/-- The nodes right below a node, with the steps to them. -/
def parts : Value → List (Step × Value)
  | .node kind children _ =>
    match definitionOf kind children.length with
    | .ok d => fieldsParts d.fields children
    | .error _ => []
  | _ => []

end Value

namespace Path

open Value

def next (p : Path) (part : Step × Value) : Path := child p part.2 part.1.1 part.1.2

def children (p : Path) : List Path := p.value.parts.map p.next

/-- A walk meets some paths, each followed by what lies below it, and no fault ends it. -/
def Meets (w : Walk) (ps : List Path) : Prop :=
  w.paths = ps.flatMap (fun q => q :: q.descendants.paths) ∧ w.fault = none

theorem Meets.nil : Meets {} [] := ⟨rfl, rfl⟩

theorem Meets.append {v w : Walk} {ps qs : List Path} (first : Meets v ps) (second : Meets w qs) :
    Meets (v.append w) (ps ++ qs) := by
  obtain ⟨paths, fault⟩ := first
  rw [Meets, Walk.append, fault, List.flatMap_append, ← paths, ← second.1]
  exact ⟨rfl, second.2⟩

theorem Meets.meet {q : Path} (below : (inside q q.value).fault = none) :
    Meets (.meet q (inside q q.value)) [q] := by
  rw [Meets, List.flatMap_singleton]
  exact ⟨rfl, below⟩

mutual
theorem inside_meets (p : Path) (v : Value) (valid : v.validate true = .ok ()) :
    Meets (inside p v) (v.parts.map p.next) := by
  cases v with
  | node k children n =>
    obtain ⟨d, known, fit⟩ := validate_node_iff.mp valid
    rw [inside, parts, known]
    exact insideFields_meets p d.fields children fit
  | _ => cases valid
termination_by sizeOf v

theorem insideFields_meets (p : Path) (fs : List Field) (vs : List Value) (fit : Fit fs vs) :
    Meets (insideFields p fs vs) ((fieldsParts fs vs).map p.next) := by
  cases fit with
  | nil => exact .nil
  | @cons f fs v vs first rest =>
    have rest := insideFields_meets p fs vs rest
    rw [fieldsParts, List.map_append]
    obtain ⟨name, shape, optional⟩ := f
    cases shape with
    | list =>
      obtain ⟨items, rfl, valid⟩ := first
      exact .append (insideItems_meets p name 0 items valid) rest
    | node =>
      rcases first.1 with rfl | valid
      · exact .append .nil rest
      · obtain ⟨k, cs, n, rfl⟩ := node_of_validate valid
        exact .append (.meet (inside_meets _ _ valid).2) rest
    | value =>
      cases v with
      | list | node => cases first
      | _ => exact .append .nil rest
termination_by sizeOf vs

theorem insideItems_meets (p : Path) (field : String) (i : Nat) (items : List Value)
    (valid : ∀ item ∈ items, item.IsPart) :
    Meets (insideItems p field i items) ((itemParts field i items).map p.next) := by
  cases items with
  | nil => exact .nil
  | cons v vs =>
    have rest := insideItems_meets p field (i + 1) vs fun item mem =>
      valid item (List.mem_cons_of_mem v mem)
    cases v with
    | node k cs n =>
      have here := (valid _ List.mem_cons_self).resolve_left nofun
      rw [insideItems]
      exact .append (.meet (inside_meets _ _ here).2) rest
    | _ => exact rest
termination_by sizeOf items
end

variable {p q r : Path} {part : Step × Value}

theorem descendants_fault (valid : p.value.validate true = .ok ()) :
    p.descendants.fault = none :=
  (inside_meets p p.value valid).2

/-- The walk below a path is in pre-order: every part is met before what lies below it, and all
that before the next part. -/
theorem descendants_paths (valid : p.value.validate true = .ok ()) :
    p.descendants.paths = p.children.flatMap fun q => q :: q.descendants.paths :=
  (inside_meets p p.value valid).1

end Path

namespace Value

variable {v w : Value} {vs items : List Value} {f : Field} {fs : List Field}
  {part : Step × Value} {field : String}

theorem mem_itemParts {start : Nat} : part ∈ itemParts field start items ↔
    ∃ i, items[i]? = some part.2 ∧ part.2.isNode ∧ part.1 = (field, some (start + i)) := by
  induction items generalizing start with
  | nil => simp [itemParts]
  | cons v vs ih =>
    have shift : (∃ i, (v :: vs)[i]? = some part.2 ∧ part.2.isNode ∧
          part.1 = (field, some (start + i))) ↔
        (v = part.2 ∧ part.2.isNode ∧ part.1 = (field, some start)) ∨
          part ∈ itemParts field (start + 1) vs := by
      rw [ih]
      constructor
      · rintro ⟨i, item, rest⟩
        cases i with
        | zero => exact .inl ⟨Option.some.inj item, rest⟩
        | succ i => exact .inr ⟨i, item, by rwa [Nat.add_assoc, Nat.add_comm 1]⟩
      · rintro (⟨rfl, rest⟩ | ⟨i, item, rest⟩)
        · exact ⟨0, rfl, rest⟩
        · exact ⟨i + 1, item, by rwa [Nat.add_assoc, Nat.add_comm 1] at rest⟩
    rw [shift, itemParts]
    split
    · rw [List.mem_cons, Prod.ext_iff]
      grind
    · grind

theorem mem_fieldParts : part ∈ fieldParts f v ↔ part.2.isNode ∧
    (f.shape = .node ∧ v = part.2 ∧ part.1 = (f.name, none) ∨
      f.shape = .list ∧ ∃ items i, v = .list items ∧ items[i]? = some part.2 ∧
        part.1 = (f.name, some i)) := by
  obtain ⟨name, shape, optional⟩ := f
  cases shape with
  | list =>
    cases v with
    | list items =>
      simp only [fieldParts, mem_itemParts]
      grind
    | _ => simp [fieldParts]
  | node =>
    simp only [fieldParts]
    split
    · simp only [List.mem_singleton, Prod.ext_iff]
      grind
    · grind
  | value => simp [fieldParts]

theorem mem_fieldsParts : part ∈ fieldsParts fs vs ↔
    ∃ (i : Nat) (f : Field) (v : Value), fs[i]? = some f ∧ vs[i]? = some v ∧
      part ∈ fieldParts f v := by
  induction fs generalizing vs with
  | nil => simp [fieldsParts]
  | cons f fs ih =>
    cases vs with
    | nil => simp [fieldsParts]
    | cons v vs =>
      rw [fieldsParts, List.mem_append, ih]
      constructor
      · rintro (mem | ⟨i, rest⟩)
        · exact ⟨0, f, v, rfl, rfl, mem⟩
        · exact ⟨i + 1, rest⟩
      · rintro ⟨i, g, w, field, value, mem⟩
        cases i with
        | zero =>
          cases field
          cases value
          exact .inl mem
        | succ i => exact .inr ⟨i, g, w, field, value, mem⟩

/-- A part of a node is a node that stands in one of the fields, alone or in a list. -/
theorem field_of_mem_parts (mem : part ∈ v.parts) : part.2.isNode ∧
    ∃ kind vs n, v = .node kind vs n ∧
      (part.2 ∈ vs ∨ ∃ items, .list items ∈ vs ∧ part.2 ∈ items) := by
  rw [parts.eq_def] at mem
  split at mem
  · rename_i kind vs n
    split at mem
    · obtain ⟨i, f, field, _, value, mem⟩ := mem_fieldsParts.1 mem
      have here := List.mem_of_getElem? value
      obtain ⟨isNode, ⟨_, rfl, _⟩ | ⟨_, items, j, rfl, index, _⟩⟩ := mem_fieldParts.1 mem
      · exact ⟨isNode, kind, vs, n, rfl, .inl here⟩
      · exact ⟨isNode, kind, vs, n, rfl, .inr ⟨items, here, List.mem_of_getElem? index⟩⟩
    · cases mem
  · cases mem

theorem depth_le_of_mem (mem : v ∈ vs) : v.depth ≤ depthOfList vs := by
  induction vs with
  | nil => cases mem
  | cons w vs ih =>
    rw [depthOfList]
    rcases List.mem_cons.mp mem with rfl | mem
    · exact Nat.le_max_left ..
    · exact Nat.le_trans (ih mem) (Nat.le_max_right ..)

inductive Holds : Value → Step × Value → Prop
  | field {k : Kind} {vs : List Value} {n : Notes} {d : Definition} {f : Field} {i : Nat}
      {part : Value} (known : definitionOf k vs.length = .ok d) (fit : Fit d.fields vs)
      (place : d.fields[i]? = some f) (shape : f.shape = .node) (value : vs[i]? = some part)
      (isNode : part.isNode) : Holds (.node k vs n) ((f.name, none), part)
  | item {k : Kind} {vs items : List Value} {n : Notes} {d : Definition} {f : Field} {i j : Nat}
      {part : Value} (known : definitionOf k vs.length = .ok d) (fit : Fit d.fields vs)
      (place : d.fields[i]? = some f) (shape : f.shape = .list)
      (value : vs[i]? = some (.list items)) (index : items[j]? = some part)
      (isNode : part.isNode) :
      Holds (.node k vs n) ((f.name, some j), part)

theorem holds_of_mem (valid : v.validate true = .ok ()) (mem : part ∈ v.parts) : v.Holds part := by
  obtain ⟨k, vs, n, rfl⟩ := node_of_validate valid
  obtain ⟨d, known, fit⟩ := validate_node_iff.mp valid
  obtain ⟨step, w⟩ := part
  rw [parts, known] at mem
  obtain ⟨i, f, v, place, value, mem⟩ := mem_fieldsParts.1 mem
  obtain ⟨isNode, ⟨shape, rfl, rfl⟩ | ⟨shape, items, j, rfl, index, rfl⟩⟩ := mem_fieldParts.1 mem
  · exact .field known fit place shape value isNode
  · exact .item known fit place shape value index isNode

/-- The parts of a valid node are valid and less deep. -/
theorem Holds.valid (holds : v.Holds part) :
    part.2.validate true = .ok () ∧ part.2.depth < v.depth := by
  cases holds with
  | field _ fit place shape value isNode =>
    have fits := fit.getElem place value
    simp only [Field.Fits, shape] at fits
    refine ⟨fits.1.resolve_left ?_, ?_⟩
    · rintro rfl
      cases isNode
    · exact Nat.lt_succ_of_le (depth_le_of_mem (List.mem_of_getElem? value))
  | item _ fit place shape value index isNode =>
    have fits := fit.getElem place value
    simp only [Field.Fits, shape] at fits
    obtain ⟨items, same, parts⟩ := fits
    cases same
    refine ⟨(parts _ (List.mem_of_getElem? index)).resolve_left ?_, ?_⟩
    · rintro rfl
      cases isNode
    · have inner := depth_le_of_mem (List.mem_of_getElem? index)
      have outer := depth_le_of_mem (List.mem_of_getElem? value)
      simp only [depth] at outer ⊢
      omega

end Value

namespace Path

open Value

/-- A path leads further down than another, by steps to parts. -/
inductive Under (q : Path) : Path → Prop
  | step {part : Step × Value} (mem : part ∈ q.value.parts) : Under q (q.next part)
  | more {p : Path} {part : Step × Value} (above : Under q p) (mem : part ∈ p.value.parts) :
      Under q (p.next part)

@[simp] theorem value_next {p : Path} {part : Step × Value} : (p.next part).value = part.2 := rfl

variable {p q r : Path}

theorem Under.trans (first : Under r q) (second : Under q p) : Under r p := by
  induction second with
  | step mem => exact first.more mem
  | more _ mem ih => exact ih.more mem

theorem Under.valid (under : Under q p) (valid : q.value.validate true = .ok ()) :
    p.value.validate true = .ok () := by
  induction under with
  | step mem => exact (holds_of_mem valid mem).valid.1
  | more _ mem ih => exact (holds_of_mem ih mem).valid.1

theorem mem_descendants (valid : q.value.validate true = .ok ()) :
    p ∈ q.descendants.paths ↔ ∃ part ∈ q.value.parts, p = q.next part ∨
      p ∈ (q.next part).descendants.paths := by
  rw [descendants_paths valid, children, List.flatMap_map, List.mem_flatMap]
  simp only [List.mem_cons]

/-- A way down begins with a step. -/
theorem Under.first (under : Under q p) : ∃ part ∈ q.value.parts, p = q.next part ∨
    Under (q.next part) p := by
  induction under with
  | step mem => exact ⟨_, mem, .inl rfl⟩
  | more _ mem ih =>
    obtain ⟨part, here, rfl | below⟩ := ih
    · exact ⟨part, here, .inr (.step mem)⟩
    · exact ⟨part, here, .inr (below.more mem)⟩

/-- The walk below a path meets exactly the paths that lead further down. -/
theorem mem_descendants_iff (valid : q.value.validate true = .ok ()) :
    p ∈ q.descendants.paths ↔ Under q p := by
  -- what is left below the path gets less deep with every step
  induction deep : q.value.depth using Nat.strongRecOn generalizing q with
  | _ depth ih =>
    have below : ∀ part ∈ q.value.parts,
        (p ∈ (q.next part).descendants.paths ↔ Under (q.next part) p) := by
      intro part here
      obtain ⟨valid, less⟩ := (holds_of_mem valid here).valid
      exact ih _ (deep ▸ less) valid rfl
    rw [mem_descendants valid]
    constructor
    · rintro ⟨part, here, rfl | mem⟩
      · exact .step here
      · exact (Under.step here).trans ((below part here).mp mem)
    · intro under
      obtain ⟨part, here, rfl | further⟩ := under.first
      · exact ⟨part, here, .inl rfl⟩
      · exact ⟨part, here, .inr ((below part here).mpr further)⟩

end Path

end ScriptTree
