import Mathlib.Data.List.Infix
import ScriptTree.Proofs.Path.Descent

/-!
The places of a tree. The steps to the parts of a node differ, so that a place determines its path,
and the walk below a path meets every place once.
-/
namespace ScriptTree

namespace Value

variable {v : Value} {vs items : List Value} {f : Field} {fs : List Field} {part : Step × Value}
  {field : String}

theorem itemParts_nodup {start : Nat} : ((itemParts field start items).map Prod.fst).Nodup := by
  induction items generalizing start with
  | nil => exact List.nodup_nil
  | cons v vs ih =>
    rw [itemParts]
    split
    · refine List.nodup_cons.mpr ⟨fun again => ?_, ih⟩
      obtain ⟨part, mem, step⟩ := List.mem_map.mp again
      obtain ⟨i, _, _, later⟩ := mem_itemParts.mp mem
      have index := (Prod.mk.inj (later.symm.trans step)).2
      simp only [Option.some.injEq] at index
      omega
    · exact ih

theorem fieldParts_nodup : ((fieldParts f v).map Prod.fst).Nodup := by
  rw [fieldParts.eq_def]
  split
  · exact itemParts_nodup
  · split
    · exact List.nodup_singleton _
    · exact List.nodup_nil
  · exact List.nodup_nil

theorem name_of_mem_fieldParts (mem : part ∈ fieldParts f v) : part.1.1 = f.name := by
  obtain ⟨_, ⟨_, _, step⟩ | ⟨_, _, _, _, _, step⟩⟩ := mem_fieldParts.mp mem
  all_goals rw [step]

theorem fieldsParts_nodup (distinct : (fs.map (·.name)).Nodup) :
    ((fieldsParts fs vs).map Prod.fst).Nodup := by
  induction fs generalizing vs with
  | nil => exact List.nodup_nil
  | cons f fs ih =>
    cases vs with
    | nil => exact List.nodup_nil
    | cons v vs =>
      obtain ⟨other, distinct⟩ := List.nodup_cons.mp distinct
      rw [fieldsParts, List.map_append]
      refine fieldParts_nodup.append (ih distinct) fun step here later => other ?_
      obtain ⟨first, memFirst, rfl⟩ := List.mem_map.mp here
      obtain ⟨second, memSecond, same⟩ := List.mem_map.mp later
      obtain ⟨i, g, w, place, _, memSecond⟩ := mem_fieldsParts.mp memSecond
      have name : g.name = f.name := by
        rw [← name_of_mem_fieldParts memSecond, same, name_of_mem_fieldParts memFirst]
      exact List.mem_map.mpr ⟨g, List.mem_of_getElem? place, name⟩

/-- No step leads from a node to two parts. -/
theorem parts_nodup : (v.parts.map Prod.fst).Nodup := by
  rw [parts.eq_def]
  split
  · split
    · rename_i known
      have mem := List.mem_of_find?_eq_some (definitionOf_ok known).1
      exact fieldsParts_nodup (Vocabulary.standard_names _ mem)
    · exact List.nodup_nil
  · exact List.nodup_nil

end Value

namespace Path

open Value

/-- The paths that a path goes on from, the nearest first. -/
def above : Path → List Path
  | root .. => []
  | child parent _ _ _ => parent :: parent.above

@[simp] theorem above_next {p : Path} {part : Step × Value} :
    (p.next part).above = p :: p.above := rfl

variable {p q r top : Path}

theorem length_above_lt (mem : q ∈ p.above) : q.above.length < p.above.length := by
  induction p with
  | root => cases mem
  | child parent v field index ih =>
    rw [above, List.length_cons]
    rcases List.mem_cons.mp mem with rfl | mem
    · exact Nat.lt_succ_self _
    · exact Nat.lt_succ_of_lt (ih mem)

/-- Above a path lies only one path with so many steps. -/
theorem above_unique (first : q = p ∨ q ∈ p.above) (second : r = p ∨ r ∈ p.above)
    (same : q.above.length = r.above.length) : q = r := by
  induction p with
  | root =>
    rw [first.resolve_right nofun, second.resolve_right nofun]
  | child parent v field index ih =>
    rcases first with rfl | first <;> rcases second with rfl | second
    · rfl
    · exact absurd (length_above_lt second) (by omega)
    · exact absurd (length_above_lt first) (by omega)
    · exact ih (List.mem_cons.mp first) (List.mem_cons.mp second)

theorem Under.above (under : Under q p) : q ∈ p.above := by
  induction under with
  | step => exact List.mem_cons_self
  | more _ _ ih => exact List.mem_cons_of_mem _ ih

theorem Under.irrefl : ¬Under p p := fun under => Nat.lt_irrefl _ (length_above_lt under.above)

/-- A path of a tree: its root, or one that leads further down. -/
def Within (top p : Path) : Prop := p = top ∨ Under top p

/-- What lies above a path of a tree is a path of the tree, and leads to it. -/
theorem Under.of_above (first : top.above = []) (under : Under top p) (mem : r ∈ p.above) :
    Within top r ∧ Under r p := by
  induction under with
  | step part =>
    rw [above_next, first, List.mem_singleton] at mem
    subst mem
    exact ⟨.inl rfl, .step part⟩
  | more between part ih =>
    rcases List.mem_cons.mp mem with rfl | mem
    · exact ⟨.inr between, .step part⟩
    · obtain ⟨within, under⟩ := ih mem
      exact ⟨within, under.more part⟩

theorem Within.valid (within : Within top p) (valid : top.value.validate true = .ok ()) :
    p.value.validate true = .ok () := by
  rcases within with rfl | under
  · exact valid
  · exact under.valid valid

theorem samePlace_self : p.samePlace p := by
  induction p with
  | root => simp [samePlace]
  | child parent v field index ih => simp [samePlace, ih]

/-- The last step of a path of a tree leads to a part. -/
theorem Within.parent {v : Value} {field : String} {index : Option Nat} (first : top.above = [])
    (within : Within top (child p v field index)) :
    Within top p ∧ ((field, index), v) ∈ p.value.parts := by
  rcases within with rfl | under
  · cases first
  · generalize last : child p v field index = q at under
    cases under with
    | step part =>
      cases last
      exact ⟨.inl rfl, part⟩
    | more between part =>
      cases last
      exact ⟨.inr between, part⟩

/-- Two paths of a tree that lead to one place are one path. -/
theorem Within.eq_of_samePlace (first : top.above = []) (left : Within top p)
    (right : Within top q) (same : p.samePlace q) : p = q := by
  have isTop : ∀ {tree : Nat} {v : Value}, Within top (root tree v) → root tree v = top := by
    rintro tree v (rfl | under)
    · rfl
    · cases under.above
  induction p generalizing q with
  | root =>
    cases q with
    | root => rw [isTop left, isTop right]
    | child => cases same
  | child parent v field index ih =>
    cases q with
    | root => cases same
    | child parent' v' field' index' =>
      simp only [samePlace, Bool.and_eq_true, beq_iff_eq] at same
      obtain ⟨⟨rfl, rfl⟩, before⟩ := same
      obtain ⟨left, here⟩ := left.parent first
      obtain ⟨right, there⟩ := right.parent first
      cases ih left right before
      cases List.inj_on_of_nodup_map parts_nodup here there rfl
      rfl

theorem Within.samePlace_iff (first : top.above = []) (left : Within top p)
    (right : Within top q) : p.samePlace q ↔ p = q := by
  constructor
  · exact left.eq_of_samePlace first right
  · rintro rfl
    exact samePlace_self

/-- The walk below a path is a stretch of the walk from further up. -/
theorem Under.stretch (under : Under q p) (valid : q.value.validate true = .ok ()) :
    p.descendants.paths <:+: q.descendants.paths := by
  have below : ∀ {q : Path} {part : Step × Value}, q.value.validate true = .ok () →
      part ∈ q.value.parts → (q.next part).descendants.paths <:+: q.descendants.paths := by
    intro q part valid mem
    rw [descendants_paths valid]
    have child : q.next part ∈ q.children := List.mem_map_of_mem mem
    exact (List.suffix_cons ..).isInfix.trans
      (List.infix_flatMap_of_mem child fun c => c :: c.descendants.paths)
  induction under with
  | step mem => exact below valid mem
  | more between mem ih => exact (below (between.valid valid) mem).trans ih

/-- The walk below a path meets no path twice. -/
theorem descendants_nodup (valid : p.value.validate true = .ok ()) :
    p.descendants.paths.Nodup := by
  -- what is left below the path gets less deep with every step
  induction deep : p.value.depth using Nat.strongRecOn generalizing p with
  | _ depth ih =>
    have below : ∀ part ∈ p.value.parts, (p.next part).value.validate true = .ok () ∧
        (p.next part).descendants.paths.Nodup := by
      intro part mem
      obtain ⟨valid, less⟩ := (holds_of_mem valid mem).valid
      exact ⟨valid, ih _ (deep ▸ less) valid rfl⟩
    rw [descendants_paths valid, children, List.flatMap_map, List.nodup_flatMap]
    constructor
    · intro part mem
      obtain ⟨valid, nodup⟩ := below part mem
      refine List.nodup_cons.mpr ⟨fun again => ?_, nodup⟩
      exact Under.irrefl ((mem_descendants_iff valid).mp again)
    · have distinct := List.pairwise_map.mp (parts_nodup (v := p.value))
      refine distinct.imp_of_mem fun {a b} memA memB other x inA inB => other ?_
      -- a path below two parts would have both above it
      have reach : ∀ {part : Step × Value}, part ∈ p.value.parts →
          x ∈ p.next part :: (p.next part).descendants.paths →
          p.next part = x ∨ p.next part ∈ x.above := by
        intro part mem inside
        rcases List.mem_cons.mp inside with rfl | inside
        · exact .inl rfl
        · exact .inr ((mem_descendants_iff (below part mem).1).mp inside).above
      have same := above_unique (reach memA inA) (reach memB inB) rfl
      rw [next, next, child.injEq] at same
      exact Prod.ext same.2.2.1 same.2.2.2

end Path

end ScriptTree
