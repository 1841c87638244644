import Mathlib.Order.Nat
import ScriptTree.Proofs.Path.Descent

/-!
Where nodes reach to in their source. The nodes in a list of values lie in turn if each of them ends
before the next one starts, and so do the nodes in the fields of each; only the two names that a
property in short form makes of one word lie in one place.
-/
namespace ScriptTree

/-- From which offset to which a node reaches. -/
def Notes.extent? (n : Notes) : Option (Nat × Nat) :=
  n.span.bind fun s => s.stop.map fun stop => (s.start.offset, stop.offset)

namespace Value

def extent? (v : Value) : Option (Nat × Nat) := v.notes.extent?

def origin? (v : Value) : Option Nat := v.extent?.map Prod.fst

/-- Whether the fields of a kind are those of a property in short form. -/
def inShortForm : Kind → List Value → Bool
  | .property, [_, _, _, .bool true] => true
  | _, _ => false

/-- What a property in short form holds: two nodes that reach from and to the same offsets. -/
def AreTwins (vs : List Value) : Prop :=
  ∃ key value, vs = [key, value, .bool false, .bool true] ∧ key.isNode ∧ value.isNode ∧
    key.extent? = value.extent?

mutual
/-- The nodes in a value lie between two offsets, in turn, and those inside each of them too. -/
def Lies (lo hi : Nat) : Value → Prop
  | .node kind vs n => ∃ x y, n.extent? = some (x, y) ∧ lo ≤ x ∧ y ≤ hi ∧ LieAll x y vs ∧
      if inShortForm kind vs then AreTwins vs else InTurn x y vs
  | .list vs => InTurn lo hi vs
  | _ => lo ≤ hi

/-- The nodes in some values lie between two offsets, those in one value before those in the next.
-/
def InTurn (lo hi : Nat) : List Value → Prop
  | [] => lo ≤ hi
  | v :: vs => ∃ mid, Lies lo mid v ∧ InTurn mid hi vs

def LieAll (lo hi : Nat) : List Value → Prop
  | [] => lo ≤ hi
  | v :: vs => Lies lo hi v ∧ LieAll lo hi vs
end

variable {lo hi mid low high : Nat} {v w : Value} {vs ws items : List Value} {kind : Kind}
  {n : Notes} {fs : List Field} {f : Field} {part : Step × Value}

mutual
theorem Lies.le {lo hi : Nat} (v : Value) (lies : Lies lo hi v) : lo ≤ hi := by
  cases v with
  | node kind vs n =>
    obtain ⟨x, y, _, first, last, all, _⟩ := lies
    exact first.trans ((LieAll.le vs all).trans last)
  | list vs => exact InTurn.le vs lies
  | _ => exact lies

theorem InTurn.le {lo hi : Nat} (vs : List Value) (lie : InTurn lo hi vs) : lo ≤ hi := by
  cases vs with
  | nil => exact lie
  | cons v vs =>
    obtain ⟨mid, first, rest⟩ := lie
    exact (Lies.le v first).trans (InTurn.le vs rest)

theorem LieAll.le {lo hi : Nat} (vs : List Value) (lie : LieAll lo hi vs) : lo ≤ hi := by
  cases vs with
  | nil => exact lie
  | cons v vs => exact Lies.le v lie.1
end

mutual
theorem Lies.wider {lo hi low high : Nat} (v : Value) (lies : Lies lo hi v) (first : low ≤ lo)
    (last : hi ≤ high) : Lies low high v := by
  cases v with
  | node kind vs n =>
    obtain ⟨x, y, extent, start, stop, inside⟩ := lies
    exact ⟨x, y, extent, first.trans start, stop.trans last, inside⟩
  | list vs => exact InTurn.wider vs lies first last
  | _ => exact first.trans (Nat.le_trans lies last)

theorem InTurn.wider {lo hi low high : Nat} (vs : List Value) (lie : InTurn lo hi vs)
    (first : low ≤ lo) (last : hi ≤ high) : InTurn low high vs := by
  cases vs with
  | nil => exact first.trans (Nat.le_trans lie last)
  | cons v vs =>
    obtain ⟨mid, here, rest⟩ := lie
    exact ⟨mid, Lies.wider v here first (Nat.le_refl _), InTurn.wider vs rest (Nat.le_refl _) last⟩
end

theorem inTurn_single : InTurn lo hi [v] ↔ Lies lo hi v := by
  constructor
  · rintro ⟨mid, lies, last⟩
    exact Lies.wider v lies (Nat.le_refl _) last
  · intro lies
    exact ⟨hi, lies, Nat.le_refl hi⟩

theorem inTurn_append :
    InTurn lo hi (vs ++ ws) ↔ ∃ mid, InTurn lo mid vs ∧ InTurn mid hi ws := by
  induction vs generalizing lo with
  | nil =>
    constructor
    · intro lie
      exact ⟨lo, Nat.le_refl lo, lie⟩
    · rintro ⟨mid, first, lie⟩
      exact InTurn.wider ws lie first (Nat.le_refl _)
  | cons v vs ih =>
    simp only [List.cons_append, InTurn, ih]
    constructor
    · rintro ⟨mid, here, next, first, rest⟩
      exact ⟨next, ⟨mid, here, first⟩, rest⟩
    · rintro ⟨next, ⟨mid, here, first⟩, rest⟩
      exact ⟨mid, here, next, first, rest⟩

theorem lies_scalar (scalar : v.isScalar) : Lies lo hi v ↔ lo ≤ hi := by
  cases v with
  | list | node => cases scalar
  | _ => exact Iff.rfl

theorem InTurn.tail (lie : InTurn lo hi (v :: vs)) : InTurn lo hi vs := by
  obtain ⟨mid, here, rest⟩ := lie
  exact InTurn.wider vs rest (Lies.le v here) (Nat.le_refl _)

theorem InTurn.lies_of_mem (lie : InTurn lo hi vs) (mem : v ∈ vs) : Lies lo hi v := by
  induction vs generalizing lo with
  | nil => cases mem
  | cons w vs ih =>
    obtain ⟨mid, here, rest⟩ := lie
    rcases List.mem_cons.mp mem with rfl | mem
    · exact Lies.wider v here (Nat.le_refl _) (InTurn.le vs rest)
    · exact Lies.wider v (ih rest mem) (Lies.le w here) (Nat.le_refl _)

theorem lieAll_iff (le : lo ≤ hi) : LieAll lo hi vs ↔ ∀ v ∈ vs, Lies lo hi v := by
  induction vs with
  | nil => simpa [LieAll] using le
  | cons v vs ih => rw [LieAll, ih, List.forall_mem_cons]

theorem InTurn.lieAll (lie : InTurn lo hi vs) : LieAll lo hi vs :=
  (lieAll_iff (InTurn.le vs lie)).mpr fun _ => lie.lies_of_mem

theorem lies_mapNotes {change : Notes → Notes} (reach : ∀ n, (change n).span = n.span) :
    Lies lo hi (v.mapNotes change) ↔ Lies lo hi v := by
  cases v with
  | node kind vs n => simp only [mapNotes, Lies, Notes.extent?, reach]
  | _ => exact Iff.rfl

theorem extent?_mapNotes {change : Notes → Notes} (reach : ∀ n, (change n).span = n.span) :
    (v.mapNotes change).extent? = v.extent? := by
  cases v with
  | node => simp only [mapNotes, extent?, notes, Notes.extent?, reach]
  | _ => rfl

mutual
/-- The nodes in a value, without those inside them. -/
def heads : Value → List Value
  | .node kind vs n => [.node kind vs n]
  | .list vs => headsOf vs
  | _ => []

def headsOf : List Value → List Value
  | [] => []
  | v :: vs => heads v ++ headsOf vs
end

mutual
/-- Only the nodes in a value count for how it lies. -/
theorem inTurn_heads {lo hi : Nat} (v : Value) : InTurn lo hi v.heads ↔ Lies lo hi v := by
  cases v with
  | node kind vs n => exact inTurn_single
  | list vs => exact inTurn_headsOf vs
  | _ => exact Iff.rfl

theorem inTurn_headsOf {lo hi : Nat} (vs : List Value) :
    InTurn lo hi (headsOf vs) ↔ InTurn lo hi vs := by
  cases vs with
  | nil => exact Iff.rfl
  | cons v vs =>
    rw [headsOf, inTurn_append]
    exact exists_congr fun mid => and_congr (inTurn_heads v) (inTurn_headsOf vs)
end

theorem heads_scalar (scalar : v.isScalar) : v.heads = [] := by
  cases v with
  | list | node => cases scalar
  | _ => rfl

theorem mem_headsOf : w ∈ headsOf vs ↔ ∃ v ∈ vs, w ∈ v.heads := by
  induction vs with
  | nil => simp [headsOf]
  | cons v vs ih => simp [headsOf, ih]

theorem mem_heads_self (node : v.isNode) : v ∈ v.heads := by
  cases v with
  | node => exact List.mem_singleton_self _
  | _ => cases node

/-- The parts of a node are nodes in its fields. -/
theorem mem_heads_of_part (mem : part ∈ (Value.node kind vs n).parts) :
    part.2 ∈ headsOf vs := by
  obtain ⟨node, _, _, _, same, field⟩ := field_of_mem_parts mem
  cases same
  have own := mem_heads_self node
  rcases field with field | ⟨items, field, item⟩
  · exact mem_headsOf.2 ⟨_, field, own⟩
  · exact mem_headsOf.2 ⟨_, field, mem_headsOf.2 ⟨_, item, own⟩⟩

/-- Nodes that lie in turn: one ends before the other one starts. -/
def Before (v w : Value) : Prop :=
  ∃ x y x' y', v.extent? = some (x, y) ∧ w.extent? = some (x', y') ∧ y ≤ x'

theorem Lies.extent (lies : Lies lo hi v) (node : v.isNode) :
    ∃ x y, v.extent? = some (x, y) ∧ lo ≤ x ∧ x ≤ y ∧ y ≤ hi := by
  cases v with
  | node kind vs n =>
    obtain ⟨x, y, extent, first, last, all, _⟩ := lies
    exact ⟨x, y, extent, first, LieAll.le vs all, last⟩
  | _ => cases node

/-- A node lies between its own ends. -/
theorem Lies.own {x y : Nat} (lies : Lies lo hi v) (extent : v.extent? = some (x, y)) :
    Lies x y v := by
  cases v with
  | node =>
    obtain ⟨_, _, found, _, _, inside⟩ := lies
    cases found.symm.trans extent
    exact ⟨x, y, found, Nat.le_refl _, Nat.le_refl _, inside⟩
  | _ => cases extent

theorem InTurn.pairwise (lie : InTurn lo hi vs) (nodes : ∀ v ∈ vs, v.isNode) :
    vs.Pairwise Before := by
  induction vs generalizing lo with
  | nil => exact .nil
  | cons v vs ih =>
    obtain ⟨mid, here, rest⟩ := lie
    obtain ⟨node, nodes⟩ := List.forall_mem_cons.mp nodes
    refine List.pairwise_cons.mpr ⟨fun w mem => ?_, ih rest nodes⟩
    obtain ⟨x, y, extent, _, _, last⟩ := here.extent node
    obtain ⟨x', y', extent', first, _⟩ := (rest.lies_of_mem mem).extent (nodes w mem)
    exact ⟨x, y, x', y', extent, extent', last.trans first⟩

theorem inTurn_itemParts {field : String} {i : Nat} (lie : InTurn lo hi items) :
    InTurn lo hi ((itemParts field i items).map Prod.snd) := by
  induction items generalizing lo i with
  | nil => exact lie
  | cons v vs ih =>
    rw [itemParts]
    split
    · obtain ⟨mid, here, rest⟩ := lie
      exact ⟨mid, here, ih rest⟩
    · exact ih lie.tail

theorem inTurn_fieldParts (lies : Lies lo hi v) :
    InTurn lo hi ((fieldParts f v).map Prod.snd) := by
  have le := Lies.le v lies
  rw [fieldParts.eq_def]
  split
  · exact inTurn_itemParts lies
  · split
    · exact inTurn_single.mpr lies
    · exact le
  · exact le

/-- The parts of values that lie in turn lie in turn. -/
theorem inTurn_fieldsParts (lie : InTurn lo hi vs) :
    InTurn lo hi ((fieldsParts fs vs).map Prod.snd) := by
  induction fs generalizing vs lo with
  | nil => exact InTurn.le vs lie
  | cons f fs ih =>
    cases vs with
    | nil => exact lie
    | cons v vs =>
      obtain ⟨mid, here, rest⟩ := lie
      rw [fieldsParts, List.map_append]
      exact inTurn_append.mpr ⟨mid, inTurn_fieldParts here, ih rest⟩

/-- The parts of values that lie between two offsets lie between them. -/
theorem lies_of_mem_fieldsParts (all : LieAll lo hi vs) (mem : part ∈ fieldsParts fs vs) :
    Lies lo hi part.2 := by
  obtain ⟨i, f, v, _, value, mem⟩ := mem_fieldsParts.mp mem
  have lies := (lieAll_iff (LieAll.le vs all)).mp all v (List.mem_of_getElem? value)
  exact (inTurn_fieldParts lies).lies_of_mem (List.mem_map_of_mem mem)

theorem isNode_of_mem_parts (mem : part ∈ v.parts) : part.2.isNode := (field_of_mem_parts mem).1

/-- The parts of a node lie within the node. -/
theorem Lies.parts (lies : Lies lo hi v) (node : v.isNode) :
    ∃ x y, v.extent? = some (x, y) ∧ lo ≤ x ∧ x ≤ y ∧ y ≤ hi ∧
      ∀ part ∈ v.parts, Lies x y part.2 := by
  cases v with
  | node kind vs n =>
    obtain ⟨x, y, extent, first, last, all, _⟩ := lies
    refine ⟨x, y, extent, first, LieAll.le vs all, last, fun part mem => ?_⟩
    rw [Value.parts] at mem
    split at mem
    · exact lies_of_mem_fieldsParts all mem
    · cases mem
  | _ => cases node

def isShorthand : Value → Bool
  | .node kind vs _ => inShortForm kind vs
  | _ => false

theorem Lies.parts_before (lies : Lies lo hi v) (long : v.isShorthand = false) :
    (v.parts.map Prod.snd).Pairwise Before := by
  have nodes : ∀ w ∈ v.parts.map Prod.snd, w.isNode := by
    intro w mem
    obtain ⟨part, held, rfl⟩ := List.mem_map.mp mem
    exact isNode_of_mem_parts held
  cases v with
  | node kind vs n =>
    obtain ⟨x, y, _, _, _, _, inside⟩ := lies
    rw [isShorthand] at long
    rw [long] at inside
    rw [Value.parts] at nodes ⊢
    split at nodes
    · exact (inTurn_fieldsParts inside).pairwise nodes
    · exact .nil
  | _ => exact .nil

/-- A property in short form has its key and its value as parts, and they reach equally far. -/
theorem Lies.parts_twins (lies : Lies lo hi v) (short : v.isShorthand) :
    ∃ key value, v.parts = [(("key", none), key), (("value", none), value)] ∧
      key.extent? = value.extent? := by
  cases v with
  | node kind vs n =>
    obtain ⟨x, y, _, _, _, _, inside⟩ := lies
    rw [isShorthand] at short
    rw [if_pos short] at inside
    obtain ⟨key, value, rfl, first, second, same⟩ := inside
    have property : kind = .property := by
      unfold inShortForm at short
      split at short
      · rfl
      · cases short
    subst property
    refine ⟨key, value, ?_, same⟩
    cases key <;> cases first
    cases value <;> cases second
    rfl
  | _ => cases short

end Value

namespace Path

open Value

variable {p top : Path} {lo hi : Nat}

theorem Under.lies (lies : Lies lo hi top.value) (valid : top.value.validate true = .ok ())
    (under : Under top p) : Lies lo hi p.value := by
  have down {q : Path} {part : Step × Value} (valid : q.value.validate true = .ok ())
      (lies : Lies lo hi q.value) (mem : part ∈ q.value.parts) : Lies lo hi part.2 := by
    obtain ⟨_, _, _, node⟩ := node_of_validate valid
    obtain ⟨x, y, _, first, _, last, inside⟩ := lies.parts (node ▸ rfl)
    exact Lies.wider _ (inside part mem) first last
  induction under with
  | step mem => exact down valid lies mem
  | more above mem ih => exact down (above.valid valid) ih mem

end Path

end ScriptTree
