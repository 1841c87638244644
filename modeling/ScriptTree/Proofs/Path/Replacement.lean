import ScriptTree.Proofs.Path.Descent
import ScriptTree.Proofs.Tree.Essence
import ScriptTree.Session

/-!
Putting another value in the place of a part, and that equivalence of valid trees is a congruence:
an equivalence relation that is kept when parts are exchanged for equivalent ones.
-/
namespace ScriptTree

namespace Value

/-- A node with another value in the place that a step leads to. -/
def put (v : Value) (step : Step) (new : Value) : Except Error Value := do
  let i ← v.fieldIndex step.1
  match step.2 with
  | none => return setChild i new v
  | some j => return setChild i (.list ((← v.listAt i .wrongType).set j new)) v

variable {v new : Value} {vs : List Value} {part : Step × Value}

theorem essenceOf_set {i : Nat} {old : Value} (value : vs[i]? = some old)
    (same : new.essence = old.essence) : essenceOf (vs.set i new) = essenceOf vs := by
  induction vs generalizing i with
  | nil => rfl
  | cons w vs ih =>
    cases i with
    | zero =>
      cases value
      rw [List.set_cons_zero, essenceOf, same, essenceOf]
    | succ i => rw [List.set_cons_succ, essenceOf, ih value, essenceOf]

theorem fieldIndex_node {k : Kind} {n : Notes} {d : Definition} {f : Field} {i : Nat}
    (known : definitionOf k vs.length = .ok d) (place : d.fields[i]? = some f) :
    (Value.node k vs n).fieldIndex f.name = .ok i := by
  obtain ⟨found, length⟩ := definitionOf_ok known
  have index := Definition.index_of_field
    (Vocabulary.standard_names d (List.mem_of_find?_eq_some found)) place
  have bound : i < vs.length := length ▸ (List.getElem?_eq_some_iff.mp place).1
  simp only [fieldIndex, kind?, found, index, children, ok_bind]
  exact if_pos bound

/-- A part may be exchanged for a valid node of the same essence. -/
theorem Holds.put (holds : v.Holds part) (valid : new.validate true = .ok ())
    (same : new.essence = part.2.essence) : ∃ w, v.put part.1 new = .ok w ∧
      w.validate true = .ok () ∧ w.essence = v.essence := by
  cases holds with
  | @field k vs n d f i _ known fit place shape value =>
    refine ⟨.node k (vs.set i new) n, ?_, ?_, ?_⟩
    · rw [Value.put, fieldIndex_node known place]
      rfl
    · refine validate_node_iff.mpr ⟨d, by rwa [List.length_set], fit.set place ?_⟩
      simp only [Field.Fits, shape]
      exact ⟨.inr valid, fun null => by rw [null] at valid; cases valid⟩
    · rw [essence, essenceOf_set value same, essence]
  | @item k vs items n d f i j _ known fit place shape value index =>
    refine ⟨.node k (vs.set i (.list (items.set j new))) n, ?_, ?_, ?_⟩
    · rw [Value.put, fieldIndex_node known place]
      simp only [ok_bind, listAt, children, value]
      rfl
    · refine validate_node_iff.mpr ⟨d, by rwa [List.length_set], fit.set place ?_⟩
      have fits := fit.getElem place value
      simp only [Field.Fits, shape] at fits ⊢
      obtain ⟨_, same, parts⟩ := fits
      cases same
      refine ⟨_, rfl, fun item mem => ?_⟩
      rcases List.mem_or_eq_of_mem_set mem with mem | rfl
      · exact parts item mem
      · exact .inr valid
    · have inner : (Value.list (items.set j new)).essence = (Value.list items).essence := by
        rw [essence, essenceOf_set index same, essence]
      rw [essence, essenceOf_set value inner, essence]

end Value

namespace Path

open Value

/-- The tree of a path with another value at the end of the path. -/
def replaced : Path → Value → Except Error Value
  | root _ _, new => .ok new
  | child parent _ field index, new => do parent.replaced (← parent.value.put (field, index) new)

variable {p q : Path} {new : Value}

theorem Under.replaced (under : Under q p) (valid : q.value.validate true = .ok ())
    (newValid : new.validate true = .ok ()) (same : new.essence = p.value.essence) :
    ∃ w, p.replaced new = q.replaced w ∧ w.validate true = .ok () ∧
      w.essence = q.value.essence := by
  induction under generalizing new with
  | step mem =>
    obtain ⟨w, put, kept⟩ := (holds_of_mem valid mem).put newValid same
    exact ⟨w, by simp only [next, Path.replaced]; rw [put]; rfl, kept⟩
  | more above mem ih =>
    obtain ⟨w, put, wValid, wSame⟩ := (holds_of_mem (above.valid valid) mem).put newValid same
    obtain ⟨u, replaced, kept⟩ := ih wValid wSame
    refine ⟨u, ?_, kept⟩
    rw [← replaced]
    simp only [next, Path.replaced]
    rw [put]
    rfl

end Path

namespace Value

variable {v : Value} {part : Step × Value}

theorem Holds.isNumeric (holds : v.Holds part) (numeric : v.isNumeric) : part.2.isNumeric := by
  cases holds with
  | field _ _ _ _ value => exact areNumeric_iff.mp numeric _ (List.mem_of_getElem? value)
  | item _ _ _ _ value index =>
    have items := areNumeric_iff.mp numeric _ (List.mem_of_getElem? value)
    exact areNumeric_iff.mp items _ (List.mem_of_getElem? index)

structure IsSound (v : Value) : Prop where
  valid : v.validate true = .ok ()
  numeric : v.isNumeric

theorem IsSound.decides {a b : Value} (left : a.IsSound) (right : b.validate true = .ok ()) :
    Decides (a.equivalent b) (a.essence = b.essence) :=
  equivalent_decides a b (.inr left.valid) (.inr right) left.numeric

theorem IsSound.below {p q : Path} (sound : q.value.IsSound) (under : q.Under p) :
    p.value.IsSound := by
  induction under with
  | step mem =>
    have holds := holds_of_mem sound.valid mem
    exact ⟨holds.valid.1, holds.isNumeric sound.numeric⟩
  | more _ mem ih =>
    have holds := holds_of_mem ih.valid mem
    exact ⟨holds.valid.1, holds.isNumeric ih.numeric⟩

/-- A node below a tree may be exchanged for an equivalent one. -/
theorem IsSound.replaced {tree : Nat} {a new : Value} {p : Path} (sound : a.IsSound)
    (valid : new.validate true = .ok ()) (below : p ∈ (Path.root tree a).descendants.paths)
    (same : p.value.equivalent new = .ok true) :
    ∃ b, p.replaced new = .ok b ∧ b.IsSound ∧ a.equivalent b = .ok true := by
  have root : (Path.root tree a).value.IsSound := sound
  have under := (Path.mem_descendants_iff root.valid).mp below
  have part := root.below under
  have essence := (part.decides valid).ok_true.mp same
  obtain ⟨b, replaced, bValid, bSame⟩ := under.replaced root.valid valid essence.symm
  refine ⟨b, replaced, ⟨bValid, ?_⟩, ?_⟩
  · exact isNumeric_of_essence a b bSame.symm sound.numeric
  · exact (sound.decides bValid).ok_true.mpr bSame.symm

/-- Equivalence of valid trees without NaN gives an answer for any two of them, is an equivalence
relation, and is kept when a node at any place below a tree is exchanged for an equivalent valid
one. -/
theorem equivalent_congruence :
    (∀ a b : Value, a.IsSound → b.IsSound → ∃ answer, a.equivalent b = .ok answer) ∧
    (∀ a : Value, a.IsSound → a.equivalent a = .ok true) ∧
    (∀ a b : Value, a.IsSound → b.IsSound → a.equivalent b = b.equivalent a) ∧
    (∀ a b c : Value, a.IsSound → b.IsSound → c.IsSound → a.equivalent b = .ok true →
      b.equivalent c = .ok true → a.equivalent c = .ok true) ∧
    ∀ (tree : Nat) (a new : Value) (p : Path), a.IsSound → new.validate true = .ok () →
      p ∈ (Path.root tree a).descendants.paths → p.value.equivalent new = .ok true →
      ∃ b, p.replaced new = .ok b ∧ b.IsSound ∧ a.equivalent b = .ok true := by
  refine ⟨?_, ?_, ?_, ?_, ?_⟩
  · intro a b left right
    obtain ⟨answer, same, _⟩ := left.decides right.valid
    exact ⟨answer, same⟩
  · intro a sound
    exact (sound.decides sound.valid).ok_true.mpr rfl
  · intro a b left right
    exact (left.decides right.valid).agree (right.decides left.valid) eq_comm
  · intro a b c left middle right first second
    have first := (left.decides middle.valid).ok_true.mp first
    have second := (middle.decides right.valid).ok_true.mp second
    exact (left.decides right.valid).ok_true.mpr (first.trans second)
  · intro tree a new p sound valid below same
    exact sound.replaced valid below same

/-- In `[1, , 2]` the integer may be exchanged for the equal number of double precision. -/
theorem equivalent_congruence_hole :
    let one := Value.node .literal [.int 1] {}
    let array := Value.node .arrayExpression
      [.list [one, .null, .node .literal [.int 2] {}]] {}
    let new := Value.node .literal [.float (.finite false (2 ^ 52) (-52))] {}
    let place := Path.child (.root 0 array) one "elements" (some 0)
    array.IsSound ∧ array.equivalent array = .ok true ∧
      ∃ b, place.replaced new = .ok b ∧ array.equivalent b = .ok true := by
  intro one array new place
  have sound : array.IsSound := ⟨rfl, rfl⟩
  obtain ⟨b, replaced, _, same⟩ :=
    equivalent_congruence.2.2.2.2 0 array new place sound rfl (.head _) rfl
  exact ⟨sound, equivalent_congruence.2.1 array sound, b, replaced, same⟩

end Value

end ScriptTree
