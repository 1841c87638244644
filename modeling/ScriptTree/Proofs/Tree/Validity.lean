import Mathlib.Logic.Basic
import ScriptTree.Proofs.Tree.Conforming

/-!
What a check of a whole tree says of each of its nodes: the kind is known, there is one value for
every field, and the value is one that the field may hold.
-/
namespace ScriptTree

/-- What a place for a node may hold: a valid node, or null where it may be left open. -/
def Value.IsPart (v : Value) : Prop := v = .null ∨ v.validate true = .ok ()

/-- A field may hold a value, and what the value holds has been checked too. -/
def Field.Fits (f : Field) (v : Value) : Prop :=
  match f.shape with
  | .list => ∃ items, v = .list items ∧ ∀ item ∈ items, item.IsPart
  | .node => v.IsPart ∧ (v = .null → f.optional)
  | .value => v.isScalar

inductive Fit : List Field → List Value → Prop
  | nil : Fit [] []
  | cons {f : Field} {fs : List Field} {v : Value} {vs : List Value} (first : f.Fits v)
      (rest : Fit fs vs) : Fit (f :: fs) (v :: vs)

theorem Fit.getElem {fs : List Field} {vs : List Value} {f : Field} {v : Value}
    {i : Nat} (fit : Fit fs vs)
    (field : fs[i]? = some f) (value : vs[i]? = some v) : f.Fits v := by
  induction fit generalizing i with
  | nil => cases field
  | cons first rest ih =>
    cases i with
    | zero =>
      cases field
      cases value
      exact first
    | succ i => exact ih field value

theorem Fit.set {fs : List Field} {vs : List Value} {f : Field} {v : Value}
    {i : Nat} (fit : Fit fs vs)
    (field : fs[i]? = some f) (fits : f.Fits v) : Fit fs (vs.set i v) := by
  induction fit generalizing i with
  | nil => exact .nil
  | cons first rest ih =>
    cases i with
    | zero =>
      cases field
      exact .cons fits rest
    | succ i => exact .cons first (ih field)

namespace Value

variable {kind : Kind} {f : Field} {fs : List Field} {v : Value} {vs items : List Value}
  {n : Notes} {d : Definition}

theorem definitionOf_ok {count : Nat} (known : definitionOf kind count = .ok d) :
    Vocabulary.standard.find? kind = some d ∧ count = d.fields.length := by
  unfold definitionOf at known
  split at known
  · cases known
  · split at known
    · cases known
    · split at known
      · cases known
      · rename_i found _ same
        cases known
        exact ⟨found, Decidable.not_not.mp same⟩

theorem definitionOf_unique {m n : Nat} {e : Definition} (first : definitionOf kind m = .ok d)
    (second : definitionOf kind n = .ok e) : d = e :=
  Option.some.inj ((definitionOf_ok first).1.symm.trans (definitionOf_ok second).1)

theorem isPart_iff : v.IsPart ↔ (v ≠ .null → v.validate true = .ok ()) := by
  rw [IsPart, or_iff_not_imp_left]

theorem validateItems_iff : validateItems true items = .ok () ↔ ∀ v ∈ items, v.IsPart := by
  constructor
  · intro valid
    induction items with
    | nil => simp
    | cons v vs ih =>
      by_cases null : v = .null
      · subst null
        rw [validateItems] at valid
        simpa [IsPart] using ih valid
      · have checked : validateItems true (v :: vs) =
            v.validate true >>= fun _ => validateItems true vs := by
          rw [validateItems]
          exact null
        rw [checked] at valid
        cases first : v.validate true with
        | error => rw [first] at valid; cases valid
        | ok =>
          rw [first] at valid
          intro w mem
          rcases List.mem_cons.mp mem with rfl | mem
          · exact .inr first
          · exact ih valid w mem
  · exact fun parts => validateItems_ok fun v mem => isPart_iff.mp (parts v mem)

theorem validateFields_cons : validateFields true kind (f :: fs) (v :: vs) = .ok () ↔
    f.Fits v ∧ validateFields true kind fs vs = .ok () := by
  obtain ⟨name, shape, optional⟩ := f
  cases shape with
  | list =>
    cases v with
    | list items =>
      change (validateItems true items >>= fun _ => _) = _ ↔ _
      cases inner : validateItems true items with
      | error => simp [Field.Fits, ← validateItems_iff, inner, bind, Except.bind]
      | ok => simp [Field.Fits, ← validateItems_iff, inner, bind, Except.bind]
    | _ =>
      change Except.error _ = _ ↔ _
      simp [Field.Fits]
  | node =>
    cases v with
    | node k cs n =>
      change (validate true (.node k cs n) >>= fun _ => _) = _ ↔ _
      cases inner : validate true (.node k cs n) with
      | error => simp [Field.Fits, IsPart, inner, bind, Except.bind]
      | ok => simp [Field.Fits, IsPart, inner, bind, Except.bind]
    | null =>
      cases optional with
      | true =>
        change validateFields true kind fs vs = _ ↔ _
        simp [Field.Fits, IsPart]
      | false =>
        change Except.error _ = _ ↔ _
        simp [Field.Fits]
    | _ =>
      change Except.error _ = _ ↔ _
      simp [Field.Fits, IsPart, validate]
  | value =>
    cases v with
    | list | node =>
      change Except.error _ = _ ↔ _
      simp [Field.Fits, isScalar]
    | _ =>
      change validateFields true kind fs vs = _ ↔ _
      simp [Field.Fits, isScalar]

theorem validateFields_iff (length : vs.length = fs.length) :
    validateFields true kind fs vs = .ok () ↔ Fit fs vs := by
  induction fs generalizing vs with
  | nil =>
    cases List.length_eq_zero_iff.mp length
    exact ⟨fun _ => .nil, fun _ => rfl⟩
  | cons f fs ih =>
    cases vs with
    | nil => cases length
    | cons v vs =>
      rw [validateFields_cons, ih (Nat.succ.inj length)]
      constructor
      · exact fun both => .cons both.1 both.2
      · intro fit
        cases fit with
        | cons first rest => exact ⟨first, rest⟩

/-- A node is valid if its kind is known and its values fit the fields of the kind. -/
theorem validate_node_iff : validate true (.node kind vs n) = .ok () ↔
    ∃ d, definitionOf kind vs.length = .ok d ∧ Fit d.fields vs := by
  rw [validate]
  cases known : definitionOf kind vs.length with
  | error e => simp [bind, Except.bind]
  | ok d => simpa [bind, Except.bind] using validateFields_iff (definitionOf_ok known).2

end Value

end ScriptTree
