import Mathlib.Algebra.Order.Field.Power
import Mathlib.Data.Rat.Cast.Order
import Mathlib.Tactic.Ring
import ScriptTree.Proofs.Tree.Likeness
import ScriptTree.Proofs.Tree.Validity
import ScriptTree.Tree.Equivalence

/-!
What equivalence looks at. The essence of a tree has its kinds and fields without notes, and numbers
by what they are worth. On valid trees without NaN, equivalence decides whether the essences agree.
-/
namespace ScriptTree

namespace Dyadic

def worth (x : Dyadic) : ℚ := x.coefficient * (2 : ℚ) ^ x.exponent

theorem scaledTo_worth {x : Dyadic} {common : Int} (least : common ≤ x.exponent) :
    (x.scaledTo common : ℚ) * 2 ^ common = x.worth := by
  have shift : ((x.exponent - common).toNat : Int) + common = x.exponent := by omega
  calc (x.scaledTo common : ℚ) * 2 ^ common
      = x.coefficient * ((2 : ℚ) ^ ((x.exponent - common).toNat : Int) * 2 ^ common) := by
        rw [scaledTo, twoTo, Nat.pow_eq]
        push_cast
        rw [zpow_natCast, mul_assoc]
    _ = x.coefficient * (2 : ℚ) ^ x.exponent := by
        rw [← zpow_add₀ (by norm_num : (2 : ℚ) ≠ 0), shift]

theorem same_iff {x y : Dyadic} : x.same y = true ↔ x.worth = y.worth := by
  have power : (2 : ℚ) ^ min x.exponent y.exponent ≠ 0 := zpow_ne_zero _ (by norm_num)
  rw [same, beq_iff_eq, ← scaledTo_worth (min_le_left x.exponent y.exponent),
    ← scaledTo_worth (min_le_right x.exponent y.exponent), mul_left_inj' power, Int.cast_inj]

theorem worth_ofInt (n : Int) : (ofInt n).worth = n := by simp [worth, ofInt]

end Dyadic

/-- What is left of a value without notes, with numbers by what they are worth. -/
inductive Essence
  | null
  | bool (b : Bool)
  | number (worth : ℚ)
  | infinite (negative : Bool)
  | nan
  | text (t : Text)
  | list (items : List Essence)
  | node (kind : Kind) (children : List Essence)

def Binary64.essence (x : Binary64) : Essence :=
  match x.dyadic?, x with
  | some d, _ => .number d.worth
  | none, .infinite negative => .infinite negative
  | none, _ => .nan

namespace Value

mutual
def essence : Value → Essence
  | .null => .null
  | .bool b => .bool b
  | .int n => .number n
  | .float x => x.essence
  | .text t => .text t
  | .list items => .list (essenceOf items)
  | .node kind children _ => .node kind (essenceOf children)

def essenceOf : List Value → List Essence
  | [] => []
  | v :: vs => essence v :: essenceOf vs
end

mutual
/-- Whether no number in a value is NaN. -/
def isNumeric : Value → Bool
  | .float .nan => false
  | .list items => areNumeric items
  | .node _ children _ => areNumeric children
  | _ => true

def areNumeric : List Value → Bool
  | [] => true
  | v :: vs => isNumeric v && areNumeric vs
end

variable {a b : Value} {xs ys : List Value}

theorem sameInt_iff {x : Binary64} {n : Int} : x.sameInt n = true ↔ x.essence = .number n := by
  cases x <;>
    simp [Binary64.sameInt, Binary64.essence, Binary64.dyadic?, Dyadic.same_iff, Dyadic.worth_ofInt]

theorem same_float_iff {x y : Binary64} (number : x ≠ .nan) :
    x.same y = true ↔ x.essence = y.essence := by
  cases x with
  | nan => exact absurd rfl number
  | infinite => cases y <;> simp [Binary64.same, Binary64.essence, Binary64.dyadic?]
  | finite =>
    cases y <;> simp [Binary64.same, Binary64.essence, Binary64.dyadic?, Dyadic.same_iff]

/-- Plain fields are compared by their essence. -/
theorem sameScalar_iff (left : a.isScalar) (right : b.isScalar) (numeric : a.isNumeric) :
    sameScalar a b = true ↔ a.essence = b.essence := by
  cases a with
  | list | node => cases left
  | float x =>
    have number : x ≠ .nan := by
      rintro rfl
      cases numeric
    cases b with
    | list | node => cases right
    | float y => exact same_float_iff number
    | int n => exact sameInt_iff
    | _ => cases x <;> simp [sameScalar, same, sameNumber, asNumber, essence, Binary64.essence,
        Binary64.dyadic?]
  | int n =>
    cases b with
    | list | node => cases right
    | float y => exact sameInt_iff.trans eq_comm
    | _ => simp [sameScalar, same, sameNumber, asNumber, essence]
  | _ =>
    cases b with
    | list | node => cases right
    | float y => cases y <;> simp [sameScalar, same, sameNumber, asNumber, essence,
        Binary64.essence, Binary64.dyadic?]
    | _ => simp [sameScalar, same, sameNumber, asNumber, essence]

/-- A comparison gives an answer, and the answer says whether something holds. -/
def Decides (answer : Except Error Bool) (p : Prop) : Prop :=
  ∃ r, answer = .ok r ∧ (r = true ↔ p)

theorem Decides.yes {p : Prop} (holds : p) : Decides (.ok true) p := ⟨true, rfl, by simp [holds]⟩

theorem Decides.no {p : Prop} (fails : ¬p) : Decides (.ok false) p := ⟨false, rfl, by simp [fails]⟩

theorem Decides.agree {x y : Except Error Bool} {p q : Prop} (first : Decides x p)
    (second : Decides y q) (same : p ↔ q) : x = y := by
  obtain ⟨r, rfl, left⟩ := first
  obtain ⟨s, rfl, right⟩ := second
  rw [Bool.eq_iff_iff.mpr (left.trans (same.trans right.symm))]

theorem Decides.ok_true {x : Except Error Bool} {p : Prop} (answer : Decides x p) :
    x = .ok true ↔ p := by
  obtain ⟨r, rfl, same⟩ := answer
  rw [Except.ok.injEq, same]

/-- The second comparison is made if the first agrees. -/
theorem Decides.both {x y : Except Error Bool} {p q : Prop} (first : Decides x p)
    (second : p → Decides y q) : Decides (do if ← x then y else return false) (p ∧ q) := by
  obtain ⟨r, rfl, same⟩ := first
  cases r with
  | false => exact .no fun both => Bool.false_ne_true (same.mpr both.1)
  | true =>
    have holds := same.mp rfl
    obtain ⟨r, rfl, same⟩ := second holds
    exact ⟨r, rfl, by simp [same, holds]⟩

theorem equivalent_null (part : b.IsPart) :
    Decides (Value.null.equivalent b) (Value.null.essence = b.essence) := by
  rcases part with rfl | valid
  · rw [equivalent]
    exact .yes rfl
  · obtain ⟨k, ys, n, rfl⟩ := node_of_validate valid
    rw [equivalent]
    · exact .no (by simp [essence])
    · simp

theorem essenceOf_length (same : essenceOf xs = essenceOf ys) : xs.length = ys.length := by
  induction xs generalizing ys with
  | nil => cases ys with
    | nil => rfl
    | cons => cases same
  | cons x xs ih => cases ys with
    | nil => cases same
    | cons y ys => rw [List.length_cons, List.length_cons, ih (List.cons.inj same).2]

section Fields

variable {x y : Value} {kind : Kind} {f : Field} {fs : List Field} {as bs : List Value}

def equivalentField (kind : Kind) (f : Field) (x y : Value) : Except Error Bool :=
  match f.shape with
  | .list =>
    match x, y with
    | list as, list bs => if as.length ≠ bs.length then pure false else equivalentItems as bs
    | _, _ => malformedAt (.notList f.name) kind
  | .node =>
    if !f.optional && (x.isNull || y.isNull) then malformedAt (.missing f.name) kind
    else equivalent x y
  | .value => pure (sameScalar x y)

theorem equivalentFields_cons : equivalentFields kind (f :: fs) (x :: xs) (y :: ys) =
    (do if ← equivalentField kind f x y then equivalentFields kind fs xs ys else return false) := by
  rw [equivalentFields.eq_def]
  unfold equivalentField
  obtain ⟨name, shape, optional⟩ := f
  cases shape with
  | list => cases x <;> cases y <;> first | rfl | (simp only; split <;> rfl)
  | node =>
    simp only
    split <;> rfl
  | value => rfl

theorem equivalentItems_cons : equivalentItems (x :: xs) (y :: ys) =
    (do if ← equivalent x y then equivalentItems xs ys else return false) := by
  rw [equivalentItems]

theorem equivalentField_list (shape : f.shape = .list) (length : as.length = bs.length) :
    equivalentField kind f (.list as) (.list bs) = equivalentItems as bs := by
  simp [equivalentField, shape, length]

theorem equivalentField_unlike (shape : f.shape = .list) (length : as.length ≠ bs.length) :
    equivalentField kind f (.list as) (.list bs) = .ok false := by
  simp only [equivalentField, shape, if_pos length]
  rfl

theorem equivalentField_node (shape : f.shape = .node)
    (present : (!f.optional && (a.isNull || b.isNull)) = false) :
    equivalentField kind f a b = equivalent a b := by
  simp [equivalentField, shape, present]

theorem equivalentField_scalar (shape : f.shape = .value) :
    equivalentField kind f a b = .ok (sameScalar a b) := by
  simp only [equivalentField, shape]
  rfl

end Fields

mutual
/-- On parts of valid trees, equivalence decides whether the essences agree. -/
theorem equivalent_decides (a b : Value) (left : a.IsPart) (right : b.IsPart)
    (numeric : a.isNumeric) : Decides (a.equivalent b) (a.essence = b.essence) := by
  cases a with
  | null => exact equivalent_null right
  | node k xs n =>
    obtain ⟨d, known, fit⟩ := validate_node_iff.mp (left.resolve_left nofun)
    rcases right with rfl | valid
    · rw [equivalent]
      exact .no (by simp [essence])
    · obtain ⟨l, ys, m, rfl⟩ := node_of_validate valid
      obtain ⟨e, knownToo, fitToo⟩ := validate_node_iff.mp valid
      rw [equivalent]
      by_cases kinds : k = l
      · subst kinds
        cases definitionOf_unique known knownToo
        rw [if_neg (by simp), known, knownToo]
        simp only [ok_bind, essence, Essence.node.injEq, true_and]
        exact equivalentFields_decides k d.fields xs ys fit fitToo numeric
      · rw [if_pos kinds]
        exact .no (by simp [essence, kinds])
  | _ => rcases left with same | valid <;> contradiction
termination_by sizeOf a

theorem equivalentFields_decides (kind : Kind) (fs : List Field) (xs ys : List Value)
    (left : Fit fs xs) (right : Fit fs ys) (numeric : areNumeric xs) :
    Decides (equivalentFields kind fs xs ys) (essenceOf xs = essenceOf ys) := by
  cases left with
  | nil => cases right with
    | nil => exact .yes rfl
  | @cons f fs x xs first rest => cases right with
    | @cons _ _ y ys firstToo restToo =>
      rw [areNumeric, Bool.and_eq_true] at numeric
      have rest := equivalentFields_decides kind fs xs ys rest restToo numeric.2
      rw [equivalentFields_cons]
      simp only [essenceOf, List.cons.injEq]
      refine .both ?_ fun _ => rest
      cases shape : f.shape with
      | list =>
        simp only [Field.Fits, shape] at first firstToo
        obtain ⟨as, rfl, valid⟩ := first
        obtain ⟨bs, rfl, validToo⟩ := firstToo
        simp only [essence, Essence.list.injEq]
        by_cases length : as.length = bs.length
        · rw [equivalentField_list shape length]
          exact equivalentItems_decides as bs length valid validToo numeric.1
        · rw [equivalentField_unlike shape length]
          exact .no fun same => length (essenceOf_length same)
      | node =>
        simp only [Field.Fits, shape] at first firstToo
        rw [equivalentField_node shape]
        · exact equivalent_decides x y first.1 firstToo.1 numeric.1
        · cases x <;> cases y <;> simp_all [isNull]
      | value =>
        simp only [Field.Fits, shape] at first firstToo
        rw [equivalentField_scalar shape]
        exact ⟨_, rfl, sameScalar_iff first firstToo numeric.1⟩
termination_by sizeOf xs

theorem equivalentItems_decides (xs ys : List Value) (length : xs.length = ys.length)
    (left : ∀ x ∈ xs, x.IsPart) (right : ∀ y ∈ ys, y.IsPart) (numeric : areNumeric xs) :
    Decides (equivalentItems xs ys) (essenceOf xs = essenceOf ys) := by
  cases xs with
  | nil =>
    cases List.length_eq_zero_iff.mp length.symm
    exact .yes rfl
  | cons x xs => cases ys with
    | nil => cases length
    | cons y ys =>
      rw [areNumeric, Bool.and_eq_true] at numeric
      rw [equivalentItems_cons]
      simp only [essenceOf, List.cons.injEq]
      refine .both (equivalent_decides x y (left x List.mem_cons_self)
        (right y List.mem_cons_self) numeric.1) fun _ => ?_
      exact equivalentItems_decides xs ys (Nat.succ.inj length)
        (fun x mem => left x (List.mem_cons_of_mem _ mem))
        (fun y mem => right y (List.mem_cons_of_mem _ mem)) numeric.2
termination_by sizeOf xs
end

theorem areNumeric_iff : areNumeric xs = true ↔ ∀ x ∈ xs, x.isNumeric = true := by
  induction xs with
  | nil => simp [areNumeric]
  | cons x xs ih => simp [areNumeric, ih]

mutual
/-- Whether a number is NaN shows in the essence. -/
theorem isNumeric_of_essence (a b : Value) (same : a.essence = b.essence)
    (numeric : a.isNumeric) : b.isNumeric := by
  cases a with
  | list xs =>
    cases b with
    | list ys => exact areNumeric_of_essence xs ys (Essence.list.inj same) numeric
    | float y => cases y <;> cases same
    | _ => cases same
  | node k xs n =>
    cases b with
    | node l ys m => exact areNumeric_of_essence xs ys (Essence.node.inj same).2 numeric
    | float y => cases y <;> cases same
    | _ => cases same
  | float x =>
    cases b with
    | float y => cases y with
      | nan => cases x with
        | nan => cases numeric
        | _ => cases same
      | _ => rfl
    | list | node => cases x <;> cases same
    | _ => rfl
  | _ =>
    cases b with
    | float y => cases y <;> first | rfl | cases same
    | list | node => cases same
    | _ => rfl

theorem areNumeric_of_essence (xs ys : List Value) (same : essenceOf xs = essenceOf ys)
    (numeric : areNumeric xs) : areNumeric ys := by
  cases xs with
  | nil => cases ys with
    | nil => rfl
    | cons => cases same
  | cons x xs => cases ys with
    | nil => cases same
    | cons y ys =>
      rw [areNumeric, Bool.and_eq_true] at numeric ⊢
      obtain ⟨first, rest⟩ := List.cons.inj same
      exact ⟨isNumeric_of_essence x y first numeric.1, areNumeric_of_essence xs ys rest numeric.2⟩
end

end Value

end ScriptTree
