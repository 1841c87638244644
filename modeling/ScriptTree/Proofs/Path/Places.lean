import Mathlib.Tactic.Tauto
import ScriptTree.Proofs.Path.Replacement
import ScriptTree.Proofs.Path.Sharing
import ScriptTree.Proofs.Token.Scanning

/-!
Places in a tree. Following the steps of a path from the root of a valid tree leads to the path's
own node, every node below the root is reached so by one path, and the text of a place names a
single one.
-/
namespace ScriptTree

namespace Value

/-- What a step leads to from a node: what the field holds, or the item of the list in it. -/
def step (v : Value) (s : Step) : Except Error Value := do
  let held ← v.field s.1
  match s.2 with
  | none => return held
  | some i =>
    match held with
    | .list items =>
      match items[i]? with
      | some item => return item
      | none => .error .indexOutOfRange
    | _ => .error .wrongType

/-- What some steps lead to, one after the other. -/
def follow (v : Value) (steps : List Step) : Except Error Value := steps.foldlM step v

variable {v w held : Value} {vs : List Value} {s : Step} {part : Step × Value} {kind : Kind}
  {n : Notes} {d : Definition} {name : String}

theorem index_ok {i : Nat} (index : d.index name = .ok i) :
    ∃ f, d.fields[i]? = some f ∧ f.name = name := by
  unfold Definition.index at index
  split at index
  · rename_i found
    cases index
    obtain ⟨bound, same, _⟩ := List.findIdx?_eq_some_iff_getElem.mp found
    exact ⟨_, List.getElem?_eq_getElem bound, beq_iff_eq.mp same⟩
  · cases index

theorem field_isNode (found : v.field name = .ok held) : v.isNode := by
  cases v with
  | node => rfl
  | _ => cases found

theorem step_isNode (led : v.step s = .ok w) : v.isNode := by
  cases found : v.field s.1 with
  | ok => exact field_isNode found
  | error => rw [step, found] at led; cases led

/-- A step to a part leads to it. -/
theorem Holds.step (holds : v.Holds part) : v.step part.1 = .ok part.2 := by
  cases holds with
  | field known fit place shape value =>
    have names := Vocabulary.standard_names _ (List.mem_of_find?_eq_some (definitionOf_ok known).1)
    rw [Value.step, field_node known (Definition.index_of_field names place), ok_bind,
      List.getD_eq_getElem?_getD, value]
    rfl
  | item known fit place shape value index =>
    have names := Vocabulary.standard_names _ (List.mem_of_find?_eq_some (definitionOf_ok known).1)
    rw [Value.step, field_node known (Definition.index_of_field names place), ok_bind,
      List.getD_eq_getElem?_getD, value]
    simp only [Option.getD_some, index]
    rfl

/-- In a valid node a step leads to no other node than a part. -/
theorem mem_parts_of_step (valid : v.validate true = .ok ()) (led : v.step s = .ok w)
    (isNode : w.isNode) : (s, w) ∈ v.parts := by
  obtain ⟨k, vs, n, rfl⟩ := node_of_validate valid
  obtain ⟨d, known, fit⟩ := validate_node_iff.mp valid
  obtain ⟨name, index⟩ := s
  cases found : d.index name with
  | error e =>
    rw [step, field, definition, known, ok_bind, found] at led
    cases led
  | ok i =>
    obtain ⟨f, place, rfl⟩ := index_ok found
    have bound : i < vs.length := by
      rw [(definitionOf_ok known).2]
      exact (List.getElem?_eq_some_iff.mp place).1
    have value : vs[i]? = some vs[i] := List.getElem?_eq_getElem bound
    have fits := fit.getElem place value
    rw [step, field_node known found, ok_bind, List.getD_eq_getElem?_getD, value,
      Option.getD_some] at led
    rw [parts, known]
    refine mem_fieldsParts.mpr ⟨i, f, vs[i], place, value, mem_fieldParts.mpr ⟨isNode, ?_⟩⟩
    generalize vs[i] = held at led fits
    cases index with
    | none =>
      cases led
      refine .inl ⟨?_, rfl, rfl⟩
      -- neither a list nor a plain value is a node
      cases shape : f.shape with
      | node => rfl
      | list =>
        simp only [Field.Fits, shape] at fits
        obtain ⟨items, rfl, _⟩ := fits
        cases isNode
      | value =>
        simp only [Field.Fits, shape] at fits
        cases w <;> cases isNode
        cases fits
    | some j =>
      simp only at led
      split at led
      · rename_i items
        split at led
        · rename_i item there
          cases led
          refine .inr ⟨?_, items, j, rfl, there, rfl⟩
          cases shape : f.shape with
          | list => rfl
          | node =>
            simp only [Field.Fits, shape] at fits
            rcases fits.1 with same | valid
            · cases same
            · cases valid
          | value =>
            simp only [Field.Fits, shape] at fits
            cases fits
        · cases led
      · cases led

end Value

namespace Path

open Value

variable {p q top : Path} {v w : Value} {steps : List Step}

theorem follow_next {part : Step × Value} (led : v.follow p.steps = .ok p.value)
    (mem : part ∈ p.value.parts) (valid : p.value.validate true = .ok ()) :
    v.follow (p.next part).steps = .ok part.2 := by
  change (p.steps ++ [part.1]).foldlM step v = _
  rw [List.foldlM_append]
  change (v.follow p.steps >>= _) = _
  rw [led, ok_bind, List.foldlM_cons, (holds_of_mem valid mem).step, ok_bind]
  rfl

/-- The steps of a path lead from the root of its tree to its own node. -/
theorem Under.follow (first : top.steps = []) (valid : top.value.validate true = .ok ())
    (under : Under top p) : top.value.follow p.steps = .ok p.value := by
  induction under with
  | step mem =>
    refine follow_next ?_ mem valid
    rw [first]
    rfl
  | more above mem ih => exact follow_next ih mem (above.valid valid)

/-- Where steps from a path lead to a node, a path leads further down by these steps. -/
theorem exists_under (valid : q.value.validate true = .ok ()) (some : steps ≠ [])
    (led : q.value.follow steps = .ok w) (isNode : w.isNode) :
    ∃ p, Under q p ∧ p.steps = q.steps ++ steps ∧ p.value = w := by
  induction steps generalizing q with
  | nil => exact absurd rfl some
  | cons s rest ih =>
    rw [Value.follow, List.foldlM_cons] at led
    cases here : q.value.step s with
    | error => rw [here] at led; cases led
    | ok u =>
      rw [here, ok_bind] at led
      cases rest with
      | nil =>
        cases led
        exact ⟨_, .step (mem_parts_of_step valid here isNode), rfl, rfl⟩
      | cons t rest =>
        -- what the next step starts from is a node
        have inner : u.isNode := by
          rw [List.foldlM_cons] at led
          cases there : u.step t with
          | error => rw [there] at led; cases led
          | ok => exact step_isNode there
        have mem := mem_parts_of_step valid here inner
        have under : Under q (q.next (s, u)) := .step mem
        obtain ⟨p, further, path, value⟩ :=
          ih (q := q.next (s, u)) (under.valid valid) (List.cons_ne_nil t rest) led
        exact ⟨p, under.trans further, path.trans (List.append_assoc ..), value⟩

theorem samePlace_iff_steps : p.samePlace q ↔ p.tree = q.tree ∧ p.steps = q.steps := by
  induction p generalizing q with
  | root t v =>
    cases q with
    | root => simp [samePlace, tree, Path.steps]
    | child => simp [samePlace, Path.steps]
  | child parent v field index ih =>
    cases q with
    | root => simp [samePlace, Path.steps]
    | child parent' v' field' index' =>
      simp only [samePlace, Bool.and_eq_true, beq_iff_eq, ih, tree, Path.steps,
        List.append_singleton_inj, Prod.mk.injEq]
      tauto

theorem Within.tree (first : top.above = []) (within : Within top p) : p.tree = top.tree := by
  rcases within with rfl | under
  · rfl
  · exact (tree_of_mem_above under.above).symm

/-- Paths of one tree with the same steps are one path. -/
theorem Within.eq_of_steps (first : top.above = []) (left : Within top p) (right : Within top q)
    (same : p.steps = q.steps) : p = q :=
  left.eq_of_samePlace first right
    (samePlace_iff_steps.mpr ⟨(left.tree first).trans (right.tree first).symm, same⟩)

end Path

/-- The code points that the text of a step has after the name of its field. -/
def Point.isJoint (p : Point) : Bool := p == 46 || p == 91

theorem text_inj {s t : String} (same : text s = text t) : s = t := by
  refine String.toList_inj.mp (List.map_injective_iff.mpr ?_ same)
  exact fun _ _ => Char.toNat_inj.mp

theorem Vocabulary.standard_plain : ∀ d ∈ Vocabulary.standard, ∀ f ∈ d.fields,
    (text f.name).any Point.isJoint = false := by
  decide

namespace Text

theorem decimal_inj {i j : Nat} (same : decimal i = decimal j) : i = j := by
  have digits : Nat.toDigits 10 i = Nat.toDigits 10 j :=
    List.map_injective_iff.mpr (fun _ _ => Char.toNat_inj.mp) same
  rw [← Nat.ofDigitChars_ten_toDigits (n := i), digits, Nat.ofDigitChars_ten_toDigits]

theorem join_inj {parts more : List Text} (left : ∀ t ∈ parts, 46 ∉ t) (right : ∀ t ∈ more, 46 ∉ t)
    (some : parts ≠ []) (also : more ≠ []) (same : join (text ".") parts = join (text ".") more) :
    parts = more := by
  rw [← List.splitOn_intercalate 46 left some, ← List.splitOn_intercalate 46 right also]
  exact congrArg (List.splitOn 46) same

end Text

namespace Path

/-- The name of the field of a step has no code point that a place puts between names. -/
def Plain (s : Step) : Prop := (text s.1).any Point.isJoint = false

variable {p q top : Path} {s t : Step} {steps more : List Step} {field : String} {i : Nat}

theorem stepText_field : stepText (field, none) = text field := rfl

theorem stepText_item :
    stepText (field, some i) = text field ++ 91 :: (Text.decimal i ++ [93]) := by
  change text field ++ text "[" ++ Text.decimal i ++ text "]" = _
  rw [List.append_assoc, List.append_assoc]
  rfl

theorem stepText_plain (plain : Plain s) : 46 ∉ stepText s := by
  have name : 46 ∉ text s.1 := fun mem =>
    Bool.false_ne_true (plain.symm.trans (List.any_eq_true.mpr ⟨46, mem, rfl⟩))
  obtain ⟨field, _ | i⟩ := s
  · exact name
  · have digits : 46 ∉ Text.decimal i :=
      fun mem => absurd (Scan.decimal_digits mem).1 (by decide)
    simpa [stepText_item, digits] using name

theorem stepText_inj (left : Plain s) (right : Plain t) (same : stepText s = stepText t) :
    s = t := by
  -- the name is what stands before the bracket, if there is one
  have front {s : Step} (plain : Plain s) :
      (stepText s).takeWhile (fun p => !p.isJoint) = text s.1 := by
    have within : ∀ p ∈ text s.1, (!Point.isJoint p) = true := by
      simpa [Plain] using plain
    obtain ⟨field, _ | i⟩ := s
    · rw [stepText_field, ← List.append_nil (text field), List.takeWhile_append_of_pos within]
      rfl
    · rw [stepText_item, List.takeWhile_append_of_pos within]
      exact List.append_nil _
  have names : s.1 = t.1 := text_inj (by rw [← front left, ← front right, same])
  obtain ⟨field, _ | i⟩ := s <;> obtain ⟨field', _ | j⟩ := t <;> cases names
  · rfl
  · rw [stepText_field, stepText_item, List.self_eq_append_right] at same
    cases same
  · rw [stepText_field, stepText_item, List.append_right_eq_self] at same
    cases same
  · rw [stepText_item, stepText_item, List.append_cancel_left_eq, List.cons.injEq,
      List.append_cancel_right_eq] at same
    rw [Text.decimal_inj same.2]

theorem steps_inj (left : ∀ s ∈ steps, Plain s) (right : ∀ s ∈ more, Plain s)
    (same : steps.map stepText = more.map stepText) : steps = more := by
  induction steps generalizing more with
  | nil => exact (List.map_eq_nil_iff.mp same.symm).symm
  | cons s steps ih =>
    cases more with
    | nil => cases same
    | cons t more =>
      obtain ⟨plain, left⟩ := List.forall_mem_cons.mp left
      obtain ⟨plain', right⟩ := List.forall_mem_cons.mp right
      obtain ⟨first, rest⟩ := List.cons.inj same
      rw [stepText_inj plain plain' first, ih left right rest]

theorem plain_of_mem {part : Step × Value} (valid : p.value.validate true = .ok ())
    (mem : part ∈ p.value.parts) : Plain part.1 := by
  have defined {kind : Kind} {count : Nat} {d : Definition} {f : Field} {i : Nat}
      (known : Value.definitionOf kind count = .ok d) (place : d.fields[i]? = some f) :
      (text f.name).any Point.isJoint = false :=
    Vocabulary.standard_plain _ (List.mem_of_find?_eq_some (Value.definitionOf_ok known).1) _
      (List.mem_of_getElem? place)
  obtain ⟨step, v⟩ := part
  have holds := Value.holds_of_mem valid mem
  generalize p.value = w at holds
  cases holds with
  | field known _ place | item known _ place => exact defined known place

theorem Under.plain (first : top.steps = []) (valid : top.value.validate true = .ok ())
    (under : Under top p) : ∀ s ∈ p.steps, Plain s := by
  induction under with
  | step mem =>
    change ∀ s ∈ top.steps ++ [_], Plain s
    rw [first, List.nil_append, List.forall_mem_singleton]
    exact plain_of_mem valid mem
  | more above mem ih =>
    refine List.forall_mem_append.mpr ⟨ih, List.forall_mem_singleton.mpr ?_⟩
    exact plain_of_mem (above.valid valid) mem

theorem Under.steps_ne (under : Under top p) : p.steps ≠ [] := by
  cases under <;> exact List.append_ne_nil_of_right_ne_nil _ (List.cons_ne_nil _ _)

/-- The text of a place names one path below the root of a tree. -/
theorem Under.eq_of_place (first : top.above = []) (root : top.steps = [])
    (valid : top.value.validate true = .ok ()) (left : Under top p) (right : Under top q)
    (same : p.place = q.place) : p = q := by
  have pieces {r : Path} (under : Under top r) : ∀ t ∈ r.steps.map stepText, 46 ∉ t := by
    intro t mem
    obtain ⟨s, inside, rfl⟩ := List.mem_map.mp mem
    exact stepText_plain (under.plain root valid s inside)
  have texts : p.steps.map stepText = q.steps.map stepText :=
    Text.join_inj (pieces left) (pieces right) (by simpa using left.steps_ne)
      (by simpa using right.steps_ne) same
  exact Within.eq_of_steps first (.inr left) (.inr right)
    (steps_inj (left.plain root valid) (right.plain root valid) texts)

end Path

end ScriptTree
