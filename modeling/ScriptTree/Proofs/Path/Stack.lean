import ScriptTree.Proofs.Path.Places

/-!
The walk below a path as a loop over a stack of iterators. An iterator goes through the nodes right
below a path and advances only when the loop asks it to. The loop asks the topmost iterator: what
it gives is met and its own iterator is put on top, and an iterator that has come to its end is
taken away. The loop ends for every tree, and it meets what the recursive walk meets, in the same
order, with the same fault.
-/
namespace ScriptTree

namespace Walk

variable {u v w : Walk} {p : Path}

@[simp] theorem nil_append : Walk.append {} w = w := rfl

@[simp] theorem append_nil : w.append {} = w := by
  obtain ⟨paths, _ | e⟩ := w
  · rw [append, List.append_nil]
  · rfl

theorem append_assoc : (u.append v).append w = u.append (v.append w) := by
  obtain ⟨_, _ | _⟩ := u <;> obtain ⟨_, _ | _⟩ := v <;> simp [append]

theorem meet_append : (meet p v).append w = meet p (v.append w) := by
  obtain ⟨_, _ | _⟩ := v <;> rfl

/-- Each path of a walk followed by what lies below it. -/
def spread (w : Walk) : Walk :=
  w.paths.foldr (fun p rest => (meet p p.descendants).append rest) ⟨[], w.fault⟩

theorem spread_meet : (meet p w).spread = (meet p p.descendants).append w.spread := rfl

theorem spread_append : (v.append w).spread = v.spread.append w.spread := by
  obtain ⟨paths, fault⟩ := v
  induction paths with
  | nil => cases fault <;> rfl
  | cons p paths ih =>
    change (append (meet p ⟨paths, fault⟩) w).spread = _
    rw [meet_append, spread_meet, ih, ← append_assoc]
    rfl

end Walk

namespace Path

open Value

/-- The fault of going through a field: a list field has to hold a list, or a text, which has no
nodes. -/
def fieldFault? (f : Field) (v : Value) : Option Error :=
  match f.shape, v with
  | .list, .list _ | .list, .text _ => none
  | .list, _ => some .wrongType
  | _, _ => none

def iterateFields (p : Path) : List Field → List Value → Walk
  | f :: fs, v :: vs =>
    Walk.append ⟨(fieldParts f v).map p.next, fieldFault? f v⟩ (p.iterateFields fs vs)
  | _, _ => {}

/-- What an iterator over the nodes right below a path gives, one after the other. -/
def iterator (p : Path) : Walk :=
  match p.value with
  | .node kind children _ =>
    match definitionOf kind children.length with
    | .error e => .halt e
    | .ok d => p.iterateFields d.fields children
  | _ => {}

variable {p q : Path} {f : Field} {fs : List Field} {v : Value} {vs : List Value}
  {part : Step × Value}

theorem insideItems_eq_spread {field : String} {i : Nat} {items : List Value} :
    insideItems p field i items = Walk.spread ⟨(itemParts field i items).map p.next, none⟩ := by
  induction items generalizing i with
  | nil => rfl
  | cons v vs ih =>
    cases v with
    | node => rw [insideItems, ih]; rfl
    | _ => exact ih

theorem insideFields_eq_spread : insideFields p fs vs = (p.iterateFields fs vs).spread := by
  induction fs generalizing vs with
  | nil => cases vs <;> rfl
  | cons f fs ih =>
    cases vs with
    | nil => rfl
    | cons v vs =>
      rw [iterateFields, Walk.spread_append, ← ih]
      obtain ⟨name, shape, optional⟩ := f
      cases shape with
      | list =>
        cases v with
        | list => exact congrArg (Walk.append · _) insideItems_eq_spread
        | _ => rfl
      | node =>
        cases v with
        | node => exact congrArg (Walk.append · _) Walk.append_nil.symm
        | _ => rfl
      | value => cases v <;> rfl

/-- What lies below a path is what its iterator gives, each followed by what lies below it. -/
theorem descendants_eq_spread : p.descendants = p.iterator.spread := by
  rw [descendants, iterator]
  cases p.value with
  | node kind children notes =>
    rw [inside]
    simp only
    cases definitionOf kind children.length with
    | error => rfl
    | ok => exact insideFields_eq_spread
  | _ => rfl

theorem depth_of_mem_fieldParts (mem : part ∈ fieldParts f v) : part.2.depth ≤ v.depth := by
  obtain ⟨_, ⟨_, rfl, _⟩ | ⟨_, items, i, rfl, item, _⟩⟩ := mem_fieldParts.mp mem
  · exact Nat.le_refl _
  · have inner := depth_le_of_mem (List.mem_of_getElem? item)
    rw [depth]
    omega

theorem depth_of_mem_iterateFields (mem : q ∈ (p.iterateFields fs vs).paths) :
    q.value.depth ≤ depthOfList vs := by
  induction fs generalizing vs with
  | nil => cases mem
  | cons f fs ih =>
    cases vs with
    | nil => cases mem
    | cons v vs =>
      rw [depthOfList]
      have here (mem : q ∈ (fieldParts f v).map p.next) :
          q.value.depth ≤ max v.depth (depthOfList vs) := by
        obtain ⟨part, inside, rfl⟩ := List.mem_map.mp mem
        exact (depth_of_mem_fieldParts inside).trans (Nat.le_max_left ..)
      rw [iterateFields, Walk.append] at mem
      split at mem
      · exact here mem
      · rcases List.mem_append.mp mem with mem | mem
        · exact here mem
        · exact (ih mem).trans (Nat.le_max_right ..)

/-- What an iterator gives is less deep than the path that it starts from. -/
theorem depth_of_mem_iterator (mem : q ∈ p.iterator.paths) : q.value.depth < p.value.depth := by
  rw [iterator] at mem
  cases value : p.value with
  | node kind children notes =>
    rw [value] at mem
    simp only at mem
    split at mem
    · cases mem
    · exact Nat.lt_succ_of_le (depth_of_mem_iterateFields mem)
  | _ =>
    rw [value] at mem
    cases mem

end Path

/-- The loop between two rounds: the paths met so far, and the iterators, the topmost first. -/
structure Walker where
  met : List Path
  stack : List Walk

namespace Walker

/-- Before the first round there is the iterator of the path that the walk starts from. -/
def start (p : Path) : Walker := ⟨[], [p.iterator]⟩

/-- A round asks the topmost iterator. It gives a path, is at its end, or raises a fault. -/
def round : Walker → Walker ⊕ Walk
  | ⟨met, []⟩ => .inr ⟨met, none⟩
  | ⟨met, ⟨p :: paths, fault⟩ :: stack⟩ => .inl ⟨met ++ [p], p.iterator :: ⟨paths, fault⟩ :: stack⟩
  | ⟨met, ⟨[], none⟩ :: stack⟩ => .inl ⟨met, stack⟩
  | ⟨met, ⟨[], some e⟩ :: _⟩ => .inr ⟨met, some e⟩

def run : Nat → Walker → Option Walk
  | 0, _ => none
  | n + 1, w =>
    match w.round with
    | .inl w => run n w
    | .inr done => some done

/-- What is met so far, followed by all that the iterators on the stack still lead to. -/
def total (w : Walker) : Walk :=
  Walk.append ⟨w.met, none⟩ (w.stack.foldr (fun it rest => it.spread.append rest) {})

variable {w next : Walker} {done : Walk} {it : Walk} {stack : List Walk} {p : Path} {n : Nat}

/-- A round changes nothing of what the walk comes to in total. -/
theorem round_total (step : w.round = .inl next) : next.total = w.total := by
  obtain ⟨met, _ | ⟨⟨_ | ⟨p, paths⟩, _ | e⟩, stack⟩⟩ := w <;> cases step
  · rfl
  all_goals
    simp only [total, List.foldr_cons, ← Path.descendants_eq_spread]
    change _ = Walk.append _ (Walk.append (Walk.append (Walk.meet p p.descendants) _) _)
    rw [Walk.meet_append, Walk.meet_append, Walk.append_assoc]
    simp only [Walk.append, Walk.meet, List.append_assoc]
    rfl

theorem round_done (step : w.round = .inr done) : done = w.total := by
  obtain ⟨met, _ | ⟨⟨_ | ⟨p, paths⟩, _ | e⟩, stack⟩⟩ := w <;> cases step
  · exact Walk.append_nil.symm
  · exact congrArg (Walk.mk · (some e)) (List.append_nil met).symm

/-- If the loop ends, it has met what was there to meet. -/
theorem run_total (ends : run n w = some done) : done = w.total := by
  induction n generalizing w with
  | zero => cases ends
  | succ n ih =>
    rw [run] at ends
    cases step : w.round with
    | inl next =>
      rw [step] at ends
      rw [ih ends, round_total step]
    | inr last =>
      rw [step] at ends
      cases ends
      exact round_done step

theorem total_start : (start p).total = p.descendants := by
  rw [Path.descendants_eq_spread, total, start, List.foldr_cons, List.foldr_nil, Walk.append_nil]
  rfl

def Ends (w : Walker) : Prop := ∃ n done, run n w = some done

theorem Ends.of_round (step : w.round = .inl next) (ends : next.Ends) : w.Ends := by
  obtain ⟨n, done, ran⟩ := ends
  exact ⟨n + 1, done, by rw [run, step]; exact ran⟩

theorem ends_of_done (step : w.round = .inr done) : w.Ends :=
  ⟨1, done, by rw [run, step]⟩

/-- One iterator more does not keep the loop from its end. -/
theorem ends_push {depth : Nat} (shallow : ∀ p ∈ it.paths, p.value.depth < depth)
    (rest : ∀ met, Ends ⟨met, stack⟩) : ∀ met, Ends ⟨met, it :: stack⟩ := by
  -- over the depth of what the iterator gives, and for one depth over how much it still gives
  induction depth using Nat.strongRecOn generalizing it stack with
  | _ depth ih =>
    obtain ⟨paths, fault⟩ := it
    induction paths with
    | nil =>
      intro met
      cases fault with
      | none => exact .of_round rfl (rest met)
      | some e => exact ends_of_done rfl
    | cons p paths later =>
      intro met
      obtain ⟨first, others⟩ := List.forall_mem_cons.mp shallow
      refine .of_round rfl (ih _ first (fun q mem => ?_) (later others) _)
      exact Path.depth_of_mem_iterator mem

/-- Below every path the loop ends, with what the recursive walk meets and with its fault. -/
theorem run_start : ∃ n, (start p).run n = some p.descendants := by
  have empty (met : List Path) : Ends ⟨met, []⟩ := ends_of_done rfl
  obtain ⟨n, done, ran⟩ :=
    ends_push (fun q => Path.depth_of_mem_iterator (p := p) (q := q)) empty []
  have total : done = (start p).total := run_total ran
  rw [total_start] at total
  exact ⟨n, total ▸ ran⟩

end Walker

/-- Below the root of a valid tree the loop comes to its end without a fault, and what it has met is
the tree in pre-order: each path comes before what lies below it, in the order of the fields and of
the items in them. The steps of every path it has met lead from the root to the path's own node, to
every node below the root just one of these paths leads, and no place comes twice, neither as steps
nor as text. -/
theorem walk_exact (tree : Nat) (v : Value) (valid : v.validate true = .ok ()) :
    let top := Path.root tree v
    let met := top.descendants.paths
    (∃ n, (Walker.start top).run n = some ⟨met, none⟩) ∧
      (∀ p ∈ top :: met,
        p.descendants.paths = p.children.flatMap fun q => q :: q.descendants.paths) ∧
      (∀ p ∈ met, v.follow p.steps = .ok p.value ∧ p.value.isNode) ∧
      (∀ steps w, steps ≠ [] → v.follow steps = .ok w → w.isNode →
        ∃! p, p ∈ met ∧ p.steps = steps) ∧
      met.Pairwise (fun p q => ¬p.samePlace q) ∧ (met.map Path.place).Nodup := by
  intro top met
  have valid : top.value.validate true = .ok () := valid
  have under {p : Path} (mem : p ∈ met) : Path.Under top p :=
    (Path.mem_descendants_iff valid).mp mem
  refine ⟨?_, fun p mem => ?_, fun p mem => ?_, fun steps w some led isNode => ?_, ?_, ?_⟩
  · obtain ⟨n, ran⟩ := Walker.run_start (p := top)
    exact ⟨n, ran.trans (congrArg (fun e => some (Walk.mk met e)) (Path.descendants_fault valid))⟩
  · exact Path.descendants_paths (((Path.mem_within valid).mp mem).valid valid)
  · obtain ⟨_, _, _, node⟩ := Value.node_of_validate ((under mem).valid valid)
    exact ⟨(under mem).follow rfl valid, node ▸ rfl⟩
  · obtain ⟨p, below, path, value⟩ := Path.exists_under (q := top) valid some led isNode
    refine ⟨p, ⟨(Path.mem_descendants_iff valid).mpr below, path⟩, fun q other => ?_⟩
    exact Path.Within.eq_of_steps rfl (.inr (under other.1)) (.inr below) (other.2.trans path.symm)
  · refine (Path.descendants_nodup valid).imp_of_mem fun {p q} memP memQ other same => other ?_
    exact Path.Within.eq_of_samePlace rfl (.inr (under memP)) (.inr (under memQ)) same
  · refine (List.nodup_map_iff_inj_on (Path.descendants_nodup valid)).mpr
      fun p memP q memQ same => ?_
    exact Path.Under.eq_of_place rfl rfl valid (under memP) (under memQ) same

/-- Below `[a, , b]` the loop meets the two names, and passes over the hole. -/
theorem walk_exact_hole :
    let name (word : String) := Value.node .identifier [.text (text word)] {}
    let array := Value.node .arrayExpression [.list [name "a", .null, name "b"]] {}
    let top := Path.root 0 array
    let first := top.child (name "a") "elements" (some 0)
    let last := top.child (name "b") "elements" (some 2)
    array.validate true = .ok () ∧ top.descendants.paths = [first, last] ∧
      (∃ n, (Walker.start top).run n = some ⟨[first, last], none⟩) ∧
      array.follow [("elements", some 2)] = .ok (name "b") ∧
      (∃! p, p ∈ [first, last] ∧ p.steps = [("elements", some 2)]) ∧
      ([first, last].map Path.place).Nodup := by
  intro name array top first last
  obtain ⟨ends, _, follow, unique, _, places⟩ := walk_exact 0 array rfl
  have led : array.follow [("elements", some 2)] = .ok (name "b") :=
    (follow last (.tail _ (.head _))).1
  exact ⟨rfl, rfl, ends, led, unique _ _ nofun led rfl, places⟩

end ScriptTree
