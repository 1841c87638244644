import ScriptTree.Proofs.Tree.Lookup

/-!
Trees that are alike: they differ in nothing but notes. Where comments are kept, those are alike
too.
-/
namespace ScriptTree.Value

mutual
/-- A tree without the notes that are not kept. -/
def strip (keep : Bool) : Value → Value
  | .list items => .list (stripOf keep items)
  | .node kind children notes =>
    .node kind (stripOf keep children) { comments := if keep then notes.comments else [] }
  | v => v

def stripOf (keep : Bool) : List Value → List Value
  | [] => []
  | v :: vs => strip keep v :: stripOf keep vs
end

/-- Two trees differ in nothing but notes that are not kept. -/
def Like (keep : Bool) (w v : Value) : Prop := w.strip keep = v.strip keep

def AllLike (keep : Bool) (ws vs : List Value) : Prop := stripOf keep ws = stripOf keep vs

variable {keep : Bool} {v w : Value} {vs ws : List Value} {m n : Notes} {k : Kind}

theorem Like.refl : Like keep v v := rfl

theorem Like.symm (like : Like keep w v) : Like keep v w := Eq.symm like

theorem Like.trans {u : Value} (first : Like keep u w) (second : Like keep w v) : Like keep u v :=
  Eq.trans first second

@[simp] theorem allLike_nil : AllLike keep ws [] ↔ ws = [] := by
  cases ws <;> simp [AllLike, stripOf]

theorem allLike_cons : AllLike keep ws (v :: vs) ↔
    ∃ u us, ws = u :: us ∧ Like keep u v ∧ AllLike keep us vs := by
  constructor
  · intro same
    cases ws with
    | nil => cases same
    | cons u us =>
      obtain ⟨first, rest⟩ := List.cons.inj same
      exact ⟨u, us, rfl, first, rest⟩
  · rintro ⟨u, us, rfl, first, rest⟩
    exact List.cons_eq_cons.mpr ⟨first, rest⟩

theorem AllLike.cons (first : Like keep w v) (rest : AllLike keep ws vs) :
    AllLike keep (w :: ws) (v :: vs) :=
  allLike_cons.2 ⟨w, ws, rfl, first, rest⟩

theorem like_list : Like keep w (.list vs) ↔ ∃ ws, w = .list ws ∧ AllLike keep ws vs := by
  constructor
  · intro same
    cases w with
    | list us => exact ⟨us, rfl, Value.list.inj same⟩
    | _ => cases same
  · rintro ⟨ws, rfl, items⟩
    exact congrArg Value.list items

theorem like_node : Like keep w (.node k vs n) ↔
    ∃ ws m, w = .node k ws m ∧ AllLike keep ws vs ∧ (keep → m.comments = n.comments) := by
  constructor
  · intro same
    cases w with
    | node l us o =>
      simp only [Like, strip, Value.node.injEq, Notes.mk.injEq] at same
      obtain ⟨rfl, children, _, _, notes, _⟩ := same
      refine ⟨us, o, rfl, children, fun kept => ?_⟩
      rwa [if_pos kept, if_pos kept] at notes
    | _ => cases same
  · rintro ⟨ws, m, rfl, children, notes⟩
    have kept : (if keep then m.comments else []) = if keep then n.comments else [] := by
      split
      · exact notes ‹_›
      · rfl
    rw [Like, strip, strip, kept, children]

theorem Like.one {a : Value} (like : Like keep w (.node k [a] n)) : ∃ a' m, w = .node k [a'] m ∧
    Like keep a' a ∧ (keep → m.comments = n.comments) := by
  obtain ⟨ws, m, rfl, children, notes⟩ := like_node.1 like
  obtain ⟨a', ws, rfl, first, children⟩ := allLike_cons.1 children
  cases allLike_nil.1 children
  exact ⟨a', m, rfl, first, notes⟩

theorem Like.two {a b : Value} (like : Like keep w (.node k [a, b] n)) :
    ∃ a' b' m, w = .node k [a', b'] m ∧ Like keep a' a ∧ Like keep b' b ∧
      (keep → m.comments = n.comments) := by
  obtain ⟨ws, m, rfl, children, notes⟩ := like_node.1 like
  obtain ⟨a', ws, rfl, first, children⟩ := allLike_cons.1 children
  obtain ⟨b', ws, rfl, second, children⟩ := allLike_cons.1 children
  cases allLike_nil.1 children
  exact ⟨a', b', m, rfl, first, second, notes⟩

theorem Like.three {a b c : Value} (like : Like keep w (.node k [a, b, c] n)) :
    ∃ a' b' c' m, w = .node k [a', b', c'] m ∧ Like keep a' a ∧ Like keep b' b ∧ Like keep c' c ∧
      (keep → m.comments = n.comments) := by
  obtain ⟨ws, m, rfl, children, notes⟩ := like_node.1 like
  obtain ⟨a', ws, rfl, first, children⟩ := allLike_cons.1 children
  obtain ⟨b', ws, rfl, second, children⟩ := allLike_cons.1 children
  obtain ⟨c', ws, rfl, third, children⟩ := allLike_cons.1 children
  cases allLike_nil.1 children
  exact ⟨a', b', c', m, rfl, first, second, third, notes⟩

theorem Like.four {a b c d : Value} (like : Like keep w (.node k [a, b, c, d] n)) :
    ∃ a' b' c' d' m, w = .node k [a', b', c', d'] m ∧ Like keep a' a ∧ Like keep b' b ∧
      Like keep c' c ∧ Like keep d' d ∧ (keep → m.comments = n.comments) := by
  obtain ⟨ws, m, rfl, children, notes⟩ := like_node.1 like
  obtain ⟨a', ws, rfl, first, children⟩ := allLike_cons.1 children
  obtain ⟨b', ws, rfl, second, children⟩ := allLike_cons.1 children
  obtain ⟨c', ws, rfl, third, children⟩ := allLike_cons.1 children
  obtain ⟨d', ws, rfl, fourth, children⟩ := allLike_cons.1 children
  cases allLike_nil.1 children
  exact ⟨a', b', c', d', m, rfl, first, second, third, fourth, notes⟩

theorem Like.node (children : AllLike keep ws vs) (notes : keep → m.comments = n.comments) :
    Like keep (.node k ws m) (.node k vs n) :=
  like_node.2 ⟨ws, m, rfl, children, notes⟩

/-- A value that is neither a list nor a node is like nothing but itself. -/
theorem like_leaf (single : ∀ us, v ≠ .list us) (bare : ∀ k us n, v ≠ .node k us n) :
    Like keep w v ↔ w = v := by
  have same : v.strip keep = v := by
    cases v with
    | list us => exact absurd rfl (single us)
    | node k us n => exact absurd rfl (bare k us n)
    | _ => rfl
  constructor
  · intro like
    have found : w.strip keep = v := Eq.trans like same
    cases w with
    | list us => exact absurd found.symm (single _)
    | node k us n => exact absurd found.symm (bare _ _ _)
    | _ => exact found
  · rintro rfl
    rfl

@[simp] theorem like_null : Like keep w .null ↔ w = .null := like_leaf nofun nofun

@[simp] theorem like_bool {b : Bool} : Like keep w (.bool b) ↔ w = .bool b := like_leaf nofun nofun

@[simp] theorem like_int {i : Int} : Like keep w (.int i) ↔ w = .int i := like_leaf nofun nofun

@[simp] theorem like_float {x : Binary64} : Like keep w (.float x) ↔ w = .float x :=
  like_leaf nofun nofun

@[simp] theorem like_text {t : Text} : Like keep w (.text t) ↔ w = .text t := like_leaf nofun nofun

theorem Like.kind? (like : Like keep w v) : w.kind? = v.kind? := by
  cases v with
  | node =>
    obtain ⟨_, _, rfl, _⟩ := like_node.1 like
    rfl
  | list =>
    obtain ⟨_, rfl, _⟩ := like_list.1 like
    rfl
  | null | bool | int | float | text => simp_all

theorem Like.isKind {wider : Kind} (like : Like keep w v) : w.isKind wider = v.isKind wider := by
  cases v with
  | node =>
    obtain ⟨_, _, rfl, _⟩ := like_node.1 like
    rfl
  | list =>
    obtain ⟨_, rfl, _⟩ := like_list.1 like
    rfl
  | null | bool | int | float | text => simp_all

theorem Like.isNull (like : Like keep w v) : w.isNull = v.isNull := by
  cases v with
  | node =>
    obtain ⟨_, _, rfl, _⟩ := like_node.1 like
    rfl
  | list =>
    obtain ⟨_, rfl, _⟩ := like_list.1 like
    rfl
  | null | bool | int | float | text => simp_all

theorem Like.comments (like : Like keep w v) (kept : keep) : w.comments = v.comments := by
  cases v with
  | node =>
    obtain ⟨_, _, rfl, _, notes⟩ := like_node.1 like
    exact notes kept
  | list =>
    obtain ⟨_, rfl, _⟩ := like_list.1 like
    rfl
  | null | bool | int | float | text => simp_all

theorem AllLike.length (like : AllLike keep ws vs) : ws.length = vs.length := by
  induction vs generalizing ws with
  | nil => rw [allLike_nil.1 like]
  | cons v vs ih =>
    obtain ⟨u, us, rfl, _, rest⟩ := allLike_cons.1 like
    rw [List.length_cons, List.length_cons, ih rest]

theorem AllLike.getD (like : AllLike keep ws vs) (i : Nat) :
    Like keep (ws.getD i .null) (vs.getD i .null) := by
  induction vs generalizing ws i with
  | nil =>
    rw [allLike_nil.1 like]
    rfl
  | cons v vs ih =>
    obtain ⟨u, us, rfl, first, rest⟩ := allLike_cons.1 like
    cases i with
    | zero => exact first
    | succ i => exact ih rest i

/-- Alike nodes have alike fields. -/
theorem Like.field {name : String} {a : Value} (like : Like keep w v)
    (found : v.field name = .ok a) : ∃ b, w.field name = .ok b ∧ Like keep b a := by
  cases v with
  | node k vs m =>
    obtain ⟨ws, m', rfl, children, _⟩ := like_node.1 like
    simp only [Value.field, Value.definition, children.length] at found ⊢
    cases defined : definitionOf k vs.length with
    | error => rw [defined] at found; cases found
    | ok d =>
      rw [defined, ok_bind] at found
      rw [ok_bind]
      cases place : d.index name with
      | error => rw [place] at found; cases found
      | ok i =>
        rw [place] at found
        cases found
        exact ⟨_, rfl, children.getD i⟩
  | _ => cases found

theorem Like.isTruthy (like : Like keep w v) : w.isTruthy = v.isTruthy := by
  cases v with
  | node =>
    obtain ⟨_, _, rfl, _⟩ := like_node.1 like
    rfl
  | list vs =>
    obtain ⟨ws, rfl, items⟩ := like_list.1 like
    cases vs with
    | nil => rw [allLike_nil.1 items]
    | cons =>
      obtain ⟨_, _, rfl, _⟩ := allLike_cons.1 items
      rfl
  | null | bool | int | float | text => simp_all

end ScriptTree.Value
