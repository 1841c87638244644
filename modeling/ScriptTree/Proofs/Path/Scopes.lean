import ScriptTree.Explorer.Report
import ScriptTree.Proofs.Path.Ancestry
import ScriptTree.Proofs.Tree.Lookup

/-!
Scopes share out what lies below the root of a tree. The scope that a path lies in is established by
the path or by one above it, so a search downwards from there meets the path, and no other scope
claims it.
-/
namespace ScriptTree

/-- A part of a list without repetitions holds all that passes a test, if nothing else passes it. -/
theorem filter_of_stretch {α : Type} {l m : List α} {t : α → Bool} (stretch : m <:+: l)
    (nodup : l.Nodup) (inside : ∀ x ∈ l, t x → x ∈ m) : m.filter t = l.filter t := by
  obtain ⟨before, after, rfl⟩ := stretch
  obtain ⟨front, _, late⟩ := List.nodup_append'.mp nodup
  obtain ⟨_, _, early⟩ := List.nodup_append'.mp front
  have first : before.filter t = [] := List.filter_eq_nil_iff.mpr fun x mem passes =>
    early mem (inside x (by simp [mem]) passes)
  have last : after.filter t = [] := List.filter_eq_nil_iff.mpr fun x mem passes =>
    late (List.mem_append_right before (inside x (by simp [mem]) passes)) mem
  rw [List.filter_append, List.filter_append, first, last, List.nil_append, List.append_nil]

/-- A step that gives a result for each item of a list gives them all, in order. -/
theorem mapM_ok {α β : Type} {f : α → Except Error β} {l : List α}
    (answers : ∀ x ∈ l, ∃ y, f x = .ok y) :
    ∃ ys, l.mapM f = .ok ys ∧ List.Forall₂ (fun x y => f x = .ok y) l ys ∧
      ∀ y, y ∈ ys ↔ ∃ x ∈ l, f x = .ok y := by
  induction l with
  | nil => exact ⟨[], rfl, .nil, by simp⟩
  | cons x l ih =>
    obtain ⟨y, answer⟩ := answers x List.mem_cons_self
    obtain ⟨ys, rest, all, mem⟩ := ih fun z mem => answers z (List.mem_cons_of_mem x mem)
    refine ⟨y :: ys, ?_, .cons answer all, fun z => ?_⟩
    · rw [List.mapM_cons, answer, ok_bind, rest]
      rfl
    · simp [mem, answer, eq_comm]

theorem mapM_text {texts : List Text} : (texts.map Value.text).mapM Value.text? = some texts := by
  induction texts with
  | nil => rfl
  | cons t texts ih =>
    rw [List.map_cons, List.mapM_cons, ih]
    rfl

/-- Names that are texts can be put in order. -/
theorem sortedNames_texts {names : List Value} (texts : ∀ name ∈ names, ∃ t, name = .text t) :
    ∃ sorted : List Text, sortedNames names = .ok (sorted.map .text) := by
  have listed : ∃ all : List Text, names = all.map .text := by
    induction names with
    | nil => exact ⟨[], rfl⟩
    | cons name names ih =>
      obtain ⟨t, rfl⟩ := texts name List.mem_cons_self
      obtain ⟨all, rfl⟩ := ih fun other mem => texts other (List.mem_cons_of_mem _ mem)
      exact ⟨t :: all, rfl⟩
  obtain ⟨all, rfl⟩ := listed
  exact ⟨all.mergeSort Text.precedes, by rw [sortedNames, mapM_text]⟩

/-- The distinct ones among some values are of them, each of the values is one or equals one, and no
later one is equal to an earlier one. -/
structure Distinct (values seen : List Value) : Prop where
  mem : ∀ v ∈ seen, v ∈ values
  covers : ∀ v ∈ values, v ∈ seen ∨ ∃ w ∈ seen, w.same v
  apart : seen.Pairwise fun v w => ¬v.same w

section Distinct

variable {values seen : List Value} {v : Value}

theorem Distinct.collect (distinct : Distinct values seen) (key : v.canBeKey) :
    ∃ more, ScriptTree.collect seen v = .ok more ∧ Distinct (values ++ [v]) more := by
  rw [ScriptTree.collect, key, Bool.not_true, if_neg Bool.false_ne_true]
  have held {w : Value} (mem : w ∈ values) : w ∈ values ++ [v] := List.mem_append_left _ mem
  split
  · rename_i found
    refine ⟨seen, rfl, fun w mem => held (distinct.mem w mem), fun w mem => ?_, distinct.apart⟩
    rcases List.mem_append.mp mem with mem | last
    · exact distinct.covers w mem
    · cases List.mem_singleton.mp last
      exact .inr (List.any_eq_true.mp found)
  · rename_i none
    refine ⟨seen ++ [v], rfl, fun w mem => ?_, fun w mem => ?_, ?_⟩
    · exact (List.mem_append.mp mem).elim (fun mem => held (distinct.mem w mem))
        (List.mem_append_right values)
    · rcases List.mem_append.mp mem with mem | last
      · exact (distinct.covers w mem).imp (List.mem_append_left _)
          fun ⟨u, mem, same⟩ => ⟨u, List.mem_append_left _ mem, same⟩
      · exact .inl (List.mem_append_right seen last)
    · refine List.pairwise_append.mpr ⟨distinct.apart, List.pairwise_singleton .., ?_⟩
      intro w mem u last same
      cases List.mem_singleton.mp last
      exact none (List.any_eq_true.mpr ⟨w, mem, same⟩)

/-- Values that are read one after the other, and can be keys, are collected to the distinct ones.
-/
theorem Distinct.run {α : Type} {read : α → Except Error Value} {found : List α} {more : List Value}
    (reads : List.Forall₂ (fun x v => read x = .ok v) found more) (keys : ∀ v ∈ more, v.canBeKey)
    (distinct : Distinct values seen) :
    ∃ all, found.foldlM (fun seen x => do ScriptTree.collect seen (← read x)) seen = .ok all ∧
      Distinct (values ++ more) all := by
  induction reads generalizing values seen with
  | nil => exact ⟨seen, rfl, by rwa [List.append_nil]⟩
  | @cons x v _ more first rest ih =>
    obtain ⟨next, collected, distinct⟩ := distinct.collect (keys v List.mem_cons_self)
    obtain ⟨all, answer, distinct⟩ :=
      ih (fun w mem => keys w (List.mem_cons_of_mem v mem)) distinct
    refine ⟨all, ?_, by rwa [List.append_cons]⟩
    rw [List.foldlM_cons, first, ok_bind, collected, ok_bind, answer]

end Distinct

namespace Scope

/-- The paths that establish a scope and those around it. -/
def paths (s : Scope) : List Path := s.path :: s.outer

variable {s : Scope}

theorem enclosing_paths : s.enclosing.paths ⊆ s.paths := by
  obtain ⟨p, outer⟩ := s
  cases outer with
  | nil => exact List.Subset.refl _
  | cons q rest => exact List.subset_cons_self p (q :: rest)

theorem nearest_paths {p : Path} {outer : List Path} :
    (functionScope.nearest p outer).paths ⊆ p :: outer := by
  induction outer generalizing p with
  | nil => exact List.Subset.refl _
  | cons q rest ih =>
    rw [functionScope.nearest]
    split
    · exact List.Subset.refl _
    · exact List.subset_cons_of_subset p ih

theorem functionScope_paths : s.functionScope.paths ⊆ s.paths := nearest_paths

end Scope

namespace Test

def passes (t : Test) (p : Path) : Bool := t p matches .ok true

variable {t : Test} {p : Path} {c : Collection}

theorem passes_of_ok {b : Bool} (answer : t p = .ok b) : t.passes p = b := by
  rw [passes, answer]
  cases b <;> rfl

theorem filterAux_ok (answers : ∀ p ∈ c, ∃ b, t p = .ok b) (before : List Path) :
    List.filterAuxM t c before = .ok ((List.filter t.passes c).reverse ++ before) := by
  induction c generalizing before with
  | nil => rfl
  | cons p c ih =>
    obtain ⟨b, answer⟩ := answers p List.mem_cons_self
    have rest := ih fun q mem => answers q (List.mem_cons_of_mem p mem)
    rw [List.filterAuxM, answer, ok_bind, rest, List.filter_cons, passes_of_ok answer]
    cases b <;> simp

/-- A test that always answers keeps the paths that pass it. -/
theorem filter_ok (answers : ∀ p ∈ c, ∃ b, t p = .ok b) :
    Collection.filter c t = .ok (List.filter t.passes c) := by
  rw [Collection.filter, List.filterM, filterAux_ok answers, ok_bind, List.append_nil,
    List.reverse_reverse]
  rfl

end Test

namespace Value

variable {v : Value} {vs : List Value} {n : Notes} {kind : Kind}

/-- All valid nodes count as nodes. -/
theorem isKind_node (valid : v.validate true = .ok ()) : v.isKind .node := by
  obtain ⟨k, vs, n, rfl⟩ := node_of_validate valid
  obtain ⟨d, known, _⟩ := validate_node_iff.mp valid
  have found := (definitionOf_ok known).1
  have wider : ∀ d ∈ Vocabulary.standard, d.kind = .node ∨ .node ∈ d.supertypes := by decide
  have named : d.kind = k := by simpa using List.find?_some found
  rw [isKind, isKindIn, Vocabulary.includes, Vocabulary.groups, found]
  rcases wider d (List.mem_of_find?_eq_some found) with self | group
  · simp [← named, self]
  · simp [group]

/-- Nodes of a kind that is no group are of no other kind. -/
theorem node_of_isKind (leaf : ∀ d ∈ Vocabulary.standard, kind ∉ d.supertypes)
    (isKind : v.isKind kind) : ∃ vs n, v = .node kind vs n := by
  cases v with
  | node k vs n =>
    refine ⟨vs, n, ?_⟩
    rw [Value.isKind, isKindIn, Vocabulary.includes, Vocabulary.groups] at isKind
    split at isKind
    · rename_i d found
      have none := leaf d (List.mem_of_find?_eq_some found)
      simp only [Bool.or_eq_true, beq_iff_eq, List.contains_eq_mem, List.mem_cons, none,
        or_false, decide_eq_true_eq] at isKind
      rw [isKind.elim id Eq.symm]
    · simp only [Bool.or_eq_true, beq_iff_eq, List.contains_eq_mem, List.mem_singleton,
        decide_eq_true_eq] at isKind
      rw [isKind.elim id Eq.symm]
  | _ => cases isKind

theorem field_of_valid (name : String) (valid : (node kind vs n).validate true = .ok ())
    (index : ((Vocabulary.standard.find? kind).bind (·.indexOf? name)).isSome) :
    ∃ w, (node kind vs n).field name = .ok w := by
  obtain ⟨d, known, _⟩ := validate_node_iff.mp valid
  rw [(definitionOf_ok known).1, Option.bind_some, Option.isSome_iff_exists] at index
  obtain ⟨i, index⟩ := index
  rw [field, definition, known, ok_bind, Definition.index, index]
  exact ⟨_, rfl⟩

end Value

namespace Path

open Value

variable {p q top : Path} {kind : Kind}

/-- The scopes around a path are established by the path or by paths above it. -/
theorem scope_paths (p : Path) : ∀ r ∈ p.scope.paths, r.establishes ∧ (r = p ∨ r ∈ p.above) := by
  induction p with
  | root tree v =>
    intro r mem
    cases List.mem_singleton.mp mem
    exact ⟨rfl, .inl rfl⟩
  | child parent v field index ih =>
    have around : ∀ s : Scope, s.paths ⊆ parent.scope.paths → ∀ r ∈ s.paths,
        r.establishes ∧
          (r = child parent v field index ∨ r ∈ (child parent v field index).above) := by
      intro s within r mem
      obtain ⟨establishes, above⟩ := ih r (within mem)
      exact ⟨establishes, .inr (List.mem_cons.mpr above)⟩
    rw [scope, scopeKnowing]
    split
    · rename_i establishes
      intro r mem
      rcases List.mem_cons.mp mem with rfl | mem
      · exact ⟨establishes, .inl rfl⟩
      · exact around _ (List.Subset.refl _) r mem
    · split
      · exact around _ Scope.enclosing_paths
      · split
        · exact around _ Scope.functionScope_paths
        · exact around _ (List.Subset.refl _)

theorem scope_establishes (p : Path) : p.scope.path.establishes :=
  (scope_paths p _ List.mem_cons_self).1

/-- A scope that a path establishes is its own. -/
theorem scope_of_establishes (establishes : p.establishes) : p.scope.path = p := by
  cases p with
  | root => rfl
  | child =>
    rw [scope, scopeKnowing, if_pos establishes]

/-- A path that establishes no scope lies in one that is established above it. -/
theorem scope_above (inner : p.establishes = false) : p.scope.path ∈ p.above := by
  rcases (scope_paths p _ List.mem_cons_self).2 with self | above
  · have establishes := scope_establishes p
    rw [self, inner] at establishes
    cases establishes
  · exact above

theorem Within.scope (first : top.above = []) (within : Within top p) :
    Within top p.scope.path := by
  rcases (scope_paths p _ List.mem_cons_self).2 with self | above
  · rwa [self]
  · rcases within with rfl | under
    · rw [first] at above
      cases above
    · exact (under.of_above first above).1

theorem Within.same_iff (first : top.above = []) (left : Within top p) (right : Within top q) :
    p.scope.same q.scope ↔ p.scope.path = q.scope.path :=
  (left.scope first).samePlace_iff first (right.scope first)

theorem mem_within (valid : top.value.validate true = .ok ()) :
    p ∈ top :: top.descendants.paths ↔ Within top p := by
  rw [List.mem_cons, mem_descendants_iff valid, Within]

theorem find_ok (valid : p.value.validate true = .ok ()) :
    Collection.find [p] (Test.ofKind kind) =
      .ok (p.descendants.paths.filter (·.value.isKind kind)) := by
  have found : p.descendants.paths.filterM (Test.ofKind kind) =
      .ok (p.descendants.paths.filter (·.value.isKind kind)) := by
    have answers := Test.filter_ok (t := Test.ofKind kind) (c := p.descendants.paths)
      fun q _ => ⟨_, rfl⟩
    have passes : (Test.ofKind kind).passes = fun q => q.value.isKind kind :=
      funext fun q => Test.passes_of_ok rfl
    rwa [passes] at answers
  simp only [Collection.find, List.mapM_cons, List.mapM_nil, Collection.ofWalk, found,
    descendants_fault valid, ok_bind, pure_ok, List.flatten_cons, List.flatten_nil,
    List.append_nil]

/-- In the scope that a path of a tree lies in are the paths below the root that establish none
and lie in the same. -/
theorem nodesInScope_ok (first : top.above = []) (valid : top.value.validate true = .ok ())
    (within : Within top q) : q.nodesInScope kind = .ok (top.descendants.paths.filter fun p =>
      p.value.isKind kind && (!p.establishes && p.scope.same q.scope)) := by
  have home := within.scope first
  have homeValid := home.valid valid
  rw [nodesInScope, Scope.nodes, find_ok homeValid, ok_bind, pure_ok, List.filter_filter]
  congr 1
  have same : ∀ {p : Path}, Within top p →
      (p.scope.same q.scope ↔ p.scope.path = q.scope.path) :=
    fun inside => inside.same_iff first within
  have stretch : q.scope.path.descendants.paths <:+: top.descendants.paths := by
    rcases home with home | under
    · rw [home]
    · exact under.stretch valid
  calc q.scope.path.descendants.paths.filter (fun p => p.scope.same q.scope && p.value.isKind kind)
      = q.scope.path.descendants.paths.filter
          (fun p => p.value.isKind kind && (!p.establishes && p.scope.same q.scope)) := by
        -- below the scope's path, one that establishes a scope lies in another
        refine List.filter_congr fun p mem => ?_
        have under := (mem_descendants_iff homeValid).mp mem
        have inside : Within top p := by
          rcases home with home | above
          · exact .inr (home ▸ under)
          · exact .inr (above.trans under)
        cases establishes : p.establishes with
        | false => simp [Bool.and_comm]
        | true =>
          have other : ¬p.scope.same q.scope := by
            rw [same inside, scope_of_establishes establishes]
            rintro rfl
            exact Under.irrefl under
          simp [Bool.eq_false_iff.mpr other]
    _ = _ := by
        -- a path that lies in the scope is below the path that establishes it
        refine filter_of_stretch stretch (descendants_nodup valid) fun p mem passes => ?_
        simp only [Bool.and_eq_true, Bool.not_eq_true'] at passes
        obtain ⟨_, inner, lies⟩ := passes
        have under := (mem_descendants_iff valid).mp mem
        have above := scope_above inner
        rw [(same (.inr under)).mp lies] at above
        exact (mem_descendants_iff homeValid).mpr (under.of_above first above).2

/-- An identifier that names no property. -/
def IsVariable (p : Path) : Prop := p.value.isKind .identifier ∧ p.isPropertyName = .ok false

theorem isPropertyName_ok (first : top.above = []) (valid : top.value.validate true = .ok ())
    (within : Within top p) : ∃ b, p.isPropertyName = .ok b := by
  cases p with
  | root => exact ⟨false, rfl⟩
  | child parent v field index =>
    have valid := (within.parent first).1.valid valid
    simp only [isPropertyName]
    split
    · rename_i isKind
      obtain ⟨vs, n, owner⟩ := node_of_isKind (by decide) isKind
      rw [owner] at valid ⊢
      obtain ⟨w, computed⟩ := field_of_valid "computed" valid rfl
      rw [computed]
      exact ⟨_, rfl⟩
    · split
      · rename_i isKind
        obtain ⟨vs, n, owner⟩ := node_of_isKind (by decide) isKind
        rw [owner] at valid ⊢
        obtain ⟨w, computed⟩ := field_of_valid "computed" valid rfl
        obtain ⟨u, shorthand⟩ := field_of_valid "shorthand" valid rfl
        rw [computed, shorthand]
        exact ⟨_, rfl⟩
      · exact ⟨_, rfl⟩

theorem establishes_identifier (isKind : p.value.isKind .identifier) (under : Under top p) :
    p.establishes = false := by
  obtain ⟨vs, n, value⟩ := node_of_isKind (by decide) isKind
  cases p with
  | root => cases under.above
  | child parent v field index =>
    cases value
    rfl

theorem name_ok (valid : p.value.validate true = .ok ()) (isKind : p.value.isKind .identifier) :
    ∃ name, p.value.field "name" = .ok name ∧ name.canBeKey := by
  obtain ⟨vs, n, value⟩ := node_of_isKind (by decide) isKind
  rw [value] at valid ⊢
  obtain ⟨d, known, fit⟩ := validate_node_iff.mp valid
  cases (definitionOf_ok known).1
  cases fit with
  | @cons _ _ w _ scalar rest =>
    cases rest
    refine ⟨w, fields_of .identifier, ?_⟩
    cases w with
    | list | node => cases scalar
    | _ => rfl

/-- The variables in the scope that a path of a tree lies in. -/
theorem identifiers_ok (first : top.above = []) (valid : top.value.validate true = .ok ())
    (within : Within top q) : ∃ found, q.scope.identifiers = .ok found ∧
      ∀ p, p ∈ found ↔ Under top p ∧ p.IsVariable ∧ p.scope.path = q.scope.path := by
  have answers : ∀ p, Under top p → ∃ b, p.isPropertyName = .ok b ∧
      Test.negate isPropertyName p = .ok !b := by
    intro p under
    obtain ⟨b, answer⟩ := isPropertyName_ok first valid (.inr under)
    exact ⟨b, answer, by rw [Test.negate, answer]; rfl⟩
  have nodes : q.scope.nodes .identifier = _ := nodesInScope_ok first valid within
  rw [Scope.identifiers, nodes, ok_bind, Test.filter_ok]
  · refine ⟨_, rfl, fun p => ?_⟩
    simp only [List.mem_filter, mem_descendants_iff valid, Bool.and_eq_true, Bool.not_eq_true']
    constructor
    · rintro ⟨⟨under, isKind, _, same⟩, passes⟩
      obtain ⟨b, answer, negated⟩ := answers p under
      rw [Test.passes_of_ok negated, Bool.not_eq_true'] at passes
      subst passes
      exact ⟨under, ⟨isKind, answer⟩, (Within.same_iff first (.inr under) within).mp same⟩
    · rintro ⟨under, ⟨isKind, answer⟩, same⟩
      obtain ⟨b, answer', negated⟩ := answers p under
      cases answer.symm.trans answer'
      refine ⟨⟨under, isKind, establishes_identifier isKind under, ?_⟩, Test.passes_of_ok negated⟩
      exact (Within.same_iff first (.inr under) within).mpr same
  · intro p mem
    have under := (mem_descendants_iff valid).mp (List.mem_filter.mp mem).1
    obtain ⟨b, _, negated⟩ := answers p under
    exact ⟨_, negated⟩

/-- The variables in the scope that a path of a tree lies in have names, which can be keys. -/
theorem variables_named (first : top.above = []) (valid : top.value.validate true = .ok ())
    (within : Within top q) : ∃ found names, q.scope.identifiers = .ok found ∧
      found.mapM (fun p => p.value.field "name") = .ok names ∧
      List.Forall₂ (fun p name => p.value.field "name" = .ok name) found names ∧
      (∀ name ∈ names, name.canBeKey) ∧
      ∀ name, name ∈ names ↔ ∃ p, Under top p ∧ p.IsVariable ∧ p.scope.path = q.scope.path ∧
        p.value.field "name" = .ok name := by
  obtain ⟨found, known, mem_found⟩ := identifiers_ok first valid within
  have named : ∀ p ∈ found, ∃ name, p.value.field "name" = .ok name ∧ name.canBeKey := by
    intro p mem
    obtain ⟨under, isVariable, _⟩ := (mem_found p).mp mem
    exact name_ok (under.valid valid) isVariable.1
  obtain ⟨names, answer, reads, mem⟩ :=
    mapM_ok fun p mem => (named p mem).imp fun _ => And.left
  refine ⟨found, names, known, answer, reads, fun name here => ?_, fun name => ?_⟩
  · obtain ⟨p, inside, held⟩ := (mem name).mp here
    obtain ⟨other, again, key⟩ := named p inside
    cases held.symm.trans again
    exact key
  · simp only [mem, mem_found, and_assoc]

/-- The names that would clash in the scope that a path of a tree lies in are those of its
variables. -/
theorem occurrences_ok (first : top.above = []) (valid : top.value.validate true = .ok ())
    (within : Within top q) : ∃ names, q.scope.occurrences = .ok names ∧
      ∀ name, name ∈ names ↔ ∃ p, Under top p ∧ p.IsVariable ∧ p.scope.path = q.scope.path ∧
        p.value.field "name" = .ok name := by
  obtain ⟨found, names, known, answer, _, _, mem⟩ := variables_named first valid within
  exact ⟨names, by rw [Scope.occurrences, known, ok_bind, answer], mem⟩

/-- The paths of a tree that establish scopes, in pre-order. -/
def scopes (top : Path) : List Path := (top :: top.descendants.paths).filter (·.establishes)

theorem mem_scopes (valid : top.value.validate true = .ok ()) :
    p ∈ top.scopes ↔ Within top p ∧ p.establishes := by
  rw [scopes, List.mem_filter, mem_within valid]

/-- A path below the root occurs once among those that pass a test if it passes, else never. -/
theorem countP_samePlace {t : Path → Bool} (first : top.above = [])
    (valid : top.value.validate true = .ok ()) (mem : p ∈ top.descendants.paths) :
    (top.descendants.paths.filter t).countP p.samePlace = if t p then 1 else 0 := by
  classical
  have within : ∀ q ∈ top.descendants.paths, Within top q :=
    fun q mem => .inr ((mem_descendants_iff valid).mp mem)
  have places : (top.descendants.paths.filter t).countP p.samePlace =
      (top.descendants.paths.filter t).count p := by
    refine List.countP_congr fun q found => ?_
    have inside := within q (List.mem_filter.mp found).1
    rw [(within p mem).samePlace_iff first inside, beq_iff_eq, eq_comm]
  rw [places]
  split
  · rename_i passes
    have nodup := (descendants_nodup valid).filter t
    exact List.count_eq_one_of_mem nodup (List.mem_filter.mpr ⟨mem, passes⟩)
  · rename_i fails
    exact List.count_eq_zero.mpr fun found => fails (List.mem_filter.mp found).2

/-- A variable is one of the identifiers of a single scope. -/
theorem IsVariable.scope_unique (first : top.above = []) (valid : top.value.validate true = .ok ())
    (isVariable : p.IsVariable) (under : Under top p) : ∃! e, e ∈ top.scopes ∧
      ∃ found, e.scope.identifiers = .ok found ∧ p ∈ found := by
  have home : Within top p.scope.path := Within.scope first (.inr under)
  have self := scope_of_establishes (scope_establishes p)
  refine ⟨p.scope.path, ⟨(mem_scopes valid).mpr ⟨home, scope_establishes p⟩, ?_⟩, ?_⟩
  · obtain ⟨found, known, mem⟩ := identifiers_ok first valid home
    exact ⟨found, known, (mem p).mpr ⟨under, isVariable, self.symm⟩⟩
  · rintro e ⟨scope, found, known, here⟩
    obtain ⟨within, establishes⟩ := (mem_scopes valid).mp scope
    obtain ⟨found', known', mem⟩ := identifiers_ok first valid within
    cases known.symm.trans known'
    obtain ⟨_, _, same⟩ := (mem p).mp here
    rw [same, scope_of_establishes establishes]

/-- The root of a tree mentions a name if a variable below it has the name. -/
def Mentions (top : Path) (name : Value) : Prop :=
  ∃ p ∈ top.descendants.paths, p.IsVariable ∧ p.value.field "name" = .ok name

/-- The names in the scopes of a tree are the names that the tree mentions. -/
theorem mentions_iff {name : Value} (first : top.above = [])
    (valid : top.value.validate true = .ok ()) :
    (∃ e ∈ top.scopes, ∃ names, e.scope.occurrences = .ok names ∧ name ∈ names) ↔
      top.Mentions name := by
  constructor
  · rintro ⟨e, scope, names, known, mem⟩
    obtain ⟨names', known', mem_names⟩ :=
      occurrences_ok first valid ((mem_scopes valid).mp scope).1
    cases known.symm.trans known'
    obtain ⟨p, under, isVariable, _, named⟩ := (mem_names name).mp mem
    exact ⟨p, (mem_descendants_iff valid).mpr under, isVariable, named⟩
  · rintro ⟨p, below, isVariable, named⟩
    have under := (mem_descendants_iff valid).mp below
    have home : Within top p.scope.path := Within.scope first (.inr under)
    have establishes := scope_establishes p
    obtain ⟨names, known, mem⟩ := occurrences_ok first valid home
    refine ⟨p.scope.path, (mem_scopes valid).mpr ⟨home, establishes⟩, names, known, ?_⟩
    exact (mem name).mpr ⟨p, under, isVariable, (scope_of_establishes establishes).symm, named⟩

/-- The names in the scope that a path of a tree lies in are those of its variables, of which no two
are equal. -/
theorem namesInScope_ok (first : top.above = []) (valid : top.value.validate true = .ok ())
    (within : Within top q) : ∃ names, q.namesInScope = .ok names ∧
      (∀ name ∈ names, ∃ p ∈ top.descendants.paths, p.IsVariable ∧ p.scope.same q.scope ∧
        p.value.field "name" = .ok name) ∧
      (∀ p ∈ top.descendants.paths, p.IsVariable → p.scope.same q.scope →
        ∃ name, p.value.field "name" = .ok name ∧
          (name ∈ names ∨ ∃ held ∈ names, held.same name)) ∧
      names.Pairwise fun a b => ¬a.same b := by
  obtain ⟨found, all, known, _, reads, keys, mem⟩ := variables_named first valid within
  have none : Distinct [] [] := ⟨nofun, nofun, .nil⟩
  obtain ⟨names, answer, distinct⟩ := none.run reads keys
  rw [List.nil_append] at distinct
  refine ⟨names, by rw [namesInScope, Scope.names, known, ok_bind, answer], fun name here => ?_,
    fun p below isVariable same => ?_, distinct.apart⟩
  · obtain ⟨p, under, isVariable, same, named⟩ := (mem name).mp (distinct.mem name here)
    exact ⟨p, (mem_descendants_iff valid).mpr under, isVariable,
      (Within.same_iff first (.inr under) within).mpr same, named⟩
  · have under := (mem_descendants_iff valid).mp below
    have same := (Within.same_iff first (.inr under) within).mp same
    obtain ⟨name, named, _⟩ := name_ok (under.valid valid) isVariable.1
    exact ⟨name, named, distinct.covers name ((mem name).mpr ⟨p, under, isVariable, same, named⟩)⟩

end Path

namespace Explorer

theorem scopeLine_ok {e : Path} {names : List Value} (valid : e.value.validate true = .ok ())
    (known : e.namesInScope = .ok names) (texts : ∀ name ∈ names, ∃ t, name = .text t) :
    ∃ line, scopeLine e = .ok line := by
  obtain ⟨k, vs, n, value⟩ := Value.node_of_validate valid
  obtain ⟨sorted, answer⟩ := sortedNames_texts texts
  rw [scopeLine, known, ok_bind, answer, ok_bind, value]
  simp only [mapM_text]
  exact ⟨_, rfl⟩

/-- The report has a line for every path that establishes a scope, in pre-order. -/
theorem scopeReport_ok {top : Path} {v : Value} (tree : top = .root 0 v)
    (valid : top.value.validate true = .ok ())
    (texts : ∀ name, top.Mentions name → ∃ t, name = .text t) :
    ∃ lines, scopeReport v = .ok lines ∧
      List.Forall₂ (fun e line => scopeLine e = .ok line) top.scopes lines := by
  have answers : ∀ e ∈ top.scopes, ∃ line, scopeLine e = .ok line := by
    intro e mem
    have within := ((Path.mem_scopes valid).mp mem).1
    obtain ⟨names, known, mem, _⟩ := Path.namesInScope_ok (by rw [tree]; rfl) valid within
    refine scopeLine_ok (within.valid valid) known fun name here => ?_
    obtain ⟨p, below, isVariable, _, named⟩ := mem name here
    exact texts name ⟨p, below, isVariable, named⟩
  obtain ⟨lines, made, all, _⟩ := mapM_ok answers
  refine ⟨lines, ?_, all⟩
  rw [Path.scopes, tree] at made
  rw [tree] at valid
  simp only [scopeReport, Path.descendants_fault valid, made, ok_bind, pure_ok]

end Explorer

/-- Scopes share out the nodes below the root of a valid tree. In the scope of any path are exactly
the paths of the walk that establish none and lie in the same scope, each once, and the walk is in
pre-order. Every identifier that names no property is one of the identifiers of a single scope, and
the names of all scopes are those of these identifiers; those that would clash in a scope are the
names of its own ones, each once. If all names are texts, each scope has a line of the report. -/
theorem scopes_partition (v : Value) (valid : v.validate true = .ok ()) :
    (∀ tree : Nat,
      let top := Path.root tree v
      let below := top.descendants.paths
      (∀ q ∈ top :: below, ∃ found, q.nodesInScope .node = .ok found ∧
        found = below.filter (fun p => !p.establishes && p.scope.same q.scope) ∧
        ∀ p ∈ below, found.countP p.samePlace =
          if !p.establishes && p.scope.same q.scope then 1 else 0) ∧
      (∀ p ∈ top :: below,
        p.descendants.paths = p.children.flatMap fun c => c :: c.descendants.paths) ∧
      (∀ p ∈ below, p.IsVariable → ∃! e, e ∈ top.scopes ∧
        ∃ found, e.scope.identifiers = .ok found ∧ p ∈ found) ∧
      (∀ name, (∃ e ∈ top.scopes, ∃ names, e.scope.occurrences = .ok names ∧ name ∈ names) ↔
        top.Mentions name) ∧
      (∀ e ∈ top.scopes, ∃ names, e.namesInScope = .ok names ∧
        (∀ name ∈ names, ∃ p ∈ below, p.IsVariable ∧ p.scope.same e.scope ∧
          p.value.field "name" = .ok name) ∧
        (∀ p ∈ below, p.IsVariable → p.scope.same e.scope →
          ∃ name, p.value.field "name" = .ok name ∧
            (name ∈ names ∨ ∃ held ∈ names, held.same name)) ∧
        names.Pairwise fun a b => ¬a.same b)) ∧
    ((∀ name, (Path.root 0 v).Mentions name → ∃ t, name = .text t) →
      ∃ lines, Explorer.scopeReport v = .ok lines ∧
        List.Forall₂ (fun e line => Explorer.scopeLine e = .ok line)
          (Path.root 0 v).scopes lines) := by
  refine ⟨fun tree => ?_, Explorer.scopeReport_ok rfl valid⟩
  intro top below
  have first : top.above = [] := rfl
  have valid : top.value.validate true = .ok () := valid
  refine ⟨fun q mem => ?_, fun p mem => ?_, fun p mem isVariable => ?_, fun name => ?_,
    fun e mem => ?_⟩
  · have within := (Path.mem_within valid).mp mem
    refine ⟨_, ?_, rfl, fun p mem => Path.countP_samePlace first valid mem⟩
    rw [Path.nodesInScope_ok first valid within]
    congr 1
    refine List.filter_congr fun p mem => ?_
    have under := (Path.mem_descendants_iff valid).mp mem
    rw [Value.isKind_node (under.valid valid), Bool.true_and]
  · exact Path.descendants_paths (((Path.mem_within valid).mp mem).valid valid)
  · exact isVariable.scope_unique first valid ((Path.mem_descendants_iff valid).mp mem)
  · exact Path.mentions_iff first valid
  · exact Path.namesInScope_ok first valid ((Path.mem_scopes valid).mp mem).1

/-- In `{ var x = f.x; }` the declared name lies in the scope of the program, and only there. -/
theorem scopes_partition_hoisted :
    let name (word : String) := Value.node .identifier [.text (text word)] {}
    let access := Value.node .memberExpression [name "f", name "x", .bool false] {}
    let declarator := Value.node .variableDeclarator [name "x", access] {}
    let declaration := Value.node .variableDeclaration
      [.text (text "var"), .list [declarator]] {}
    let block := Value.node .blockStatement [.list [declaration]] {}
    let program := Value.node .program [.list [block]] {}
    let top := Path.root 0 program
    let statement := (top.child block "body" (some 0)).child declaration "body" (some 0)
    let declared := (statement.child declarator "declarations" (some 0)).child (name "x") "id" none
    program.validate true = .ok () ∧ declared.IsVariable ∧ declared.scope.same top.scope ∧
      (∃ found, top.nodesInScope .node = .ok found ∧ found.countP declared.samePlace = 1) ∧
      (∃ found, statement.nodesInScope .node = .ok found ∧
        found.countP declared.samePlace = 0) ∧
      ∃! e, e ∈ top.scopes ∧ ∃ found, e.scope.identifiers = .ok found ∧ declared ∈ found := by
  intro name access declarator declaration block program top statement declared
  obtain ⟨nodes, _, unique, _⟩ := (scopes_partition program rfl).1 0
  have below : declared ∈ top.descendants.paths := .tail _ (.tail _ (.tail _ (.head _)))
  have isVariable : declared.IsVariable := ⟨rfl, rfl⟩
  refine ⟨rfl, isVariable, rfl, ?_, ?_, unique declared below isVariable⟩
  · obtain ⟨found, known, _, count⟩ := nodes top (.head _)
    exact ⟨found, known, count declared below⟩
  · obtain ⟨found, known, _, count⟩ := nodes statement (.tail _ (.tail _ (.head _)))
    exact ⟨found, known, count declared below⟩

end ScriptTree
