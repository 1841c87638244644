import ScriptTree.Proofs.Path.Scopes

/-!
The scope that two paths share. A scope knows all scopes around it, and it is always the one that
its own path lies in. So the chains of two paths of a tree agree from the first scope on that they
have in common, and that one is the innermost around both.
-/
namespace ScriptTree

namespace Scope

variable {s t u : Scope} {p : Path} {outer : List Path}

theorem self_mem_chain : s ∈ s.chain := by
  obtain ⟨p, _ | ⟨q, rest⟩⟩ := s <;> exact List.mem_cons_self

theorem outwards_split {before after : List Scope}
    (split : outwards p outer = before ++ s :: after) : s.chain = s :: after := by
  induction outer generalizing p before with
  | nil =>
    cases before with
    | nil =>
      cases split
      rfl
    | cons _ before =>
      have none : [] = before ++ s :: after := (List.cons.inj split).2
      cases before <;> cases none
  | cons q rest ih =>
    cases before with
    | nil =>
      cases split
      rfl
    | cons _ before => exact ih (List.cons.inj split).2

/-- From any of its scopes on, a chain is the chain of that scope. -/
theorem chain_suffix (mem : t ∈ s.chain) : t.chain <:+ s.chain := by
  obtain ⟨before, after, split⟩ := List.append_of_mem mem
  rw [split, outwards_split split]
  exact List.suffix_append ..

theorem length_chain : s.chain.length = s.depth + 1 := by
  obtain ⟨p, outer⟩ := s
  change (outwards p outer).length = outer.length + 1
  induction outer generalizing p with
  | nil => rfl
  | cons q rest ih => exact congrArg Nat.succ (ih q)

theorem depth_le (mem : t ∈ s.chain) : t.depth ≤ s.depth := by
  have shorter := (chain_suffix mem).length_le
  rw [length_chain, length_chain] at shorter
  exact Nat.le_of_succ_le_succ shorter

/-- Of two scopes in a chain the outer one is around the inner one. -/
theorem mem_chain_of_depth (first : t ∈ s.chain) (second : u ∈ s.chain)
    (outer : t.depth ≤ u.depth) : t ∈ u.chain := by
  have shorter : t.chain.length ≤ u.chain.length := by
    rw [length_chain, length_chain]
    exact Nat.succ_le_succ outer
  exact (List.suffix_of_suffix_length_le (chain_suffix first) (chain_suffix second) shorter).subset
    self_mem_chain

/-- Scopes that are around each other are one. -/
theorem chain_antisymm (inner : t ∈ s.chain) (outer : s ∈ t.chain) : s = t := by
  have chains := (chain_suffix outer).eq_of_length_le (chain_suffix inner).length_le
  obtain ⟨p, _ | ⟨q, rest⟩⟩ := s <;> obtain ⟨p', _ | ⟨q', rest'⟩⟩ := t <;>
    exact (List.cons.inj chains).1

theorem paths_subset (mem : t ∈ s.chain) : t.paths ⊆ s.paths := by
  obtain ⟨p, outer⟩ := s
  change t ∈ outwards p outer at mem
  induction outer generalizing p with
  | nil =>
    rw [List.mem_singleton.mp mem]
    exact List.Subset.refl _
  | cons q rest ih =>
    rcases List.mem_cons.mp mem with rfl | mem
    · exact List.Subset.refl _
    · exact List.subset_cons_of_subset p (ih q mem)

theorem enclosing_mem : s.enclosing ∈ s.chain := by
  obtain ⟨p, _ | ⟨q, rest⟩⟩ := s
  · exact self_mem_chain
  · exact List.mem_cons_of_mem _ (self_mem_chain (s := ⟨q, rest⟩))

theorem functionScope_mem : s.functionScope ∈ s.chain := by
  obtain ⟨p, outer⟩ := s
  change functionScope.nearest p outer ∈ outwards p outer
  induction outer generalizing p with
  | nil => exact List.mem_singleton.mpr rfl
  | cons q rest ih =>
    rw [functionScope.nearest]
    split
    · exact List.mem_cons_self
    · exact List.mem_cons_of_mem _ (ih q)

end Scope

namespace Path

open Value

variable {p q top : Path} {s t : Scope}

/-- A path opens a scope within that of the path before it, or lies in that one or in one around
it. -/
theorem scope_step {v : Value} {field : String} {index : Option Nat} :
    ((child p v field index).establishes ∧ (child p v field index).scope.chain =
        (child p v field index).scope :: p.scope.chain) ∨
      (child p v field index).scope ∈ p.scope.chain := by
  rw [scope, scopeKnowing]
  split
  · rename_i establishes
    exact .inl ⟨establishes, rfl⟩
  · refine .inr ?_
    split
    · exact Scope.enclosing_mem
    · split
      · exact Scope.functionScope_mem
      · exact Scope.self_mem_chain

/-- The scopes around a path are those that their own paths lie in. -/
theorem scope_of_mem_chain (mem : s ∈ p.scope.chain) : s.path.scope = s := by
  induction p with
  | root =>
    rw [List.mem_singleton.mp mem]
    rfl
  | child parent v field index ih =>
    rcases scope_step with ⟨establishes, opens⟩ | lies
    · rw [opens] at mem
      rcases List.mem_cons.mp mem with rfl | mem
      · rw [scope_of_establishes establishes]
      · exact ih mem
    · exact ih ((Scope.chain_suffix lies).subset mem)

/-- The scope of a tree's root is around every path of the tree. -/
theorem Within.root_mem_chain (first : top.above = []) (within : Within top p) :
    top.scope ∈ p.scope.chain := by
  have outermost : top.scope.depth = 0 := by
    cases top with
    | root => rfl
    | child => cases first
  have next : ∀ {q : Path} {part : Step × Value}, top.scope ∈ q.scope.chain →
      top.scope ∈ (q.next part).scope.chain := by
    intro q part mem
    rcases scope_step with ⟨_, opens⟩ | lies
    · exact opens ▸ List.mem_cons_of_mem _ mem
    · exact Scope.mem_chain_of_depth mem lies (by omega)
  rcases within with rfl | under
  · exact Scope.self_mem_chain
  · induction under with
    | step => exact next Scope.self_mem_chain
    | more _ _ ih => exact next ih

theorem Within.of_mem_chain (first : top.above = []) (within : Within top p)
    (mem : s ∈ p.scope.chain) : Within top s.path := by
  rcases (scope_paths p _ (Scope.paths_subset mem List.mem_cons_self)).2 with self | above
  · rwa [self]
  · rcases within with rfl | under
    · rw [first] at above
      cases above
    · exact (under.of_above first above).1

/-- Scopes around paths of one tree are the same only if they are equal. -/
theorem Within.same_chain_iff (first : top.above = []) (left : Within top p)
    (right : Within top q) (memLeft : s ∈ p.scope.chain) (memRight : t ∈ q.scope.chain) :
    s.same t ↔ s = t := by
  rw [Scope.same, (left.of_mem_chain first memLeft).samePlace_iff first
    (right.of_mem_chain first memRight)]
  constructor
  · intro same
    rw [← scope_of_mem_chain memLeft, same, scope_of_mem_chain memRight]
  · rintro rfl
    rfl

/-- Two paths of one tree share a scope, and whatever else is around both is around that one. -/
theorem Within.sharedScope_ok (first : top.above = []) (left : Within top p)
    (right : Within top q) : ∃ s, p.sharedScope q = .ok s ∧ s ∈ p.scope.chain ∧
      s ∈ q.scope.chain ∧ ∀ t ∈ p.scope.chain, t ∈ q.scope.chain → t ∈ s.chain := by
  -- what the search looks for is a scope that is also in the other chain
  have shared : ∀ s ∈ q.scope.chain, (p.scope.chain.any s.same ↔ s ∈ p.scope.chain) := by
    intro s memRight
    rw [List.any_eq_true]
    constructor
    · rintro ⟨t, memLeft, same⟩
      rwa [(right.same_chain_iff first left memRight memLeft).mp same]
    · exact fun memLeft =>
        ⟨s, memLeft, (right.same_chain_iff first left memRight memLeft).mpr rfl⟩
  rw [sharedScope]
  cases found : q.scope.chain.find? (fun s => p.scope.chain.any s.same) with
  | none =>
    have root := right.root_mem_chain first
    refine absurd ((shared _ root).mpr (left.root_mem_chain first)) ?_
    exact List.find?_eq_none.mp found _ root
  | some s =>
    obtain ⟨passes, before, after, split, earlier⟩ := List.find?_eq_some_iff_append.mp found
    have mem : s ∈ q.scope.chain := split ▸ List.mem_append_right before List.mem_cons_self
    refine ⟨s, rfl, (shared s mem).mp passes, mem, fun t memLeft memRight => ?_⟩
    have common := (shared t memRight).mpr memLeft
    rw [split] at memRight
    rcases List.mem_append.mp memRight with skipped | later
    · have missed := earlier t skipped
      rw [common] at missed
      cases missed
    · rwa [Scope.outwards_split split]

theorem tree_of_mem_above {r : Path} (above : r ∈ p.above) : r.tree = p.tree := by
  induction p with
  | root => cases above
  | child parent v field index ih =>
    rcases List.mem_cons.mp above with rfl | above
    · rfl
    · exact ih above

theorem tree_of_samePlace (same : p.samePlace q) : p.tree = q.tree := by
  induction p generalizing q with
  | root =>
    cases q with
    | root => exact beq_iff_eq.mp same
    | child => cases same
  | child parent v field index ih =>
    cases q with
    | root => cases same
    | child =>
      simp only [samePlace, Bool.and_eq_true] at same
      have before := ih same.2
      exact before

theorem tree_of_mem_chain (mem : s ∈ p.scope.chain) : s.path.tree = p.tree := by
  rcases (scope_paths p _ (Scope.paths_subset mem List.mem_cons_self)).2 with self | above
  · rw [self]
  · exact tree_of_mem_above above

/-- Nodes of different trees share no scope. -/
theorem sharedScope_separate (other : p.tree ≠ q.tree) (isNode : p.value.isNode) :
    p.sharedScope q = .error .separateTrees := by
  have none : q.scope.chain.find? (fun s => p.scope.chain.any s.same) = none := by
    refine List.find?_eq_none.mpr fun s memRight found => other ?_
    obtain ⟨t, memLeft, same⟩ := List.any_eq_true.mp found
    rw [← tree_of_mem_chain memLeft, ← tree_of_mem_chain memRight, tree_of_samePlace same]
  obtain ⟨_, _, _, node⟩ : ∃ k vs n, p.value = .node k vs n := by
    cases value : p.value <;> simp_all [Value.isNode]
  rw [sharedScope, none, node]
  rfl

end Path

/-- The shared scope of two paths of a valid tree is the lowest one around both: it is among the
scopes outwards from each, established by the path or above it, and every scope that is the same in
both chains is that one or around it. It does not matter which path comes first, and two paths in
one scope share that one. Nodes of two trees share none. -/
theorem sharedScope_lowest (v : Value) (valid : v.validate true = .ok ()) :
    (∀ tree : Nat,
      let top := Path.root tree v
      ∀ a ∈ top :: top.descendants.paths, ∀ b ∈ top :: top.descendants.paths,
        ∃ s, a.sharedScope b = .ok s ∧ s ∈ a.scope.chain ∧ s ∈ b.scope.chain ∧
          (s.path = a ∨ s.path ∈ a.above) ∧ (s.path = b ∨ s.path ∈ b.above) ∧
          (∀ t ∈ a.scope.chain, ∀ u ∈ b.scope.chain, t.same u →
            t ∈ s.chain ∧ t.depth ≤ s.depth) ∧
          b.sharedScope a = .ok s ∧ (a.scope.same b.scope → s = a.scope)) ∧
    (∀ a b : Path, a.tree ≠ b.tree → a.value.isNode →
      a.sharedScope b = .error .separateTrees) := by
  refine ⟨fun tree => ?_, fun a b other isNode => Path.sharedScope_separate other isNode⟩
  intro top a memA b memB
  have first : top.above = [] := rfl
  have valid : top.value.validate true = .ok () := valid
  have left := (Path.mem_within valid).mp memA
  have right := (Path.mem_within valid).mp memB
  obtain ⟨s, shared, memLeft, memRight, lowest⟩ := left.sharedScope_ok first right
  obtain ⟨t, swapped, memRight', memLeft', lowest'⟩ := right.sharedScope_ok first left
  have place {p : Path} {s : Scope} (mem : s ∈ p.scope.chain) :
      s.path = p ∨ s.path ∈ p.above :=
    (Path.scope_paths p _ (Scope.paths_subset mem List.mem_cons_self)).2
  refine ⟨s, shared, memLeft, memRight, place memLeft, place memRight,
    fun t memT u memU same => ?_, ?_, fun same => ?_⟩
  · rw [← (left.same_chain_iff first right memT memU).mp same] at memU
    have outer := lowest t memT memU
    exact ⟨outer, Scope.depth_le outer⟩
  · rwa [Scope.chain_antisymm (lowest t memLeft' memRight') (lowest' s memRight memLeft)]
  · have equal :=
      (left.same_chain_iff first right Scope.self_mem_chain Scope.self_mem_chain).mp same
    exact Scope.chain_antisymm (lowest _ Scope.self_mem_chain (equal ▸ Scope.self_mem_chain))
      memLeft

/-- In `{ a; } { b; }` the first block and the second statement share the program's scope. -/
theorem sharedScope_lowest_blocks :
    let statement (word : String) := Value.node .expressionStatement
      [.node .identifier [.text (text word)] {}] {}
    let block (word : String) := Value.node .blockStatement [.list [statement word]] {}
    let program := Value.node .program [.list [block "a", block "b"]] {}
    let top := Path.root 0 program
    let first := top.child (block "a") "body" (some 0)
    let second := (top.child (block "b") "body" (some 1)).child (statement "b") "body" (some 0)
    program.validate true = .ok () ∧ second.scope.depth = 1 ∧
      (∃ s, first.sharedScope second = .ok s ∧ s ∈ first.scope.chain ∧ s ∈ second.scope.chain ∧
        (∀ t ∈ first.scope.chain, ∀ u ∈ second.scope.chain, t.same u →
          t ∈ s.chain ∧ t.depth ≤ s.depth) ∧
        second.sharedScope first = .ok s ∧ s.depth = 0) ∧
      first.sharedScope (Path.root 1 program) = .error .separateTrees := by
  intro statement block program top first second
  obtain ⟨lowest, separate⟩ := sharedScope_lowest program rfl
  have memFirst : first ∈ top :: top.descendants.paths := .tail _ (.head _)
  have memSecond : second ∈ top :: top.descendants.paths :=
    .tail _ (.tail _ (.tail _ (.tail _ (.tail _ (.head _)))))
  obtain ⟨s, shared, memLeft, memRight, _, _, around, swapped, _⟩ :=
    lowest 0 first memFirst second memSecond
  have known : first.sharedScope second = .ok top.scope := rfl
  cases known.symm.trans shared
  exact ⟨rfl, rfl, ⟨_, shared, memLeft, memRight, around, swapped, rfl⟩,
    separate first (Path.root 1 program) (by decide) rfl⟩

end ScriptTree
