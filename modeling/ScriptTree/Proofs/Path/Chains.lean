import Mathlib.Data.List.Pairwise
import ScriptTree.Proofs.Path.Scopes

/-!
Chains of searches and filters. A search goes through the walks below all paths of a collection, one
after the other, and paths that lie below one another have a part of their walks in common. What a
chain finds is therefore a set in the order of the tree exactly if its steps lead to each of the
paths in only one way.
-/
namespace ScriptTree

/-- A step of a query: a search below the paths of a collection, or a choice among them. -/
inductive QueryStep
  | find (t : Test)
  | filter (t : Test)

namespace QueryStep

def test : QueryStep → Test
  | find t | filter t => t

def isFind : QueryStep → Bool
  | find _ => true
  | filter _ => false

/-- The paths that a step goes through at a path. -/
def reach (s : QueryStep) (p : Path) : List Path :=
  match s with
  | find _ => p.descendants.paths
  | filter _ => [p]

/-- The paths that a step comes to from a path. -/
def next (s : QueryStep) (p : Path) : List Path := (s.reach p).filter s.test.passes

end QueryStep

namespace Collection

def step (c : Collection) : QueryStep → Except Error Collection
  | .find t => c.find t
  | .filter t => c.filter t

/-- The collection after some steps, one after the other. -/
def chain (c : Collection) (steps : List QueryStep) : Except Error Collection :=
  steps.foldlM step c

end Collection

namespace Test

variable {t : Test} {c found : Collection} {l : List Path}

theorem answers_of_filterAux {before : List Path} (done : List.filterAuxM t l before = .ok found) :
    ∀ p ∈ l, ∃ b, t p = .ok b := by
  induction l generalizing before with
  | nil => nofun
  | cons p l ih =>
    rw [List.filterAuxM] at done
    cases answer : t p with
    | error e => rw [answer] at done; cases done
    | ok b =>
      rw [answer, ok_bind] at done
      exact List.forall_mem_cons.mpr ⟨⟨b, answer⟩, ih done⟩

/-- Where a filter gives a collection, its test has answered for every path. -/
theorem answers_of_filter (done : Collection.filter c t = .ok found) :
    ∀ p ∈ c, ∃ b, t p = .ok b := by
  cases kept : List.filterAuxM t c [] with
  | error e =>
    rw [Collection.filter, List.filterM, kept] at done
    cases done
  | ok => exact answers_of_filterAux kept

end Test

namespace Collection

variable {c found : Collection} {t : Test} {s : QueryStep} {w : Walk}

theorem ofWalk_ok (whole : w.fault = none) (answers : ∀ p ∈ w.paths, ∃ b, t p = .ok b) :
    ofWalk w t = .ok (w.paths.filter t.passes) := by
  have kept : w.paths.filterM t = .ok (w.paths.filter t.passes) := Test.filter_ok answers
  rw [ofWalk, kept, ok_bind, whole]
  rfl

theorem answers_of_ofWalk (done : ofWalk w t = .ok found) : ∀ p ∈ w.paths, ∃ b, t p = .ok b := by
  cases kept : w.paths.filterM t with
  | error e => rw [ofWalk, kept] at done; cases done
  | ok => exact Test.answers_of_filter kept

theorem find_ok (valid : ∀ p ∈ c, p.value.validate true = .ok ())
    (answers : ∀ p ∈ c, ∀ q ∈ p.descendants.paths, ∃ b, t q = .ok b) :
    c.find t = .ok (c.flatMap (QueryStep.find t).next) := by
  have each : c.mapM (fun p => ofWalk p.descendants t) = .ok (c.map (QueryStep.find t).next) := by
    induction c with
    | nil => rfl
    | cons p c ih =>
      obtain ⟨here, valid⟩ := List.forall_mem_cons.mp valid
      obtain ⟨first, answers⟩ := List.forall_mem_cons.mp answers
      rw [List.mapM_cons, ofWalk_ok (Path.descendants_fault here) first, ok_bind, ih valid answers]
      rfl
  rw [find, each, ok_bind, List.flatMap_def]
  rfl

theorem answers_of_find (done : c.find t = .ok found) :
    ∀ p ∈ c, ∀ q ∈ p.descendants.paths, ∃ b, t q = .ok b := by
  cases each : c.mapM fun p => ofWalk p.descendants t with
  | error e => rw [find, each] at done; cases done
  | ok parts =>
    clear done
    induction c generalizing parts with
    | nil => exact List.forall_mem_nil _
    | cons p c ih =>
      rw [List.mapM_cons] at each
      cases here : ofWalk p.descendants t with
      | error e => rw [here] at each; cases each
      | ok first =>
        rw [here, ok_bind] at each
        cases rest : c.mapM fun p => ofWalk p.descendants t with
        | error e => rw [rest] at each; cases each
        | ok others => exact List.forall_mem_cons.mpr ⟨answers_of_ofWalk here, ih others rest⟩

/-- A step comes from a collection to what it comes to from its paths, one after the other. -/
theorem step_ok (valid : ∀ p ∈ c, p.value.validate true = .ok ())
    (answers : ∀ p ∈ c, ∀ q ∈ s.reach p, ∃ b, s.test q = .ok b) :
    c.step s = .ok (c.flatMap s.next) := by
  cases s with
  | find t => exact find_ok valid answers
  | filter t =>
    have here (p : Path) (mem : p ∈ c) : ∃ b, t p = .ok b := answers p mem p List.mem_cons_self
    refine (Test.filter_ok here).trans (congrArg Except.ok ?_)
    clear valid answers here
    induction c with
    | nil => rfl
    | cons p c ih =>
      rw [List.flatMap_cons, ← ih]
      exact List.filter_append [p] c

theorem answers_of_step (done : c.step s = .ok found) :
    ∀ p ∈ c, ∀ q ∈ s.reach p, ∃ b, s.test q = .ok b := by
  cases s with
  | find t => exact answers_of_find done
  | filter t =>
    intro p mem q here
    cases List.mem_singleton.mp here
    exact Test.answers_of_filter done p mem

end Collection

namespace Path

open QueryStep

variable {p q r top : Path} {s : QueryStep} {steps : List QueryStep} {c found : Collection}
  {route : List Path}

/-- What the steps of a chain come to from one path. -/
def results : List QueryStep → Path → List Path
  | [], p => [p]
  | s :: steps, p => (s.next p).flatMap (results steps)

/-- The steps of a chain lead from a path to another by a route: the paths that they come to on the
way, one for each step. -/
inductive Leads : List QueryStep → Path → List Path → Path → Prop
  | nil {p : Path} : Leads [] p [] p
  | cons {s : QueryStep} {steps : List QueryStep} {p q r : Path} {route : List Path}
      (first : q ∈ s.next p) (rest : Leads steps q route r) :
      Leads (s :: steps) p (q :: route) r

/-- The steps of a chain lead to each path that they come to by one route only. -/
def OneRoute (steps : List QueryStep) (p : Path) : Prop :=
  ∀ r route other, Leads steps p route r → Leads steps p other r → route = other

theorem leads_nil : Leads [] p route r ↔ route = [] ∧ r = p := by
  constructor
  · rintro ⟨⟩
    exact ⟨rfl, rfl⟩
  · rintro ⟨rfl, rfl⟩
    exact .nil

theorem leads_cons : Leads (s :: steps) p route r ↔
    ∃ q ∈ s.next p, ∃ rest, route = q :: rest ∧ Leads steps q rest r := by
  constructor
  · rintro (_ | ⟨first, rest⟩)
    exact ⟨_, first, _, rfl, rest⟩
  · rintro ⟨q, first, rest, rfl, leads⟩
    exact .cons first leads

theorem mem_results : r ∈ results steps p ↔ ∃ route, Leads steps p route r := by
  induction steps generalizing p with
  | nil => simp [results, leads_nil]
  | cons s steps ih =>
    simp only [results, List.mem_flatMap, ih, leads_cons]
    constructor
    · rintro ⟨q, first, rest, leads⟩
      exact ⟨_, q, first, rest, rfl, leads⟩
    · rintro ⟨_, q, first, rest, rfl, leads⟩
      exact ⟨q, first, rest, leads⟩

theorem within_of_reach (valid : p.value.validate true = .ok ()) (mem : q ∈ s.reach p) :
    Within p q := by
  cases s with
  | find => exact .inr ((mem_descendants_iff valid).mp mem)
  | filter => exact .inl (List.mem_singleton.mp mem)

theorem within_of_next (valid : p.value.validate true = .ok ()) (mem : q ∈ s.next p) :
    Within p q :=
  within_of_reach valid (List.mem_of_mem_filter mem)

theorem Within.trans (first : Within r q) (second : Within q p) : Within r p := by
  rcases first with rfl | above
  · exact second
  · rcases second with rfl | below
    · exact .inr above
    · exact .inr (above.trans below)

theorem within_of_results (valid : p.value.validate true = .ok ()) (mem : r ∈ results steps p) :
    Within p r := by
  induction steps generalizing p with
  | nil => exact .inl (List.mem_singleton.mp mem)
  | cons s steps ih =>
    obtain ⟨q, first, mem⟩ := List.mem_flatMap.mp mem
    have within := within_of_next valid first
    exact within.trans (ih (within.valid valid) mem)

theorem chain_cons : c.chain (s :: steps) = c.step s >>= (·.chain steps) := by
  rw [Collection.chain, List.foldlM_cons]
  rfl

theorem flatMap_results : c.flatMap (results (s :: steps)) =
    (c.flatMap s.next).flatMap (results steps) := by
  rw [List.flatMap_assoc]
  rfl

theorem valid_of_next (valid : ∀ p ∈ c, p.value.validate true = .ok ()) :
    ∀ q ∈ c.flatMap s.next, q.value.validate true = .ok () := by
  intro q mem
  obtain ⟨p, inside, first⟩ := List.mem_flatMap.mp mem
  exact (within_of_next (valid p inside) first).valid (valid p inside)

/-- If a chain gives a collection, it is what the steps come to from the paths it starts with. -/
theorem chain_results (valid : ∀ p ∈ c, p.value.validate true = .ok ())
    (done : c.chain steps = .ok found) : found = c.flatMap (results steps) := by
  induction steps generalizing c with
  | nil =>
    cases done
    exact (List.flatMap_singleton' _).symm
  | cons s steps ih =>
    rw [chain_cons] at done
    cases here : c.step s with
    | error e => rw [here] at done; cases done
    | ok next =>
      have known := Collection.step_ok valid (Collection.answers_of_step here)
      cases known.symm.trans here
      rw [here, ok_bind] at done
      rw [flatMap_results]
      exact ih (valid_of_next valid) done

/-- If the tests answer for all paths of a tree, a chain gives a collection. -/
theorem chain_answers (valid : top.value.validate true = .ok ())
    (answers : ∀ s ∈ steps, ∀ p, Within top p → ∃ b, s.test p = .ok b)
    (within : ∀ p ∈ c, Within top p) : ∃ found, c.chain steps = .ok found := by
  induction steps generalizing c with
  | nil => exact ⟨c, rfl⟩
  | cons s steps ih =>
    obtain ⟨here, later⟩ := List.forall_mem_cons.mp answers
    have whole (p : Path) (mem : p ∈ c) : p.value.validate true = .ok () :=
      (within p mem).valid valid
    rw [chain_cons, Collection.step_ok whole fun p mem q inside =>
      here q ((within p mem).trans (within_of_reach (whole p mem) inside)), ok_bind]
    refine ih later fun q mem => ?_
    obtain ⟨p, inside, first⟩ := List.mem_flatMap.mp mem
    exact (within p inside).trans (within_of_next (whole p inside) first)

theorem next_nodup (valid : p.value.validate true = .ok ()) : (s.next p).Nodup := by
  refine List.Nodup.filter _ ?_
  cases s with
  | find => exact descendants_nodup valid
  | filter => exact List.nodup_singleton p

theorem oneRoute_cons : OneRoute (s :: steps) p ↔ (∀ q ∈ s.next p, OneRoute steps q) ∧
    ∀ q ∈ s.next p, ∀ q' ∈ s.next p, q ≠ q' →
      List.Disjoint (results steps q) (results steps q') := by
  constructor
  · refine fun one =>
      ⟨fun q first r route other leads also => ?_, fun q first q' first' differ => ?_⟩
    · exact (List.cons.inj (one r _ _ (.cons first leads) (.cons first also))).2
    · intro r mem mem'
      obtain ⟨route, leads⟩ := mem_results.mp mem
      obtain ⟨other, also⟩ := mem_results.mp mem'
      exact differ (List.cons.inj (one r _ _ (.cons first leads) (.cons first' also))).1
  · rintro ⟨one, apart⟩ r _ _ leads also
    obtain ⟨q, first, route, rfl, rest⟩ := leads_cons.mp leads
    obtain ⟨q', first', other, rfl, rest'⟩ := leads_cons.mp also
    have same : q = q' := by
      by_contra differ
      exact apart q first q' first' differ (mem_results.mpr ⟨_, rest⟩) (mem_results.mpr ⟨_, rest'⟩)
    subst same
    rw [one q first r route other rest rest']

/-- The steps come to no path twice exactly if they lead to each by one route. -/
theorem nodup_results_iff (valid : p.value.validate true = .ok ()) :
    (results steps p).Nodup ↔ OneRoute steps p := by
  induction steps generalizing p with
  | nil =>
    refine iff_of_true (List.nodup_singleton p) fun r route other leads also => ?_
    rw [(leads_nil.mp leads).1, (leads_nil.mp also).1]
  | cons s steps ih =>
    have apart : (s.next p).Pairwise (Function.onFun List.Disjoint (results steps)) ↔
        ∀ q ∈ s.next p, ∀ q' ∈ s.next p, q ≠ q' →
          List.Disjoint (results steps q) (results steps q') := by
      have swap : Std.Symm (Function.onFun List.Disjoint (results steps)) :=
        ⟨fun _ _ apart _ left right => apart right left⟩
      refine ⟨fun pairs q first q' first' differ => pairs.forall first first' differ,
        fun pairs => ?_⟩
      exact (next_nodup valid).pairwise_of_forall_ne pairs
    rw [results, List.nodup_flatMap, oneRoute_cons, apart]
    refine and_congr_left fun _ => forall₂_congr fun q first => ?_
    exact ih ((within_of_next valid first).valid valid)

theorem results_filter {t : Test} : results (.filter t :: steps) p =
    if t.passes p then results steps p else [] := by
  rw [results, QueryStep.next, reach, List.filter_cons, List.filter_nil]
  change List.flatMap _ (if t.passes p then [p] else []) = _
  split
  · exact List.flatMap_singleton ..
  · rfl

/-- From a path the steps come to nothing, to the path alone, or to all that they come to from
further down. -/
theorem results_below (valid : p.value.validate true = .ok ()) :
    results steps p = [] ∨ results steps p = [p] ∨
      ∀ q, Under p q → results steps q ⊆ results steps p := by
  induction steps with
  | nil => exact .inr (.inl rfl)
  | cons s steps ih =>
    cases s with
    | find t =>
      refine .inr (.inr fun q under r mem => ?_)
      obtain ⟨x, first, mem⟩ := List.mem_flatMap.mp mem
      obtain ⟨inside, passes⟩ := List.mem_filter.mp first
      have wider := (under.stretch valid).subset inside
      exact List.mem_flatMap.mpr ⟨x, List.mem_filter.mpr ⟨wider, passes⟩, mem⟩
    | filter t =>
      rw [results_filter]
      split
      · rcases ih with none | one | more
        · exact .inl none
        · exact .inr (.inl one)
        · refine .inr (.inr fun q under => ?_)
          rw [results_filter]
          split
          · exact more q under
          · exact List.nil_subset _
      · exact .inl rfl

section Search

variable {t : Test} (later : ∀ q : Path, q.value.validate true = .ok () →
  (results steps q).Nodup → (results steps q).Sublist (q :: q.descendants.paths))
include later

/-- If what a search comes to below a path is in the order of the walk, so is what it comes to from
there on. -/
theorem sublist_here (valid : q.value.validate true = .ok ())
    (below : ((q.descendants.paths.filter t.passes).flatMap (results steps)).Nodup →
      ((q.descendants.paths.filter t.passes).flatMap (results steps)).Sublist q.descendants.paths)
    (nodup : (((q :: q.descendants.paths).filter t.passes).flatMap (results steps)).Nodup) :
    (((q :: q.descendants.paths).filter t.passes).flatMap (results steps)).Sublist
      (q :: q.descendants.paths) := by
  rw [List.filter_cons] at nodup ⊢
  split at nodup
  · rename_i passes
    rw [if_pos passes]
    rw [List.flatMap_cons] at nodup ⊢
    obtain ⟨here, rest, apart⟩ := List.nodup_append'.mp nodup
    have shape : results steps q = [] ∨ results steps q = [q] ∨
        ∀ x, Under q x → results steps x ⊆ results steps q := results_below valid
    rcases shape with none | one | more
    · rw [none, List.nil_append]
      exact (below rest).cons q
    · rw [one]
      exact (below rest).cons_cons q
    · -- what is come to from below has been come to already, so that there is nothing
      have empty : (q.descendants.paths.filter t.passes).flatMap (results steps) = [] := by
        refine List.eq_nil_iff_forall_not_mem.mpr fun r mem => ?_
        obtain ⟨x, first, inside⟩ := List.mem_flatMap.mp mem
        have under := (mem_descendants_iff valid).mp (List.mem_of_mem_filter first)
        exact apart (more x under inside) mem
      rw [empty, List.append_nil]
      exact later q valid here
  · rename_i fails
    rw [if_neg fails]
    exact (below nodup).cons q

/-- What a search and the steps after it come to, if they come to none of it twice, is in the order
of the walk. -/
theorem sublist_search (valid : p.value.validate true = .ok ())
    (nodup : ((p.descendants.paths.filter t.passes).flatMap (results steps)).Nodup) :
    ((p.descendants.paths.filter t.passes).flatMap (results steps)).Sublist
      p.descendants.paths := by
  -- what is left below the path gets less deep with every step
  induction deep : p.value.depth using Nat.strongRecOn generalizing p with
  | _ depth ih =>
    rw [descendants_paths valid, List.filter_flatMap, List.flatMap_assoc] at nodup ⊢
    refine List.Sublist.flatMap_right p.children fun q mem => ?_
    have apart := (List.nodup_flatMap.mp nodup).1 q mem
    obtain ⟨part, inside, rfl⟩ := List.mem_map.mp mem
    obtain ⟨valid, less⟩ := (Value.holds_of_mem valid inside).valid
    exact sublist_here later valid (fun nodup => ih _ (deep ▸ less) valid nodup rfl) apart

end Search

/-- If the steps come to no path twice, they come to them in the order of the walk. -/
theorem sublist_results (valid : p.value.validate true = .ok ()) (nodup : (results steps p).Nodup) :
    (results steps p).Sublist (p :: p.descendants.paths) := by
  induction steps generalizing p with
  | nil => exact List.singleton_sublist.mpr List.mem_cons_self
  | cons s steps ih =>
    cases s with
    | find t => exact (sublist_search (fun q => ih) valid nodup).cons p
    | filter t =>
      rw [results_filter] at nodup ⊢
      split at nodup
      · rename_i passes
        rw [if_pos passes]
        exact ih valid nodup
      · rename_i fails
        rw [if_neg fails]
        exact List.nil_sublist _

theorem eq_of_filter (chosen : s.isFind = false) (mem : q ∈ s.next p) : q = p := by
  cases s with
  | find => cases chosen
  | filter => exact List.mem_singleton.mp (List.mem_of_mem_filter mem)

/-- Filters lead only from a path to itself. -/
theorem Leads.eq_of_filters (chosen : steps.countP isFind = 0) (leads : Leads steps p route r) :
    r = p ∧ route = List.replicate steps.length p := by
  induction leads with
  | nil => exact ⟨rfl, rfl⟩
  | @cons s steps p q r route first rest ih =>
    rw [List.countP_cons] at chosen
    have same : q = p := eq_of_filter (by simpa using (Nat.add_eq_zero_iff.mp chosen).2) first
    subst same
    obtain ⟨last, route⟩ := ih (Nat.add_eq_zero_iff.mp chosen).1
    exact ⟨last, congrArg (List.cons q) route⟩

/-- A chain with one search, or none, leads to every path by one route. -/
theorem oneRoute_of_countP (few : steps.countP isFind ≤ 1) : OneRoute steps p := by
  induction steps generalizing p with
  | nil =>
    exact fun r route other leads also => by rw [(leads_nil.mp leads).1, (leads_nil.mp also).1]
  | cons s steps ih =>
    intro r _ _ leads also
    obtain ⟨q, first, route, rfl, rest⟩ := leads_cons.mp leads
    obtain ⟨q', first', other, rfl, rest'⟩ := leads_cons.mp also
    rw [List.countP_cons] at few
    cases isFind : s.isFind with
    | true =>
      rw [isFind, if_pos rfl] at few
      have none : steps.countP QueryStep.isFind = 0 := by omega
      obtain ⟨rfl, rfl⟩ := rest.eq_of_filters none
      obtain ⟨rfl, rfl⟩ := rest'.eq_of_filters none
      rfl
    | false =>
      obtain rfl := eq_of_filter isFind first
      obtain rfl := eq_of_filter isFind first'
      rw [ih (by omega) r route other rest rest']

end Path

/-- A chain of searches and filters on a valid tree gives a collection if its tests answer for every
path. What it gives are the paths that its steps lead to. No place comes twice exactly if the steps
lead to each by one route, and exactly then the paths are in the order of the walk: with one search
always, with more of them as long as no two paths that lie below one another come to the same. -/
theorem chain_ordered_iff (tree : Nat) (v : Value) (valid : v.validate true = .ok ())
    (steps : List QueryStep) :
    let top := Path.root tree v
    let walk := top :: top.descendants.paths
    ((∀ s ∈ steps, ∀ p ∈ walk, ∃ b, s.test p = .ok b) →
      ∃ found, (query tree v >>= (·.chain steps)) = .ok found) ∧
    ∀ found, (query tree v >>= (·.chain steps)) = .ok found →
      (∀ p, p ∈ found ↔ ∃ route, Path.Leads steps top route p) ∧
      (found.Pairwise (fun p q => ¬p.samePlace q) ↔ Path.OneRoute steps top) ∧
      (found.Sublist walk ↔ Path.OneRoute steps top) ∧
      (steps.countP QueryStep.isFind ≤ 1 → Path.OneRoute steps top) := by
  intro top walk
  obtain ⟨k, vs, n, rfl⟩ := Value.node_of_validate valid
  have start : (query tree (.node k vs n) >>= (·.chain steps)) = Collection.chain [top] steps := rfl
  have valid : top.value.validate true = .ok () := valid
  have single : ∀ p ∈ [top], p.value.validate true = .ok () := List.forall_mem_singleton.mpr valid
  rw [start]
  refine ⟨fun answers => ?_, fun found done => ?_⟩
  · refine Path.chain_answers valid (fun s mem p within => ?_)
      (List.forall_mem_singleton.mpr (.inl rfl))
    exact answers s mem p ((Path.mem_within valid).mpr within)
  · have known := Path.chain_results single done
    rw [List.flatMap_singleton] at known
    subst known
    have within (p : Path) (mem : p ∈ Path.results steps top) : Path.Within top p :=
      Path.within_of_results valid mem
    have walked : walk.Nodup := List.nodup_cons.mpr
      ⟨fun mem => Path.Under.irrefl ((Path.mem_descendants_iff valid).mp mem),
        Path.descendants_nodup valid⟩
    refine ⟨fun p => Path.mem_results, ?_, ?_, fun few => Path.oneRoute_of_countP few⟩
    · rw [← Path.nodup_results_iff valid, List.nodup_iff_pairwise_ne]
      constructor
      · refine fun apart => apart.imp fun {p q} other => ?_
        rintro rfl
        exact other Path.samePlace_self
      · refine fun nodup => nodup.imp_of_mem fun memP memQ differ same => differ ?_
        exact (within _ memP).eq_of_samePlace rfl (within _ memQ) same
    · rw [← Path.nodup_results_iff valid]
      exact ⟨fun ordered => walked.sublist ordered, Path.sublist_results valid⟩

/-- In `function f() { function g() { x; } }` the statement in the inner function is found twice
when the statements below all functions are searched for: once from each function. -/
theorem chain_repeats : ∃ v, parse (text "function f() { function g() { x; } }") = .ok v ∧
    v.validate true = .ok () ∧
    ∃ found, (query 0 v >>= (·.chain
      [.find (Test.ofKind .function), .find (Test.ofKind .expressionStatement)])) = .ok found ∧
      ¬found.Pairwise (fun p q => ¬p.samePlace q) := by
  have twice : ((parse (text "function f() { function g() { x; } }")).toOption.any fun v =>
      (v.validate true).toOption.isSome &&
        (query 0 v >>= (·.chain [.find (Test.ofKind .function),
          .find (Test.ofKind .expressionStatement)])).toOption.any fun found =>
            decide ¬found.Pairwise fun p q => ¬p.samePlace q) = true := by
    decide +kernel
  cases parsed : parse (text "function f() { function g() { x; } }") with
  | error e => rw [parsed] at twice; cases twice
  | ok v =>
    rw [parsed] at twice
    obtain ⟨valid, twice⟩ := (Bool.and_eq_true ..).mp twice
    cases checked : v.validate true with
    | error e => rw [checked] at valid; cases valid
    | ok =>
      cases done : query 0 v >>= (·.chain [.find (Test.ofKind .function),
          .find (Test.ofKind .expressionStatement)]) with
      | error e => rw [done] at twice; cases twice
      | ok found =>
        rw [done] at twice
        exact ⟨v, rfl, checked, found, done, of_decide_eq_true twice⟩

/-- In `a; b;` the names below all expression statements are found once, in order. -/
theorem chain_ordered_iff_names :
    let name (word : String) := Value.node .identifier [.text (text word)] {}
    let statement (word : String) := Value.node .expressionStatement [name word] {}
    let program := Value.node .program [.list [statement "a", statement "b"]] {}
    let top := Path.root 0 program
    let steps : List QueryStep :=
      [.find (Test.ofKind .expressionStatement), .find (Test.ofKind .identifier)]
    let path (word : String) (i : Nat) :=
      (top.child (statement word) "body" (some i)).child (name word) "expression" none
    program.validate true = .ok () ∧
      (query 0 program >>= (·.chain steps)) = .ok [path "a" 0, path "b" 1] ∧
      [path "a" 0, path "b" 1].Sublist (top :: top.descendants.paths) ∧
      Path.OneRoute steps top := by
  intro name statement program top steps path
  have done : (query 0 program >>= (·.chain steps)) = .ok [path "a" 0, path "b" 1] := rfl
  obtain ⟨_, ordered⟩ := chain_ordered_iff 0 program rfl steps
  obtain ⟨_, apart, sorted, _⟩ := ordered _ done
  have one : Path.OneRoute steps top := apart.mp (by decide)
  exact ⟨rfl, done, sorted.mpr one, one⟩

end ScriptTree
