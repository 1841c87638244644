import ScriptTree.Proofs.Grammar.Slices
import ScriptTree.Proofs.Path.Ancestry
import ScriptTree.Proofs.Path.Replacement
import ScriptTree.Proofs.Path.Roles
import ScriptTree.Proofs.Path.Scopes

/-!
The expressions of a parsed tree and the slices of its source. From where an expression begins to
where it ends the source holds that expression again, unless it belongs to the callee of a
construction and is said to begin at the word `new`: then its slice holds a construction of it.
-/
namespace ScriptTree

open Grammar Value

variable {source : Text} {x : Option Nat} {v : Value}

namespace Path

variable {p q top : Path} {lo hi : Nat} {part : Step × Value}

/-- A path leads to a node that is said to begin at the word `new` of a construction around it. -/
def BeginsAtNew (p : Path) : Prop :=
  ∃ q ∈ p.above, q.value.isKind .newExpression ∧ q.value.origin? = p.value.origin?

instance : Decidable p.BeginsAtNew :=
  inferInstanceAs (Decidable (∃ q ∈ p.above, q.value.isKind .newExpression ∧
    q.value.origin? = p.value.origin?))

/-- A node begins no earlier than those around it. -/
theorem Under.origin_le (lies : Lies lo hi q.value) (valid : q.value.validate true = .ok ())
    (under : Under q p) :
    ∃ y z, q.value.origin? = some y ∧ p.value.origin? = some z ∧ y ≤ z := by
  obtain ⟨_, _, _, node⟩ := node_of_validate valid
  obtain ⟨_, _, _, node'⟩ := node_of_validate (under.valid valid)
  obtain ⟨y, _, extent, _⟩ := lies.extent (node ▸ rfl)
  obtain ⟨z, _, extent', le, _⟩ := (under.lies (lies.own extent) valid).extent (node' ▸ rfl)
  exact ⟨y, z, by rw [origin?, extent]; rfl, by rw [origin?, extent']; rfl, le⟩

structure Anchored (source : Text) (x : Option Nat) (p : Path) : Prop where
  sliced : Sliced source x p.value
  around : ∀ y, x = some y → ∃ q ∈ p.above, q.value.isKind .newExpression ∧
    q.value.origin? = some y
  nearest : ∀ q ∈ p.above, q.value.isKind .newExpression → q.value.origin? = p.value.origin? →
    x = p.value.origin?

theorem Anchored.step (anchored : Anchored source x p) (mem : part ∈ p.value.parts)
    (order : ∀ q ∈ p.above, ∃ y z y', q.value.origin? = some y ∧ p.value.origin? = some z ∧
      part.2.origin? = some y' ∧ y ≤ z ∧ z ≤ y') :
    ∃ y, Anchored source y (p.next part) := by
  -- a construction further up that begins where the part does begins where the path does, too
  have squeeze : ∀ q ∈ p.above, q.value.isKind .newExpression →
      q.value.origin? = part.2.origin? →
        x = p.value.origin? ∧ p.value.origin? = part.2.origin? := by
    intro q above new same
    obtain ⟨y, z, y', first, second, third, le, le'⟩ := order q above
    rw [first, third] at same
    cases same
    cases Nat.le_antisymm le le'
    exact ⟨anchored.nearest q above new (first.trans second.symm), second.trans third.symm⟩
  cases anchored.sliced with
  | quoted quoted other parts =>
    refine ⟨_, parts part mem, ?_, ?_⟩
    · intro y found
      split at found
      · rename_i new
        exact ⟨p, List.mem_cons_self, new, found⟩
      · cases found
    · intro q above new same
      rcases List.mem_cons.mp above with rfl | above
      · rw [if_pos new]
        exact same
      · obtain ⟨here, _⟩ := squeeze q above new same
        obtain ⟨_, _, _, _, second, _⟩ := order q above
        rcases other with rfl | other
        · rw [second] at here
          cases here
        · exact absurd here.symm other
  | misread misread start parts =>
    refine ⟨_, parts part mem, ?_, ?_⟩
    · intro y found
      obtain ⟨q, above, new⟩ := anchored.around y found
      exact ⟨q, List.mem_cons_of_mem _ above, new⟩
    · intro q above new same
      rcases List.mem_cons.mp above with rfl | above
      · exact start.symm.trans same
      · exact (squeeze q above new same).elim Eq.trans

theorem Under.anchored (sliced : Sliced source none top.value) (first : top.above = [])
    (valid : top.value.validate true = .ok ()) (lies : Lies lo hi top.value)
    (under : Under top p) : ∃ x, Anchored source x p := by
  induction under with
  | step mem =>
    refine Anchored.step (x := none) ⟨sliced, nofun, ?_⟩ mem ?_ <;> rw [first] <;> nofun
  | @more p part above mem ih =>
    obtain ⟨x, anchored⟩ := ih
    refine anchored.step mem fun q around => ?_
    obtain ⟨within, under⟩ := above.of_above first around
    have lies' : Lies lo hi q.value := by
      rcases within with rfl | under
      · exact lies
      · exact under.lies lies valid
    obtain ⟨y, z, first, second, le⟩ := under.origin_le lies' (within.valid valid)
    obtain ⟨z', y', second', third, le'⟩ :=
      (Under.step mem).origin_le (above.lies lies valid) (above.valid valid)
    cases second.symm.trans second'
    exact ⟨y, z, y', first, second, third, le, le'⟩

/-- A node is misread if and only if it is said to begin at the word `new` of a construction. -/
theorem Anchored.settle (anchored : Anchored source x p) (reaches : p.value.origin? ≠ none) :
    (¬p.BeginsAtNew → Quoted source p.value) ∧ (p.BeginsAtNew → Misread source p.value) := by
  cases anchored.sliced with
  | quoted quoted other =>
    refine ⟨fun _ => quoted, fun ⟨q, above, new, same⟩ => ?_⟩
    have here := anchored.nearest q above new same
    rcases other with rfl | other
    · exact absurd here.symm reaches
    · exact absurd here.symm other
  | misread misread start =>
    refine ⟨fun apart => ?_, fun _ => misread⟩
    obtain ⟨q, above, new, same⟩ := anchored.around _ rfl
    exact absurd ⟨q, above, new, same.trans start.symm⟩ apart

end Path

theorem Conforms.not_isKeyword {s : Convention} (conforms : Conforms s .expression v) :
    v.isKeyword = false := by
  cases conforms with
  | name inner =>
    cases inner with
    | binding name => simp [Value.isKeyword, name]
  | operation => unfold operationKind; split <;> rfl
  | _ => rfl

/-- Members are not equivalent to constructions. -/
theorem equivalent_construction {vs ws : List Value} {m n : Notes} :
    (Value.node .newExpression ws m).equivalent (.node .memberExpression vs n) = .ok false := by
  rw [equivalent]
  exact if_pos nofun

/-- The source from where an expression of a parsed tree begins to where it ends is an expression,
and it is that expression again; the names of properties are no expressions. Only a node in the
callee of a construction that is said to begin at the word `new` of that construction is not read
again as itself: its slice is a construction without arguments, which has it for a callee. -/
theorem parse_slices_reread (parsed : parse source = .ok v) (tree : Nat) :
    ∀ p ∈ (Path.root tree v).descendants.paths, p.value.isKind .expression →
      p.isPropertyName = .ok false → ∃ x y w, p.value.extent? = some (x, y) ∧
        parseExpression (source.slice x y) = .ok w ∧
        (¬p.BeginsAtNew → w.equivalent p.value = .ok true) ∧
        (p.BeginsAtNew → w.equivalent p.value = .ok false ∧
          ∃ c n, w = .node .newExpression [c, .list []] n ∧ c.equivalent p.value = .ok true) := by
  intro p mem expression unnamed
  have program := parse_program parsed
  have sound : (Path.root tree v).value.IsSound :=
    ⟨program.valid Convention.parsed_scalar, parse_numeric parsed⟩
  have under := (Path.mem_descendants_iff sound.valid).mp mem
  have lies : Lies 0 source.length (Path.root tree v).value := parse_lies parsed
  obtain ⟨r, conforms, named⟩ := Conforms.under (q := Path.root tree v) program under
  have conforms : Conforms .parsed .expression p.value := by
    refine conforms.expression_of_kind (fun word => ?_) expression
    rw [named word] at unnamed
    cases unnamed
  have numeric := (sound.below under).numeric
  obtain ⟨_, _, _, origin, _⟩ := under.origin_le lies sound.valid
  obtain ⟨x, anchored⟩ := under.anchored (parse_clear parsed) rfl sound.valid lies
  obtain ⟨quoted, misread⟩ := anchored.settle (by simp [origin])
  by_cases begins : p.BeginsAtNew
  · obtain ⟨member, w, m, ⟨x, y, extent, read, conforms'⟩, like⟩ := misread begins
    obtain ⟨c, b, n, rfl, callee, empty, _⟩ := like.two
    obtain ⟨_, rfl, bare⟩ := like_list.mp empty
    cases allLike_nil.mp bare
    obtain ⟨vs, m, here⟩ := node_of_isKind (by decide) member
    refine ⟨x, y, _, extent, read, absurd begins, fun _ => ⟨?_, c, n, rfl, ?_⟩⟩
    · rw [here]
      exact equivalent_construction
    · have node : c.isNode := by
        rw [here] at callee
        obtain ⟨_, _, rfl, _⟩ := like_node.mp callee
        rfl
      have mem : (("callee", none), c) ∈
          (Value.node .newExpression [c, .list []] n).parts := by
        exact mem_parts_node.mpr (.inl ⟨node, rfl⟩)
      have valid := (holds_of_mem (conforms'.valid Convention.parsed_scalar) mem).valid.1
      exact callee.equivalent valid (conforms.valid Convention.parsed_scalar) numeric
  · obtain ⟨w, ⟨x, y, extent, read, conforms'⟩, like⟩ :=
      (quoted begins expression).resolve_right (by simp [conforms.not_isKeyword])
    exact ⟨x, y, w, extent, read, fun _ => like.equivalent_parsed conforms' conforms numeric,
      fun again => absurd again begins⟩

/-- A callee in parentheses is its own slice, and one without them is constructed in its slice. -/
theorem parse_slices_reread_callees :
    let source := text "new (a.b)(new c.d);"
    ∃ tree p q x y x' y' w w', parse source = .ok tree ∧
      p ∈ (Path.root 0 tree).descendants.paths ∧ q ∈ (Path.root 0 tree).descendants.paths ∧
      (p.value.isKind .expression ∧ p.isPropertyName = .ok false ∧ ¬p.BeginsAtNew) ∧
      (q.value.isKind .expression ∧ q.isPropertyName = .ok false ∧ q.BeginsAtNew) ∧
      p.value.extent? = some (x, y) ∧ parseExpression (source.slice x y) = .ok w ∧
      w.equivalent p.value = .ok true ∧
      q.value.extent? = some (x', y') ∧ parseExpression (source.slice x' y') = .ok w' ∧
      w'.equivalent q.value = .ok false := by
  intro source
  have suits : (parse source).toOption.any (fun tree =>
      let suits (begins : Bool) (p : Path) : Bool := p.value.isKind .expression &&
        p.isPropertyName.toOption.any (!·) && decide p.BeginsAtNew == begins
      (Path.root 0 tree).descendants.paths.any (suits false) &&
        (Path.root 0 tree).descendants.paths.any (suits true)) = true := by decide +kernel
  obtain ⟨tree, parsed, suits⟩ := ok_of_any suits
  obtain ⟨stands, begins⟩ := Bool.and_eq_true_iff.mp suits
  obtain ⟨p, memP, stands⟩ := List.any_eq_true.mp stands
  obtain ⟨q, memQ, begins⟩ := List.any_eq_true.mp begins
  simp only [Bool.and_eq_true, beq_iff_eq, decide_eq_true_eq, decide_eq_false_iff_not]
    at stands begins
  obtain ⟨⟨kind, unnamed⟩, stands⟩ := stands
  obtain ⟨⟨kind', unnamed'⟩, begins⟩ := begins
  have unnamed := no_of_any unnamed
  have unnamed' := no_of_any unnamed'
  obtain ⟨x, y, w, extent, read, same, _⟩ := parse_slices_reread parsed 0 p memP kind unnamed
  obtain ⟨x', y', w', extent', read', _, other⟩ :=
    parse_slices_reread parsed 0 q memQ kind' unnamed'
  exact ⟨tree, p, q, x, y, x', y', w, w', parsed, memP, memQ, ⟨kind, unnamed, stands⟩,
    ⟨kind', unnamed', begins⟩, extent, read, same stands, extent', read', (other begins).1⟩

/-- A member expression that is constructed: its slice constructs it, too. -/
theorem callee_slice_constructs :
    let source := text "new a.b();"
    ∃ tree p x y w, parse source = .ok tree ∧ p ∈ (Path.root 0 tree).descendants.paths ∧
      p.value.isKind .expression ∧ p.isPropertyName = .ok false ∧ p.value.extent? = some (x, y) ∧
      parseExpression (source.slice x y) = .ok w ∧ w.equivalent p.value = .ok false := by
  intro source
  have differs : (parse source).toOption.any (fun tree =>
      (Path.root 0 tree).descendants.paths.any fun p => p.value.isKind .expression &&
        p.isPropertyName.toOption.any (!·) && p.value.extent?.any fun reach =>
          (parseExpression (source.slice reach.1 reach.2)).toOption.any fun w =>
            (w.equivalent p.value).toOption.any (!·)) = true := by decide +kernel
  obtain ⟨tree, parsed, differs⟩ := ok_of_any differs
  obtain ⟨p, mem, differs⟩ := List.any_eq_true.mp differs
  simp only [Bool.and_eq_true] at differs
  obtain ⟨⟨expression, unnamed⟩, differs⟩ := differs
  obtain ⟨⟨x, y⟩, extent, differs⟩ : ∃ reach, p.value.extent? = some reach ∧ _ :=
    (Option.any_eq_true ..).mp differs
  obtain ⟨w, read, differs⟩ := ok_of_any differs
  exact ⟨tree, p, x, y, w, parsed, mem, expression, no_of_any unnamed, extent, read,
    no_of_any differs⟩

end ScriptTree
