import ScriptTree.Explorer.Command
import ScriptTree.Proofs.Grammar.Brackets
import ScriptTree.Proofs.Grammar.Numeric

/-!
The Enter key on a whole program. The brackets of a source that is parsed are properly nested. So
the count of open brackets, which does not tell their shapes apart, goes back to zero without ever
being held there, and Enter submits the program.
-/
namespace ScriptTree

open Grammar

def TokenKind.isBracket (k : TokenKind) : Bool := k.opens || k.closes

theorem TokenKind.closes_of_opens {k : TokenKind} (opens : k.opens) : k.closes = false := by
  cases k <;> first | rfl | cases opens

theorem TokenKind.isBracket_of_inner {k : TokenKind} (plain : k.isInner) :
    k.opens = false ∧ k.closes = false := by
  simp only [isInner, Bool.and_eq_true, Bool.not_eq_true'] at plain
  exact plain.1

/-- Nested tokens stay so without those that are no brackets. -/
theorem Nested.brackets {ks : List TokenKind} (nested : Nested ks) :
    Nested (ks.filter TokenKind.isBracket) := by
  induction nested with
  | none => exact .none
  | @inner k rest plain _ ih =>
    obtain ⟨opens, closes⟩ := TokenKind.isBracket_of_inner plain
    have other : ¬k.isBracket := by simp [TokenKind.isBracket, opens, closes]
    rwa [List.filter_cons_of_neg other]
  | @pair k j inside rest counterpart _ _ first second =>
    obtain ⟨opens, closes, _⟩ := closer?_opens counterpart
    have opening : k.isBracket := by simp [TokenKind.isBracket, opens]
    have closing : j.isBracket := by simp [TokenKind.isBracket, closes]
    rw [List.filter_cons_of_pos opening, List.filter_append, List.filter_cons_of_pos closing]
    exact .pair counterpart first second

/-- The tokens of a program are nested up to the end of input. -/
theorem parse_nested {source : Text} {v : Value} (parsed : parse source = .ok v) :
    ∃ ts e, tokenize source = .ok (ts ++ [e]) ∧ e.kind = .endOfInput ∧
      Nested (ts.map Token.kind) := by
  obtain ⟨tokens, vs, g, scanned, read, _⟩ := parse_reads.mp parsed
  have closed := tokenize_closed scanned
  have tokens_eq := tokens_ofTokens closed
  obtain ⟨after, ts, split, nested⟩ := read.spans (by rwa [Feed.Closed, tokens_eq])
  have ending := read.statements_stop
  refine ⟨ts, g.current, ?_, ending, nested⟩
  rw [scanned, ← tokens_eq, split, after.tokens_end ending]

namespace Explorer

variable {depth : Nat} {t : Token} {ts us : List Token}

/-- From a depth on, no token closes a bracket where none is open. -/
def Unclamped : Nat → List Token → Prop
  | _, [] => True
  | depth, t :: ts => (t.kind.closes → 0 < depth) ∧ Unclamped (bracketStep depth t) ts

theorem unclamped_append :
    Unclamped depth (ts ++ us) ↔
      Unclamped depth ts ∧ Unclamped (ts.foldl bracketStep depth) us := by
  induction ts generalizing depth with
  | nil => simp [Unclamped]
  | cons t ts ih => rw [List.cons_append, Unclamped, Unclamped, ih, List.foldl_cons, and_assoc]

theorem bracketStep_opens (opens : t.kind.opens) : bracketStep depth t = depth + 1 := if_pos opens

theorem bracketStep_closes (closes : t.kind.closes) (opens : t.kind.opens = false) :
    bracketStep (depth + 1) t = depth := by
  rw [bracketStep, opens, if_neg Bool.false_ne_true, if_pos closes, Nat.add_sub_cancel]

theorem bracketStep_other (opens : t.kind.opens = false) (closes : t.kind.closes = false) :
    bracketStep depth t = depth := by
  rw [bracketStep, opens, closes, if_neg Bool.false_ne_true, if_neg Bool.false_ne_true]

/-- Nested tokens lead back to the depth before them, and never below it. -/
theorem nested_depth (depth : Nat) (nested : Nested (ts.map Token.kind)) :
    ts.foldl bracketStep depth = depth ∧ Unclamped depth ts := by
  generalize kinds : ts.map Token.kind = ks at nested
  induction nested generalizing ts depth with
  | none =>
    rw [List.map_eq_nil_iff.mp kinds]
    exact ⟨rfl, trivial⟩
  | inner plain _ ih =>
    obtain ⟨t, ts, rfl, rfl, more⟩ := List.map_eq_cons_iff.mp kinds
    obtain ⟨opens, closes⟩ := TokenKind.isBracket_of_inner plain
    rw [List.foldl_cons, Unclamped, bracketStep_other opens closes, closes]
    exact ⟨(ih depth more).1, nofun, (ih depth more).2⟩
  | pair counterpart _ _ first second =>
    obtain ⟨t, ts, rfl, rfl, more⟩ := List.map_eq_cons_iff.mp kinds
    obtain ⟨inside, us, rfl, within, more⟩ := List.map_eq_append_iff.mp more
    obtain ⟨u, us, rfl, rfl, tail⟩ := List.map_eq_cons_iff.mp more
    obtain ⟨opens, closes, other, _⟩ := closer?_opens counterpart
    obtain ⟨level, inner⟩ := first (depth + 1) within
    obtain ⟨back, outer⟩ := second depth tail
    rw [List.foldl_cons, Unclamped, bracketStep_opens opens, List.foldl_append, List.foldl_cons,
      unclamped_append, level, Unclamped, bracketStep_closes closes other]
    refine ⟨back, fun closes => ?_, inner, fun _ => depth.succ_pos, outer⟩
    exact absurd closes (by rw [TokenKind.closes_of_opens opens]; nofun)

/-- The brackets of every source that is parsed are properly nested, each with its own counterpart.
Hence no closing bracket is counted at depth zero, no bracket is left open, and Enter submits the
source. -/
theorem parse_nests {source : Text} {v : Value} (parsed : parse source = .ok v) :
    ∃ tokens, tokenize source = .ok tokens ∧
      Nested ((tokens.map Token.kind).filter TokenKind.isBracket) ∧
      (∀ before t after, tokens = before ++ t :: after → t.kind.closes →
        0 < before.foldl bracketStep 0) ∧
      openDepth source = .ok 0 ∧ entered source = .ok none := by
  obtain ⟨ts, e, scanned, ending, nested⟩ := parse_nested parsed
  obtain ⟨back, unclamped⟩ := nested_depth 0 nested
  have last : Unclamped 0 (ts ++ [e]) := by
    rw [unclamped_append, back]
    exact ⟨unclamped, by rw [ending]; nofun, trivial⟩
  have opened : openDepth source = .ok 0 := by
    have rest : bracketStep 0 e = 0 := bracketStep_other (by rw [ending]; rfl) (by rw [ending]; rfl)
    rw [openDepth, scanned]
    simp only [List.foldl_append, back, List.foldl_cons, rest, List.foldl_nil]
  refine ⟨_, scanned, ?_, fun before t after split closes => ?_, opened, ?_⟩
  · have other : ¬e.kind.isBracket := by simp [ending, TokenKind.isBracket, TokenKind.opens,
      TokenKind.closes]
    rw [List.map_append, List.filter_append, List.map_singleton, List.filter_cons_of_neg other,
      List.filter_nil, List.append_nil]
    exact nested.brackets
  · rw [split, unclamped_append] at last
    exact last.2.1 closes
  · rw [entered, opened]
    split <;> rfl

/-- A choice with an index in its head and a call in its body. -/
theorem parse_nests_choice : ∃ v tokens,
    parse (text "if (a[b]) \x7bf();\x7d") = .ok v ∧
      tokenize (text "if (a[b]) \x7bf();\x7d") = .ok tokens ∧
      Nested ((tokens.map Token.kind).filter TokenKind.isBracket) ∧
      (∀ before t after, tokens = before ++ t :: after → t.kind.closes →
        0 < before.foldl bracketStep 0) ∧
      openDepth (text "if (a[b]) \x7bf();\x7d") = .ok 0 ∧
      entered (text "if (a[b]) \x7bf();\x7d") = .ok none := by
  obtain ⟨v, parsed⟩ :
      ∃ v, parse (text "if (a[b]) \x7bf();\x7d") = .ok v := ⟨_, by rfl⟩
  obtain ⟨tokens, nests⟩ := parse_nests parsed
  exact ⟨v, tokens, parsed, nests⟩

end Explorer

end ScriptTree
