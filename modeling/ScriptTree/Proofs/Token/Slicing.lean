import ScriptTree.Proofs.Token.Cutting

/-!
Slices of a source. The text from where one token begins to where another one ends is cut into the
tokens from the one to the other: no piece depends on what stands before it, and the end of the text
ends the last one.
-/
namespace ScriptTree

namespace Scan

variable {x y t : Text} {c : Cursor} {cuts : List Cut} {line : Bool} {pending : Pending}
  {tokens before rest : List Token} {a b : Token}

theorem follows_front : Follows x (y ++ t) y := by
  intro q first
  obtain ⟨y, rfl⟩ := List.head?_eq_some_iff.mp first
  exact .inl rfl

/-- A text is cut in the same way after a line end or without, but for the first token. -/
theorem Cuts.relined (cut : Cuts t line cuts) (other : Bool) : ∃ first later newline,
    cuts = first :: later ∧ Cuts t other ({ first with newlineBefore := newline } :: later) := by
  induction cut generalizing other with
  | last => exact ⟨_, _, _, rfl, .last⟩
  | @gap _ _ _ newline _ _ front _ ih =>
    obtain ⟨first, later, line, rfl, cut⟩ := ih (other || newline)
    exact ⟨first, later, line, rfl, .gap front cut⟩
  | token front rest => exact ⟨_, _, _, rfl, .token front rest⟩

/-- The scan of a source comes to the place at which a token begins. -/
theorem Scans.drop (scans : Scans c pending tokens) (later : a :: rest <:+ tokens) :
    ∃ skipped others pending', Takes c.rest c.mark skipped others ∧ others.mark = a.start ∧
      Scans others pending' (a :: rest) := by
  induction scans with
  | last =>
    obtain ⟨rfl, rfl⟩ := List.cons.inj (later.eq_of_length_le (by simp))
    exact ⟨[], _, _, ⟨rfl, rfl⟩, rfl, .last⟩
  | gap front takes _ ih =>
    obtain ⟨skipped, others, pending', more, start, scans⟩ := ih later
    rw [takes.1]
    exact ⟨_, others, pending', more.skip _ takes.2, start, scans⟩
  | token front takes scans ih =>
    rcases List.suffix_cons_iff.mp later with same | later
    · obtain ⟨rfl, rfl⟩ := List.cons.inj same
      exact ⟨[], _, _, ⟨rfl, rfl⟩, rfl, .token front takes scans⟩
    · obtain ⟨skipped, others, pending', more, start, scans⟩ := ih later
      rw [takes.1]
      exact ⟨_, others, pending', more.skip _ takes.2, start, scans⟩

/-- The text up to where a token ends is cut into the tokens up to that one. -/
theorem Scans.take (scans : Scans c pending (before ++ b :: rest)) (some : rest ≠ []) :
    ∃ taken left, Takes c.rest c.mark taken ⟨left, b.stop⟩ ∧ Cuts taken pending.newline
      ((before ++ [b]).map Token.cut ++ [⟨.endOfInput, .null, [], false⟩]) := by
  generalize whole : before ++ b :: rest = tokens at scans
  induction scans generalizing before with
  | last =>
    have length := congrArg List.length whole
    have := List.length_pos_iff.mpr some
    simp only [List.length_append, List.length_cons, List.length_nil] at length
    omega
  | gap front takes _ ih =>
    obtain ⟨taken, left, more, cut⟩ := ih whole
    rw [more.1] at front
    rw [takes.1]
    exact ⟨_, left, more.skip _ takes.2, .gap (front.follows follows_front) cut⟩
  | @token c after x pending kind value tokens front takes _ ih =>
    cases before with
    | nil =>
      obtain ⟨rfl, rfl⟩ := List.cons.inj whole
      have alone : Front x [] (.token kind value) := front.follows (follows_front (y := []))
      have cut : Cuts (x ++ []) pending.newline _ := .token alone .last
      rw [List.append_nil, ← takes.cut] at cut
      exact ⟨x, after.rest, takes, cut⟩
    | cons first before =>
      obtain ⟨rfl, later⟩ := List.cons.inj whole
      obtain ⟨taken, left, more, cut⟩ := ih later
      rw [more.1] at front
      rw [List.cons_append, List.map_cons, List.cons_append, takes.cut, takes.1]
      exact ⟨_, left, more.skip _ takes.2, .token (front.follows follows_front) cut⟩

end Scan

variable {source : Text} {tokens before between rest : List Token} {a b : Token}

/-- From the start of a token to the end of another one, a source is cut into the tokens from the
one to the other; only a line end before the first one may be lost. -/
theorem tokenize_slice (scan : tokenize source = .ok tokens)
    (whole : a :: (between ++ rest) <:+ tokens) (some : rest ≠ [])
    (last : a :: between = before ++ [b]) : ∃ first others ending,
      tokenize (source.slice a.start.offset b.stop.offset) = .ok (first :: (others ++ [ending])) ∧
      first.kind = a.kind ∧ first.value = a.value ∧ first.raw = a.raw ∧
      others.map Token.cut = between.map Token.cut ∧ ending.kind = .endOfInput := by
  obtain ⟨skipped, c, pending, drops, start, scans⟩ := (tokenize_scans scan).drop whole
  rw [← List.cons_append, last, List.append_assoc, List.singleton_append] at scans
  obtain ⟨taken, left, takes, cut⟩ := scans.take some
  have slice : source.slice a.start.offset b.stop.offset = taken := by
    obtain ⟨rfl, place⟩ : source = skipped ++ c.rest ∧ c.mark.offset = 0 + skipped.length := drops
    obtain ⟨split, stop⟩ : c.rest = taken ++ left ∧
      b.stop.offset = c.mark.offset + taken.length := takes
    rw [Text.slice, ← start, stop, place, split]
    simp
  rw [← last, List.map_cons, List.cons_append] at cut
  obtain ⟨_, _, newline, same, cut⟩ := cut.relined false
  obtain ⟨rfl, rfl⟩ := List.cons.inj same
  obtain ⟨all, scan, cuts⟩ := tokenize_cuts.mp cut
  obtain ⟨first, later, rfl, head, tail⟩ := List.map_eq_cons_iff.mp cuts
  obtain ⟨others, ends, rfl, inner, outer⟩ := List.map_eq_append_iff.mp tail
  obtain ⟨ending, rfl, ends⟩ := List.map_eq_singleton_iff.mp outer
  simp only [Token.cut, Cut.mk.injEq] at head ends
  rw [slice]
  exact ⟨first, others, ending, scan, head.1, head.2.1, head.2.2.1, inner, ends.1⟩

end ScriptTree
