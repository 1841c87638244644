import ScriptTree.Proofs.Grammar.Joining
import ScriptTree.Proofs.Grammar.Numeric

/-!
Blanks and comments before a token do not change what a source is parsed to.
-/
namespace ScriptTree

open Grammar Value

variable {source spacing : Text} {tokens others : List Token} {t : Token} {u v w : Value}

theorem Grammar.echo_of_cut (closed : Closed tokens)
    (same : others.map Token.cut = tokens.map Token.cut) :
    Echo none (Feed.ofTokens tokens) (Feed.ofTokens others) := by
  cases tokens with
  | nil => exact closed.elim
  | cons t ts =>
    obtain ⟨u, us, rfl, first, rest⟩ := List.map_eq_cons_iff.mp same
    simp only [Token.cut, Cut.mk.injEq] at first
    obtain ⟨kind, value, raw, _⟩ := first
    have echoes := echoes_of_cut rest (.nil rfl)
    rw [List.append_nil, List.append_nil] at echoes
    exact ⟨rfl, kind, value, raw, echoes, closed⟩

/-- Blanks, or a comment of one line, before any token of a source leave what it is parsed to as it
was, up to positions and comments. -/
theorem parse_insert (parsed : parse source = .ok v) (scan : tokenize source = .ok tokens)
    (mem : t ∈ tokens) (spaces : Scan.Spacing spacing) :
    ∃ u, parse (source.take t.start.offset ++ spacing ++ source.drop t.start.offset) = .ok u ∧
      u.equivalent v = .ok true := by
  obtain ⟨others, again, same⟩ := tokenize_insert scan mem spaces
  obtain ⟨_, vs, g, scanned, read, rfl⟩ := parse_reads.mp parsed
  cases scan.symm.trans scanned
  obtain ⟨vs', g', reread, like⟩ := read.program_echo (echo_of_cut (tokenize_closed scan) same)
  have parsed' := parse_reads.mpr ⟨others, vs', g', again, reread, rfl⟩
  exact ⟨_, parsed', (like_programOf like).equivalent_parsed (parse_program parsed')
    (parse_program parsed) (parse_numeric parsed)⟩

/-- A comment after a line end, before an operator that would go on the line before. -/
theorem parse_insert_line :
    ∃ tokens t v u, tokenize (text "x = y\n++z") = .ok tokens ∧ t ∈ tokens ∧ t.kind = .increment ∧
      t.start.offset = 6 ∧ Scan.Spacing (text " /* z */ ") ∧ parse (text "x = y\n++z") = .ok v ∧
      parse (text "x = y\n /* z */ ++z") = .ok u ∧ u.equivalent v = .ok true := by
  have parses : (parse (text "x = y\n++z")).toOption.any (fun _ => true) = true := by
    decide +kernel
  obtain ⟨v, parsed, -⟩ := ok_of_any parses
  obtain ⟨before, t, after, scan, kind, offset⟩ : ∃ before t after,
      tokenize (text "x = y\n++z") = .ok (before ++ t :: after) ∧ t.kind = .increment ∧
        t.start.offset = 6 := ⟨[_, _, _], _, [_, _], by rfl, by rfl, by rfl⟩
  have flat : ∀ p ∈ text " z ", p.isRemark := by decide
  have spaces : Scan.Spacing (text " /* z */ ") := .comment flat (by decide)
  have mem : t ∈ before ++ t :: after := by simp
  obtain ⟨u, again, same⟩ := parse_insert parsed scan mem spaces
  rw [offset] at again
  exact ⟨_, t, v, u, scan, mem, kind, offset, spaces, parsed, again, same⟩

end ScriptTree
