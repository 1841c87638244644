import ScriptTree.Proofs.Grammar.Numeric
import ScriptTree.Proofs.Grammar.Quoting
import ScriptTree.Proofs.Print.Scanned
import ScriptTree.Proofs.Token.Relocating

/-!
Expressions in parentheses. The tokens of a source stay as they are between an opening parenthesis
and a closing one on a line of its own. No expression goes on with a closing parenthesis, so what
has been read up to the end of input is read up to it too; and what stands in parentheses is an
expression of any rank.
-/
namespace ScriptTree

section Tokens

open Scan

variable {source y : Text} {k : TokenKind} {before : List Token} {e : Token}

/-- A bracket or a separator is a token whatever comes after it. -/
theorem front_stands (stands : k.stands) :
    Front (text k.spelling) y (.token k (.text (text k.spelling))) := by
  have operator := stands_operator stands
  refine ⟨?_, fun m => ⟨_, piece_operator operator (fun p _ => ?_) (fun slash p _ => ?_)
    (fun dot p _ => ?_)⟩⟩
  · obtain ⟨_, _, spelled, _⟩ := operator_first operator
    simp [spelled]
  · exact (stops_stands stands).1
  · exact (stops_stands stands).2.1 slash
  · exact (stops_stands stands).2.2 dot

/-- A source in parentheses has its tokens between theirs. -/
theorem tokenize_enclosed (scan : tokenize source = .ok (before ++ [e])) :
    ∃ opening ts closing last,
      tokenize (text "(" ++ source ++ text "\n)") = .ok (opening :: (ts ++ [closing, last])) ∧
      opening.kind = .leftParen ∧ ts.map Token.cut = before.map Token.cut ∧
      closing.kind = .rightParen ∧ last.kind = .endOfInput := by
  have bracket : Cuts (text ")" ++ []) false _ := .token (front_stands (k := .rightParen) rfl) .last
  obtain ⟨_, right, made⟩ := tokenize_cuts.mp bracket
  obtain ⟨t, _, rfl, second, ends⟩ := List.map_eq_cons_iff.mp made
  obtain ⟨stop, rfl, third⟩ := List.map_eq_singleton_iff.mp ends
  obtain ⟨front, u, rest, joined, same, head, tail⟩ := tokenize_append scan right
  have whole : Cuts (text "(" ++ (source ++ text "\n)")) false _ :=
    .token (front_stands (k := .leftParen) rfl) (tokenize_cuts.mpr ⟨_, joined, rfl⟩)
  obtain ⟨_, scan, made⟩ := tokenize_cuts.mp whole
  obtain ⟨opening, others, rfl, first, inner⟩ := List.map_eq_cons_iff.mp made
  rw [List.map_append, List.map_cons, same, head, tail, second, List.map_singleton, third] at inner
  obtain ⟨ts, _, rfl, inside, outer⟩ := List.map_eq_append_iff.mp inner
  obtain ⟨closing, _, rfl, close, outer⟩ := List.map_eq_cons_iff.mp outer
  obtain ⟨last, rfl, final⟩ := List.map_eq_singleton_iff.mp outer
  rw [← List.append_assoc] at scan
  exact ⟨opening, ts, closing, last, scan, congrArg Cut.kind first, inside,
    congrArg Cut.kind close, congrArg Cut.kind final⟩

end Tokens

namespace Grammar

open Value

variable {f g f' : Feed} {p : Part} {v : Value} {closing last : Token} {r : Rules}

/-- What has been read up to the end of input is read again up to a closing parenthesis. -/
theorem Reads.enclosed (read : Reads p f v g) (whole : p.isWhole)
    (closes : closing.kind = .rightParen) (ends : last.kind = .endOfInput)
    (echo : Echo (some ⟨g.tokens, [closing, last]⟩) f f') :
    ∃ w g', Reads p f' w g' ∧ Like false w v ∧ g'.tokens = [closing, last] := by
  obtain ⟨isOpen, fresh, consumes⟩ := p.isWhole_open whole
  have bar : Bars closing [last] := ⟨by rw [closes]; rfl, by rw [closes]; nofun, ends⟩
  obtain ⟨w, g', again, like, abreast⟩ :=
    (read.halts isOpen).first echo bar List.suffix_rfl fresh consumes
  exact ⟨w, g', again, like, abreast.ends rfl⟩

theorem wholeExpression_sound (hr : r.Sound) (run : wholeExpression r f = .ok (v, g)) :
    Reads .sequence f v g ∧ g.current.kind = .endOfInput := by
  obtain ⟨made, h, inner, rest⟩ := bind_ok.mp run
  rw [check_ite] at rest
  split at rest
  · rename_i ending
    cases pure_ok.mp rest
    exact ⟨expression_sound hr inner, ending⟩
  · rw [get_bind] at rest
    cases refuse_ok.mp rest

end Grammar

open Grammar Value

variable {source : Text} {v w : Value}

/-- An expression is parsed by reading one up to the end of its tokens. -/
theorem parseExpression_iff : parseExpression source = .ok v ↔
    ∃ tokens g, tokenize source = .ok tokens ∧ Reads .sequence (Feed.ofTokens tokens) v g ∧
      g.current.kind = .endOfInput := by
  constructor
  · intro parsed
    rw [parseExpression] at parsed
    cases scanned : tokenize source with
    | error e => rw [scanned] at parsed; cases parsed
    | ok tokens =>
      rw [scanned, ok_bind, run] at parsed
      cases ran : wholeExpression (rules (tokens.length + 1)) (Feed.ofTokens tokens) with
      | error e => rw [ran] at parsed; cases parsed
      | ok made =>
        obtain ⟨u, g⟩ := made
        rw [ran] at parsed
        cases parsed
        exact ⟨tokens, g, rfl, wholeExpression_sound (rules_sound _) ran⟩
  · rintro ⟨tokens, g, scanned, read, ending⟩
    exact parseExpression_reads scanned read ending

theorem parseExpression_conforms (parsed : parseExpression source = .ok v) :
    Conforms .parsed .expression v := by
  obtain ⟨tokens, g, scanned, read, _⟩ := parseExpression_iff.1 parsed
  exact read.yields (faithful_ofTokens scanned)

theorem parseExpression_numeric (parsed : parseExpression source = .ok v) : v.isNumeric := by
  obtain ⟨tokens, g, scanned, read, _⟩ := parseExpression_iff.1 parsed
  exact read.numeric (numeric_ofTokens scanned) rfl

/-- The tokens of an expression are some of its own and then the end of input. -/
theorem parseExpression_tokens (parsed : parseExpression source = .ok v) : ∃ t ts g,
    tokenize source = .ok (t :: ts ++ g.tokens) ∧
      Reads .sequence (Feed.ofTokens (t :: ts ++ g.tokens)) v g ∧ g.tokens = [g.current] := by
  obtain ⟨tokens, g, scanned, read, ending⟩ := parseExpression_iff.1 parsed
  have closed := closed_ofTokens scanned
  obtain ⟨within, ts, left⟩ := read.past rfl
  have whole : tokens = (Feed.ofTokens tokens).current :: ts ++ g.tokens := by
    rw [List.cons_append, left, ← (closed.next within).2]
    exact (tokens_ofTokens (tokenize_closed scanned)).symm
  rw [whole] at scanned read
  exact ⟨_, ts, g, scanned, read, (read.closed (whole ▸ closed)).tokens_end ending⟩

/-- An expression is read in parentheses as it is read by itself. -/
theorem parseExpression_parens (parsed : parseExpression source = .ok v) :
    ∃ w, parseExpression (text "(" ++ source ++ text "\n)") = .ok w ∧ Like false w v := by
  obtain ⟨t, ts, g, scanned, read, only⟩ := parseExpression_tokens parsed
  have scan := scanned
  rw [only] at scan
  obtain ⟨opening, others, closing, last, again, opens, same, closes, ends⟩ :=
    tokenize_enclosed scan
  obtain ⟨u, us, rfl, head, tail⟩ := List.map_eq_cons_iff.mp same
  simp only [Token.cut, Cut.mk.injEq] at head
  let f := Feed.ofTokens (opening :: (u :: us ++ [closing, last]))
  have echo : Echo (some ⟨g.tokens, [closing, last]⟩) (Feed.ofTokens (t :: ts ++ g.tokens))
      f.next.lift :=
    ⟨rfl, head.1, head.2.1, head.2.2.1, echoes_of_cut tail (.stop rfl), closed_ofTokens scanned⟩
  obtain ⟨w, g', inside, like, done⟩ := read.enclosed rfl closes ends echo
  obtain ⟨prev, _, _, noIn⟩ := g'
  cases done
  have grouped : Reads .primary f w _ := .parenthesized opens (.group inside) closes
  have whole := grouped.widen rfl (closed_ofTokens again) ends
  exact ⟨w, parseExpression_reads again whole ends, like⟩

/-- Parentheses around an expression leave it as it is, whatever its last line ends with. -/
theorem parseExpression_enclosed (parsed : parseExpression source = .ok v) :
    ∃ w, parseExpression (text "(" ++ source ++ text "\n)") = .ok w ∧
      w.equivalent v = .ok true := by
  obtain ⟨w, again, like⟩ := parseExpression_parens parsed
  exact ⟨w, again, like.equivalent_parsed (parseExpression_conforms again)
    (parseExpression_conforms parsed) (parseExpression_numeric parsed)⟩

/-- A sequence with an arrow function in it, and a comment up to the end of the source. -/
theorem parseExpression_enclosed_arrow :
    let source := text "(a, b) => a in b, c ? d : e // f"
    ∃ v w, parseExpression source = .ok v ∧
      parseExpression (text "(" ++ source ++ text "\n)") = .ok w ∧ w.equivalent v = .ok true := by
  intro source
  have known : (parseExpression source).toOption.isSome = true := by decide +kernel
  cases parsed : parseExpression source with
  | error e => rw [parsed] at known; cases known
  | ok v =>
    obtain ⟨w, again, equivalent⟩ := parseExpression_enclosed parsed
    exact ⟨v, w, rfl, again, equivalent⟩

end ScriptTree
