import ScriptTree.Proofs.Token.Cutting

/-!
Sources put together at a line feed. How far a piece moves the scan depends on the text of the piece
alone, and on the line and the offset at which it begins not at all. So a source that stands after
another one on lines of its own is cut into its tokens again, in the same columns, and what is left
over at the end of the first source is handed to the first token of the second.
-/
namespace ScriptTree

/-- The place in the same column some lines and some code points further on. -/
def Mark.below (m : Mark) (lines count : Nat) : Mark :=
  ⟨m.line + lines, m.column, m.offset + count⟩

def Token.below (t : Token) (lines count : Nat) : Token :=
  { t with start := t.start.below lines count, stop := t.stop.below lines count }

/-- A token with more of a gap before it: a line end or not, and comments. -/
def Token.after (t : Token) (gap : Scan.Pending) : Token :=
  { t with newlineBefore := gap.newline || t.newlineBefore, comments := gap.comments ++ t.comments }

namespace Mark

variable {m : Mark} {lines count i : Nat} {t : Text}

theorem right_below : (m.below lines count).right i = (m.right i).below lines count := by
  simp only [right, below, Mark.mk.injEq, true_and]
  omega

theorem nextLine_below : (m.below lines count).nextLine i = (m.nextLine i).below lines count := by
  simp only [nextLine, below, Mark.mk.injEq, true_and]
  omega

theorem past_below : (m.below lines count).past t = (m.past t).below lines count := by
  induction t generalizing m with
  | nil => rfl
  | cons p t ih =>
    simp only [past, List.foldl_cons] at ih ⊢
    split
    · rw [nextLine_below, ih]
    · rw [right_below, ih]

end Mark

namespace Scan

/-- A way of moving on that is the same on every line and at every offset. -/
def Steady (move : Mark → Mark) : Prop :=
  ∀ m lines count, move (m.below lines count) = (move m).below lines count

variable {x y z value : Text} {quote : Point} {m n : Mark} {p : Piece} {kind : TokenKind}
  {v : Value} {u vs : Text}

theorem steady_right (i : Nat) : Steady (·.right i) := fun _ _ _ => Mark.right_below

theorem steady_across : Steady fun m => across m u vs := by
  intro m lines count
  unfold across
  split
  · exact Mark.nextLine_below
  · exact Mark.right_below

/-- A string is read to its closing quote in one way, wherever it stands. -/
theorem Quoted.moves (quoted : Quoted quote x value) (escape : quote ≠ Point.backslash)
    (line : ¬(quote = Point.lineFeed ∨ quote = Point.carriageReturn)) :
    ∃ move, Steady move ∧ ∀ start here t,
      stringRest quote start here (x ++ t) = .ok (value, ⟨t, move here⟩) := by
  induction quoted with
  | close =>
    refine ⟨_, steady_right 1, fun start here t => ?_⟩
    rw [List.singleton_append, stringRest.eq_def]
    simp only [line, if_false, if_true]
  | @more u vs x value stroke apart rest ih =>
    obtain ⟨move, steady, reads⟩ := ih
    refine ⟨fun m => move (across m u vs), fun m lines count => ?_, fun start here t => ?_⟩
    · exact (congrArg move (steady_across m lines count)).trans (steady _ lines count)
    · have apart : u = [Point.backslash, Point.carriageReturn] →
          (x ++ t).head? ≠ some Point.lineFeed := by
        rwa [rest.head?]
      rw [List.append_assoc, stroke.reads escape apart, reads]
      rfl

/-- Every token but a string stays on its line. -/
theorem Stretch.inline (stretch : Stretch m y x (.token kind v) n) (other : kind ≠ .string) :
    n = m.right x.length := by
  generalize same : Piece.token kind v = p at stretch
  cases stretch with
  | string =>
    cases same
    exact absurd rfl other
  | number => rfl
  | word => rfl
  | operator => rfl
  | _ => cases same

theorem Stretch.string_cases (stretch : Stretch m y x (.token .string v) n) :
    ∃ q r s, x = q :: r ∧ v = .text s ∧ (q = Point.doubleQuote ∨ q = Point.apostrophe) ∧
      stringRest q m (m.right 1) (r ++ y) = .ok (s, ⟨y, n⟩) := by
  generalize same : Piece.token .string v = p at stretch
  cases stretch with
  | string mark read =>
    cases same
    exact ⟨_, _, _, rfl, rfl, mark, read⟩
  | word word =>
    obtain ⟨kind, _⟩ := Piece.token.inj same
    cases found : TokenKind.keyword? x with
    | none =>
      rw [found] at kind
      cases kind
    | some k =>
      rw [found] at kind
      exact absurd kind.symm (keywords_apart (keyword?_some found).1).2.2.2.1
  | operator operator =>
    cases same
    exact absurd rfl (operators_apart operator).2.2.2.1
  | number => cases same
  | _ => cases same

/-- How far a gap moves the scan: over a block comment, to the next line or along the line. -/
def gapMove (newline : Bool) (comments : List Comment) (x : Text) (m : Mark) : Mark :=
  match comments with
  | [⟨inner, true, _⟩] => ((m.right 2).past inner).right 2
  | _ => if newline then m.nextLine x.length else m.right x.length

theorem steady_gapMove (newline : Bool) (comments : List Comment) (x : Text) :
    Steady (gapMove newline comments x) := by
  intro m lines count
  unfold gapMove
  split
  · rw [Mark.right_below, Mark.past_below, Mark.right_below]
  · split
    · exact Mark.nextLine_below
    · exact Mark.right_below

theorem Stretch.gapMove {newline : Bool} {comments : List Comment}
    (stretch : Stretch m y x (.gap newline comments) n) : n = gapMove newline comments x m := by
  generalize same : Piece.gap newline comments = p at stretch
  cases stretch <;> cases same <;> rfl

/-- The text of a piece tells how far it moves the scan. -/
theorem Stretch.moves (stretch : Stretch m y x p n) : ∃ move, Steady move ∧ n = move m ∧
    ∀ m' z n', Stretch m' z x p n' → n' = move m' := by
  cases p with
  | gap newline comments =>
    exact ⟨_, steady_gapMove newline comments x, stretch.gapMove, fun _ _ _ other => other.gapMove⟩
  | token kind v =>
    by_cases string : kind = .string
    · subst string
      obtain ⟨q, r, s, rfl, rfl, mark, read⟩ := stretch.string_cases
      obtain ⟨r', quoted, split, _⟩ := stringRest_ok read
      cases List.append_cancel_right split
      obtain ⟨move, steady, reads⟩ : ∃ move, Steady move ∧ ∀ start here t,
          stringRest q start here (r ++ t) = .ok (s, ⟨t, move here⟩) := by
        apply quoted.moves <;> rcases mark with rfl | rfl <;> decide
      refine ⟨fun m => move (m.right 1), fun m lines count => ?_, ?_, fun m' z n' other => ?_⟩
      · exact (congrArg move Mark.right_below).trans (steady _ lines count)
      · rw [reads] at read
        cases read
        rfl
      · obtain ⟨_, _, _, same, _, _, again⟩ := other.string_cases
        cases same
        rw [reads] at again
        cases again
        rfl
    · exact ⟨_, steady_right x.length, stretch.inline string,
        fun _ _ _ other => other.inline string⟩

/-- What the scan takes, it takes before every text that may follow, wherever it begins, and it
moves on in one way. -/
theorem piece_moves (some : x ≠ []) (read : piece ⟨x ++ y, m⟩ = .ok (p, ⟨y, n⟩)) :
    ∃ move, Steady move ∧ n = move m ∧
      ∀ z, Follows x y z → ∀ m', piece ⟨x ++ z, m'⟩ = .ok (p, ⟨z, move m'⟩) := by
  obtain ⟨taken, split, stretch⟩ := piece_stretch read (by simp [some])
  cases List.append_cancel_right split
  obtain ⟨move, steady, moved, unique⟩ := stretch.moves
  refine ⟨move, steady, moved, fun z follows m' => ?_⟩
  obtain ⟨there, again⟩ := piece_follows some read follows
  obtain ⟨taken, split, other⟩ := piece_stretch again (by simp [some])
  cases List.append_cancel_right split
  rw [again, unique m' z there other]

/-- What has gone by in two gaps, one after the other. -/
def Pending.join (first second : Pending) : Pending :=
  ⟨first.newline || second.newline, first.comments ++ second.comments⟩

variable {c after : Cursor} {pending : Pending} {tokens before rest : List Token} {t e : Token}

theorem tokenAt_taken (takes : Takes c.rest c.mark x after) :
    tokenAt c after pending kind v =
      ⟨kind, v, c.mark, after.mark, x, pending.newline, pending.comments⟩ := by
  obtain ⟨split, offset⟩ := takes
  simp only [tokenAt, offset, Nat.add_sub_cancel_left, split, List.take_left]

theorem Runs.tokensFrom (runs : Runs c pending tokens) {steps : Nat}
    (enough : c.rest.length ≤ steps) : tokensFrom steps c pending = .ok tokens := by
  induction runs generalizing steps with
  | last => cases steps <;> rfl
  | @gap c after pending newline comments tokens some read _ ih =>
    obtain ⟨x, present, ⟨split, _⟩, _⟩ := piece_takes read some
    have length := List.length_pos_iff.mpr present
    rw [split, List.length_append] at enough
    obtain ⟨steps, rfl⟩ : ∃ k, steps = k + 1 := ⟨steps - 1, by omega⟩
    rw [Scan.tokensFrom, if_neg (by simp [some]), read]
    exact ih (by omega)
  | @token c after pending kind value tokens some read _ ih =>
    obtain ⟨x, present, ⟨split, _⟩, _⟩ := piece_takes read some
    have length := List.length_pos_iff.mpr present
    rw [split, List.length_append] at enough
    obtain ⟨steps, rfl⟩ : ∃ k, steps = k + 1 := ⟨steps - 1, by omega⟩
    rw [Scan.tokensFrom, if_neg (by simp [some]), read]
    simp only [ih (by omega : after.rest.length ≤ steps)]

/-- A scan ends with the end of input. -/
theorem Runs.ends (runs : Runs c pending tokens) :
    ∃ before e, tokens = before ++ [e] ∧ e.kind = .endOfInput := by
  induction runs with
  | last => exact ⟨[], _, rfl, rfl⟩
  | gap _ _ _ ih => exact ih
  | token _ _ _ ih =>
    obtain ⟨before, e, rfl, last⟩ := ih
    exact ⟨_ :: before, e, rfl, last⟩

/-- A piece is the same further on, and so is what is left after it. -/
theorem piece_below (lines count : Nat) (some : c.rest ≠ []) (read : piece c = .ok (p, after)) :
    ∃ x, x ≠ [] ∧ Takes c.rest c.mark x after ∧ piece ⟨c.rest, c.mark.below lines count⟩ =
      .ok (p, ⟨after.rest, after.mark.below lines count⟩) := by
  obtain ⟨x, present, takes, _⟩ := piece_takes read some
  obtain ⟨rest, m⟩ := c
  obtain rfl : rest = x ++ after.rest := takes.1
  obtain ⟨move, steady, moved, reads⟩ := piece_moves present read
  refine ⟨x, present, takes, ?_⟩
  rw [reads after.rest .refl, steady, ← moved]

/-- A source further on is scanned into the same tokens; a gap before it goes to the first one. -/
theorem Runs.relocated (runs : Runs c pending tokens) (lines count : Nat) (gap : Pending) :
    ∃ t rest, tokens = t :: rest ∧
      Runs ⟨c.rest, c.mark.below lines count⟩ (gap.join pending)
        ((t.below lines count).after gap :: rest.map (·.below lines count)) := by
  induction runs generalizing gap with
  | @last m pending =>
    refine ⟨_, [], rfl, ?_⟩
    have first : ((tokenAt ⟨[], m⟩ ⟨[], m⟩ pending .endOfInput .null).below lines count).after gap =
        tokenAt ⟨[], m.below lines count⟩ ⟨[], m.below lines count⟩ (gap.join pending)
          .endOfInput .null := by
      rw [tokenAt_taken (x := []) ⟨rfl, rfl⟩, tokenAt_taken (x := []) ⟨rfl, rfl⟩]
      rfl
    rw [first]
    exact .last
  | @gap c after pending newline comments tokens some read _ ih =>
    obtain ⟨t, rest, rfl, runs⟩ := ih gap
    obtain ⟨_, _, _, again⟩ := piece_below lines count some read
    refine ⟨t, rest, rfl, .gap some again ?_⟩
    simpa only [Pending.join, Bool.or_assoc, List.append_assoc] using runs
  | @token c after pending kind value tokens some read _ ih =>
    obtain ⟨t, rest, rfl, runs⟩ := ih {}
    obtain ⟨x, _, takes, again⟩ := piece_below lines count some read
    refine ⟨_, _, rfl, ?_⟩
    have moved : Takes c.rest (c.mark.below lines count) x
        ⟨after.rest, after.mark.below lines count⟩ := by
      refine ⟨takes.1, ?_⟩
      simp only [Mark.below, takes.2]
      omega
    have first : ((tokenAt c after pending kind value).below lines count).after gap =
        tokenAt ⟨c.rest, c.mark.below lines count⟩ ⟨after.rest, after.mark.below lines count⟩
          (gap.join pending) kind value := by
      rw [tokenAt_taken takes, tokenAt_taken moved]
      rfl
    rw [first]
    exact .token some again runs

theorem Takes.place (takes : Takes c.rest c.mark x after) :
    after.mark.offset + after.rest.length = c.mark.offset + c.rest.length := by
  rw [takes.1, takes.2, List.length_append]
  omega

theorem Takes.ends (takes : Takes c.rest c.mark x after) (ends : y <:+ after.rest) :
    y <:+ c.rest := by
  rw [takes.1]
  exact ends.trans (List.suffix_append ..)

theorem follows_line (apart : z = [] → goesOn x Point.lineFeed = false) :
    Follows x z (z ++ Point.lineFeed :: y) := by
  intro q first
  cases z with
  | nil =>
    obtain rfl : Point.lineFeed = q := Option.some.inj first
    exact .inr ⟨rfl, apart rfl⟩
  | cons p z => exact .inl first

/-- What stands before a further line is taken as it is before the end of input. -/
theorem piece_before_line (some : c.rest ≠ []) (read : piece c = .ok (p, after))
    (apart : ∀ x, c.rest = x ++ after.rest → after.rest = [] → goesOn x Point.lineFeed = false) :
    piece ⟨c.rest ++ Point.lineFeed :: y, c.mark⟩ =
      .ok (p, ⟨after.rest ++ Point.lineFeed :: y, after.mark⟩) := by
  obtain ⟨x, present, takes, _⟩ := piece_takes read some
  obtain ⟨rest, m⟩ := c
  obtain rfl : rest = x ++ after.rest := takes.1
  obtain ⟨move, _, moved, reads⟩ := piece_moves present read
  rw [List.append_assoc, reads _ (follows_line (apart x rfl)), ← moved]

/-- A source on the next line, with a gap before the line end. -/
theorem Runs.next_line (runs : Runs ⟨y, Mark.first⟩ {} (t :: rest)) (m : Mark) (i : Nat)
    (comments : List Comment) : Runs ⟨y, m.nextLine i⟩ ⟨true, comments⟩
      ((t.below m.line (m.offset + i)).after ⟨true, comments⟩ ::
        rest.map (·.below m.line (m.offset + i))) := by
  obtain ⟨t, rest, same, moved⟩ := runs.relocated m.line (m.offset + i) ⟨true, comments⟩
  obtain ⟨rfl, rfl⟩ := List.cons.inj same
  have place : Mark.first.below m.line (m.offset + i) = m.nextLine i := by
    simp only [Mark.below, Mark.first, Mark.nextLine, Mark.mk.injEq, true_and]
    omega
  simpa only [place, Pending.join, Bool.true_or, List.append_nil] using moved

/-- The tokens of a source go on with those of another one that begins on the next line. -/
theorem Runs.append_line (runs : Runs c pending (before ++ [e]))
    (others : Runs ⟨y, Mark.first⟩ {} (t :: rest)) : ∃ lines,
      (lines = e.start.line ∨ [Point.carriageReturn] <:+ c.rest ∧ lines + 1 = e.start.line) ∧
      Runs ⟨c.rest ++ Point.lineFeed :: y, c.mark⟩ pending
        (before ++ (t.below lines (c.mark.offset + c.rest.length + 1)).after ⟨true, e.comments⟩ ::
          rest.map (·.below lines (c.mark.offset + c.rest.length + 1))) := by
  generalize whole : before ++ [e] = tokens at runs
  induction runs generalizing before with
  | @last m pending =>
    cases before with
    | nil =>
      obtain rfl := List.singleton_inj.mp whole
      have moved := others.next_line m 1 pending.comments
      refine ⟨m.line, .inl rfl, .gap (by simp) piece_lineFeed ?_⟩
      simpa [tokenAt] using moved
    | cons => simp at whole
  | @gap c after pending newline comments tokens some read runs ih =>
    obtain ⟨x, present, takes, _⟩ := piece_takes read some
    by_cases pair : x = [Point.carriageReturn] ∧ after.rest = []
    · -- the line feed belongs to the line end before it
      obtain ⟨rfl, none⟩ := pair
      obtain ⟨rest, m⟩ := c
      obtain rfl : rest = [Point.carriageReturn] := by simpa [none] using takes.1
      cases read
      cases runs with
      | gap some => exact absurd rfl some
      | token some => exact absurd rfl some
      | last =>
      cases before with
      | nil =>
        obtain rfl := List.singleton_inj.mp whole
        have moved := others.next_line m 2 pending.comments
        have read : piece ⟨[Point.carriageReturn, Point.lineFeed] ++ y, m⟩ =
          .ok (.gap true [], ⟨y, m.nextLine 2⟩) := rfl
        refine ⟨m.line, .inr ⟨List.suffix_rfl, rfl⟩, .gap (by simp) read ?_⟩
        simpa [tokenAt] using moved
      | cons => simp at whole
    · obtain ⟨lines, line, more⟩ := ih whole
      have apart : ∀ w, c.rest = w ++ after.rest → after.rest = [] →
          goesOn w Point.lineFeed = false := by
        intro w split none
        cases List.append_cancel_right (takes.1.symm.trans split)
        have other : x ≠ [Point.carriageReturn] := fun same => pair ⟨same, none⟩
        simp [goesOn, Point.isRemark, other]
      rw [takes.place] at more
      refine ⟨lines, line.imp_right (And.imp_left takes.ends), ?_⟩
      exact .gap (by simp) (piece_before_line some read apart) more
  | @token c after pending kind value tokens some read runs ih =>
    cases before with
    | nil =>
      obtain ⟨others, last, rfl, _⟩ := runs.ends
      simp at whole
    | cons first before =>
      obtain ⟨rfl, later⟩ := List.cons.inj whole
      obtain ⟨x, present, takes, _⟩ := piece_takes read some
      obtain ⟨lines, line, more⟩ := ih later
      have apart : ∀ w, c.rest = w ++ after.rest → after.rest = [] →
          goesOn w Point.lineFeed = false :=
        fun w split _ => token_apart read ⟨after.rest, split.symm⟩
      have longer : Takes (c.rest ++ Point.lineFeed :: y) c.mark x
          ⟨after.rest ++ Point.lineFeed :: y, after.mark⟩ :=
        ⟨by rw [takes.1, List.append_assoc], takes.2⟩
      have same : tokenAt c after pending kind value =
          tokenAt ⟨c.rest ++ Point.lineFeed :: y, c.mark⟩
            ⟨after.rest ++ Point.lineFeed :: y, after.mark⟩ pending kind value := by
        rw [tokenAt_taken takes, tokenAt_taken longer]
      rw [takes.place] at more
      refine ⟨lines, line.imp_right (And.imp_left takes.ends), ?_⟩
      rw [List.cons_append, same]
      exact .token (by simp) (piece_before_line some read apart) more

end Scan

variable {a b : Text} {s u : List Token}

/-- The tokens of a source are followed by those of another one that begins on a line of its own. -/
theorem tokenize_append {before after : List Token} {t e : Token}
    (left : tokenize a = .ok (before ++ [e])) (right : tokenize b = .ok (t :: after)) :
    ∃ first u rest, tokenize (a ++ Point.lineFeed :: b) = .ok (first ++ u :: rest) ∧
      first.map Token.cut = before.map Token.cut ∧
      u.cut = { t.cut with newlineBefore := true } ∧ rest.map Token.cut = after.map Token.cut := by
  obtain ⟨lines, _, runs⟩ := (tokenize_runs left).append_line (tokenize_runs right)
  refine ⟨before, _, _, runs.tokensFrom (Nat.le_refl _), rfl, rfl, ?_⟩
  rw [List.map_map]
  rfl

/-- Two sources with a line feed between them have the tokens of the first one, but for its end of
input, and then those of the second, further on in the same columns. The first token of the second
source has a line end before it, and the comments at the end of the first source before its own. -/
theorem tokenize_line (left : tokenize a = .ok s) (right : tokenize b = .ok u) :
    ∃ before e t rest lines, s = before ++ [e] ∧ e.kind = .endOfInput ∧ u = t :: rest ∧
      tokenize (a ++ Point.lineFeed :: b) = .ok (before ++
        { t.below lines (a.length + 1) with
          newlineBefore := true, comments := e.comments ++ t.comments } ::
        rest.map (·.below lines (a.length + 1))) ∧
      (lines = e.start.line ∨ [Point.carriageReturn] <:+ a ∧ lines + 1 = e.start.line) := by
  obtain ⟨before, e, rfl, last⟩ := (tokenize_runs left).ends
  obtain ⟨t, rest, rfl, _⟩ := (tokenize_runs right).relocated 0 0 {}
  obtain ⟨lines, line, runs⟩ := (tokenize_runs left).append_line (tokenize_runs right)
  have scan := runs.tokensFrom (Nat.le_refl _)
  have start : Mark.first.offset + a.length + 1 = a.length + 1 := by
    show 0 + a.length + 1 = _
    omega
  rw [start] at scan
  exact ⟨before, e, t, rest, lines, rfl, last, rfl, scan, line⟩

/-- A comment up to the line feed that ends the first source goes to the first token of the second,
before the comments that stand there. -/
theorem tokenize_line_remark :
    let a := text "x // one
"
    let b := text "/* two */ y"
    ∃ s u, tokenize a = .ok s ∧ tokenize b = .ok u ∧
      ∃ before e t rest lines, s = before ++ [e] ∧ e.kind = .endOfInput ∧ u = t :: rest ∧
        tokenize (a ++ Point.lineFeed :: b) = .ok (before ++
          { t.below lines (a.length + 1) with
            newlineBefore := true, comments := e.comments ++ t.comments } ::
          rest.map (·.below lines (a.length + 1))) ∧
        (lines = e.start.line ∨ [Point.carriageReturn] <:+ a ∧ lines + 1 = e.start.line) := by
  intro a b
  have known : (tokenize a).isOk && (tokenize b).isOk := by decide +kernel
  cases left : tokenize a with
  | error e => rw [left] at known; cases known
  | ok s =>
    cases right : tokenize b with
    | error e => rw [left, right] at known; cases known
    | ok u => exact ⟨s, u, rfl, rfl, tokenize_line left right⟩

end ScriptTree
