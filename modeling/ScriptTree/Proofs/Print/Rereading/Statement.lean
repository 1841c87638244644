import ScriptTree.Proofs.Print.Rereading.Expression

/-!
Statements are read again from what is written for them, with the comments around them: one lemma
for each way of writing a statement, which takes what holds of its parts.
-/
namespace ScriptTree.Rereading

open Grammar Print Value

variable {width : Int} {c : Context} {k o : TokenKind} {depth : Nat} {n : Notes}
  {u v w x : Value} {us vs : List Value} {ls ms ns os : List Lexeme} {σ : Stage} {f g : Feed}
  {b aloud keep : Bool} {t : Token} {ts rest : List Token} {xs : List Comment}

def Solid (ls : List Lexeme) : Prop := ∃ l ms, ls = l :: ms ∧ l.isSolid

def Ended (ls : List Lexeme) : Prop := ∃ ms l, ls = ms ++ [l] ∧ l.isSolid

theorem Solid.append (solid : Solid ls) : Solid (ls ++ ms) := by
  obtain ⟨l, ls, rfl, first⟩ := solid
  exact ⟨l, ls ++ ms, rfl, first⟩

theorem solid_of_begins (begins : Begins keep ls) (kept : keep) : Solid ls := by
  obtain ⟨xs, l, ls, rfl, _, first, quiet⟩ := begins
  refine ⟨l, ls, by rw [quiet kept]; rfl, ?_⟩
  cases l <;> first | rfl | cases first

theorem Ended.single {l : Lexeme} (solid : l.isSolid) : Ended [l] := ⟨[], l, rfl, solid⟩

theorem Ended.prepend (ended : Ended ms) : Ended (ls ++ ms) := by
  obtain ⟨ns, l, rfl, solid⟩ := ended
  exact ⟨ls ++ ns, l, (List.append_assoc ls ns [l]).symm, solid⟩

theorem Ended.cons {l : Lexeme} (ended : Ended ms) : Ended (l :: ms) := by
  have longer : Ended ([l] ++ ms) := ended.prepend
  exact longer

/-- Nothing is pending after a token. -/
theorem Ended.settled (ended : Ended ls) : (σ.after width ls).pending = {} := by
  obtain ⟨ms, l, rfl, solid⟩ := ended
  rw [Stage.after_append, Stage.after_cons, Stage.after_nil]
  cases l <;> first | rfl | cases solid

/-- The first token takes what is pending. -/
theorem Solid.first (solid : Solid ls) (stands : f.At b (σ.tokens width ls ++ rest)) :
    f.current.newlineBefore = σ.pending.newline ∧ f.current.comments = σ.pending.comments := by
  obtain ⟨l, ms, rfl, first⟩ := solid
  rw [Stage.tokens_solid first] at stands
  have current := Feed.At.current stands
  rw [current]
  exact ⟨rfl, rfl⟩

theorem tokens_remarksAfter : σ.tokens width (remarksAfter depth xs) = [] := by
  induction xs generalizing σ with
  | nil => rfl
  | cons x xs ih => exact ih

theorem tokens_remarksBefore : σ.tokens width (remarksBefore depth xs) = [] := by
  induction xs generalizing σ with
  | nil => rfl
  | cons x xs ih => exact ih

theorem pending_remarksAfter : (σ.after width (remarksAfter depth xs)).pending.comments =
    σ.pending.comments ++ xs.map ({ · with leading := true }) := by
  induction xs generalizing σ with
  | nil => exact (List.append_nil _).symm
  | cons x xs ih =>
    have rest := ih (σ := (σ.step width (.line depth)).step width (.remark x))
    rw [List.map_cons, List.append_cons]
    exact rest

theorem pending_remarksBefore : (σ.after width (remarksBefore depth xs)).pending.comments =
    σ.pending.comments ++ xs.map ({ · with leading := true }) := by
  induction xs generalizing σ with
  | nil => exact (List.append_nil _).symm
  | cons x xs ih =>
    have rest := ih (σ := (σ.step width (.remark x)).step width (.line depth))
    rw [List.map_cons, List.append_cons]
    exact rest

/-- Comments before a statement are scanned as what they are. -/
theorem map_leading : (leadingComments c v).map ({ · with leading := true }) =
    leadingComments c v := by
  unfold leadingComments
  split
  · refine (List.map_congr_left fun x mem => ?_).trans (List.map_id _)
    obtain ⟨text, block, leading⟩ := x
    have := (List.mem_filter.mp mem).2
    simp only at this
    rw [this]
    rfl
  · rfl

/-- Comments after a statement are scanned as leading ones, and attached as trailing ones again. -/
theorem map_trailing : ((trailingComments c v).map ({ · with leading := true })).map
    ({ · with leading := false }) = trailingComments c v := by
  rw [List.map_map]
  unfold trailingComments
  split
  · refine (List.map_congr_left fun x mem => ?_).trans (List.map_id _)
    obtain ⟨text, block, leading⟩ := x
    have := (List.mem_filter.mp mem).2
    simp only [Bool.not_eq_true'] at this
    rw [this]
    rfl
  · rfl

/-- The comments that are kept are printed in all circumstances. -/
theorem trailing_aloud (kept : c.comments) :
    trailingComments (c.aloud aloud) v = trailingComments c v := by
  simp only [trailingComments, Context.aloud, kept, Bool.or_true]

theorem blockNone
    (none : trailingComments (c.aloud aloud) (.node .blockStatement [.list []] n) = []) :
    (Form.block c).Rereads width (.node .blockStatement [.list []] n)
      [.mark .leftBrace, .mark .rightBrace] := by
  intro σ f b rest stands
  obtain ⟨opening, stands⟩ := Feed.At.mark stands (by decide)
  have quiet : f.next.current.comments = [] := by
    rw [Feed.At.current stands]
    rfl
  obtain ⟨closing, after⟩ := stands.mark (by decide)
  refine ⟨_, _, .blockEmpty opening closing, .node (.cons .refl .nil) fun kept => ?_, after⟩
  rw [trailing_aloud kept] at none
  rw [quiet]
  exact none.symm

theorem blockRemarks
    (some : trailingComments (c.aloud aloud) (.node .blockStatement [.list []] n) = xs) :
    (Form.block c).Rereads width (.node .blockStatement [.list []] n) (.mark .leftBrace ::
      (remarksAfter (c.depth + 1) xs ++ [.line c.depth, .mark .rightBrace])) := by
  intro σ f b rest stands
  obtain ⟨opening, stands⟩ := Feed.At.mark stands (by decide)
  rw [Stage.tokens_append, tokens_remarksAfter, List.nil_append, Stage.tokens_line] at stands
  have comments : f.next.current.comments = xs.map ({ · with leading := true }) := by
    rw [Feed.At.current stands]
    exact pending_remarksAfter
  obtain ⟨closing, after⟩ := stands.mark (by decide)
  refine ⟨_, _, .blockEmpty opening closing, .node (.cons .refl .nil) fun kept => ?_, after⟩
  rw [trailing_aloud kept] at some
  change [] ++ f.next.current.comments.map _ = trailingComments c _
  rw [List.nil_append, comments, ← some, map_trailing]

/-- Statements that are alike to some are some. -/
theorem lines_cons {f : Value → Value} (likes : AllLike c.comments (mapLast f us) (v :: vs)) :
    ∃ w ws, us = w :: ws := by
  cases us with
  | nil =>
    obtain ⟨_, _, none, _⟩ := allLike_cons.mp likes
    cases none
  | cons w ws => exact ⟨w, ws, rfl⟩

theorem block (body : (Form.lines c.lifted.deeper).Rereads width (.list (v :: vs)) ls) :
    (Form.block c).Rereads width (.node .blockStatement [.list (v :: vs)] n)
      (.mark .leftBrace :: .line (c.depth + 1) :: (ls ++ [.line c.depth, .mark .rightBrace])) := by
  intro σ f b rest stands
  obtain ⟨us, same, body⟩ := body
  cases same
  have noIn := stands.noIn
  obtain ⟨opening, stands⟩ := Feed.At.mark stands (by decide)
  rw [Stage.tokens_line, Stage.tokens_append, Stage.tokens_line, List.append_assoc] at stands
  obtain ⟨ws, g, read, after, likes⟩ := body stands.lift rfl (.inl rfl) (fun _ => rfl) fun _ => rfl
  obtain ⟨w, ws, rfl⟩ := lines_cons likes
  have current := after.current
  obtain ⟨closing, after⟩ := (after.resume noIn).token (by decide)
  refine ⟨_, _, .block opening read closing, like_built (.cons (like_list.mpr ⟨_, rfl, ?_⟩) .nil)
    fun _ => rfl, after⟩
  rw [current]
  exact likes

theorem declaratorBare (id : (Form.binding c).Rereads width v ls)
    (silent : c.comments → n.comments = []) :
    (Form.declarator c).Rereads width (.node .variableDeclarator [v, .null] n) ls := by
  intro σ f b t ts stands ok
  obtain ⟨w, g, read, like, after⟩ := id stands
  refine ⟨_, _, .declaratorBare read ?_, like_built (.cons like (.cons .refl .nil)) silent, after⟩
  intro assign
  have plain := ok.2.assignment (Nat.le_refl _)
  rw [← after.kind, assign] at plain
  cases plain

theorem declaratorInit (id : (Form.binding c).Rereads width v ls)
    (init : (Form.expression c assignmentRank).Rereads width w ms)
    (silent : c.comments → n.comments = []) :
    (Form.declarator c).Rereads width (.node .variableDeclarator [v, w] n)
      (ls ++ .blank :: .mark .assign :: .blank :: ms) := by
  intro σ f b t ts stands ok
  obtain ⟨_, tight, init⟩ := init
  obtain ⟨τ, υ, stands⟩ := stands.between
  obtain ⟨x, g, id, first, after⟩ := id stands
  obtain ⟨assign, after⟩ := after.token (by decide)
  obtain ⟨y, h, init, second, after⟩ := init.assignment tight after ok.1 ok.2
  exact ⟨_, _, .declaratorInit id assign init, like_built (.cons first (.cons second .nil)) silent,
    after⟩

theorem declares_within (word : k.declares) : k ≠ .endOfInput := by
  rintro rfl
  cases word

theorem declaration (word : k.declares)
    (items : (Form.commas (.declarator c)).Rereads width (.list (v :: vs)) ls) :
    (Form.declaration c).Rereads width
      (.node .variableDeclaration [.text (text k.spelling), .list (v :: vs)] n)
      (.mark k :: .blank :: ls) := by
  intro σ f b t ts stands ok
  obtain ⟨us, same, separated⟩ := items
  cases same
  obtain ⟨kind, stands⟩ := Feed.At.mark stands (declares_within word)
  rw [Stage.tokens_blank] at stands
  have item {v : Value} {ls : List Lexeme} (item : (Form.declarator c).Rereads width v ls) :
      TakenBefore width c.comments (fun a j => a = b ∧ Halts false assignmentRank j) .declarator
        v ls :=
    fun stands now => item stands ⟨now.1 ▸ ok.1, now.2⟩
  obtain ⟨w, g, read, likes, after⟩ := separated.commas (e := .declarator) item stands ok.2
  refine ⟨_, _, .declaration (kind ▸ word) read, like_built (.cons ?_ (.cons likes .nil))
    fun _ => rfl, after⟩
  rw [kind]
  exact .refl

/-- A semicolon ends a statement. -/
theorem ends (stands : g.At b (σ.token width (.mark .semicolon) :: rest)) :
    g.Ends g.next ∧ g.next.At b rest := by
  obtain ⟨semicolon, after⟩ := stands.token (by decide)
  exact ⟨.inl ⟨semicolon, rfl⟩, after⟩

theorem expressionStatement (inner : Rereads c.comments .sequence f b v
      (σ.token width (.mark .semicolon) :: rest)) (plain : opensStatement f.current.kind = false) :
    Rereads c.comments .statement f b
      ((Value.node .expressionStatement [v] n).bearing []) rest := by
  obtain ⟨w, g, read, like, after⟩ := inner
  obtain ⟨stop, after⟩ := ends after
  exact ⟨_, _, .expressionStatement plain read stop,
    like_built (.cons like .nil) fun _ => rfl, after⟩

/-- Only a brace and the word of a function begin both an expression and another statement. -/
theorem opensStatement_of_starts (starts : startsExpression k) (brace : k ≠ .leftBrace)
    (function : k ≠ .kwFunction) : opensStatement k = false := by
  cases k <;>
    first | rfl | exact absurd rfl brace | exact absurd rfl function | cases starts

theorem ownExpression (writes : Writes aloud (.expression c sequenceRank) v ls)
    (inner : (Form.expression c sequenceRank).Rereads width v ls)
    (plain : clashes (layout ls) = false) (shown : (aloud &&
      (v.veils .leftBrace sequenceRank || v.veils .kwFunction sequenceRank)) = false) :
    (Form.own c).Rereads width (.node .expressionStatement [v] n) (ls ++ [.mark .semicolon]) := by
  intro σ f b t ts stands ok
  obtain ⟨rfl, _⟩ := ok
  obtain ⟨_, _, ranked⟩ := inner
  obtain ⟨τ, υ, stands⟩ := stands.before
  have read := ranked.sequence stands nofun (.of_inert rfl)
  refine expressionStatement read ?_
  obtain ⟨w, g, inner, _⟩ := read
  obtain ⟨brace, function⟩ := Bool.or_eq_false_iff.mp plain
  rw [Bool.and_or_distrib_left] at shown
  obtain ⟨first, second⟩ := Bool.or_eq_false_iff.mp shown
  exact opensStatement_of_starts inner.starts (unveiled_start writes rfl brace first stands)
    (unveiled_start writes rfl function second stands)

theorem ownClash (inner : (Form.expression c sequenceRank).Rereads width v ls) :
    (Form.own c).Rereads width (.node .expressionStatement [v] n)
      (enclosed ls ++ [.mark .semicolon]) := by
  intro σ f b t ts stands ok
  obtain ⟨rfl, _⟩ := ok
  obtain ⟨_, _, ranked⟩ := inner
  have whole : Ranked width c v (enclosed ls) primaryRank :=
    ranked_of_head (by decide) (enclosed_head ranked)
  have opening := stands.enclosed.1
  obtain ⟨τ, υ, stands⟩ := stands.before
  refine expressionStatement (whole.sequence stands nofun (.of_inert rfl)) ?_
  rw [opening]
  rfl

theorem ownBlock (inner : (Form.block c).Rereads width v ls) : (Form.own c).Rereads width v ls := by
  intro σ f b t ts stands _
  obtain ⟨w, g, read, like, after⟩ := inner stands
  exact ⟨w, g, .blockStatement read, like, after⟩

theorem ownEmpty : (Form.own c).Rereads width (.node .emptyStatement [] n) [.mark .semicolon] := by
  intro σ f b t ts stands _
  obtain ⟨semicolon, after⟩ := Feed.At.mark stands (by decide)
  exact ⟨_, _, .emptyStatement semicolon, like_built .nil fun _ => rfl, after⟩

theorem ownDeclaration (inner : (Form.declaration c).Rereads width v ls)
    (solid : v.isHollow = false) : (Form.own c).Rereads width v (ls ++ [.mark .semicolon]) := by
  intro σ f b t ts stands ok
  obtain ⟨rfl, _⟩ := ok
  obtain ⟨τ, υ, stands⟩ := stands.before
  obtain ⟨w, g, read, like, after⟩ := inner stands ⟨nofun, .of_inert rfl⟩
  obtain ⟨stop, after⟩ := ends after
  rw [innerComments, if_neg (by simp [solid])]
  exact ⟨w, _, .variableDeclaration read stop, like, after⟩

theorem ownFunction (inner : (Form.function c true).Rereads width v ls)
    (solid : v.isHollow = false) : (Form.own c).Rereads width v ls := by
  intro σ f b t ts stands _
  obtain ⟨w, g, read, like, after⟩ := inner stands
  rw [innerComments, if_neg (by simp [solid])]
  exact ⟨w, g, .functionDeclaration read, like, after⟩

theorem returnBare : (Form.own c).Rereads width (.node .returnStatement [.null] n)
    [.mark .kwReturn, .mark .semicolon] := by
  intro σ f b t ts stands _
  obtain ⟨word, stands⟩ := Feed.At.mark stands (by decide)
  have semicolon : f.next.current.kind = .semicolon := Feed.At.kind stands
  obtain ⟨stop, after⟩ := ends stands
  refine ⟨_, _, .returnBare word ?_ stop, like_built (.cons .refl .nil) fun _ => rfl, after⟩
  simp [Feed.sees, semicolon]

/-- An expression on the line of the word before it does not end the statement. -/
theorem goes_on (read : Reads .sequence f v g) (line : f.current.newlineBefore = false) :
    (f.sees .semicolon || f.endsStatement) = false := by
  have semicolon : f.current.kind ≠ .semicolon := read.start_ne rfl
  have brace : f.current.kind ≠ .rightBrace := read.start_ne rfl
  have last : f.current.kind ≠ .endOfInput := read.start_ne rfl
  simp [Feed.sees, Feed.endsStatement, semicolon, brace, last, line]

/-- An expression after a word and before a semicolon. -/
theorem word_value (value : (Form.expression c sequenceRank).Rereads width v ls)
    (begins : Begins keep ls)
    (stands : f.At false (σ.tokens width (.mark k :: .blank :: (ls ++ [.mark .semicolon])) ++ rest))
    (within : k ≠ .endOfInput) :
    f.current.kind = k ∧ f.next.current.newlineBefore = false ∧
      ∃ w g, Reads .sequence f.next w g ∧ Like c.comments w v ∧ g.Ends g.next ∧
        g.next.At false rest := by
  obtain ⟨_, _, ranked⟩ := value
  obtain ⟨word, stands⟩ := Feed.At.mark stands within
  rw [Stage.tokens_blank] at stands
  have line := begins.append.line stands
  obtain ⟨τ, υ, stands⟩ := Feed.At.before stands
  obtain ⟨w, g, read, like, after⟩ := ranked.sequence stands nofun (.of_inert rfl)
  obtain ⟨stop, after⟩ := ends after
  exact ⟨word, line, w, g, read, like, stop, after⟩

theorem returnValue (value : (Form.expression c sequenceRank).Rereads width v ls)
    (begins : Begins keep ls) :
    (Form.own c).Rereads width (.node .returnStatement [v] n)
      (.mark .kwReturn :: .blank :: (ls ++ [.mark .semicolon])) := by
  intro σ f b t ts stands ok
  obtain ⟨rfl, _⟩ := ok
  obtain ⟨word, line, w, g, read, like, stop, after⟩ := word_value value begins stands (by decide)
  exact ⟨_, _, .returnValue word (goes_on read line) read stop,
    like_built (.cons like .nil) fun _ => rfl, after⟩

theorem throwValue (value : (Form.expression c sequenceRank).Rereads width v ls)
    (begins : Begins keep ls) :
    (Form.own c).Rereads width (.node .throwStatement [v] n)
      (.mark .kwThrow :: .blank :: (ls ++ [.mark .semicolon])) := by
  intro σ f b t ts stands ok
  obtain ⟨rfl, _⟩ := ok
  obtain ⟨word, line, w, g, read, like, stop, after⟩ := word_value value begins stands (by decide)
  exact ⟨_, _, .throwStatement word line read stop,
    like_built (.cons like .nil) fun _ => rfl, after⟩

/-- A jump without a label. -/
theorem jump_bare (stands : f.At b (σ.tokens width [.mark k, .mark .semicolon] ++ rest))
    (within : k ≠ .endOfInput) : f.current.kind = k ∧ Reads .label f.next .null f.next ∧
      f.next.Ends f.next.next ∧ f.next.next.At b rest := by
  obtain ⟨word, stands⟩ := Feed.At.mark stands within
  have semicolon : f.next.current.kind = .semicolon := Feed.At.kind stands
  obtain ⟨stop, after⟩ := ends stands
  exact ⟨word, .labelNone (by simp [Feed.sees, semicolon]), stop, after⟩

/-- A jump with a label on its line. -/
theorem jump_label (label : (Form.binding c).Rereads width v ls) (begins : Begins keep ls)
    (stands : f.At b (σ.tokens width (.mark k :: .blank :: (ls ++ [.mark .semicolon])) ++ rest))
    (within : k ≠ .endOfInput) :
    f.current.kind = k ∧ ∃ w g, Reads .label f.next w g ∧ Like c.comments w v ∧ g.Ends g.next ∧
      g.next.At b rest := by
  obtain ⟨word, stands⟩ := Feed.At.mark stands within
  rw [Stage.tokens_blank] at stands
  have line := begins.append.line stands
  obtain ⟨τ, υ, stands⟩ := Feed.At.before stands
  obtain ⟨w, g, read, like, after⟩ := label stands
  obtain ⟨stop, after⟩ := ends after
  exact ⟨word, w, g, .labelSome line read, like, stop, after⟩

theorem breakBare : (Form.own c).Rereads width (.node .breakStatement [.null] n)
    [.mark .kwBreak, .mark .semicolon] := by
  intro σ f b t ts stands _
  obtain ⟨word, label, stop, after⟩ := jump_bare stands (by decide)
  exact ⟨_, _, .breakStatement word label stop, like_built (.cons .refl .nil) fun _ => rfl, after⟩

theorem breakLabel (label : (Form.binding c).Rereads width v ls) (begins : Begins keep ls) :
    (Form.own c).Rereads width (.node .breakStatement [v] n)
      (.mark .kwBreak :: .blank :: (ls ++ [.mark .semicolon])) := by
  intro σ f b t ts stands _
  obtain ⟨word, w, g, read, like, stop, after⟩ := jump_label label begins stands (by decide)
  exact ⟨_, _, .breakStatement word read stop, like_built (.cons like .nil) fun _ => rfl, after⟩

theorem continueBare : (Form.own c).Rereads width (.node .continueStatement [.null] n)
    [.mark .kwContinue, .mark .semicolon] := by
  intro σ f b t ts stands _
  obtain ⟨word, label, stop, after⟩ := jump_bare stands (by decide)
  exact ⟨_, _, .continueStatement word label stop,
    like_built (.cons .refl .nil) fun _ => rfl, after⟩

theorem continueLabel (label : (Form.binding c).Rereads width v ls) (begins : Begins keep ls) :
    (Form.own c).Rereads width (.node .continueStatement [v] n)
      (.mark .kwContinue :: .blank :: (ls ++ [.mark .semicolon])) := by
  intro σ f b t ts stands _
  obtain ⟨word, w, g, read, like, stop, after⟩ := jump_label label begins stands (by decide)
  exact ⟨_, _, .continueStatement word read stop, like_built (.cons like .nil) fun _ => rfl, after⟩

theorem bodyBlock (inner : (Form.block c).Rereads width v ls) (alone : c.comments → v.Alone) :
    (Form.body c).Rereads width v (.blank :: ls) := by
  intro σ f b t ts stands _
  obtain ⟨w, g, read, like, after⟩ := inner stands
  exact ⟨w, g, .blockStatement read, like.of_alone alone, after⟩

theorem bodyLine (inner : (Form.statement c.deeper).Rereads width v ls)
    (quiet : c.comments → v.comments = []) :
    (Form.body c).Rereads width v (.line (c.depth + 1) :: ls) := by
  intro σ f b t ts stands ok
  obtain ⟨w, g, read, like, after⟩ := inner stands ok
  exact ⟨w, g, read, like.unbearing fun kept => (quiet kept).symm, after⟩

/-- A condition in parentheses after a word, up to what follows it. -/
theorem condition (test : (Form.expression c sequenceRank).Rereads width v ls)
    (stands : f.At false (σ.tokens width (.mark k :: .blank :: (enclosed ls ++ ms)) ++ rest))
    (within : k ≠ .endOfInput) :
    f.current.kind = k ∧ f.next.current.kind = .leftParen ∧ ∃ w g, Reads .sequence f.next.next w g ∧
      Like c.comments w v ∧ g.current.kind = .rightParen ∧
        ∃ ρ : Stage, g.next.At false (ρ.tokens width ms ++ rest) := by
  obtain ⟨_, _, ranked⟩ := test
  obtain ⟨word, stands⟩ := Feed.At.mark stands within
  rw [Stage.tokens_blank] at stands
  obtain ⟨opening, τ, υ, ρ, _, stands⟩ := Feed.At.enclosed stands
  obtain ⟨w, g, read, like, after⟩ := ranked.sequence stands nofun (.of_inert rfl)
  obtain ⟨closing, after⟩ := after.token (by decide)
  exact ⟨word, opening, w, g, read, like, closing, ρ, after⟩

/-- A body stands before a word, on its line or on the next. -/
theorem body_before
    (stands : f.At b (σ.tokens width (ls ++ bodyGap c v :: .mark k :: ms) ++ rest)) :
    ∃ τ υ : Stage, f.At b (σ.tokens width ls ++
      τ.token width (.mark k) :: (υ.tokens width ms ++ rest)) := by
  have gap : (bodyGap c v).isSolid = false := by
    unfold bodyGap
    split <;> rfl
  rw [Stage.tokens_append, Stage.tokens_gap gap, Stage.tokens_mark, List.append_assoc,
    List.cons_append] at stands
  exact ⟨_, _, stands⟩

theorem endsOpen_short : (Value.node .ifStatement [u, v, .null] n).endsOpen := rfl

theorem endsOpen_alternate (ends : w.endsOpen) :
    (Value.node .ifStatement [u, v, w] n).endsOpen := by
  cases w with
  | null => rfl
  | node => exact ends
  | _ => cases ends

theorem choiceShort (test : (Form.expression c sequenceRank).Rereads width u ls)
    (left : (Form.body c).Rereads width v ms) :
    (Form.choice c).Rereads width (.node .ifStatement [u, v, .null] n)
      (.mark .kwIf :: .blank :: (enclosed ls ++ ms)) := by
  intro σ f b t ts stands ok
  obtain ⟨rfl, other, follows⟩ := ok
  obtain ⟨word, opening, w, g, test, first, closing, ρ, after⟩ := condition test stands (by decide)
  have stop := follows endsOpen_short
  obtain ⟨x, h, left, second, after⟩ := left after ⟨rfl, other, fun _ => stop⟩
  refine ⟨_, _, .ifShort word opening test closing left ?_,
    like_built (.cons first (.cons second (.cons .refl .nil))) fun _ => rfl, after⟩
  rw [after.kind]
  exact stop

/-- A choice between two statements; that the first ends before the word between them is what keeps
the word with this choice. -/
theorem choice_else (test : (Form.expression c sequenceRank).Rereads width u ls)
    (left : (Form.body c).Rereads width v ms) (closed : v.endsOpen = false)
    (right : TakenBefore width c.comments (fun b k => b = false ∧ Follows w k) .statement w ns) :
    (Form.choice c).Rereads width (.node .ifStatement [u, v, w] n)
      (.mark .kwIf :: .blank :: (enclosed ls ++ (ms ++ bodyGap c v :: .mark .kwElse :: ns))) := by
  intro σ f b t ts stands ok
  obtain ⟨rfl, other, follows⟩ := ok
  obtain ⟨word, opening, x, g, test, first, closing, ρ, after⟩ := condition test stands (by decide)
  obtain ⟨τ, υ, after⟩ := body_before after
  obtain ⟨y, h, left, second, after⟩ := left after ⟨rfl, nofun, by simp [closed]⟩
  obtain ⟨els, after⟩ := after.token (by decide)
  obtain ⟨z, i, right, third, after⟩ := right after
    ⟨rfl, other, fun ends => follows (endsOpen_alternate ends)⟩
  exact ⟨_, _, .ifElse word opening test closing left els right,
    like_built (.cons first (.cons second (.cons third .nil))) fun _ => rfl, after⟩

theorem choiceChain (test : (Form.expression c sequenceRank).Rereads width u ls)
    (left : (Form.body c).Rereads width v ms) (closed : v.endsOpen = false)
    (right : (Form.choice c).Rereads width w ns) (alone : c.comments → w.Alone) :
    (Form.choice c).Rereads width (.node .ifStatement [u, v, w] n)
      (.mark .kwIf :: .blank ::
        (enclosed ls ++ (ms ++ bodyGap c v :: .mark .kwElse :: .blank :: ns))) := by
  refine choice_else test left closed fun stands ok => ?_
  obtain ⟨x, g, read, like, after⟩ := right stands ok
  exact ⟨x, g, read, like.of_alone alone, after⟩

theorem whileLoop (test : (Form.expression c sequenceRank).Rereads width u ls)
    (body : (Form.body c).Rereads width v ms) :
    (Form.own c).Rereads width (.node .whileStatement [u, v] n)
      (.mark .kwWhile :: .blank :: (enclosed ls ++ ms)) := by
  intro σ f b t ts stands ok
  obtain ⟨rfl, follows⟩ := ok
  obtain ⟨word, opening, x, g, test, first, closing, ρ, after⟩ := condition test stands (by decide)
  obtain ⟨y, h, body, second, after⟩ := body after ⟨rfl, follows⟩
  exact ⟨_, _, .whileStatement word opening test closing body,
    like_built (.cons first (.cons second .nil)) fun _ => rfl, after⟩

theorem doLoop (body : (Form.body c).Rereads width v ls)
    (test : (Form.expression c sequenceRank).Rereads width u ms) :
    (Form.own c).Rereads width (.node .doWhileStatement [v, u] n)
      (.mark .kwDo :: (ls ++ bodyGap c v :: .mark .kwWhile :: .blank ::
        (enclosed ms ++ [.mark .semicolon]))) := by
  intro σ f b t ts stands ok
  obtain ⟨rfl, _⟩ := ok
  obtain ⟨word, stands⟩ := Feed.At.mark stands (by decide)
  obtain ⟨τ, υ, stands⟩ := body_before stands
  obtain ⟨x, g, body, first, after⟩ := body stands ⟨rfl, nofun, nofun⟩
  obtain ⟨tail, after⟩ := after.token (by decide)
  obtain ⟨opening, φ, ψ, ρ, _, after⟩ := Feed.At.enclosed after
  obtain ⟨_, _, test⟩ := test
  obtain ⟨y, h, test, second, after⟩ := test.sequence after nofun (.of_inert rfl)
  obtain ⟨closing, after⟩ := after.token (by decide)
  obtain ⟨semicolon, after⟩ := after.mark (by decide)
  refine ⟨_, h.next.next, .doWhile word body tail opening test closing ?_,
    like_built (.cons first (.cons second .nil)) fun _ => rfl, after⟩
  rw [if_pos semicolon]

theorem initDeclaration (inner : (Form.declaration c.loopHead).Rereads width v ls)
    (silent : c.comments → v.comments = []) : (Form.loopInit c).Rereads width v ls := by
  refine .inr fun stands ok => ?_
  obtain ⟨w, g, read, like, after⟩ := inner stands ⟨fun _ => rfl, ok.2 ▸ .of_inert rfl⟩
  exact ⟨w, g, .loopInitDeclaration read.starts read,
    like.unbearing fun kept => (silent kept).symm, after⟩

/-- No expression begins with the word of a declaration. -/
theorem starts_undeclared (starts : startsExpression k) : k.declares = false := by
  rw [Bool.eq_false_iff]
  intro word
  rcases TokenKind.declares_cases word with rfl | rfl | rfl <;> cases starts

theorem initExpression (inner : (Form.expression c.loopHead sequenceRank).Rereads width v ls) :
    (Form.loopInit c).Rereads width v ls := by
  refine .inr fun stands ok => ?_
  obtain ⟨_, _, ranked⟩ := inner
  obtain ⟨w, g, read, like, after⟩ := ranked.sequence stands (fun _ => rfl) (ok.2 ▸ .of_inert rfl)
  exact ⟨w, g, .loopInitExpression (starts_undeclared read.starts) read, like, after⟩

theorem partNone : (Form.loopPart c).Rereads width .null [] :=
  fun _ _ _ _ _ _ _ stands ok => ⟨_, _, .optionalNone (stands.kind.trans ok.2), .refl, stands⟩

theorem partSome (inner : (Form.expression c sequenceRank).Rereads width v ls) :
    (Form.loopPart c).Rereads width v (.blank :: ls) := by
  intro k stop σ f b t ts stands ok
  obtain ⟨rfl, kind⟩ := ok
  obtain ⟨_, _, ranked⟩ := inner
  have halts : Halts false sequenceRank t.kind := by
    rcases stop with rfl | rfl <;> rw [kind] <;> exact .of_inert rfl
  obtain ⟨w, g, read, like, after⟩ := ranked.sequence stands nofun halts
  refine ⟨w, g, .optionalSome ?_ read, like, after⟩
  rcases stop with rfl | rfl
  · exact read.start_ne rfl
  · exact read.start_ne rfl

/-- The rest of a loop's head, and its body. -/
theorem counted {init : Value} (start : Mark) (test : (Form.loopPart c).Rereads width u ls)
    (update : (Form.loopPart c).Rereads width v ms) (body : (Form.body c).Rereads width w ns)
    (like : Like c.comments init x)
    (stands : f.At false (σ.tokens width
      (.mark .semicolon :: (ls ++ .mark .semicolon :: (ms ++ .mark .rightParen :: ns))) ++ t :: ts))
    (follows : Follows w t.kind) :
    Rereads c.comments (.counted start init) f false
      ((Value.node .forStatement [x, u, v, w] n).bearing []) (t :: ts) := by
  obtain ⟨first, stands⟩ := Feed.At.mark stands (by decide)
  obtain ⟨τ, υ, stands⟩ := stands.before
  obtain ⟨y, g, test, likeTest, after⟩ := test .semicolon (.inl rfl) stands ⟨rfl, rfl⟩
  obtain ⟨second, after⟩ := after.token (by decide)
  obtain ⟨φ, ψ, after⟩ := after.before
  obtain ⟨z, h, update, likeUpdate, after⟩ := update .rightParen (.inr rfl) after ⟨rfl, rfl⟩
  obtain ⟨closing, after⟩ := after.token (by decide)
  obtain ⟨r, i, body, likeBody, after⟩ := body after ⟨rfl, follows⟩
  exact ⟨_, _, .counted first test second update closing body,
    like_built (.cons like (.cons likeTest (.cons likeUpdate (.cons likeBody .nil)))) fun _ => rfl,
    after⟩

theorem forCounted (init : (Form.loopInit c).Rereads width x ls)
    (test : (Form.loopPart c).Rereads width u ms) (update : (Form.loopPart c).Rereads width v ns)
    (body : (Form.body c).Rereads width w os) :
    (Form.own c).Rereads width (.node .forStatement [x, u, v, w] n)
      (.mark .kwFor :: .blank :: (enclosed
        (ls ++ .mark .semicolon :: (ms ++ .mark .semicolon :: ns)) ++ os)) := by
  intro σ f b t ts stands ok
  obtain ⟨rfl, follows⟩ := ok
  obtain ⟨word, stands⟩ := Feed.At.mark stands (by decide)
  have opening := (Feed.At.enclosed stands).1
  rw [Stage.tokens_blank, enclosed, List.cons_append, Stage.tokens_mark] at stands
  simp only [List.append_assoc, List.cons_append, List.nil_append] at stands
  have within := stands.next (by rintro ⟨⟩)
  rcases init with ⟨rfl, rfl⟩ | init
  · obtain ⟨y, g, read, like, after⟩ := counted f.current.start test update body
      (.refl (v := .null)) within follows
    exact ⟨y, g, .forBare word opening (Feed.At.mark within (by decide)).1 read, like, after⟩
  · obtain ⟨y, g, init, first, after⟩ := init within.append.bar ⟨rfl, rfl⟩
    have other : f.next.next.current.kind ≠ .semicolon := by
      cases init with
      | loopInitDeclaration declares =>
        intro kind
        rw [Feed.bar_current, kind] at declares
        cases declares
      | loopInitExpression _ read => exact read.start_ne rfl
    have semicolon : g.current.kind = .semicolon := after.kind
    obtain ⟨z, h, read, like, after⟩ := counted f.current.start test update body first
      after.lift follows
    exact ⟨z, h, .forCounted word opening other init
      (by simp [Feed.atLoopWord, Feed.sees, semicolon]) read, like, after⟩

theorem targetVariable {m : Notes} (word : k.declares) (id : (Form.binding c).Rereads width v ls)
    (silent : c.comments → m.comments = [] ∧ n.comments = []) :
    (Form.loopTarget c).Rereads width (.node .variableDeclaration
      [.text (text k.spelling), .list [.node .variableDeclarator [v, .null] m]] n)
      (.mark k :: .blank :: ls) := by
  refine ⟨rfl, fun {σ f b t ts} stands ok => ?_⟩
  obtain ⟨kind, stands⟩ := Feed.At.mark stands (declares_within word)
  rw [Stage.tokens_blank] at stands
  obtain ⟨w, g, id, like, after⟩ := id stands
  have plain : g.current.kind ≠ .assign ∧ g.current.kind ≠ .comma := by
    rw [after.kind]
    refine ⟨fun assign => ?_, ok.2.comma (Nat.le_refl _)⟩
    have := ok.2.assignment (by decide)
    rw [assign] at this
    cases this
  have declares : f.current.kind.declares := kind ▸ word
  refine ⟨_, g, .loopInitDeclaration declares
    (.declaration declares (.commasLast (e := .declarator) (.declaratorBare id plain.1) plain.2)),
    like_built (.cons ?_ (.cons (like_list.mpr ⟨_, rfl, .cons
      (like_built (.cons like (.cons .refl .nil)) fun kept => (silent kept).1) .nil⟩) .nil))
      fun kept => (silent kept).2, after⟩
  rw [kind]
  exact .refl

theorem isLoopTarget_of_isTarget (target : isTarget v) : isLoopTarget v := by
  cases v with
  | node kind =>
    cases kind <;> first | rfl | cases target
  | _ => cases target

theorem targetPlace (target : isTarget v)
    (inner : (Form.expression c callRank).Rereads width v ls) :
    (Form.loopTarget c).Rereads width v ls := by
  refine ⟨isLoopTarget_of_isTarget target, fun stands ok => ?_⟩
  obtain ⟨rfl, halts⟩ := ok
  obtain ⟨_, tight, ranked⟩ := inner
  have closed := stands.closed
  have target := ranked.target tight stands (halts.mono (by decide))
  obtain ⟨w, g, read, like, after⟩ :=
    (target.assignment closed (halts.mono (by decide))).sequence halts
  exact ⟨w, g, .loopInitExpression (starts_undeclared read.starts) read, like, after⟩

/-- The head of a loop over a collection, up to the collection. -/
theorem loop_head {l : Lexeme} (solid : l.isSolid) (left : (Form.loopTarget c).Rereads width u ls)
    (halts : Halts true sequenceRank l.kind) (within : l.kind ≠ .endOfInput)
    (stands : f.At false (σ.tokens width (.mark .kwFor :: .blank ::
      (enclosed (ls ++ .blank :: l :: .blank :: ms) ++ ns)) ++ rest)) :
    f.current.kind = .kwFor ∧ f.next.current.kind = .leftParen ∧
      f.next.next.current.kind ≠ .semicolon ∧ ∃ w g, Reads .loopInit f.next.next.bar w g ∧
        Like c.comments w u ∧ isLoopTarget w ∧ g.current.kind = l.kind ∧
          g.current.value = l.value ∧ ∃ τ υ ρ : Stage, g.lift.next.At false (τ.tokens width ms ++
            υ.token width (.mark .rightParen) :: (ρ.tokens width ns ++ rest)) := by
  obtain ⟨target, left⟩ := left
  obtain ⟨word, stands⟩ := Feed.At.mark stands (by decide)
  obtain ⟨opening, τ, υ, ρ, _, stands⟩ := Feed.At.enclosed stands
  rw [Stage.tokens_append, Stage.tokens_blank, Stage.tokens_solid solid, Stage.tokens_blank,
    List.append_assoc, List.cons_append] at stands
  obtain ⟨w, g, read, like, after⟩ := left stands.bar ⟨rfl, halts⟩
  have other : f.next.next.current.kind ≠ .semicolon := by
    cases read with
    | loopInitDeclaration declares =>
      intro kind
      rw [Feed.bar_current, kind] at declares
      cases declares
    | loopInitExpression _ read => exact read.start_ne rfl
  exact ⟨word, opening, other, w, g, read, like, like.isLoopTarget target, after.kind, after.value,
    _, υ, ρ, after.lift.next within⟩

theorem forIn (left : (Form.loopTarget c).Rereads width u ls)
    (right : (Form.expression c assignmentRank).Rereads width v ms)
    (body : (Form.body c).Rereads width w ns) :
    (Form.own c).Rereads width (.node .forInStatement [u, v, w] n)
      (.mark .kwFor :: .blank ::
        (enclosed (ls ++ .blank :: .mark .kwIn :: .blank :: ms) ++ ns)) := by
  intro σ f b t ts stands ok
  obtain ⟨rfl, follows⟩ := ok
  obtain ⟨word, opening, other, x, g, left, first, target, loop, _, τ, υ, ρ, after⟩ :=
    loop_head (l := .mark .kwIn) rfl left .of_loop (by decide) stands
  obtain ⟨_, _, right⟩ := right
  obtain ⟨y, h, right, second, after⟩ := right.sequence after nofun (.of_inert rfl)
  obtain ⟨closing, after⟩ := after.token (by decide)
  obtain ⟨z, i, body, third, after⟩ := body after ⟨rfl, follows⟩
  exact ⟨_, _, .forIn word opening other left loop target right closing body,
    like_built (.cons first (.cons second (.cons third .nil))) fun _ => rfl, after⟩

theorem forOf (left : (Form.loopTarget c).Rereads width u ls)
    (right : (Form.expression c assignmentRank).Rereads width v ms)
    (body : (Form.body c).Rereads width w ns) :
    (Form.own c).Rereads width (.node .forOfStatement [u, v, w] n)
      (.mark .kwFor :: .blank ::
        (enclosed (ls ++ .blank :: .word (text "of") :: .blank :: ms) ++ ns)) := by
  intro σ f b t ts stands ok
  obtain ⟨rfl, follows⟩ := ok
  have name : (Lexeme.word (text "of")).kind = .ident := by decide
  obtain ⟨word, opening, other, x, g, left, first, target, loop, of, τ, υ, ρ, after⟩ :=
    loop_head rfl left (name ▸ .of_inert rfl) (by rw [name]; decide) stands
  obtain ⟨_, tight, right⟩ := right
  obtain ⟨y, h, right, second, after⟩ := right.assignment tight after nofun (.of_inert rfl)
  obtain ⟨closing, after⟩ := after.token (by decide)
  obtain ⟨z, i, body, third, after⟩ := body after ⟨rfl, follows⟩
  exact ⟨_, _, .forOf word opening other left (loop.trans name) of target right closing body,
    like_built (.cons first (.cons second (.cons third .nil))) fun _ => rfl, after⟩

theorem handlerBare (body : (Form.block c).Rereads width v ls) (alone : c.comments → v.Alone)
    (silent : c.comments → n.comments = []) :
    (Form.handler c).Rereads width (.node .catchClause [.null, v] n)
      (.mark .kwCatch :: .blank :: ls) := by
  intro σ f b rest stands
  obtain ⟨word, stands⟩ := Feed.At.mark stands (by decide)
  obtain ⟨w, g, body, like, after⟩ := body stands
  exact ⟨_, _, .handlerBare word (body.start_ne rfl) body,
    like_built (.cons .refl (.cons (like.of_alone alone) .nil)) silent, after⟩

theorem handlerNamed (param : (Form.binding c).Rereads width u ls)
    (body : (Form.block c).Rereads width v ms) (alone : c.comments → v.Alone)
    (silent : c.comments → n.comments = []) :
    (Form.handler c).Rereads width (.node .catchClause [u, v] n)
      (.mark .kwCatch :: .blank :: (enclosed ls ++ .blank :: ms)) := by
  intro σ f b rest stands
  obtain ⟨word, stands⟩ := Feed.At.mark stands (by decide)
  obtain ⟨opening, τ, υ, ρ, _, stands⟩ := Feed.At.enclosed stands
  obtain ⟨w, g, param, first, after⟩ := param stands
  obtain ⟨closing, after⟩ := after.token (by decide)
  obtain ⟨x, h, body, like, after⟩ := body after
  exact ⟨_, _, .handlerNamed word opening param closing body,
    like_built (.cons first (.cons (like.of_alone alone) .nil)) silent, after⟩

theorem tryHandled (guarded : (Form.block c).Rereads width u ls) (first : c.comments → u.Alone)
    (handler : (Form.handler c).Rereads width v ms) (some : v.isNull = false) :
    (Form.own c).Rereads width (.node .tryStatement [u, v, .null] n)
      (.mark .kwTry :: .blank :: (ls ++ .blank :: ms)) := by
  intro σ f b t ts stands ok
  obtain ⟨word, stands⟩ := Feed.At.mark stands (by decide)
  obtain ⟨x, g, guarded, likeGuarded, after⟩ := guarded (Feed.At.append stands)
  obtain ⟨y, h, handler, likeHandler, after⟩ := handler after
  have stop : h.current.kind ≠ .kwFinally := by
    rw [after.kind]
    exact ok.2.1
  exact ⟨_, _, .tryStatement word guarded handler (.finalizerNone stop)
      (by rw [likeHandler.isNull, some, Bool.false_and]),
    like_built (.cons (likeGuarded.of_alone first) (.cons likeHandler (.cons .refl .nil)))
      fun _ => rfl, after⟩

/-- A last block is read again. -/
theorem finalizer (last : (Form.block c).Rereads width w ls) (alone : c.comments → w.Alone)
    (stands : f.At b (σ.tokens width (.mark .kwFinally :: .blank :: ls) ++ rest)) :
    Rereads c.comments .finalizer f b w rest := by
  obtain ⟨word, stands⟩ := Feed.At.mark stands (by decide)
  rw [Stage.tokens_blank] at stands
  obtain ⟨x, g, last, like, after⟩ := last stands
  exact ⟨x, g, .finalizerSome word last, like.of_alone alone, after⟩

theorem tryFinal (guarded : (Form.block c).Rereads width u ls) (first : c.comments → u.Alone)
    (last : (Form.block c).Rereads width w ms) (alone : c.comments → w.Alone)
    (some : w.isNull = false) :
    (Form.own c).Rereads width (.node .tryStatement [u, .null, w] n)
      (.mark .kwTry :: .blank :: (ls ++ .blank :: .mark .kwFinally :: .blank :: ms)) := by
  intro σ f b t ts stands _
  obtain ⟨word, stands⟩ := Feed.At.mark stands (by decide)
  obtain ⟨x, g, guarded, likeGuarded, after⟩ := guarded (Feed.At.append stands)
  have stop : g.current.kind ≠ .kwCatch := by
    rw [(Feed.At.mark after (by decide)).1]
    decide
  obtain ⟨y, h, last, like, after⟩ := finalizer last alone after
  exact ⟨_, _, .tryStatement word guarded (.handlerNone stop) last
      (by rw [like.isNull, some, Bool.and_false]),
    like_built (.cons (likeGuarded.of_alone first) (.cons .refl (.cons like .nil)))
      fun _ => rfl, after⟩

theorem tryBoth (guarded : (Form.block c).Rereads width u ls) (first : c.comments → u.Alone)
    (handler : (Form.handler c).Rereads width v ms) (last : (Form.block c).Rereads width w ns)
    (alone : c.comments → w.Alone) (some : w.isNull = false) :
    (Form.own c).Rereads width (.node .tryStatement [u, v, w] n)
      (.mark .kwTry :: .blank ::
        (ls ++ .blank :: (ms ++ .blank :: .mark .kwFinally :: .blank :: ns))) := by
  intro σ f b t ts stands _
  obtain ⟨word, stands⟩ := Feed.At.mark stands (by decide)
  obtain ⟨x, g, guarded, likeGuarded, after⟩ := guarded (Feed.At.append stands)
  obtain ⟨y, h, handler, likeHandler, after⟩ := handler (Feed.At.append after)
  obtain ⟨z, i, last, like, after⟩ := finalizer last alone after
  exact ⟨_, _, .tryStatement word guarded handler last
      (by rw [like.isNull, some, Bool.and_false]),
    like_built (.cons (likeGuarded.of_alone first) (.cons likeHandler (.cons like .nil)))
      fun _ => rfl, after⟩

end ScriptTree.Rereading
