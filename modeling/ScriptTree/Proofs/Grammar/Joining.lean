import ScriptTree.Proofs.Grammar.Numeric
import ScriptTree.Proofs.Token.Relocating

/-!
Programs join where the first one ends in a semicolon. Only a statement takes a last semicolon, and
a statement that does so looks at no more than the class of the token after it.
-/
namespace ScriptTree

namespace Grammar

open Value

variable {f f' g g' h : Feed} {p : Part} {v w : Value} {u e : Token} {us : List Token}
  {vs ws : List Value}

namespace Feed

/-- The last token before the end of input is a semicolon, and it is still to be taken. -/
def Due (f : Feed) : Prop :=
  ∃ s e : Token, s.kind = .semicolon ∧ e.kind = .endOfInput ∧ [s, e] <:+ f.tokens

@[simp] theorem due_lift : f.lift.Due ↔ f.Due := Iff.rfl

@[simp] theorem due_bar : f.bar.Due ↔ f.Due := Iff.rfl

@[simp] theorem due_resume : (f.resume g).Due ↔ f.Due := Iff.rfl

@[simp] theorem due_next_lift : f.lift.next.Due ↔ f.next.Due := by
  rw [Due, Due, tokens_next_lift]

@[simp] theorem due_next_bar : f.bar.next.Due ↔ f.next.Due := by
  rw [Due, Due, tokens_next_bar]

@[simp] theorem due_next_resume : (f.resume g).next.Due ↔ f.next.Due := by
  rw [Due, Due, tokens_next_resume]

/-- The last semicolon stays due until only the end of input is left. -/
theorem Due.upto (due : f.Due) (upto : f.Upto g) :
    g.Due ∨ g.current.kind = .endOfInput ∧ g.rest = [] := by
  obtain ⟨s, e, semicolon, ending, suffix⟩ := due
  rcases List.suffix_or_suffix_of_suffix suffix upto with before | after
  · exact .inl ⟨s, e, semicolon, ending, before⟩
  · rcases List.suffix_cons_iff.mp after with same | last
    · exact .inl ⟨s, e, semicolon, ending, same ▸ List.suffix_rfl⟩
    · rcases List.suffix_cons_iff.mp last with same | none
      · obtain ⟨rfl, none⟩ := List.cons.inj same
        exact .inr ⟨ending, none⟩
      · cases List.suffix_nil.mp none

theorem Due.before (due : f.Due) (upto : f.Upto g) (within : g.current.kind ≠ .endOfInput) :
    g.Due := (due.upto upto).resolve_right fun last => within last.1

theorem Due.next (due : f.Due) (other : f.current.kind ≠ .semicolon) : f.next.Due := by
  obtain ⟨s, e, semicolon, ending, suffix⟩ := due
  obtain ⟨prev, current, rest, noIn⟩ := f
  rcases List.suffix_cons_iff.mp suffix with same | inner
  · cases same
    exact absurd semicolon other
  · cases rest with
    | nil => cases List.suffix_nil.mp inner
    | cons t rest => exact ⟨s, e, semicolon, ending, inner⟩

theorem Due.rest_ne_nil (due : f.Due) : f.rest ≠ [] := by
  obtain ⟨s, e, _, _, suffix⟩ := due
  intro none
  have length := suffix.length_le
  simp [tokens, none] at length

theorem Due.heard (due : f.Due) : Heard (some ⟨[e], us⟩) f := by
  rintro _ ⟨⟩
  exact List.length_pos_of_ne_nil due.rest_ne_nil

end Feed

/-- The parts that can take a last semicolon. -/
def Part.ends : Part → Bool
  | statement | statements _ | counted .. => true
  | _ => false

theorem Item.part_ends (e : Item) : e.part.ends = false := by
  cases e <;> rfl

/-- What is no statement takes no last semicolon. -/
theorem Reads.keeps (read : Reads p f v g) (inner : p.ends = false) (due : f.Due) : g.Due := by
  have past {f : Feed} {k : TokenKind} (due : f.Due) (kind : f.current.kind = k)
      (other : k ≠ .semicolon) : f.next.Due := due.next (kind_ne kind other)
  induction read with
  | commasLast _ _ ih | closedLast _ _ _ ih => exact ih (Item.part_ends _) due
  | commasMore _ comma _ ih more | closedMore _ _ comma _ ih more =>
    exact more rfl (past (ih (Item.part_ends _) due) comma (by decide))
  | closedNone | operationsStop | membersStop | accessesStop | elementsNone | optionalNone
  | handlerNone | finalizerNone | labelNone => exact due
  | binding kind | name kind | wordTrue kind | wordFalse kind | wordNull kind | wordThis kind
  | propertyShort kind => exact past due kind (by decide)
  | propertyName name => exact due.next (name.elim (kind_ne · (by decide)) (kind_apart · rfl))
  | numberOrString kind => exact kind.elim (past due · (by decide)) (past due · (by decide))
  | nested _ ih | group _ ih | single _ _ ih | arrowFunction _ _ ih | unassigned _ _ _ ih
  | arrowName _ ih | arrowNames _ _ ih | untested _ _ ih | unsigned _ _ _ ih | unstepped _ _ ih
  | headNew _ _ ih | headPrimary _ _ ih | functionExpression _ ih | elementsLast _ _ _ _ ih
  | declaratorBare _ _ ih | loopInitDeclaration _ _ ih | loopInitExpression _ _ ih
  | optionalSome _ _ ih | labelSome _ _ ih => exact ih rfl due
  | binary _ _ first more | access _ _ first more | membersMore _ _ first more
  | accessesMember _ _ first more | accessesCall _ _ first more =>
    exact more rfl (first rfl due)
  | sequence _ other _ first more | arrowBlock _ other _ _ first more
  | arrowValue _ other _ _ first more | elementsMore _ _ _ other _ first more
  | declaratorInit _ other _ first more =>
    exact more rfl (past (first rfl due) other (by decide))
  | assigned _ _ operator _ _ left right =>
    exact right rfl ((left rfl due).next (kind_apart operator rfl))
  | tested _ question _ colon _ test left right =>
    have after := past (test rfl due) question (by decide)
    exact right rfl (past (left rfl after) colon (by decide))
  | operationsMore ranked _ _ _ right more =>
    exact more rfl (right rfl (due.next (Feed.rank?_ne ranked rfl)))
  | unaryOperator operator _ ih | stepBefore _ operator _ _ ih | declaration operator _ ih =>
    exact ih rfl (due.next (kind_apart operator rfl))
  | stepAfter _ operator _ _ ih => exact (ih rfl due).next (kind_apart operator rfl)
  | memberNamed kind _ ih | elementsHole kind _ ih | handlerBare kind _ _ ih
  | finalizerSome kind _ ih => exact ih rfl (past due kind (by decide))
  | memberIndexed opening _ close ih | parenthesized opening _ close ih
  | arguments opening _ close ih | parameters opening _ close ih | array opening _ close ih
  | object opening _ close ih =>
    exact past (ih rfl (past due opening (by decide))) close (by decide)
  | constructionCall new _ _ _ first more args =>
    exact args rfl (more rfl (first rfl (past due new (by decide))))
  | constructionBare new _ _ _ first more =>
    exact more rfl (first rfl (past due new (by decide)))
  | propertyComputed opening _ close colon _ key value =>
    have after := past (key rfl (past due opening (by decide))) close (by decide)
    exact value rfl (past after colon (by decide))
  | propertyLiteral key colon _ value =>
    have after := key.elim (past due · (by decide)) (past due · (by decide))
    exact value rfl (past after colon (by decide))
  | propertyNamed _ colon _ key value =>
    exact value rfl (past (key rfl due) colon (by decide))
  | functionNamed word _ _ _ name params body =>
    exact body rfl (params rfl (name rfl (past due word (by decide))))
  | functionUnnamed word _ _ _ params body =>
    exact body rfl (params rfl (past due word (by decide)))
  | blockEmpty opening close =>
    exact past (past due opening (by decide)) close (by decide)
  | block opening body close =>
    have within := Feed.due_lift.mpr (past due opening (by decide))
    have closing := within.before body.upto (kind_ne close (by decide))
    exact Feed.due_next_resume.mpr (past closing close (by decide))
  | handlerNamed word opening _ close _ name body =>
    have after := past (past due word (by decide)) opening (by decide)
    exact body rfl (past (name rfl after) close (by decide))
  | statementsNone | statementsMore | blockStatement | emptyStatement | variableDeclaration
  | functionDeclaration | ifShort | ifElse | counted | forBare | forCounted | forIn | forOf
  | whileStatement | doWhile | tryStatement | returnBare | returnValue | breakStatement
  | continueStatement | throwStatement | expressionStatement => cases inner

theorem Twin.cut (twin : Twin (some ⟨[e], u :: us⟩) g g') (due : g.Due) (stop : g.Ends h)
    (last : h.rest = []) : ∃ h', g'.Ends h' ∧ Resumed (u :: us) h h' := by
  rcases stop with ⟨semicolon, rfl⟩ | ⟨_, _, rfl⟩
  · exact ⟨_, .inl ⟨twin.kind.trans semicolon, rfl⟩, twin.take
      (kind_ne semicolon (by decide)) (by simp [last])⟩
  · exact absurd last due.rest_ne_nil

/-- The echo of a condition in brackets. -/
theorem Twin.inParens (twin : Twin (some ⟨[e], us⟩) f f') (due : f.Due)
    (opening : f.current.kind = .leftParen) (condition : Reads .sequence f.next v g)
    (close : g.current.kind = .rightParen) :
    g.next.Due ∧ ∃ v' g', f'.current.kind = .leftParen ∧ Reads .sequence f'.next v' g' ∧
      g'.current.kind = .rightParen ∧ Like false v' v ∧
        Twin (some ⟨[e], us⟩) g.next g'.next := by
  have within := due.next (kind_ne opening (by decide))
  have before := condition.keeps rfl within
  have after := before.next (kind_ne close (by decide))
  obtain ⟨v', g', again, like, kind, twin'⟩ := Part.Echoed.between condition.echoed condition
    twin.toEcho (kind_ne opening (by decide)) (kind_ne close (by decide)) after.heard rfl
  exact ⟨after, v', g', twin.kind.trans opening, again, kind.trans close, like, twin'⟩

/-- What a statement has after its keyword, and the last semicolon. -/
theorem Reads.ended (inner : Reads p f.next v g) (plain : p.ends = false) (stop : g.Ends h)
    (last : h.rest = []) (echo : Echo (some ⟨[e], u :: us⟩) f f') (due : f.Due)
    (within : f.current.kind ≠ .endOfInput) (other : f.current.kind ≠ .semicolon)
    (fresh : p.fresh) :
    Twin (some ⟨[e], u :: us⟩) f.next f'.next ∧ ∃ v' g', Reads p f'.next v' g' ∧ Like false v' v ∧
      ∃ h', g'.Ends h' ∧ Resumed (u :: us) h h' := by
  have first := due.next other
  have ending := inner.keeps plain first
  have twin := echo.next within first.heard
  obtain ⟨v', g', again, like, twin'⟩ := inner.after twin ending.heard fresh
  exact ⟨twin, v', g', again, like, twin'.cut ending stop last⟩

def Part.isStatement : Part → Bool
  | statement | counted .. => true
  | _ => false

/-- A part that takes the last semicolon is read again where `u` is the next token. -/
def Cuts (e u : Token) (us : List Token) (p : Part) (f : Feed) (v : Value) (g : Feed) : Prop :=
  f.Due → ∀ {f' : Feed}, Echo (some ⟨[e], u :: us⟩) f f' →
    ∃ v' g', Reads p f' v' g' ∧ Like false v' v ∧ Resumed (u :: us) g g'

namespace Cuts

variable {i : Feed} {test left right : Value}

theorem ifShort (word : f.current.kind = .kwIf) (opening : f.next.current.kind = .leftParen)
    (condition : Reads .sequence f.next.next test g) (close : g.current.kind = .rightParen)
    (apart : u.kind ≠ .kwElse) (consequent : Cuts e u us .statement g.next left h) :
    Cuts e u us .statement f (h.node .ifStatement [test, left, .null] f.current.start) h := by
  intro due f' echo
  have first := due.next (kind_ne word (by decide))
  have twin := echo.next (kind_ne word (by decide)) first.heard
  obtain ⟨second, t', g', opening', test', close', like₁, twin₁⟩ :=
    twin.inParens first opening condition close
  obtain ⟨l', h', left', like₂, resumed⟩ := consequent second twin₁.toEcho
  refine ⟨_, _, .ifShort (echo.kind.trans word) opening' test' close' left' ?_,
    like_nodes (.cons like₁ (.cons like₂ (.cons rfl rfl))), resumed⟩
  rwa [resumed.current]

theorem ifElse (word : f.current.kind = .kwIf) (opening : f.next.current.kind = .leftParen)
    (condition : Reads .sequence f.next.next test g) (close : g.current.kind = .rightParen)
    (consequent : Reads .statement g.next left h) (els : h.current.kind = .kwElse)
    (alternate : Cuts e u us .statement h.next right i) :
    Cuts e u us .statement f (i.node .ifStatement [test, left, right] f.current.start) i := by
  intro due f' echo
  have first := due.next (kind_ne word (by decide))
  have twin := echo.next (kind_ne word (by decide)) first.heard
  obtain ⟨second, t', g', opening', test', close', like₁, twin₁⟩ :=
    twin.inParens first opening condition close
  have third := second.before consequent.upto (kind_ne els (by decide))
  have fourth := third.next (kind_ne els (by decide))
  obtain ⟨l', h', left', like₂, twin₂⟩ := consequent.after twin₁ third.heard rfl
  have twin₃ := twin₂.next (kind_ne els (by decide)) fourth.heard
  obtain ⟨r', i', right', like₃, resumed⟩ := alternate fourth twin₃.toEcho
  exact ⟨_, _, .ifElse (echo.kind.trans word) opening' test' close' left' (twin₂.kind.trans els)
    right', like_nodes (.cons like₁ (.cons like₂ (.cons like₃ rfl))), resumed⟩

theorem whileStatement (word : f.current.kind = .kwWhile)
    (opening : f.next.current.kind = .leftParen) (condition : Reads .sequence f.next.next test g)
    (close : g.current.kind = .rightParen) (body : Cuts e u us .statement g.next w h) :
    Cuts e u us .statement f (h.node .whileStatement [test, w] f.current.start) h := by
  intro due f' echo
  have first := due.next (kind_ne word (by decide))
  have twin := echo.next (kind_ne word (by decide)) first.heard
  obtain ⟨second, t', g', opening', test', close', like₁, twin₁⟩ :=
    twin.inParens first opening condition close
  obtain ⟨w', h', inner, like₂, resumed⟩ := body second twin₁.toEcho
  exact ⟨_, _, .whileStatement (echo.kind.trans word) opening' test' close' inner,
    like_nodes (.cons like₁ (.cons like₂ rfl)), resumed⟩

theorem doWhile (word : f.current.kind = .kwDo) (body : Reads .statement f.next w g)
    (tail : g.current.kind = .kwWhile) (opening : g.next.current.kind = .leftParen)
    (condition : Reads .sequence g.next.next test h) (close : h.current.kind = .rightParen)
    (stop : i = if h.next.current.kind = .semicolon then h.next.next else h.next)
    (last : i.rest = []) :
    Cuts e u us .statement f (i.node .doWhileStatement [w, test] f.current.start) i := by
  intro due f' echo
  have first := due.next (kind_ne word (by decide))
  have second := first.before body.upto (kind_ne tail (by decide))
  have third := second.next (kind_ne tail (by decide))
  have twin₁ := echo.next (kind_ne word (by decide)) first.heard
  obtain ⟨w', g', inner, like₁, twin₂⟩ := body.after twin₁ second.heard rfl
  have twin₃ := twin₂.next (kind_ne tail (by decide)) third.heard
  obtain ⟨fourth, t', h', opening', test', close', like₂, twin₄⟩ :=
    twin₃.inParens third opening condition close
  -- the semicolon after the loop is there: it is the one that is due
  have semicolon : h.next.current.kind = .semicolon := by
    by_contra other
    rw [if_neg other] at stop
    exact absurd (stop ▸ last) fourth.rest_ne_nil
  rw [if_pos semicolon] at stop
  subst stop
  refine ⟨_, _, .doWhile (echo.kind.trans word) inner (twin₂.kind.trans tail) opening' test'
    close' rfl, like_nodes (.cons like₁ (.cons like₂ rfl)), ?_⟩
  rw [if_pos (twin₄.kind.trans semicolon)]
  exact twin₄.take (kind_ne semicolon (by decide)) (by simp [last])

theorem forBare (word : f.current.kind = .kwFor) (opening : f.next.current.kind = .leftParen)
    (semicolon : f.next.next.current.kind = .semicolon)
    (rest : ∀ start, Cuts e u us (.counted start .null) f.next.next v g) :
    Cuts e u us .statement f v g := by
  intro due f' echo
  have first := due.next (kind_ne word (by decide))
  have second := first.next (kind_ne opening (by decide))
  have twin₁ := echo.next (kind_ne word (by decide)) first.heard
  have twin₂ := twin₁.next (kind_ne opening (by decide)) second.heard
  obtain ⟨v', g', again, like, resumed⟩ := rest f'.current.start second twin₂.toEcho
  exact ⟨_, _, .forBare (echo.kind.trans word) (twin₁.kind.trans opening)
    (twin₂.kind.trans semicolon) again, like, resumed⟩

theorem forCounted (word : f.current.kind = .kwFor) (opening : f.next.current.kind = .leftParen)
    (semicolon : f.next.next.current.kind ≠ .semicolon)
    (init : Reads .loopInit f.next.next.bar w g) (loop : g.lift.atLoopWord = false)
    (rest : ∀ start {w'}, Like false w' w → Cuts e u us (.counted start w') g.lift v h) :
    Cuts e u us .statement f v h := by
  intro due f' echo
  have first := due.next (kind_ne word (by decide))
  have second := first.next (kind_ne opening (by decide))
  have third := init.keeps rfl (Feed.due_bar.mpr second)
  have twin₁ := echo.next (kind_ne word (by decide)) first.heard
  have twin₂ := twin₁.next (kind_ne opening (by decide)) second.heard
  obtain ⟨w', g', start, like₁, twin₃⟩ := init.after twin₂.bar third.heard rfl
  obtain ⟨v', h', again, like, resumed⟩ := rest f'.current.start like₁ third twin₃.lift.toEcho
  exact ⟨_, _, .forCounted (echo.kind.trans word) (twin₁.kind.trans opening)
    (twin₂.kind.trans_ne semicolon) start (twin₃.lift.atLoopWord.trans loop) again, like, resumed⟩

theorem counted {start : Mark} {w' : Value} (first : f.current.kind = .semicolon)
    (condition : Reads (.optional .semicolon) f.next test g)
    (second : g.current.kind = .semicolon)
    (update : Reads (.optional .rightParen) g.next v h) (close : h.current.kind = .rightParen)
    (body : Cuts e u us .statement h.next right i) (like : Like false w' w) :
    Cuts e u us (.counted start w') f (i.node .forStatement [w, test, v, right] start) i := by
  intro due f' echo
  -- two semicolons come in the head, so the one that is due is in the body
  have fifth : h.Due := by
    refine due.before ?_ (kind_ne close (by decide))
    exact Feed.upto_next.trans (condition.upto.trans (Feed.upto_next.trans update.upto))
  have third : Heard (some ⟨[e], u :: us⟩) g :=
    fifth.heard.back (Feed.upto_next.trans update.upto)
  have sixth := fifth.next (kind_ne close (by decide))
  have twin₁ := echo.next (kind_ne first (by decide)) (third.back condition.upto)
  obtain ⟨t', g', test', like₁, twin₂⟩ := condition.after twin₁ third rfl
  have twin₃ := twin₂.next (kind_ne second (by decide)) (fifth.heard.back update.upto)
  obtain ⟨v', h', step, like₂, twin₄⟩ := update.after twin₃ fifth.heard rfl
  have twin₅ := twin₄.next (kind_ne close (by decide)) sixth.heard
  obtain ⟨r', i', inner, like₃, resumed⟩ := body sixth twin₅.toEcho
  exact ⟨_, _, .counted (echo.kind.trans first) test' (twin₂.kind.trans second) step
    (twin₄.kind.trans close) inner,
    like_nodes (.cons like (.cons like₁ (.cons like₂ (.cons like₃ rfl)))), resumed⟩

/-- The head of a loop over a collection is read again, and the semicolon is still due. -/
theorem loopHead {q : Part} (due : f.Due) (echo : Echo (some ⟨[e], u :: us⟩) f f')
    (word : f.current.kind = .kwFor) (opening : f.next.current.kind = .leftParen)
    (init : Reads .loopInit f.next.next.bar left g) (loop : g.current.kind ≠ .endOfInput)
    (other : g.current.kind ≠ .semicolon) (collection : Reads q g.lift.next right h)
    (plain : q.ends = false) (fresh : q.fresh) (close : h.current.kind = .rightParen) :
    h.next.Due ∧ ∃ l' g', f'.next.current.kind = .leftParen ∧
      f'.next.next.current.kind = f.next.next.current.kind ∧
      Reads .loopInit f'.next.next.bar l' g' ∧ Like false l' left ∧
      Twin (some ⟨[e], u :: us⟩) g g' ∧
      ∃ r' h', Reads q g'.lift.next r' h' ∧ Like false r' right ∧
        h'.current.kind = .rightParen ∧ Twin (some ⟨[e], u :: us⟩) h.next h'.next := by
  have first := due.next (kind_ne word (by decide))
  have second := first.next (kind_ne opening (by decide))
  have third := init.keeps rfl (Feed.due_bar.mpr second)
  have fourth : g.lift.next.Due := Feed.Due.next (f := g.lift) third other
  have fifth := collection.keeps plain fourth
  have sixth := fifth.next (kind_ne close (by decide))
  obtain ⟨l', g', kind₁, kind₂, start, like₁, twin, r', h', again, like₂, kind₃, twin'⟩ :=
    Part.Echoed.loopHead init.echoed collection.echoed init collection echo
      (kind_ne word (by decide)) (kind_ne opening (by decide)) loop (kind_ne close (by decide))
      sixth.heard rfl fresh
  exact ⟨sixth, l', g', kind₁.trans opening, kind₂, start, like₁, twin, r', h', again, like₂,
    kind₃.trans close, twin'⟩

theorem forIn (word : f.current.kind = .kwFor) (opening : f.next.current.kind = .leftParen)
    (semicolon : f.next.next.current.kind ≠ .semicolon)
    (init : Reads .loopInit f.next.next.bar left g) (loop : g.current.kind = .kwIn)
    (target : isLoopTarget left) (collection : Reads .sequence g.lift.next right h)
    (close : h.current.kind = .rightParen) (body : Cuts e u us .statement h.next w i) :
    Cuts e u us .statement f (i.node .forInStatement [left, right, w] f.current.start) i := by
  intro due f' echo
  obtain ⟨after, l', g', opening', kind, start, like₁, twin, r', h', again, like₂, close', twin'⟩ :=
    loopHead due echo word opening init (kind_ne loop (by decide)) (kind_ne loop (by decide))
      collection rfl rfl close
  obtain ⟨w', i', inner, like₃, resumed⟩ := body after twin'.toEcho
  exact ⟨_, _, .forIn (echo.kind.trans word) opening' (kind.trans_ne semicolon) start
    (twin.kind.trans loop) (like_isLoopTarget like₁ target) again close' inner,
    like_nodes (.cons like₁ (.cons like₂ (.cons like₃ rfl))), resumed⟩

theorem forOf (word : f.current.kind = .kwFor) (opening : f.next.current.kind = .leftParen)
    (semicolon : f.next.next.current.kind ≠ .semicolon)
    (init : Reads .loopInit f.next.next.bar left g) (loop : g.current.kind = .ident)
    (of : g.current.value = .text (text "of")) (target : isLoopTarget left)
    (collection : Reads .assignment g.lift.next right h) (close : h.current.kind = .rightParen)
    (body : Cuts e u us .statement h.next w i) :
    Cuts e u us .statement f (i.node .forOfStatement [left, right, w] f.current.start) i := by
  intro due f' echo
  obtain ⟨after, l', g', opening', kind, start, like₁, twin, r', h', again, like₂, close', twin'⟩ :=
    loopHead due echo word opening init (kind_ne loop (by decide)) (kind_ne loop (by decide))
      collection rfl rfl close
  obtain ⟨w', i', inner, like₃, resumed⟩ := body after twin'.toEcho
  exact ⟨_, _, .forOf (echo.kind.trans word) opening' (kind.trans_ne semicolon) start
    (twin.kind.trans loop) (twin.value.trans of) (like_isLoopTarget like₁ target) again close'
    inner, like_nodes (.cons like₁ (.cons like₂ (.cons like₃ rfl))), resumed⟩

end Cuts

/-- A statement that takes the last semicolon is read again before any token but `else`. -/
theorem Reads.cut (read : Reads p f v g) (statement : p.isStatement) (due : f.Due)
    (last : g.rest = []) (echo : Echo (some ⟨[e], u :: us⟩) f f') (apart : u.kind ≠ .kwElse)
    (start : Mark) {base : Value} (like : Like false base p.base) :
    ∃ v' g', Reads (p.rebased start base) f' v' g' ∧ Like false v' v ∧ Resumed (u :: us) g g' := by
  induction read generalizing f' start base with
  | blockStatement inner => exact absurd last (inner.keeps rfl due).rest_ne_nil
  | functionDeclaration inner => exact absurd last (inner.keeps rfl due).rest_ne_nil
  | emptyStatement semicolon =>
    exact ⟨_, _, .emptyStatement (echo.kind.trans semicolon), like_nodes rfl,
      echo.take (kind_ne semicolon (by decide)) (by simp [last])⟩
  | variableDeclaration inner stop =>
    have ending := inner.keeps rfl due
    obtain ⟨v', g', again, like, twin⟩ := inner.first echo ending.heard rfl rfl
    obtain ⟨h', stop', resumed⟩ := twin.cut ending stop last
    exact ⟨_, _, .variableDeclaration again stop', like, resumed⟩
  | ifShort word opening condition close consequent stop _ ih =>
    exact Cuts.ifShort word opening condition close apart
      (fun due _ echo => ih rfl due last echo start rfl) due echo
  | ifElse word opening condition close consequent els alternate _ _ ih =>
    exact Cuts.ifElse word opening condition close consequent els
      (fun due _ echo => ih rfl due last echo start rfl) due echo
  | counted first condition second update close body _ _ ih =>
    exact Cuts.counted first condition second update close
      (fun due _ echo => ih rfl due last echo start rfl) like due echo
  | forBare word opening semicolon rest ih =>
    exact Cuts.forBare word opening semicolon
      (fun start due _ echo => ih rfl due last echo start rfl) due echo
  | forCounted word opening semicolon init loop rest _ ih =>
    exact Cuts.forCounted word opening semicolon init loop
      (fun start _ like due _ echo => ih rfl due last echo start like) due echo
  | forIn word opening semicolon init loop target collection close body _ _ ih =>
    exact Cuts.forIn word opening semicolon init loop target collection close
      (fun due _ echo => ih rfl due last echo start rfl) due echo
  | forOf word opening semicolon init loop of target collection close body _ _ ih =>
    exact Cuts.forOf word opening semicolon init loop of target collection close
      (fun due _ echo => ih rfl due last echo start rfl) due echo
  | whileStatement word opening condition close body _ ih =>
    exact Cuts.whileStatement word opening condition close
      (fun due _ echo => ih rfl due last echo start rfl) due echo
  | doWhile word body tail opening condition close stop =>
    exact Cuts.doWhile word body tail opening condition close stop last due echo
  | expressionStatement word inner stop =>
    have ending := inner.keeps rfl due
    obtain ⟨v', g', again, like, twin⟩ := inner.first echo ending.heard rfl rfl
    obtain ⟨h', stop', resumed⟩ := twin.cut ending stop last
    exact ⟨_, _, .expressionStatement (by rwa [echo.kind]) again stop',
      like_nodes (.cons like rfl), resumed⟩
  | tryStatement word guarded handler finalizer =>
    have inner := guarded.keeps rfl (due.next (kind_ne word (by decide)))
    exact absurd last (finalizer.keeps rfl (handler.keeps rfl inner)).rest_ne_nil
  | returnBare word bare stop =>
    have ending := due.next (kind_ne word (by decide))
    have twin := echo.next (kind_ne word (by decide)) ending.heard
    obtain ⟨g', stop', resumed⟩ := twin.cut ending stop last
    exact ⟨_, _, .returnBare (echo.kind.trans word) (twin.bare.trans bare) stop',
      like_nodes (.cons rfl rfl), resumed⟩
  | returnValue word bare value stop =>
    obtain ⟨twin, v', g', again, like, h', stop', resumed⟩ := value.ended rfl stop last echo due
      (kind_ne word (by decide)) (kind_ne word (by decide)) rfl
    exact ⟨_, _, .returnValue (echo.kind.trans word) (twin.bare.trans bare) again stop',
      like_nodes (.cons like rfl), resumed⟩
  | breakStatement word label stop =>
    obtain ⟨-, v', g', again, like, h', stop', resumed⟩ := label.ended rfl stop last echo due
      (kind_ne word (by decide)) (kind_ne word (by decide)) rfl
    exact ⟨_, _, .breakStatement (echo.kind.trans word) again stop', like_nodes (.cons like rfl),
      resumed⟩
  | continueStatement word label stop =>
    obtain ⟨-, v', g', again, like, h', stop', resumed⟩ := label.ended rfl stop last echo due
      (kind_ne word (by decide)) (kind_ne word (by decide)) rfl
    exact ⟨_, _, .continueStatement (echo.kind.trans word) again stop',
      like_nodes (.cons like rfl), resumed⟩
  | throwStatement word line value stop =>
    obtain ⟨twin, v', g', again, like, h', stop', resumed⟩ := value.ended rfl stop last echo due
      (kind_ne word (by decide)) (kind_ne word (by decide)) rfl
    exact ⟨_, _, .throwStatement (echo.kind.trans word) (twin.line.trans line) again stop',
      like_nodes (.cons like rfl), resumed⟩
  | commasLast | commasMore | closedNone | closedLast | closedMore => cases statement
  | _ => cases statement

/-- The statements of a program that ends in a semicolon are followed by those of another one. -/
theorem Reads.join (read : Reads (.statements .endOfInput) f (.list vs) g) (due : f.Due)
    (echo : Echo (some ⟨[e], u :: us⟩) f f') (apart : u.kind ≠ .kwElse)
    (goesOn : ∀ {h : Feed}, Resumed (u :: us) g h →
      ∃ ws' i, Reads (.statements .endOfInput) h (.list ws') i ∧ AllLike false ws' ws) :
    ∃ vs' i, Reads (.statements .endOfInput) f' (.list vs') i ∧ AllLike false vs' (vs ++ ws) := by
  generalize part : Part.statements .endOfInput = p at read
  generalize list : Value.list vs = v at read
  induction read generalizing f' vs with
  | @statementsNone k f close =>
    cases part
    obtain ⟨prev, current, _ | ⟨t, rest⟩, noIn⟩ := f
    · exact absurd rfl due.rest_ne_nil
    · exact absurd close echo.closed.1
  | @statementsMore k f g h v vs close input first more _ ih =>
    cases part
    cases list
    rcases due.upto first.upto with still | ⟨last, none⟩
    · obtain ⟨v', g', again, like, twin⟩ := first.first echo still.heard rfl rfl
      obtain ⟨vs', i, rest, likes⟩ := ih still twin.toEcho goesOn rfl rfl
      exact ⟨_, i, .statementsMore (echo.kind.trans_ne close) (echo.kind.trans_ne input) again rest,
        .cons (like_attachLeading like) likes⟩
    · cases more with
      | statementsMore _ input => exact absurd last input
      | statementsNone =>
        obtain ⟨v', g', again, like, resumed⟩ :=
          first.cut rfl due none echo apart Mark.first rfl
        obtain ⟨ws', i, rest, likes⟩ := goesOn resumed
        exact ⟨_, i, .statementsMore (echo.kind.trans_ne close) (echo.kind.trans_ne input) again
          rest, .cons (like_attachLeading like) likes⟩
  | _ => cases part

/-- A program is read again from tokens that echo its own. -/
theorem Reads.program_echo {k : TokenKind} (read : Reads (.statements k) f (.list vs) g)
    (echo : Echo none f f') :
    ∃ vs' g', Reads (.statements k) f' (.list vs') g' ∧ AllLike false vs' vs := by
  cases read with
  | statementsNone close => exact ⟨[], f', .statementsNone (echo.kind.trans close), rfl⟩
  | statementsMore close input first more =>
    obtain ⟨v', g', again, like, twin⟩ := first.first echo nofun rfl rfl
    obtain ⟨vs', h', rest, likes, _⟩ := more.after twin nofun rfl
    obtain ⟨vs', rfl, items⟩ := like_list.mp likes
    exact ⟨_, h', .statementsMore (echo.kind.trans_ne close) (echo.kind.trans_ne input) again rest,
      .cons (like_attachLeading like) items⟩

end Grammar

open Grammar Value

/-- Statements of two sources that are alike are equivalent, one by one. -/
theorem Value.AllLike.equivalent {vs ws : List Value} (like : AllLike false ws vs)
    (left : ∀ e ∈ ws, Conforms .parsed .statement e)
    (right : ∀ e ∈ vs, Conforms .parsed .statement e) (numeric : areNumeric vs) :
    List.Forall₂ (fun x y => x.equivalent y = .ok true) ws vs := by
  induction vs generalizing ws with
  | nil =>
    cases allLike_nil.mp like
    exact .nil
  | cons v vs ih =>
    obtain ⟨w, ws, rfl, first, rest⟩ := allLike_cons.mp like
    rw [areNumeric, Bool.and_eq_true] at numeric
    obtain ⟨w_conforms, ws_conform⟩ := List.forall_mem_cons.mp left
    obtain ⟨v_conforms, vs_conform⟩ := List.forall_mem_cons.mp right
    exact .cons (first.equivalent_parsed w_conforms v_conforms numeric.1)
      (ih rest ws_conform vs_conform numeric.2)

theorem Value.AllLike.append {vs vs' ws ws' : List Value} (first : AllLike false ws vs)
    (second : AllLike false ws' vs') : AllLike false (ws ++ ws') (vs ++ vs') := by
  induction vs generalizing ws with
  | nil =>
    cases allLike_nil.mp first
    exact second
  | cons v vs ih =>
    obtain ⟨w, ws, rfl, head, tail⟩ := allLike_cons.mp first
    exact .cons head (ih tail)

/-- The statements of a source that has been parsed. -/
theorem parse_body {source : Text} {v : Value} {n : Notes} {vs : List Value}
    (parsed : parse source = .ok v) (made : v = .node .program [.list vs] n) :
    v.field "body" = .ok (.list vs) ∧ (∀ e ∈ vs, Conforms .parsed .statement e) ∧
      areNumeric vs := by
  have conforms := parse_program parsed
  have numeric := parse_numeric parsed
  subst made
  simp only [isNumeric, areNumeric, Bool.and_true] at numeric
  cases conforms with
  | program items => exact ⟨rfl, items, numeric⟩

variable {a b : Text} {v w : Value} {tokens before : List Token} {s e t u : Token}

/-- Tokens before an end of input are echoed by the same ones before other tokens. -/
theorem Grammar.echo_append {first us : List Token} (present : before ≠ [])
    (closed : Closed (before ++ [e])) (front : first.map Token.cut = before.map Token.cut) :
    Echo (some ⟨[e], us⟩) (Feed.ofTokens (before ++ [e])) (Feed.ofTokens (first ++ us)) := by
  obtain ⟨t, ts, rfl⟩ := List.exists_cons_of_ne_nil present
  obtain ⟨t', ts', rfl, head, tail⟩ := List.map_eq_cons_iff.mp front
  simp only [Token.cut, Cut.mk.injEq] at head
  obtain ⟨kind, value, raw, _⟩ := head
  exact ⟨rfl, kind, value, raw, echoes_of_cut tail (.stop rfl), closed⟩

/-- The statements of a program that ends in a semicolon are read before another program. -/
theorem Grammar.statements_append {f g : Feed} {vs ws : List Value} {first rest after : List Token}
    (left : Reads (.statements .endOfInput) (Feed.ofTokens (tokens ++ [s, e])) (.list vs) f)
    (right : Reads (.statements .endOfInput) (Feed.ofTokens (t :: after)) (.list ws) g)
    (closed : Closed (tokens ++ [s, e])) (closed' : Closed (t :: after))
    (last : s.kind = .semicolon) (front : first.map Token.cut = (tokens ++ [s]).map Token.cut)
    (head : u.cut = { t.cut with newlineBefore := true })
    (tail : rest.map Token.cut = after.map Token.cut) :
    ∃ us h, Reads (.statements .endOfInput) (Feed.ofTokens (first ++ u :: rest)) (.list us) h ∧
      AllLike false us (vs ++ ws) := by
  simp only [Token.cut, Cut.mk.injEq] at head
  obtain ⟨kind, value, raw, _⟩ := head
  have apart : u.kind ≠ .kwElse := by
    rw [kind]
    cases right with
    | statementsNone close => exact kind_ne close (by decide)
    | statementsMore _ _ first => exact first.start_ne rfl
  have due : (Feed.ofTokens (tokens ++ [s, e])).Due := by
    have suffix : [s, e] <:+ tokens ++ [s, e] := List.suffix_append ..
    have ending : Closed [s, e] := closed_suffix closed suffix (List.cons_ne_nil s [e])
    exact ⟨s, e, last, ending.2, by rwa [tokens_ofTokens closed]⟩
  have echo : Echo (some ⟨[e], u :: rest⟩) (Feed.ofTokens (tokens ++ [s, e]))
      (Feed.ofTokens (first ++ u :: rest)) := by
    rw [List.append_cons] at closed ⊢
    exact echo_append (by simp) closed front
  refine left.join due echo apart fun {h} resumed => ?_
  obtain ⟨same, plain⟩ := resumed
  obtain ⟨rfl, rfl⟩ := List.cons.inj same
  refine right.program_echo ⟨?_, kind, value, raw, ?_, closed'⟩
  · have before := left.noIn_eq (.inr Feed.noIn_ofTokens)
    exact plain.trans (before.trans (Feed.noIn_ofTokens.trans Feed.noIn_ofTokens.symm))
  · have echoes := echoes_of_cut tail (.nil rfl)
    rwa [List.append_nil, List.append_nil] at echoes

/-- A source that ends in a semicolon can be put on the lines before another one: the statements of
the first are followed by those of the second, up to positions and comments. -/
theorem parse_append (left : parse a = .ok v) (right : parse b = .ok w)
    (scan : tokenize a = .ok (tokens ++ [s, e])) (last : s.kind = .semicolon) :
    ∃ u us vs ws, parse (a ++ Point.lineFeed :: b) = .ok u ∧ u.field "body" = .ok (.list us) ∧
      v.field "body" = .ok (.list vs) ∧ w.field "body" = .ok (.list ws) ∧
      List.Forall₂ (fun x y => x.equivalent y = .ok true) us (vs ++ ws) := by
  obtain ⟨_, vs, f, scanned, first, rfl⟩ := parse_reads.mp left
  cases scan.symm.trans scanned
  obtain ⟨others, ws, g, scan', second, rfl⟩ := parse_reads.mp right
  obtain ⟨t, after, rfl⟩ := List.exists_cons_of_ne_nil (l := others) fun none => by
    subst none
    exact tokenize_closed scan'
  have ended : tokenize a = .ok ((tokens ++ [s]) ++ [e]) := by simpa using scan
  obtain ⟨front, u, rest, joined, same, head, tail⟩ := tokenize_append ended scan'
  obtain ⟨us, h, read, like⟩ := statements_append first second (tokenize_closed scan)
    (tokenize_closed scan') last same head tail
  have parsed := parse_reads.mpr ⟨_, us, h, joined, read, rfl⟩
  obtain ⟨_, made⟩ := programOf_body (f := Feed.ofTokens (front ++ u :: rest)) (g := h)
  obtain ⟨_, made₁⟩ := programOf_body (f := Feed.ofTokens (tokens ++ [s, e])) (g := f)
  obtain ⟨_, made₂⟩ := programOf_body (f := Feed.ofTokens (t :: after)) (g := g)
  obtain ⟨body, conform, _⟩ := parse_body parsed made
  obtain ⟨body₁, conform₁, numeric₁⟩ := parse_body left made₁
  obtain ⟨body₂, conform₂, numeric₂⟩ := parse_body right made₂
  refine ⟨_, _, _, _, parsed, body, body₁, body₂, AllLike.equivalent ?_ conform ?_ ?_⟩
  · exact Eq.trans mapLast_like (Eq.trans like
      (AllLike.append mapLast_like.symm mapLast_like.symm))
  · exact fun x mem => (List.mem_append.mp mem).elim (conform₁ x) (conform₂ x)
  · rw [areNumeric_iff] at *
    exact fun x mem => (List.mem_append.mp mem).elim (numeric₁ x) (numeric₂ x)

/-- A choice without an `else`, before a bracket that would go on a call. -/
theorem parse_append_choice : ∃ tokens s e v w u us vs ws,
    tokenize (text "if (p) q(r);") = .ok (tokens ++ [s, e]) ∧ s.kind = .semicolon ∧
      parse (text "if (p) q(r);") = .ok v ∧ parse (text "(t) => t") = .ok w ∧
      parse (text "if (p) q(r);\n(t) => t") = .ok u ∧ u.field "body" = .ok (.list us) ∧
      v.field "body" = .ok (.list vs) ∧ w.field "body" = .ok (.list ws) ∧
      List.Forall₂ (fun x y => x.equivalent y = .ok true) us (vs ++ ws) := by
  have parses : (parse (text "if (p) q(r);")).toOption.any (fun _ => true) = true := by
    decide +kernel
  have parses' : (parse (text "(t) => t")).toOption.any (fun _ => true) = true := by
    decide +kernel
  obtain ⟨v, left, -⟩ := ok_of_any parses
  obtain ⟨w, right, -⟩ := ok_of_any parses'
  obtain ⟨tokens, s, e, scan, last⟩ : ∃ tokens s e,
      tokenize (text "if (p) q(r);") = .ok (tokens ++ [s, e]) ∧ s.kind = .semicolon :=
    ⟨[_, _, _, _, _, _, _, _], _, _, by rfl, by rfl⟩
  obtain ⟨u, us, vs, ws, joined, rest⟩ := parse_append left right scan last
  exact ⟨tokens, s, e, v, w, u, us, vs, ws, scan, last, left, right, joined, rest⟩

end ScriptTree
