import ScriptTree.Proofs.Grammar.Echo

/-!
Reading an expression again before other tokens. No token after an expression is taken for it, and
nothing in it needs what follows it, so the end of input may stand there instead, or any other token
with which no expression goes on. That holds in the middle of a chain of accesses or operators too.
-/
namespace ScriptTree.Grammar

open Value

variable {turn : Turn} {ts us : List Token} {u : Token} {f f' g g' h : Feed} {p : Part}
  {v w : Value}

def continues (kind : TokenKind) : Bool :=
  kind.rank?.isSome || kind.isAssignment || kind.isUpdate ||
    [.comma, .question, .arrow, .dot, .leftBracket, .leftParen].contains kind

/-- The tokens from one on with which no expression goes on. -/
structure Bars (u : Token) (us : List Token) : Prop where
  stops : continues u.kind = false
  closed : Closed (u :: us)

theorem Bars.last (ending : u.kind = .endOfInput) : Bars u [] := ⟨by rw [ending]; rfl, ending⟩

theorem unranked_of_stops {k : TokenKind} (stops : continues k = false) : k.rank? = none := by
  simp_all [continues]

theorem unassigned_of_stops {k : TokenKind} (stops : continues k = false) :
    k.isAssignment = false := by
  simp_all [continues]

theorem unstepped_of_stops {k : TokenKind} (stops : continues k = false) : k.isUpdate = false := by
  simp_all [continues]

/-- Before the turn a feed has its twin; at the turn the other feed goes on in its own way. -/
structure Abreast (turn : Turn) (f f' : Feed) : Prop where
  closed : f.Closed
  place : Heard (some turn) f ∧ Twin (some turn) f f' ∨
    f.tokens = turn.last ∧ Resumed turn.other f f'

theorem Heard.of_past (past : f.Past g) (closed : f.Closed) (ahead : ts <:+ g.tokens) :
    Heard (some ⟨ts, us⟩) f := by
  rintro _ ⟨⟩
  exact ahead.length_le.trans (past.length_lt closed)

theorem Reads.heard (read : Reads p f v g) (closed : f.Closed) (ahead : ts <:+ g.tokens)
    (consumes : p.consumes) : Heard (some ⟨ts, us⟩) f :=
  .of_past (read.past consumes) closed ahead

/-- A token before the turn is taken. -/
theorem Echo.step (echo : Echo (some ⟨ts, u :: us⟩) f f') (within : f.current.kind ≠ .endOfInput)
    (ahead : ts <:+ f.next.tokens) : Abreast ⟨ts, u :: us⟩ f.next f'.next := by
  by_cases before : ts.length ≤ f.next.rest.length
  · have heard : Heard (some ⟨ts, u :: us⟩) f.next := by
      rintro _ ⟨⟩
      exact before
    exact ⟨Feed.upto_next.closed echo.closed, .inl ⟨heard, echo.next within heard⟩⟩
  · have last := Nat.lt_of_not_le before
    exact ⟨Feed.upto_next.closed echo.closed,
      .inr ⟨(ahead.eq_of_length_le last).symm, echo.take within last⟩⟩

/-- Tokens that end in the end of input after the turn are closed if those that they echo are. -/
theorem Echoes.closed {t t' : Token} {zs zs' : List Token}
    (echoes : Echoes (some ⟨ts, us⟩) zs zs') (some : ts ≠ []) (ends : Closed us)
    (closed : Closed (t :: zs)) (kind : t'.kind = t.kind) : Closed (t' :: zs') := by
  induction echoes generalizing t t' with
  | nil exact => cases exact
  | stop goesOn =>
    cases goesOn
    cases ts with
    | nil => exact absurd rfl some
    | cons z zs =>
      cases us with
      | nil => exact ends.elim
      | cons u us => exact ⟨kind ▸ closed.1, ends⟩
  | step alike _ ih => exact ⟨kind ▸ closed.1, ih closed.2 (congrArg Cut.kind alike)⟩

namespace Abreast

theorem twin (abreast : Abreast turn f f') (heard : Heard (some turn) f) :
    Twin (some turn) f f' := by
  rcases abreast.place with ⟨_, twin⟩ | ⟨last, _⟩
  · exact twin
  · have le := heard _ rfl
    rw [← last, Feed.tokens, List.length_cons] at le
    omega

theorem resume (abreast : Abreast turn g g') (noIn : f'.noIn = f.noIn) :
    Abreast turn (g.resume f) (g'.resume f') := by
  refine ⟨abreast.closed, abreast.place.imp ?_ ?_⟩
  · rintro ⟨heard, twin⟩
    exact ⟨heard, ⟨noIn, twin.kind, twin.value, twin.raw, twin.rest, twin.closed⟩, twin.line⟩
  · rintro ⟨last, resumed⟩
    exact ⟨last, resumed.tokens, noIn⟩

/-- Where reading stops before a token, it stops at the bar too. -/
theorem stop {q : TokenKind → Prop} (abreast : Abreast ⟨ts, u :: us⟩ g g') (bar : Bars u us)
    (holds : q g.current.kind) (last : ∀ k, continues k = false → q k) : q g'.current.kind := by
  rcases abreast.place with ⟨_, twin⟩ | ⟨_, resumed⟩
  · rwa [twin.kind]
  · rw [resumed.current]
    exact last _ bar.stops

theorem stop_ne {k : TokenKind} (abreast : Abreast ⟨ts, u :: us⟩ g g') (bar : Bars u us)
    (other : g.current.kind ≠ k) (inner : continues k) : g'.current.kind ≠ k :=
  abreast.stop bar (q := (· ≠ k)) other fun _ stops same => by simp [← same, stops] at inner

end Abreast

/-- The parts that end with an expression, or with what goes on from one. -/
def Part.isOpen : Part → Bool
  | assignment | unary | binary _ | construction | sequence | conditional | arrow | stepped
  | access | head | primary | nested | propertyName | arguments | block => true
  | function declared => !declared
  | commas .assignment => true
  | member .. | members .. | accesses .. | operations .. => true
  | _ => false

/-- What is read at the start of a part, or in the middle of a chain. -/
def Part.Enters (p : Part) (turn : Turn) (f f' : Feed) : Prop :=
  if p.consumes then Echo (some turn) f f' else Abreast turn f f'

/-- What has been read up to the turn or before it is read again before a bar. -/
def Part.Halts (p : Part) (f : Feed) (v : Value) (g : Feed) : Prop :=
  ∀ ⦃ts : List Token⦄ ⦃u : Token⦄ ⦃us : List Token⦄ ⦃f' : Feed⦄ (start : Mark) (base : Value),
    Bars u us → ts <:+ g.tokens → p.Enters ⟨ts, u :: us⟩ f f' → Like false base p.base →
      ∃ v' g', Reads (p.rebased start base) f' v' g' ∧ Like false v' v ∧ Abreast ⟨ts, u :: us⟩ g g'

def Part.HaltsIfOpen (p : Part) (f : Feed) (v : Value) (g : Feed) : Prop :=
  p.isOpen → p.Halts f v g

theorem Part.Halts.first (halts : p.Halts f v g) (echo : Echo (some ⟨ts, u :: us⟩) f f')
    (bar : Bars u us) (ahead : ts <:+ g.tokens) (fresh : p.fresh)
    (consumes : p.consumes) :
    ∃ v' g', Reads p f' v' g' ∧ Like false v' v ∧ Abreast ⟨ts, u :: us⟩ g g' := by
  have same := p.rebased_fresh Mark.first .null fresh
  have enters : p.Enters ⟨ts, u :: us⟩ f f' := by rwa [Part.Enters, if_pos consumes]
  have read := halts Mark.first .null bar ahead enters (by rw [same.2]; rfl)
  rwa [same.1] at read

/-- A token, and the part after it that the turn stands in or after. -/
theorem Part.Halts.next (halts : p.Halts f.next v g) (inner : Reads p f.next v g)
    (echo : Echo (some ⟨ts, u :: us⟩) f f') (within : f.current.kind ≠ .endOfInput)
    (bar : Bars u us) (ahead : ts <:+ g.tokens) (fresh : p.fresh) (consumes : p.consumes) :
    ∃ v' g', Reads p f'.next v' g' ∧ Like false v' v ∧ Abreast ⟨ts, u :: us⟩ g g' := by
  have heard : Heard (some ⟨ts, u :: us⟩) f.next :=
    inner.heard (Feed.upto_next.closed echo.closed) ahead consumes
  exact halts.first (echo.next within heard).toEcho bar ahead fresh consumes

/-- A part before a token, and the part after it that the turn stands in or after. -/
theorem Part.Halts.separated {q : Part} (halts : q.Halts g.next w h) (first : Reads p f v g)
    (second : Reads q g.next w h) (echo : Echo (some ⟨ts, u :: us⟩) f f')
    (within : g.current.kind ≠ .endOfInput) (bar : Bars u us) (ahead : ts <:+ h.tokens)
    (fresh : p.fresh) (consumes : p.consumes) (fresh' : q.fresh) (consumes' : q.consumes) :
    ∃ v' g', Reads p f' v' g' ∧ Like false v' v ∧ Twin (some ⟨ts, u :: us⟩) g g' ∧
      ∃ w' h', Reads q g'.next w' h' ∧ Like false w' w ∧ Abreast ⟨ts, u :: us⟩ h h' := by
  have heard : Heard (some ⟨ts, u :: us⟩) g :=
    .of_past (Feed.past within second.upto) (first.closed echo.closed) ahead
  obtain ⟨v', g', again, like, twin⟩ := first.first echo heard fresh consumes
  exact ⟨v', g', again, like, twin,
    halts.next second twin.toEcho within bar ahead fresh' consumes'⟩

/-- A part in brackets, the closing one of which stands before the turn. -/
theorem Reads.bracketed (inner : Reads p f.next v g) (echo : Echo (some ⟨ts, u :: us⟩) f f')
    (opening : f.current.kind ≠ .endOfInput) (closing : g.current.kind ≠ .endOfInput)
    (ahead : ts <:+ g.next.tokens) (fresh : p.fresh) :
    ∃ v' g', Reads p f'.next v' g' ∧ Like false v' v ∧ g'.current.kind = g.current.kind ∧
      Abreast ⟨ts, u :: us⟩ g.next g'.next := by
  have closed := inner.closed (Feed.upto_next.closed echo.closed)
  have heard : Heard (some ⟨ts, u :: us⟩) g := .of_past (Feed.past closing .refl) closed ahead
  obtain ⟨v', g', again, like, twin⟩ :=
    inner.after (echo.next opening (heard.back inner.upto)) heard fresh
  exact ⟨v', g', again, like, twin.kind, twin.step closing ahead⟩

theorem halts_lists : Part.Family.lists.Keeps Part.HaltsIfOpen := by
  intro p f v g read rule family isOpen
  induction rule using Reads.below.casesOn with cases family
  | @commasLast e f g v item stop _ ih =>
    cases e <;> cases isOpen
    intro ts u us f' _ _ bar ahead echo _
    obtain ⟨v', g', again, like, abreast⟩ := (ih rfl).first echo bar ahead rfl rfl
    exact ⟨_, _, .commasLast again (abreast.stop_ne bar stop rfl), like_items (.cons like rfl),
      abreast⟩
  | @commasMore e f g h v vs item comma more _ _ _ ih =>
    cases e <;> cases isOpen
    intro ts u us f' _ _ bar ahead echo _
    obtain ⟨v', g', first, like, twin, vs', h', rest, likes, abreast⟩ :=
      (ih rfl).separated item more echo (kind_ne comma (by decide)) bar ahead rfl rfl rfl rfl
    obtain ⟨vs', rfl, items⟩ := like_list.mp likes
    exact ⟨_, _, .commasMore first (twin.kind.trans comma) rest, like_items (.cons like items),
      abreast⟩
  | _ => cases isOpen

theorem halts_names : Part.Family.names.Keeps Part.HaltsIfOpen := by
  intro p f v g read rule family isOpen
  induction rule using Reads.below.casesOn with cases family
  | propertyName name =>
    intro ts u us f' _ _ bar ahead (echo : Echo _ _ f') _
    exact ⟨_, _, .propertyName (by rwa [echo.kind]),
      like_nodes (.cons (like_of_eq echo.spelled) rfl),
      echo.step (word_within name) ahead⟩
  | nested inner _ ih =>
    intro ts u us f' _ _ bar ahead (echo : Echo _ _ f') _
    obtain ⟨v', g', again, like, abreast⟩ := (ih rfl).first echo.lift bar ahead rfl rfl
    exact ⟨_, _, .nested again, like, abreast.resume echo.noIn⟩
  | arguments opening items close =>
    intro ts u us f' _ _ bar ahead (echo : Echo _ _ f') _
    obtain ⟨v', g', again, like, kind, abreast⟩ :=
      items.bracketed echo (kind_ne opening (by decide)) (kind_ne close (by decide)) ahead rfl
    exact ⟨_, _, .arguments (echo.kind.trans opening) again (kind.trans close), like, abreast⟩
  | _ => cases isOpen

theorem halts_assignments : Part.Family.assignments.Keeps Part.HaltsIfOpen := by
  intro p f v g read rule family isOpen
  induction rule using Reads.below.casesOn with cases family
  | single item stop _ ih =>
    intro ts u us f' _ _ bar ahead echo _
    obtain ⟨v', g', again, like, abreast⟩ := (ih rfl).first echo bar ahead rfl rfl
    exact ⟨_, _, .single again (abreast.stop_ne bar stop rfl), like, abreast⟩
  | sequence first comma more _ _ _ ih =>
    intro ts u us f' _ _ bar ahead echo _
    obtain ⟨v', g', again, like, twin, vs', h', rest, likes, abreast⟩ :=
      (ih rfl).separated first more echo (kind_ne comma (by decide)) bar ahead rfl rfl rfl rfl
    obtain ⟨vs', rfl, items⟩ := like_list.mp likes
    exact ⟨_, _, .sequence again (twin.kind.trans comma) rest,
      like_nodes (.cons (like_items (.cons like items)) rfl), abreast⟩
  | @arrowFunction f g v starts inner _ ih =>
    intro ts u us f' _ _ bar ahead (echo : Echo _ f f') _
    obtain ⟨v', g', again, like, abreast⟩ := (ih rfl).first echo bar ahead rfl rfl
    refine ⟨_, _, .arrowFunction ?_ again, like, abreast⟩
    -- the arrow itself is not the last token of its function
    obtain ⟨h, w, params, heard⟩ : ∃ h w, Reads .arrowParameters f w h ∧
        Heard (some ⟨ts, u :: us⟩) h := by
      cases inner with
      | arrowBlock params arrow _ body | arrowValue params arrow _ body =>
        have closed := Feed.upto_next.closed (params.closed echo.closed)
        exact ⟨_, _, params, (body.heard closed ahead rfl).back Feed.upto_next⟩
    exact (echo.startsArrow params.spans (params.past rfl) heard).trans starts
  | unassigned starts inner stop _ ih =>
    intro ts u us f' _ _ bar ahead (echo : Echo _ _ f') _
    obtain ⟨v', g', again, like, abreast⟩ := (ih rfl).first echo bar ahead rfl rfl
    refine ⟨_, _, .unassigned ?_ again ?_, like, abreast⟩
    · rcases abreast.place with ⟨heard, _⟩ | ⟨last, resumed⟩
      · exact (echo.startsArrow inner.spans (inner.past rfl) heard).trans starts
      · -- an arrow would end the expression, but the bar does
        have some : ts ≠ [] := by
          rintro rfl
          cases last
        have closed : f'.Closed := echo.rest.closed some bar.closed echo.closed echo.kind
        refine Bool.eq_false_iff.mpr fun starts => ?_
        have arrow := again.conditional_arrow closed starts
        have stops := bar.stops
        rw [← resumed.current, arrow] at stops
        cases stops
    · exact abreast.stop bar stop fun _ => unassigned_of_stops
  | @assigned f g h left right starts inner operator target value _ _ _ ih =>
    intro ts u us f' _ _ bar ahead (echo : Echo _ f f') _
    have within : g.current.kind ≠ .endOfInput := kind_apart operator rfl
    obtain ⟨l', g', first, like₁, twin, r', h', second, like₂, abreast⟩ :=
      (ih rfl).separated inner value echo within bar ahead rfl rfl rfl rfl
    have before : Heard (some ⟨ts, u :: us⟩) g :=
      .of_past (Feed.past within value.upto) (inner.closed echo.closed) ahead
    have starts' := (echo.startsArrow inner.spans (inner.past rfl) before).trans starts
    exact ⟨_, _, .assigned starts' first (by rwa [twin.kind]) (like_isTarget like₁ ▸ target) second,
      like_nodes (.cons (like_of_eq twin.value) (.cons like₁ (.cons like₂ rfl))), abreast⟩
  | @arrowBlock f g h v w params arrow brace body _ _ _ ih =>
    intro ts u us f' _ _ bar ahead echo _
    have closed : g.Closed := params.closed (Echo.closed echo)
    have heard : Heard (some ⟨ts, u :: us⟩) g.next :=
      body.heard (Feed.upto_next.closed closed) ahead rfl
    obtain ⟨v', g', first, like₁, twin⟩ := params.first echo (heard.back Feed.upto_next) rfl rfl
    have twin' := twin.next (kind_ne arrow (by decide)) heard
    obtain ⟨w', h', second, like₂, abreast⟩ := (ih rfl).first twin'.toEcho bar ahead rfl rfl
    exact ⟨_, _, .arrowBlock first (twin.kind.trans arrow) (twin'.kind.trans brace) second,
      like_nodes (.cons like₁ (.cons like₂ (.cons rfl rfl))), abreast⟩
  | @arrowValue f g h v w params arrow brace body _ _ _ ih =>
    intro ts u us f' _ _ bar ahead echo _
    have closed : g.Closed := params.closed (Echo.closed echo)
    have heard : Heard (some ⟨ts, u :: us⟩) g.next :=
      body.heard (Feed.upto_next.closed closed) ahead rfl
    obtain ⟨v', g', first, like₁, twin⟩ := params.first echo (heard.back Feed.upto_next) rfl rfl
    have twin' := twin.next (kind_ne arrow (by decide)) heard
    obtain ⟨w', h', second, like₂, abreast⟩ := (ih rfl).first twin'.toEcho bar ahead rfl rfl
    exact ⟨_, _, .arrowValue first (twin.kind.trans arrow) (twin'.kind.trans_ne brace) second,
      like_nodes (.cons like₁ (.cons like₂ (.cons rfl rfl))), abreast⟩
  | untested inner stop _ ih =>
    intro ts u us f' _ _ bar ahead echo _
    obtain ⟨v', g', again, like, abreast⟩ := (ih rfl).first echo bar ahead rfl rfl
    exact ⟨_, _, .untested again (abreast.stop_ne bar stop rfl), like, abreast⟩
  | @tested f g h i left right test condition question consequent colon alternate _ _ _ _ _ ih =>
    intro ts u us f' _ _ bar ahead echo _
    have closed : g.Closed := condition.closed (Echo.closed echo)
    have closed' : h.Closed := consequent.closed (Feed.upto_next.closed closed)
    have heard : Heard (some ⟨ts, u :: us⟩) h :=
      .of_past (Feed.past (kind_ne colon (by decide)) alternate.upto) closed' ahead
    obtain ⟨t', g', test, like₁, twin₁, l', h', first, like₂, twin₂⟩ :=
      Part.Echoed.separated condition.echoed consequent.echoed consequent echo
        (kind_ne question (by decide)) heard rfl rfl rfl
    obtain ⟨r', i', last, like₃, abreast⟩ := (ih rfl).next alternate twin₂.toEcho
      (kind_ne colon (by decide)) bar ahead rfl rfl
    exact ⟨_, _, .tested test (twin₁.kind.trans question) first (twin₂.kind.trans colon) last,
      like_nodes (.cons like₁ (.cons like₂ (.cons like₃ rfl))), abreast⟩
  | _ => cases isOpen

theorem halts_operations : Part.Family.operations.Keeps Part.HaltsIfOpen := by
  intro p f v g read rule family isOpen
  induction rule using Reads.below.casesOn with cases family
  | binary first more _ ih₁ _ ih₂ =>
    intro ts u us f' _ _ bar ahead echo _
    obtain ⟨l', g', again, like₁, abreast⟩ :=
      (ih₁ rfl).first echo bar (ahead.trans more.upto) rfl rfl
    obtain ⟨v', h', rest, like₂, abreast'⟩ :=
      ih₂ rfl f'.current.start l' bar ahead abreast like₁
    exact ⟨_, _, .binary again rest, like₂, abreast'⟩
  | operationsStop stop =>
    intro ts u us f' start base bar ahead (abreast : Abreast _ _ f') like
    refine ⟨_, _, .operationsStop fun rank ranked => ?_, like, abreast⟩
    rcases abreast.place with ⟨_, twin⟩ | ⟨_, resumed⟩
    · exact stop rank (twin.rank? ▸ ranked)
    · simp [Feed.rank?, resumed.current, unranked_of_stops bar.stops] at ranked
  | @operationsMore start least rank f g h v left right ranked tighter operand more _ ih₁ _ ih₂ =>
    intro ts u us f' start base bar ahead (abreast : Abreast _ f f') like
    have within : f.current.kind ≠ .endOfInput := Feed.rank?_ne ranked rfl
    have before := ahead.trans more.upto
    have twin := abreast.twin
      (.of_past (Feed.past within operand.upto) abreast.closed before)
    obtain ⟨r', g', again, like', abreast'⟩ :=
      (ih₁ rfl).next operand twin.toEcho within bar before rfl rfl
    obtain ⟨v', h', rest, like'', last⟩ := ih₂ rfl start
      (g'.node (operationKind f'.current.kind) [f'.current.value, base, r'] start) bar ahead
      abreast' (by
        rw [twin.kind]
        exact like_nodes (.cons (like_of_eq twin.value) (.cons like (.cons like' rfl))))
    refine ⟨v', h', .operationsMore (twin.rank?.trans ranked) tighter ?_ rest, like'', last⟩
    rw [twin.kind]
    exact again
  | unaryOperator operator operand _ ih =>
    intro ts u us f' _ _ bar ahead (echo : Echo _ _ f') _
    obtain ⟨v', g', again, like, abreast⟩ :=
      (ih rfl).next operand echo (kind_apart operator rfl) bar ahead rfl rfl
    exact ⟨_, _, .unaryOperator (by rwa [echo.kind]) again,
      like_nodes (.cons (like_of_eq echo.value) (.cons like rfl)), abreast⟩
  | stepBefore plain operator operand target _ ih =>
    intro ts u us f' _ _ bar ahead (echo : Echo _ _ f') _
    obtain ⟨v', g', again, like, abreast⟩ := (ih rfl).next operand echo
      (kind_apart operator rfl) bar ahead rfl rfl
    exact ⟨_, _, .stepBefore (by rwa [echo.kind]) (by rwa [echo.kind]) again
      (like_isTarget like ▸ target),
      like_nodes (.cons (like_of_eq echo.value) (.cons rfl (.cons like rfl))), abreast⟩
  | unsigned plain still inner _ ih =>
    intro ts u us f' _ _ bar ahead (echo : Echo _ _ f') _
    obtain ⟨v', g', again, like, abreast⟩ := (ih rfl).first echo bar ahead rfl rfl
    exact ⟨_, _, .unsigned (by rwa [echo.kind]) (by rwa [echo.kind]) again, like, abreast⟩
  | unstepped inner stop _ ih =>
    intro ts u us f' _ _ bar ahead echo _
    obtain ⟨v', g', again, like, abreast⟩ := (ih rfl).first echo bar ahead rfl rfl
    refine ⟨_, _, .unstepped again ?_, like, abreast⟩
    rcases abreast.place with ⟨_, twin⟩ | ⟨_, resumed⟩
    · rwa [twin.kind, twin.line]
    · rw [resumed.current, unstepped_of_stops bar.stops]
      rfl
  | @stepAfter _ g _ inner operator line target =>
    intro ts u us f' _ _ bar ahead (echo : Echo _ _ f') _
    have within : g.current.kind ≠ .endOfInput := kind_apart operator rfl
    have heard : Heard (some ⟨ts, u :: us⟩) g :=
      .of_past (Feed.past within .refl) (inner.closed echo.closed) ahead
    obtain ⟨v', g', again, like, twin⟩ := inner.first echo heard rfl rfl
    exact ⟨_, _, .stepAfter again (by rwa [twin.kind]) (twin.line.trans line)
      (like_isTarget like ▸ target),
      like_nodes (.cons (like_of_eq twin.value) (.cons rfl (.cons like rfl))),
      twin.step within ahead⟩

theorem halts_accesses : Part.Family.accesses.Keeps Part.HaltsIfOpen := by
  intro p f v g read rule family isOpen
  induction rule using Reads.below.casesOn with cases family
  | access first more _ ih₁ _ ih₂ =>
    intro ts u us f' _ _ bar ahead echo _
    obtain ⟨v', g', again, like, abreast⟩ :=
      (ih₁ rfl).first echo bar (ahead.trans more.upto) rfl rfl
    obtain ⟨w', h', rest, like', abreast'⟩ := ih₂ rfl f'.current.start v' bar ahead abreast like
    exact ⟨_, _, .access again rest, like', abreast'⟩
  | headNew new inner _ ih =>
    intro ts u us f' _ _ bar ahead (echo : Echo _ _ f') _
    obtain ⟨v', g', again, like, abreast⟩ := (ih rfl).first echo bar ahead rfl rfl
    exact ⟨_, _, .headNew (echo.kind.trans new) again, like, abreast⟩
  | headPrimary plain inner _ ih =>
    intro ts u us f' _ _ bar ahead (echo : Echo _ _ f') _
    obtain ⟨v', g', again, like, abreast⟩ := (ih rfl).first echo bar ahead rfl rfl
    exact ⟨_, _, .headPrimary (echo.kind.trans_ne plain) again, like, abreast⟩
  | memberNamed dot name _ ih =>
    intro ts u us f' start base bar ahead (echo : Echo _ _ f') like
    obtain ⟨v', g', again, like', abreast⟩ :=
      (ih rfl).next name echo (kind_ne dot (by decide)) bar ahead rfl rfl
    exact ⟨_, _, .memberNamed (echo.kind.trans dot) again,
      like_nodes (.cons like (.cons like' (.cons rfl rfl))), abreast⟩
  | memberIndexed bracket index close =>
    intro ts u us f' start base bar ahead (echo : Echo _ _ f') like
    obtain ⟨v', g', again, like', kind, abreast⟩ :=
      index.bracketed echo (kind_ne bracket (by decide)) (kind_ne close (by decide)) ahead rfl
    exact ⟨_, _, .memberIndexed (echo.kind.trans bracket) again (kind.trans close),
      like_nodes (.cons like (.cons like' (.cons rfl rfl))), abreast⟩
  | membersMore first more _ ih₁ _ ih₂ =>
    intro ts u us f' start base bar ahead (abreast : Abreast _ _ f') like
    have heard : Heard (some ⟨ts, u :: us⟩) _ :=
      first.heard abreast.closed (ahead.trans more.upto) rfl
    obtain ⟨v', g', again, like', abreast'⟩ :=
      ih₁ rfl start base bar (ahead.trans more.upto) (abreast.twin heard).toEcho like
    obtain ⟨w', h', rest, like'', last⟩ := ih₂ rfl start v' bar ahead abreast' like'
    exact ⟨_, _, .membersMore again rest, like'', last⟩
  | membersStop dot bracket =>
    intro ts u us f' start base bar ahead (abreast : Abreast _ _ f') like
    exact ⟨_, _, .membersStop (abreast.stop_ne bar dot rfl)
      (abreast.stop_ne bar bracket rfl), like,
      abreast⟩
  | accessesMember first more _ ih₁ _ ih₂ =>
    intro ts u us f' start base bar ahead (abreast : Abreast _ _ f') like
    have heard : Heard (some ⟨ts, u :: us⟩) _ :=
      first.heard abreast.closed (ahead.trans more.upto) rfl
    obtain ⟨v', g', again, like', abreast'⟩ :=
      ih₁ rfl start base bar (ahead.trans more.upto) (abreast.twin heard).toEcho like
    obtain ⟨w', h', rest, like'', last⟩ := ih₂ rfl start v' bar ahead abreast' like'
    exact ⟨_, _, .accessesMember again rest, like'', last⟩
  | accessesCall args more _ ih₁ _ ih₂ =>
    intro ts u us f' start base bar ahead (abreast : Abreast _ _ f') like
    have heard : Heard (some ⟨ts, u :: us⟩) _ :=
      args.heard abreast.closed (ahead.trans more.upto) rfl
    obtain ⟨v', g', again, like', abreast'⟩ :=
      (ih₁ rfl).first (abreast.twin heard).toEcho bar (ahead.trans more.upto) rfl rfl
    obtain ⟨w', h', rest, like'', last⟩ :=
      ih₂ rfl start (g'.node .callExpression [base, v'] start) bar ahead abreast'
        (like_nodes (.cons like (.cons like' rfl)))
    exact ⟨_, _, .accessesCall again rest, like'', last⟩
  | accessesStop dot bracket paren =>
    intro ts u us f' start base bar ahead (abreast : Abreast _ _ f') like
    exact ⟨_, _, .accessesStop (abreast.stop_ne bar dot rfl)
      (abreast.stop_ne bar bracket rfl)
      (abreast.stop_ne bar paren rfl), like, abreast⟩
  | @constructionCall f g h i v w object new first more args _ _ _ ih₂ _ ih₃ =>
    intro ts u us f' _ _ bar ahead (echo : Echo _ f f') _
    have second : Heard (some ⟨ts, u :: us⟩) h := args.heard (more.closed (first.closed
      (Feed.upto_next.closed echo.closed))) ahead rfl
    have first' := second.back more.upto
    obtain ⟨o', g', again, like, twin⟩ :=
      first.after (echo.next (kind_ne new (by decide)) (first'.back first.upto)) first' rfl
    obtain ⟨v', h', rest, like', twin'⟩ :=
      more.echoed f'.current.start o' twin.toEcho (.inr twin.line) second like
    obtain ⟨w', i', last, like'', abreast⟩ := (ih₃ rfl).first twin'.toEcho bar ahead rfl rfl
    exact ⟨_, _, .constructionCall (echo.kind.trans new) again rest last,
      like_nodes (.cons like' (.cons like'' rfl)), abreast⟩
  | constructionBare new first more stop _ ih₁ _ ih₂ =>
    intro ts u us f' _ _ bar ahead (echo : Echo _ _ f') _
    obtain ⟨o', g', again, like, abreast⟩ := (ih₁ rfl).next first echo (kind_ne new (by decide)) bar
      (ahead.trans more.upto) rfl rfl
    obtain ⟨v', h', rest, like', abreast'⟩ := ih₂ rfl f'.current.start o' bar ahead abreast like
    exact ⟨_, _, .constructionBare (echo.kind.trans new) again rest
      (abreast'.stop_ne bar stop rfl),
      like_nodes (.cons like' (.cons rfl rfl)), abreast'⟩

theorem halts_primaries : Part.Family.primaries.Keeps Part.HaltsIfOpen := by
  intro p f v g read rule family isOpen
  induction rule using Reads.below.casesOn with cases family
  | name ident =>
    intro ts u us f' _ _ bar ahead (echo : Echo _ _ f') _
    exact ⟨_, _, .name (echo.kind.trans ident), like_nodes (.cons (like_of_eq echo.value) rfl),
      echo.step (kind_ne ident (by decide)) ahead⟩
  | numberOrString scalar =>
    intro ts u us f' _ _ bar ahead (echo : Echo _ _ f') _
    refine ⟨_, _, .numberOrString (by rwa [echo.kind]), ?_,
      echo.step (scalar.elim (kind_ne · (by decide)) (kind_ne · (by decide))) ahead⟩
    rw [echo.value]
    exact like_literal
  | wordTrue word =>
    intro ts u us f' _ _ bar ahead (echo : Echo _ _ f') _
    exact ⟨_, _, .wordTrue (echo.kind.trans word), like_literal, echo.step
      (kind_ne word (by decide)) ahead⟩
  | wordFalse word =>
    intro ts u us f' _ _ bar ahead (echo : Echo _ _ f') _
    exact ⟨_, _, .wordFalse (echo.kind.trans word), like_literal, echo.step
      (kind_ne word (by decide)) ahead⟩
  | wordNull word =>
    intro ts u us f' _ _ bar ahead (echo : Echo _ _ f') _
    exact ⟨_, _, .wordNull (echo.kind.trans word), like_literal, echo.step
      (kind_ne word (by decide)) ahead⟩
  | wordThis word =>
    intro ts u us f' _ _ bar ahead (echo : Echo _ _ f') _
    exact ⟨_, _, .wordThis (echo.kind.trans word), like_nodes rfl, echo.step
      (kind_ne word (by decide)) ahead⟩
  | functionExpression inner _ ih =>
    intro ts u us f' _ _ bar ahead echo _
    obtain ⟨v', g', again, like, abreast⟩ := (ih rfl).first echo bar ahead rfl rfl
    exact ⟨_, _, .functionExpression again, like, abreast⟩
  | parenthesized opening inner close =>
    intro ts u us f' _ _ bar ahead (echo : Echo _ _ f') _
    obtain ⟨v', g', again, like, kind, abreast⟩ :=
      inner.bracketed echo (kind_ne opening (by decide)) (kind_ne close (by decide)) ahead rfl
    exact ⟨_, _, .parenthesized (echo.kind.trans opening) again (kind.trans close), like, abreast⟩
  | array opening items close =>
    intro ts u us f' _ _ bar ahead (echo : Echo _ _ f') _
    obtain ⟨v', g', again, like, kind, abreast⟩ :=
      items.bracketed echo (kind_ne opening (by decide)) (kind_ne close (by decide)) ahead rfl
    exact ⟨_, _, .array (echo.kind.trans opening) again (kind.trans close),
      like_nodes (.cons like rfl), abreast⟩
  | object opening items close =>
    intro ts u us f' _ _ bar ahead (echo : Echo _ _ f') _
    obtain ⟨v', g', again, like, kind, abreast⟩ :=
      items.bracketed echo (kind_ne opening (by decide)) (kind_ne close (by decide)) ahead rfl
    exact ⟨_, _, .object (echo.kind.trans opening) again (kind.trans close),
      like_nodes (.cons like rfl), abreast⟩
  | _ => cases isOpen

theorem halts_functions : Part.Family.functions.Keeps Part.HaltsIfOpen := by
  intro p f v g read rule family isOpen
  induction rule using Reads.below.casesOn with cases family
  | @functionNamed declared f g h i v w object word name params body _ _ _ _ _ ih =>
    intro ts u us f' _ _ bar ahead (echo : Echo _ f f') _
    have second : Heard (some ⟨ts, u :: us⟩) h := body.heard (params.closed (name.closed
      (Feed.upto_next.closed echo.closed))) ahead rfl
    have first := second.back params.upto
    obtain ⟨v', g', named, like₁, twin₁⟩ :=
      name.after (echo.next (kind_ne word (by decide)) (first.back name.upto)) first rfl
    obtain ⟨w', h', taken, like₂, twin₂⟩ := params.after twin₁ second rfl
    obtain ⟨b', i', last, like₃, abreast⟩ := (ih rfl).first twin₂.toEcho bar ahead rfl rfl
    exact ⟨_, _, .functionNamed (echo.kind.trans word) named taken last,
      like_nodes (.cons like₁ (.cons like₂ (.cons like₃ rfl))), abreast⟩
  | @functionUnnamed f h i w object word name params body _ _ _ ih =>
    intro ts u us f' _ _ bar ahead (echo : Echo _ f f') _
    have second : Heard (some ⟨ts, u :: us⟩) h := body.heard (params.closed
      (Feed.upto_next.closed echo.closed)) ahead rfl
    have twin := echo.next (kind_ne word (by decide)) (second.back params.upto)
    obtain ⟨w', h', taken, like₁, twin₁⟩ := params.after twin second rfl
    obtain ⟨b', i', last, like₂, abreast⟩ := (ih rfl).first twin₁.toEcho bar ahead rfl rfl
    exact ⟨_, _, .functionUnnamed (echo.kind.trans word) (twin.kind.trans_ne name) taken last,
      like_nodes (.cons rfl (.cons like₁ (.cons like₂ rfl))), abreast⟩
  | blockEmpty opening close =>
    intro ts u us f' _ _ bar ahead (echo : Echo _ _ f') _
    have heard : Heard (some ⟨ts, u :: us⟩) _ :=
      .of_past (Feed.past (kind_ne close (by decide)) .refl)
        (Feed.upto_next.closed echo.closed) ahead
    have twin := echo.next (kind_ne opening (by decide)) heard
    exact ⟨_, _, .blockEmpty (echo.kind.trans opening) (twin.kind.trans close),
      like_attachTrailing (like_nodes rfl), twin.step (kind_ne close (by decide)) ahead⟩
  | @block f g v vs opening body close =>
    intro ts u us f' _ _ bar ahead (echo : Echo _ f f') _
    have closed : g.Closed := body.closed (Feed.upto_next.closed echo.closed)
    have heard : Heard (some ⟨ts, u :: us⟩) g :=
      .of_past (Feed.past (kind_ne close (by decide)) .refl) closed (by simpa using ahead)
    have twin := echo.next (kind_ne opening (by decide)) (heard.back body.upto)
    obtain ⟨vs', g', again, likes, twin'⟩ := body.after twin.lift heard rfl
    obtain ⟨vs', rfl, items⟩ := like_list.mp likes
    obtain ⟨v', vs', rfl, _, _⟩ := allLike_cons.mp items
    exact ⟨_, _, .block (echo.kind.trans opening) again (twin'.kind.trans close),
      like_nodes (.cons (like_items (like_mapLast items)) rfl),
      (twin'.resume echo).step (kind_ne close (by decide)) ahead⟩
  | _ => cases isOpen

theorem Part.family_of_isOpen (isOpen : p.isOpen) :
    p.family ≠ .clauses ∧ p.family ≠ .statements := by
  cases p with
  | loopInit | counted | label | handler | finalizer | statement => cases isOpen
  | _ => exact ⟨nofun, nofun⟩

theorem Reads.halts (read : Reads p f v g) : p.HaltsIfOpen f v g :=
  read.byFamily fun
    | .lists => halts_lists
    | .names => halts_names
    | .assignments => halts_assignments
    | .operations => halts_operations
    | .accesses => halts_accesses
    | .primaries => halts_primaries
    | .functions => halts_functions
    | .clauses => fun _ family isOpen => absurd family (Part.family_of_isOpen isOpen).1
    | .statements => fun _ family isOpen => absurd family (Part.family_of_isOpen isOpen).2

end ScriptTree.Grammar
