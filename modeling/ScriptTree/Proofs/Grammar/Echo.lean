import ScriptTree.Proofs.Grammar.Brackets
import ScriptTree.Proofs.Grammar.Conservation
import ScriptTree.Proofs.Token.Cutting
import ScriptTree.Proofs.Tree.Likeness

/-!
Reading depends on how the tokens are cut, not on where they stand, and on no token after the one at
which it stops. So what has been read from some tokens is read again, up to notes, from tokens that
echo them; from a place on that reading does not reach, the echo may go on in its own way.
-/
namespace ScriptTree.Grammar

open Value

structure Turn where
  last : List Token
  other : List Token

/-- Tokens that are cut as others are, up to a turn if there is one. -/
inductive Echoes (more : Option Turn) : List Token → List Token → Prop
  | nil (exact : more = none) : Echoes more [] []
  | stop {ts us : List Token} (goesOn : more = some ⟨ts, us⟩) : Echoes more ts us
  | step {t u : Token} {ts us : List Token} (alike : u.cut = t.cut) (rest : Echoes more ts us) :
      Echoes more (t :: ts) (u :: us)

/-- Some tokens after the current one go as far as the turn, or further. -/
def Ahead (more : Option Turn) (ts : List Token) : Prop :=
  ∀ turn ∈ more, turn.last.length ≤ ts.length

/-- A feed before the place at which an echo goes on in its own way. -/
def Heard (more : Option Turn) (f : Feed) : Prop := Ahead more f.rest

/-- A feed echoes another one; nothing is said of a line end before its current token. -/
structure Echo (more : Option Turn) (f f' : Feed) : Prop where
  noIn : f'.noIn = f.noIn
  kind : f'.current.kind = f.current.kind
  value : f'.current.value = f.current.value
  raw : f'.current.raw = f.current.raw
  rest : Echoes more f.rest f'.rest
  closed : f.Closed

/-- A feed echoes another one, and there is a line end before its current token if there is one in
the other. -/
structure Twin (more : Option Turn) (f f' : Feed) : Prop extends Echo more f f' where
  line : f'.current.newlineBefore = f.current.newlineBefore

variable {more : Option Turn} {f f' g g' h : Feed} {p : Part} {v w : Value}

theorem Heard.back (heard : Heard more g) (upto : f.Upto g) : Heard more f :=
  fun turn mem => (heard turn mem).trans upto.length_le

theorem Echo.next (echo : Echo more f f') (within : f.current.kind ≠ .endOfInput)
    (heard : Heard more f.next) : Twin more f.next f'.next := by
  obtain ⟨noIn, kind, value, raw, rest, closed⟩ := echo
  obtain ⟨prev, current, left, inOff⟩ := f
  obtain ⟨prev', current', left', inOff'⟩ := f'
  obtain ⟨t, later, rfl, next⟩ := closed.next_eq within
  have closed := Feed.upto_next.closed closed
  cases rest with
  | stop goesOn =>
    rw [next] at heard
    exact absurd (heard _ goesOn) (by simp)
  | step alike rest =>
    simp only [Token.cut, Cut.mk.injEq] at alike
    obtain ⟨kind, value, raw, line⟩ := alike
    exact ⟨⟨noIn, kind, value, raw, rest, closed⟩, line⟩

structure Resumed (us : List Token) (g g' : Feed) : Prop where
  tokens : g'.tokens = us
  noIn : g'.noIn = g.noIn

theorem Resumed.current {u : Token} {us : List Token} (resumed : Resumed (u :: us) g g') :
    g'.current = u :=
  (List.cons.inj resumed.tokens).1

theorem Echoes.turn_le {turn : Turn} {ts us : List Token} (echoes : Echoes (some turn) ts us) :
    turn.last.length ≤ ts.length := by
  induction echoes with
  | nil exact => cases exact
  | stop goesOn => exact Nat.le_of_eq (by rw [Option.some.inj goesOn])
  | step _ _ ih => exact Nat.le_succ_of_le ih

/-- The last token before the turn is taken. -/
theorem Echo.take {ts us : List Token} {u : Token} (echo : Echo (some ⟨ts, u :: us⟩) f f')
    (within : f.current.kind ≠ .endOfInput) (last : f.next.rest.length < ts.length) :
    Resumed (u :: us) f.next f'.next := by
  obtain ⟨noIn, _, _, _, rest, closed⟩ := echo
  obtain ⟨prev, current, left, inOff⟩ := f
  obtain ⟨prev', current', left', inOff'⟩ := f'
  obtain ⟨t, later, rfl, next⟩ := closed.next_eq within
  cases rest with
  | stop goesOn =>
    cases goesOn
    exact ⟨rfl, noIn⟩
  | step alike rest =>
    rw [next] at last
    exact absurd rest.turn_le (Nat.not_le_of_lt last)

theorem Echo.lift (echo : Echo more f f') : Echo more f.lift f'.lift :=
  ⟨rfl, echo.kind, echo.value, echo.raw, echo.rest, echo.closed⟩

theorem Echo.bar (echo : Echo more f f') : Echo more f.bar f'.bar :=
  ⟨rfl, echo.kind, echo.value, echo.raw, echo.rest, echo.closed⟩

theorem Twin.lift (twin : Twin more f f') : Twin more f.lift f'.lift :=
  ⟨twin.toEcho.lift, twin.line⟩

theorem Twin.bar (twin : Twin more f f') : Twin more f.bar f'.bar := ⟨twin.toEcho.bar, twin.line⟩

theorem Twin.resume (twin : Twin more g g') (echo : Echo more f f') :
    Twin more (g.resume f) (g'.resume f') :=
  ⟨⟨echo.noIn, twin.kind, twin.value, twin.raw, twin.rest, twin.closed⟩, twin.line⟩

/-- At a place where a part takes no token, the echo of a feed is its twin. -/
theorem Echo.still (echo : Echo more f f') (idle : p.consumes = false)
    (line : p.consumes ∨ f'.current.newlineBefore = f.current.newlineBefore) : Twin more f f' :=
  ⟨echo, line.resolve_left (by simp [idle])⟩

theorem Echo.rank? (echo : Echo more f f') : f'.rank? = f.rank? := by
  rw [Feed.rank?, Feed.rank?, echo.kind, echo.noIn]

theorem Echo.spelled (echo : Echo more f f') : f'.spelled = f.spelled := by
  rw [Feed.spelled, Feed.spelled, Token.word, Token.word, echo.raw, echo.value]

theorem Echo.atLoopWord (echo : Echo more f f') : f'.atLoopWord = f.atLoopWord := by
  simp only [Feed.atLoopWord, Feed.sees, echo.kind, echo.value]

theorem like_literal : Like false (f'.literal v) (f.literal v) := Like.node rfl nofun

theorem Twin.endsStatement (twin : Twin more f f') : f'.endsStatement = f.endsStatement := by
  simp only [Feed.endsStatement, Feed.sees, twin.kind, twin.line]

theorem Twin.bare (twin : Twin more f f') :
    (f'.sees .semicolon || f'.endsStatement) = (f.sees .semicolon || f.endsStatement) := by
  simp only [Feed.sees, twin.kind, twin.endsStatement]

theorem Twin.ends (twin : Twin more f f') (stop : f.Ends g) (heard : Heard more g) :
    ∃ g', f'.Ends g' ∧ Twin more g g' := by
  rcases stop with ⟨semicolon, rfl⟩ | ⟨other, ends, rfl⟩
  · exact ⟨_, .inl ⟨twin.kind.trans semicolon, rfl⟩, twin.next (kind_ne semicolon (by decide))
      heard⟩
  · refine ⟨f', .inr ⟨?_, ?_, rfl⟩, twin⟩
    · rwa [twin.kind]
    · rwa [twin.endsStatement]

/-- Tokens that are cut as others are echo them. -/
theorem echoes_of_cut {ts us zs vs : List Token} (same : us.map Token.cut = ts.map Token.cut)
    (rest : Echoes more zs vs) : Echoes more (ts ++ zs) (us ++ vs) := by
  induction ts generalizing us with
  | nil =>
    cases List.map_eq_nil_iff.mp same
    exact rest
  | cons t ts ih =>
    obtain ⟨u, us, rfl, first, more⟩ := List.map_eq_cons_iff.mp same
    exact .step first (ih more)

/-- Tokens that echo some tokens up to a place. -/
theorem Echoes.split {ts zs us : List Token} {z : Token} (echoes : Echoes more (ts ++ z :: zs) us)
    (ahead : Ahead more zs) : ∃ ts' z' zs', us = ts' ++ z' :: zs' ∧
      ts'.map Token.cut = ts.map Token.cut ∧ z'.cut = z.cut := by
  induction ts generalizing us with
  | nil =>
    cases echoes with
    | stop goesOn => exact absurd (ahead _ goesOn) (by simp)
    | step alike rest => exact ⟨[], _, _, rfl, rfl, alike⟩
  | cons t ts ih =>
    rw [List.cons_append] at echoes
    cases echoes with
    | stop goesOn =>
      have length := ahead _ goesOn
      simp only [List.length_cons, List.length_append] at length
      omega
    | step alike rest =>
      obtain ⟨ts', z', zs', rfl, same, last⟩ := ih rest
      exact ⟨_ :: ts', z', zs', rfl, by simp [alike, same], last⟩

theorem map_kind {ts us : List Token} (same : us.map Token.cut = ts.map Token.cut) :
    us.map Token.kind = ts.map Token.kind := by
  have kinds := congrArg (List.map Cut.kind) same
  rwa [List.map_map, List.map_map] at kinds

/-- The look ahead for an arrow is the same in an echo that reaches over the first bracket. -/
theorem arrowAfter_echo {inside zs us : List Token} {j z : Token}
    (nested : Nested (inside.map Token.kind)) (closes : j.kind.closes)
    (opens : j.kind.opens = false)
    (echoes : Echoes more (inside ++ j :: z :: zs) us) (ahead : Ahead more zs) :
    arrowAfter 1 us = arrowAfter 1 (inside ++ j :: z :: zs) := by
  have echoes : Echoes more ((inside ++ [j]) ++ z :: zs) us := by simpa using echoes
  obtain ⟨ts, z', zs', rfl, same, last⟩ := echoes.split ahead
  have kinds := map_kind same
  rw [List.map_append] at kinds
  obtain ⟨inside', js, rfl, first, second⟩ := List.map_eq_append_iff.mp kinds
  obtain ⟨j', rfl, closing⟩ := List.map_eq_singleton_iff.mp second
  simp only [Token.cut, Cut.mk.injEq] at last
  rw [List.append_assoc, List.singleton_append, arrowAfter_nested nested,
    arrowAfter_nested (first ▸ nested), arrowAfter_last closes opens,
    arrowAfter_last (closing ▸ closes) (closing ▸ opens), last.1, last.2.2.2]

/-- An arrow function is recognised in an echo if what is read reaches over the first bracket. -/
theorem Echo.startsArrow (echo : Echo more f f') (spans : f.Spans g) (past : f.Past g)
    (heard : Heard more g) : f'.startsArrow = f.startsArrow := by
  unfold Feed.startsArrow
  rw [echo.kind]
  split
  · obtain ⟨t, later, rest, next⟩ := echo.closed.next_eq past.1
    have heard := heard.back past.2
    rw [next] at heard
    have echoes : Echoes more ([] ++ t :: later) f'.rest := by
      rw [List.nil_append, ← rest]
      exact echo.rest
    rw [rest]
    obtain ⟨ts, u, us, others, same, last⟩ := echoes.split heard
    cases List.map_eq_nil_iff.mp same
    simp only [Token.cut, Cut.mk.injEq] at last
    rw [others]
    simp [last.1]
  · rename_i paren
    obtain ⟨_, ts, tokens, nested⟩ := spans echo.closed
    have opens : f.current.kind.opens := by rw [paren]; rfl
    rw [arrowAfter_opens opens, arrowAfter_opens (by rwa [echo.kind])]
    have length := past.length_lt echo.closed
    cases ts with
    | nil =>
      have same := congrArg List.length tokens
      simp [Feed.tokens] at same
      omega
    | cons t ts =>
      rw [List.cons_append] at tokens
      obtain ⟨rfl, rest⟩ := List.cons.inj tokens
      rw [List.map_cons, paren] at nested
      generalize kinds : ts.map Token.kind = ks at nested
      cases nested with
      | inner plain _ => cases plain
      | pair counterpart within later =>
        obtain ⟨inside, others, rfl, first, second⟩ := List.map_eq_append_iff.mp kinds
        obtain ⟨j, others, rfl, rfl, _⟩ := List.map_eq_cons_iff.mp second
        obtain ⟨_, closes, opens, _⟩ := closer?_opens counterpart
        obtain ⟨z, zs, whole, ahead⟩ : ∃ z zs, others ++ g.tokens = z :: zs ∧ Ahead more zs := by
          cases others with
          | nil => exact ⟨g.current, g.rest, rfl, heard⟩
          | cons z others =>
            refine ⟨z, others ++ g.tokens, rfl, fun turn mem => (heard turn mem).trans ?_⟩
            simp only [List.length_append, Feed.tokens, List.length_cons]
            omega
        have echoes := echo.rest
        rw [rest, List.append_assoc, List.cons_append, whole] at echoes ⊢
        exact arrowAfter_echo (first ▸ within) closes opens echoes ahead
  · rfl

def Part.base : Part → Value
  | counted _ v | member _ v | members _ v | accesses _ v | operations _ _ v => v
  | _ => .null

/-- The part that goes on from another value, read from another mark on. -/
def Part.rebased (start : Mark) (base : Value) : Part → Part
  | counted _ _ => .counted start base
  | member _ _ => .member start base
  | members _ _ => .members start base
  | accesses _ _ => .accesses start base
  | operations _ least _ => .operations start least base
  | p => p

/-- What has been read is read again from an echo, up to notes. -/
def Part.Echoed (more : Option Turn) (p : Part) (f : Feed) (v : Value) (g : Feed) : Prop :=
  ∀ {f' : Feed} (start : Mark) (base : Value), Echo more f f' →
    (p.consumes ∨ f'.current.newlineBefore = f.current.newlineBefore) → Heard more g →
    Like false base p.base →
      ∃ v' g', Reads (p.rebased start base) f' v' g' ∧ Like false v' v ∧ Twin more g g'

def Part.fresh : Part → Bool
  | counted .. | member .. | members .. | accesses .. | operations .. => false
  | _ => true

theorem Part.rebased_fresh (start : Mark) (base : Value) (fresh : p.fresh) :
    p.rebased start base = p ∧ p.base = .null := by
  cases p <;> first | exact ⟨rfl, rfl⟩ | cases fresh

theorem Item.part_fresh (e : Item) : e.part.fresh = true := by
  cases e <;> rfl

theorem Part.Echoed.first (echoed : p.Echoed more f v g) (echo : Echo more f f')
    (heard : Heard more g) (fresh : p.fresh) (consumes : p.consumes) :
    ∃ v' g', Reads p f' v' g' ∧ Like false v' v ∧ Twin more g g' := by
  have same := p.rebased_fresh Mark.first .null fresh
  have read := echoed Mark.first .null echo (.inl consumes) heard (by rw [same.2]; rfl)
  rwa [same.1] at read

theorem Part.Echoed.after (echoed : p.Echoed more f v g) (twin : Twin more f f')
    (heard : Heard more g) (fresh : p.fresh) :
    ∃ v' g', Reads p f' v' g' ∧ Like false v' v ∧ Twin more g g' := by
  have same := p.rebased_fresh Mark.first .null fresh
  have read := echoed Mark.first .null twin.toEcho (.inr twin.line) heard (by rw [same.2]; rfl)
  rwa [same.1] at read

/-- A part that is only another one, read from the same place, is echoed as that one is. -/
theorem Part.Echoed.through {q : Part} (inner : q.Echoed more f v g) (fresh : q.fresh)
    (consumes : q.consumes) (plain : p.fresh)
    (outer : ∀ {f' v' g'}, Echo more f f' → Heard more g → Twin more g g' → Reads q f' v' g' →
      Reads p f' v' g') : p.Echoed more f v g := by
  intro f' start base echo _ heard _
  obtain ⟨v', g', again, like, twin⟩ := inner.first echo heard fresh consumes
  rw [(p.rebased_fresh start base plain).1]
  exact ⟨v', g', outer echo heard twin again, like, twin⟩

/-- Two parts with a token between them are read again, one after the other. -/
theorem Part.Echoed.separated {q : Part} (first : p.Echoed more f v g)
    (second : q.Echoed more g.next w h) (rest : Reads q g.next w h) (echo : Echo more f f')
    (within : g.current.kind ≠ .endOfInput) (heard : Heard more h) (fresh : p.fresh)
    (consumes : p.consumes) (fresh' : q.fresh) :
    ∃ v' g', Reads p f' v' g' ∧ Like false v' v ∧ Twin more g g' ∧
      ∃ w' h', Reads q g'.next w' h' ∧ Like false w' w ∧ Twin more h h' := by
  have next := heard.back rest.upto
  obtain ⟨v', g', again, like, twin⟩ := first.first echo (next.back Feed.upto_next) fresh consumes
  exact ⟨v', g', again, like, twin, second.after (twin.next within next) heard fresh'⟩

/-- A part between two tokens is read again between their echoes. -/
theorem Part.Echoed.between (echoed : p.Echoed more f.next v g) (inner : Reads p f.next v g)
    (echo : Echo more f f') (opening : f.current.kind ≠ .endOfInput)
    (closing : g.current.kind ≠ .endOfInput) (heard : Heard more g.next) (fresh : p.fresh) :
    ∃ v' g', Reads p f'.next v' g' ∧ Like false v' v ∧ g'.current.kind = g.current.kind ∧
      Twin more g.next g'.next := by
  have left := heard.back Feed.upto_next
  obtain ⟨v', g', again, like, twin⟩ :=
    echoed.after (echo.next opening (left.back inner.upto)) left fresh
  exact ⟨v', g', again, like, twin.kind, twin.next closing heard⟩

/-- A part in brackets after a keyword is read again. -/
theorem Part.Echoed.inParens (echoed : p.Echoed more f.next.next v g)
    (inner : Reads p f.next.next v g) (echo : Echo more f f')
    (word : f.current.kind ≠ .endOfInput) (opening : f.next.current.kind ≠ .endOfInput)
    (closing : g.current.kind ≠ .endOfInput) (heard : Heard more g.next) (fresh : p.fresh) :
    f'.next.current.kind = f.next.current.kind ∧ ∃ v' g', Reads p f'.next.next v' g' ∧
      Like false v' v ∧ g'.current.kind = g.current.kind ∧ Twin more g.next g'.next := by
  have inside := (heard.back Feed.upto_next).back inner.upto
  have twin := echo.next word (inside.back Feed.upto_next)
  exact ⟨twin.kind, echoed.between inner twin.toEcho opening closing heard fresh⟩

/-- The head of a loop over a collection is read again. -/
theorem Part.Echoed.loopHead {q : Part} (init : p.Echoed more f.next.next.bar v g)
    (collection : q.Echoed more g.lift.next w h) (read : Reads p f.next.next.bar v g)
    (inner : Reads q g.lift.next w h) (echo : Echo more f f')
    (word : f.current.kind ≠ .endOfInput) (opening : f.next.current.kind ≠ .endOfInput)
    (loop : g.current.kind ≠ .endOfInput) (closing : h.current.kind ≠ .endOfInput)
    (heard : Heard more h.next) (fresh : p.fresh) (fresh' : q.fresh) :
    ∃ v' g', f'.next.current.kind = f.next.current.kind ∧
      f'.next.next.current.kind = f.next.next.current.kind ∧
      Reads p f'.next.next.bar v' g' ∧ Like false v' v ∧ Twin more g g' ∧
      ∃ w' h', Reads q g'.lift.next w' h' ∧ Like false w' w ∧
        h'.current.kind = h.current.kind ∧ Twin more h.next h'.next := by
  have second : Heard more g.lift :=
    ((heard.back Feed.upto_next).back inner.upto).back Feed.upto_next
  have first : Heard more f.next.next := second.back read.upto
  have twin₁ := echo.next word (first.back Feed.upto_next)
  have twin₂ := twin₁.next opening first
  obtain ⟨v', g', start, like, twin⟩ := init.after twin₂.bar second fresh
  exact ⟨v', g', twin₁.kind, twin₂.kind, start, like, twin,
    collection.between inner twin.lift.toEcho loop closing heard fresh'⟩

/-- What a statement has after its keyword is read again, and the statement ends as before. -/
theorem Part.Echoed.ended (echoed : p.Echoed more f.next v g) (inner : Reads p f.next v g)
    (stop : g.Ends h) (echo : Echo more f f') (word : f.current.kind ≠ .endOfInput)
    (heard : Heard more h) (fresh : p.fresh) :
    Twin more f.next f'.next ∧ ∃ v' g', Reads p f'.next v' g' ∧ Like false v' v ∧
      ∃ h', g'.Ends h' ∧ Twin more h h' := by
  have second := heard.back stop.upto
  have twin := echo.next word (second.back inner.upto)
  obtain ⟨v', g', again, like, twin'⟩ := echoed.after twin second fresh
  exact ⟨twin, v', g', again, like, twin'.ends stop heard⟩

theorem like_nodes {k : Kind} {start start' : Mark} {vs ws : List Value}
    (like : AllLike false ws vs) : Like false (f'.node k ws start') (f.node k vs start) :=
  Like.node like nofun

theorem like_items {vs ws : List Value} (like : AllLike false ws vs) :
    Like false (.list ws) (.list vs) := like_list.mpr ⟨ws, rfl, like⟩

theorem like_of_eq (same : w = v) : Like false w v := congrArg (strip false) same

theorem like_isTarget (like : Like false w v) : isTarget w = isTarget v := by
  rw [isTarget, isTarget, like.kind?]

theorem like_isLoopTarget (like : Like false w v) (target : isLoopTarget v) :
    isLoopTarget w := by
  unfold isLoopTarget at target
  split at target
  · obtain ⟨_, _, _, rfl, _, list, _⟩ := like.two
    obtain ⟨_, rfl, declarators⟩ := like_list.mp list
    obtain ⟨_, _, rfl, declarator, none⟩ := allLike_cons.mp declarators
    cases allLike_nil.mp none
    obtain ⟨_, _, _, rfl, _, init, _⟩ := declarator.two
    cases like_null.mp init
    rfl
  · obtain ⟨_, _, rfl, _⟩ := like_node.mp like
    rfl
  · obtain ⟨_, _, rfl, _⟩ := like_node.mp like
    rfl
  · cases target

theorem strip_mapNotes {change : Notes → Notes} :
    (v.mapNotes change).strip false = v.strip false := by
  cases v <;> rfl

theorem like_attachLeading {cs ds : List Comment} (like : Like false w v) :
    Like false (attachLeading cs w) (attachLeading ds v) := by
  have plain {cs : List Comment} {u : Value} :
      (attachLeading cs u).strip false = u.strip false := by
    unfold attachLeading
    split
    · rfl
    · exact strip_mapNotes
  rw [Like, plain, plain]
  exact like

theorem like_attachTrailing {t u : Token} (like : Like false w v) :
    Like false (attachTrailing t w) (attachTrailing u v) := by
  rw [Like, attachTrailing, attachTrailing, strip_mapNotes, strip_mapNotes]
  exact like

/-- Comments after the last statement of a list leave the list as it was, up to notes. -/
theorem mapLast_like {t : Token} {vs : List Value} :
    AllLike false (mapLast (attachTrailing t) vs) vs := by
  induction vs with
  | nil => rfl
  | cons v vs ih =>
    cases vs with
    | nil => exact .cons strip_mapNotes rfl
    | cons v' vs => exact .cons rfl ih

theorem like_mapLast {t u : Token} {vs ws : List Value} (like : AllLike false ws vs) :
    AllLike false (mapLast (attachTrailing t) ws) (mapLast (attachTrailing u) vs) :=
  Eq.trans mapLast_like (Eq.trans like mapLast_like.symm)

theorem echoed_lists : Part.Family.lists.Keeps (Part.Echoed more) := by
  intro p f v g read rule family
  induction rule using Reads.below.casesOn with cases family
  | @commasLast e f g v item stop _ ih =>
    intro f' _ _ echo _ heard _
    obtain ⟨v', g', again, like, twin⟩ := ih.first echo heard e.part_fresh e.part_consumes
    exact ⟨_, _, .commasLast again (twin.kind.trans_ne stop), like_items (.cons like rfl), twin⟩
  | @commasMore e f g h v vs item comma more _ ih₁ _ ih₂ =>
    intro f' _ _ echo _ heard _
    obtain ⟨v', g', first, like, twin, vs', h', rest, likes, twin'⟩ := ih₁.separated ih₂ more echo
      (kind_ne comma (by decide)) heard e.part_fresh e.part_consumes rfl
    obtain ⟨vs', rfl, items⟩ := like_list.mp likes
    exact ⟨_, _, .commasMore first (twin.kind.trans comma) rest, like_items (.cons like items),
      twin'⟩
  | closedNone close =>
    intro f' _ _ echo line heard _
    exact ⟨_, _, .closedNone (echo.kind.trans close), rfl, echo.still rfl line⟩
  | @closedLast k e f g v start item stop _ ih =>
    intro f' _ _ echo _ heard _
    obtain ⟨v', g', again, like, twin⟩ := ih.first echo heard e.part_fresh e.part_consumes
    exact ⟨_, _, .closedLast (echo.kind.trans_ne start) again (twin.kind.trans_ne stop),
      like_items (.cons like rfl), twin⟩
  | @closedMore k e f g h v vs start item comma more _ ih₁ _ ih₂ =>
    intro f' _ _ echo _ heard _
    obtain ⟨v', g', first, like, twin, vs', h', rest, likes, twin'⟩ := ih₁.separated ih₂ more echo
      (kind_ne comma (by decide)) heard e.part_fresh e.part_consumes rfl
    obtain ⟨vs', rfl, items⟩ := like_list.mp likes
    exact ⟨_, _, .closedMore (echo.kind.trans_ne start) first (twin.kind.trans comma) rest,
      like_items (.cons like items), twin'⟩
  | elementsNone close =>
    intro f' _ _ echo line _ _
    exact ⟨_, _, .elementsNone (echo.kind.trans close), rfl, echo.still rfl line⟩
  | elementsHole comma more _ ih =>
    intro f' _ _ echo _ heard _
    obtain ⟨vs', g', rest, likes, twin⟩ :=
      ih.after (echo.next (kind_ne comma (by decide)) (heard.back more.upto)) heard rfl
    obtain ⟨vs', rfl, items⟩ := like_list.mp likes
    exact ⟨_, _, .elementsHole (echo.kind.trans comma) rest, like_items (.cons rfl items), twin⟩
  | elementsLast close comma item stop _ ih =>
    intro f' _ _ echo _ heard _
    obtain ⟨v', g', again, like, twin⟩ := ih.first echo heard rfl rfl
    exact ⟨_, _, .elementsLast (echo.kind.trans_ne close) (echo.kind.trans_ne comma) again
      (twin.kind.trans stop), like_items (.cons like rfl), twin⟩
  | elementsMore close comma item next more _ ih₁ _ ih₂ =>
    intro f' _ _ echo _ heard _
    obtain ⟨v', g', again, like, twin, vs', h', rest, likes, twin'⟩ :=
      ih₁.separated ih₂ more echo (kind_ne next (by decide)) heard rfl rfl rfl
    obtain ⟨vs', rfl, items⟩ := like_list.mp likes
    exact ⟨_, _, .elementsMore (echo.kind.trans_ne close) (echo.kind.trans_ne comma) again
      (twin.kind.trans next) rest, like_items (.cons like items), twin'⟩
  | statementsNone close =>
    intro f' _ _ echo line _ _
    exact ⟨_, _, .statementsNone (echo.kind.trans close), rfl, echo.still rfl line⟩
  | statementsMore close input first more _ ih₁ _ ih₂ =>
    intro f' _ _ echo _ heard _
    obtain ⟨v', g', again, like, twin⟩ := ih₁.first echo (heard.back more.upto) rfl rfl
    obtain ⟨vs', h', rest, likes, twin'⟩ := ih₂.after twin heard rfl
    obtain ⟨vs', rfl, items⟩ := like_list.mp likes
    exact ⟨_, _, .statementsMore (echo.kind.trans_ne close) (echo.kind.trans_ne input) again rest,
      like_items (.cons (like_attachLeading like) items), twin'⟩

theorem echoed_names : Part.Family.names.Keeps (Part.Echoed more) := by
  intro p f v g read rule family
  induction rule using Reads.below.casesOn with cases family
  | binding name =>
    intro f' _ _ echo _ heard _
    exact ⟨_, _, .binding (echo.kind.trans name), like_nodes (.cons (like_of_eq echo.value) rfl),
      echo.next (kind_ne name (by decide)) heard⟩
  | propertyName name =>
    intro f' _ _ echo _ heard _
    exact ⟨_, _, .propertyName (by rwa [echo.kind]),
      like_nodes (.cons (like_of_eq echo.spelled) rfl),
      echo.next (word_within name) heard⟩
  | nested inner _ ih =>
    intro f' _ _ echo _ heard _
    obtain ⟨v', g', again, like, twin⟩ := ih.first echo.lift heard rfl rfl
    exact ⟨_, _, .nested again, like, twin.resume echo⟩
  | group inner _ ih =>
    intro f' _ _ echo _ heard _
    obtain ⟨v', g', again, like, twin⟩ := ih.first echo.lift heard rfl rfl
    exact ⟨_, _, .group again, like, twin.resume echo⟩
  | arguments opening items close _ ih =>
    intro f' _ _ echo _ heard _
    obtain ⟨v', g', again, like, kind, twin⟩ :=
      ih.between items echo (kind_ne opening (by decide)) (kind_ne close (by decide)) heard rfl
    exact ⟨_, _, .arguments (echo.kind.trans opening) again (kind.trans close), like, twin⟩
  | parameters opening items close _ ih =>
    intro f' _ _ echo _ heard _
    obtain ⟨v', g', again, like, kind, twin⟩ :=
      ih.between items echo (kind_ne opening (by decide)) (kind_ne close (by decide)) heard rfl
    exact ⟨_, _, .parameters (echo.kind.trans opening) again (kind.trans close), like, twin⟩
  | optionalNone close =>
    intro f' _ _ echo line _ _
    exact ⟨_, _, .optionalNone (echo.kind.trans close), rfl, echo.still rfl line⟩
  | optionalSome close inner _ ih =>
    exact ih.through rfl rfl rfl fun echo _ _ again =>
      .optionalSome (echo.kind.trans_ne close) again

theorem echoed_assignments : Part.Family.assignments.Keeps (Part.Echoed more) := by
  intro p f v g read rule family
  induction rule using Reads.below.casesOn with cases family
  | single item stop _ ih =>
    exact ih.through rfl rfl rfl fun _ _ twin again => .single again (twin.kind.trans_ne stop)
  | sequence first comma more _ ih₁ _ ih₂ =>
    intro f' _ _ echo _ heard _
    obtain ⟨v', g', again, like, twin, vs', h', rest, likes, twin'⟩ :=
      ih₁.separated ih₂ more echo (kind_ne comma (by decide)) heard rfl rfl rfl
    obtain ⟨vs', rfl, items⟩ := like_list.mp likes
    exact ⟨_, _, .sequence again (twin.kind.trans comma) rest,
      like_nodes (.cons (like_items (.cons like items)) rfl), twin'⟩
  | arrowFunction starts inner _ ih =>
    refine ih.through rfl rfl rfl fun echo heard _ again => .arrowFunction ?_ again
    exact (echo.startsArrow inner.spans (inner.past rfl) heard).trans starts
  | unassigned starts inner stop _ ih =>
    refine ih.through rfl rfl rfl fun echo heard twin again => .unassigned ?_ again ?_
    · exact (echo.startsArrow inner.spans (inner.past rfl) heard).trans starts
    · rwa [twin.kind]
  | assigned starts inner operator target value _ ih₁ _ ih₂ =>
    intro f' _ _ echo _ heard _
    obtain ⟨v', g', again, like, twin, w', h', rest, like', twin'⟩ := ih₁.separated ih₂ value echo
      (kind_apart operator rfl) heard rfl rfl rfl
    have left := (heard.back value.upto).back Feed.upto_next
    have starts' := (echo.startsArrow inner.spans (inner.past rfl) left).trans starts
    exact ⟨_, _, .assigned starts' again (by rwa [twin.kind])
      ((like_isTarget like).trans target) rest,
      like_nodes (.cons (like_of_eq twin.value) (.cons like (.cons like' rfl))), twin'⟩
  | arrowName name _ ih =>
    intro f' _ _ echo _ heard _
    obtain ⟨v', g', again, like, twin⟩ := ih.first echo heard rfl rfl
    exact ⟨_, _, .arrowName again, like_items (.cons like rfl), twin⟩
  | arrowNames opening names _ ih =>
    exact ih.through rfl rfl rfl fun echo _ _ again =>
      .arrowNames (echo.kind.trans_ne opening) again
  | arrowBlock params arrow brace body _ ih₁ _ ih₂ =>
    intro f' _ _ echo _ heard _
    have next := heard.back body.upto
    obtain ⟨v', g', again, like, twin⟩ := ih₁.first echo (next.back Feed.upto_next) rfl rfl
    have opening := twin.next (kind_ne arrow (by decide)) next
    obtain ⟨w', h', rest, like', twin'⟩ := ih₂.after opening heard rfl
    exact ⟨_, _, .arrowBlock again (twin.kind.trans arrow) (opening.kind.trans brace) rest,
      like_nodes (.cons like (.cons like' rfl)), twin'⟩
  | arrowValue params arrow brace body _ ih₁ _ ih₂ =>
    intro f' _ _ echo _ heard _
    have next := heard.back body.upto
    obtain ⟨v', g', again, like, twin⟩ := ih₁.first echo (next.back Feed.upto_next) rfl rfl
    have opening := twin.next (kind_ne arrow (by decide)) next
    obtain ⟨w', h', rest, like', twin'⟩ := ih₂.after opening heard rfl
    exact ⟨_, _, .arrowValue again (twin.kind.trans arrow) (opening.kind.trans_ne brace) rest,
      like_nodes (.cons like (.cons like' rfl)), twin'⟩
  | untested inner stop _ ih =>
    exact ih.through rfl rfl rfl fun _ _ twin again => .untested again (twin.kind.trans_ne stop)
  | tested condition question consequent colon alternate _ ih₁ _ ih₂ _ ih₃ =>
    intro f' _ _ echo _ heard _
    have last := heard.back alternate.upto
    obtain ⟨t', g', first, like₁, twin₁, l', h', left, like₂, twin₂⟩ := ih₁.separated ih₂ consequent
      echo (kind_ne question (by decide)) (last.back Feed.upto_next) rfl rfl rfl
    obtain ⟨r', i', right, like₃, twin₃⟩ :=
      ih₃.after (twin₂.next (kind_ne colon (by decide)) last) heard rfl
    exact ⟨_, _, .tested first (twin₁.kind.trans question) left (twin₂.kind.trans colon) right,
      like_nodes (.cons like₁ (.cons like₂ (.cons like₃ rfl))), twin₃⟩

theorem echoed_operations : Part.Family.operations.Keeps (Part.Echoed more) := by
  intro p f v g read rule family
  induction rule using Reads.below.casesOn with cases family
  | binary first more _ ih₁ _ ih₂ =>
    intro f' _ _ echo _ heard _
    obtain ⟨v', g', again, like, twin⟩ := ih₁.first echo (heard.back more.upto) rfl rfl
    obtain ⟨w', h', rest, like', twin'⟩ :=
      ih₂ f'.current.start v' twin.toEcho (.inr twin.line) heard like
    exact ⟨_, _, .binary again rest, like', twin'⟩
  | operationsStop stop =>
    intro f' _ _ echo line heard like
    exact ⟨_, _, .operationsStop (by rwa [echo.rank?]), like, echo.still rfl line⟩
  | @operationsMore start₀ least rank f g h v left r ranked tighter operand more _ ih₁ _ ih₂ =>
    intro f' start base echo _ heard like
    have next := heard.back more.upto
    have twin := echo.next (Feed.rank?_ne ranked rfl) (next.back operand.upto)
    obtain ⟨r', g', right, like', twin'⟩ := ih₁.after twin next rfl
    have node : Like false
        (g'.node (operationKind f'.current.kind) [f'.current.value, base, r'] start)
        (g.node (operationKind f.current.kind) [f.current.value, left, r] start₀) := by
      rw [echo.kind]
      exact like_nodes (.cons (like_of_eq echo.value) (.cons like (.cons like' rfl)))
    obtain ⟨v', h', rest, like'', twin''⟩ := ih₂ start _ twin'.toEcho (.inr twin'.line) heard node
    exact ⟨_, _, .operationsMore (echo.rank?.trans ranked) tighter (by rwa [echo.kind]) rest,
      like'', twin''⟩
  | unaryOperator operator operand _ ih =>
    intro f' _ _ echo _ heard _
    have twin := echo.next (kind_apart operator rfl) (heard.back operand.upto)
    obtain ⟨v', g', again, like, twin'⟩ := ih.after twin heard rfl
    exact ⟨_, _, .unaryOperator (by rwa [echo.kind]) again,
      like_nodes (.cons (like_of_eq echo.value) (.cons like rfl)), twin'⟩
  | stepBefore plain operator operand target _ ih =>
    intro f' _ _ echo _ heard _
    have twin := echo.next (kind_apart operator rfl) (heard.back operand.upto)
    obtain ⟨v', g', again, like, twin'⟩ := ih.after twin heard rfl
    exact ⟨_, _, .stepBefore (by rwa [echo.kind]) (by rwa [echo.kind]) again
      ((like_isTarget like).trans target),
      like_nodes (.cons (like_of_eq echo.value) (.cons rfl (.cons like rfl))), twin'⟩
  | unsigned plain still inner _ ih =>
    exact ih.through rfl rfl rfl fun echo _ _ again =>
      .unsigned (by rwa [echo.kind]) (by rwa [echo.kind]) again
  | unstepped inner stop _ ih =>
    exact ih.through rfl rfl rfl fun _ _ twin again =>
      .unstepped again (by rwa [twin.kind, twin.line])
  | stepAfter inner operator line target _ ih =>
    intro f' _ _ echo _ heard _
    obtain ⟨v', g', again, like, twin⟩ := ih.first echo (heard.back Feed.upto_next) rfl rfl
    have twin' := twin.next (kind_apart operator rfl) heard
    exact ⟨_, _, .stepAfter again (by rwa [twin.kind]) (twin.line.trans line)
      ((like_isTarget like).trans target),
      like_nodes (.cons (like_of_eq twin.value) (.cons rfl (.cons like rfl))), twin'⟩

theorem echoed_accesses : Part.Family.accesses.Keeps (Part.Echoed more) := by
  intro p f v g read rule family
  induction rule using Reads.below.casesOn with cases family
  | access first more _ ih₁ _ ih₂ =>
    intro f' _ _ echo _ heard _
    obtain ⟨v', g', again, like, twin⟩ := ih₁.first echo (heard.back more.upto) rfl rfl
    obtain ⟨w', h', rest, like', twin'⟩ :=
      ih₂ f'.current.start v' twin.toEcho (.inr twin.line) heard like
    exact ⟨_, _, .access again rest, like', twin'⟩
  | headNew new inner _ ih =>
    exact ih.through rfl rfl rfl fun echo _ _ again => .headNew (echo.kind.trans new) again
  | headPrimary plain inner _ ih =>
    exact ih.through rfl rfl rfl fun echo _ _ again => .headPrimary (echo.kind.trans_ne plain) again
  | memberNamed dot name _ ih =>
    intro f' start base echo _ heard like
    have twin := echo.next (kind_ne dot (by decide)) (heard.back name.upto)
    obtain ⟨v', g', again, like', twin'⟩ := ih.after twin heard rfl
    exact ⟨_, _, .memberNamed (echo.kind.trans dot) again,
      like_nodes (.cons like (.cons like' (.cons rfl rfl))), twin'⟩
  | memberIndexed bracket index close _ ih =>
    intro f' start base echo _ heard like
    obtain ⟨v', g', again, like', kind, twin⟩ :=
      ih.between index echo (kind_ne bracket (by decide)) (kind_ne close (by decide)) heard rfl
    exact ⟨_, _, .memberIndexed (echo.kind.trans bracket) again (kind.trans close),
      like_nodes (.cons like (.cons like' (.cons rfl rfl))), twin⟩
  | membersMore first more _ ih₁ _ ih₂ =>
    intro f' start base echo _ heard like
    obtain ⟨v', g', again, like', twin⟩ :=
      ih₁ start base echo (.inl rfl) (heard.back more.upto) like
    obtain ⟨w', h', rest, like'', twin'⟩ := ih₂ start v' twin.toEcho (.inr twin.line) heard like'
    exact ⟨_, _, .membersMore again rest, like'', twin'⟩
  | membersStop dot bracket =>
    intro f' start base echo line _ like
    exact ⟨_, _, .membersStop (echo.kind.trans_ne dot) (echo.kind.trans_ne bracket), like,
      echo.still rfl line⟩
  | accessesMember first more _ ih₁ _ ih₂ =>
    intro f' start base echo _ heard like
    obtain ⟨v', g', again, like', twin⟩ :=
      ih₁ start base echo (.inl rfl) (heard.back more.upto) like
    obtain ⟨w', h', rest, like'', twin'⟩ := ih₂ start v' twin.toEcho (.inr twin.line) heard like'
    exact ⟨_, _, .accessesMember again rest, like'', twin'⟩
  | accessesCall args more _ ih₁ _ ih₂ =>
    intro f' start base echo _ heard like
    obtain ⟨v', g', again, like', twin⟩ := ih₁.first echo (heard.back more.upto) rfl rfl
    obtain ⟨w', h', rest, like'', twin'⟩ := ih₂ start (g'.node .callExpression [base, v'] start)
      twin.toEcho (.inr twin.line) heard (like_nodes (.cons like (.cons like' rfl)))
    exact ⟨_, _, .accessesCall again rest, like'', twin'⟩
  | accessesStop dot bracket paren =>
    intro f' start base echo line _ like
    exact ⟨_, _, .accessesStop (echo.kind.trans_ne dot) (echo.kind.trans_ne bracket)
      (echo.kind.trans_ne paren), like, echo.still rfl line⟩
  | constructionCall new first more args _ ih₁ _ ih₂ _ ih₃ =>
    intro f' _ _ echo _ heard _
    have third := heard.back args.upto
    have second := third.back more.upto
    have twin := echo.next (kind_ne new (by decide)) (second.back first.upto)
    obtain ⟨o', g', head, like₁, twin₁⟩ := ih₁.after twin second rfl
    obtain ⟨v', h', rest, like₂, twin₂⟩ :=
      ih₂ f'.current.start o' twin₁.toEcho (.inr twin₁.line) third like₁
    obtain ⟨w', i', items, like₃, twin₃⟩ := ih₃.after twin₂ heard rfl
    exact ⟨_, _, .constructionCall (echo.kind.trans new) head rest items,
      like_nodes (.cons like₂ (.cons like₃ rfl)), twin₃⟩
  | constructionBare new first more stop _ ih₁ _ ih₂ =>
    intro f' _ _ echo _ heard _
    have second := heard.back more.upto
    have twin := echo.next (kind_ne new (by decide)) (second.back first.upto)
    obtain ⟨o', g', head, like₁, twin₁⟩ := ih₁.after twin second rfl
    obtain ⟨v', h', rest, like₂, twin₂⟩ :=
      ih₂ f'.current.start o' twin₁.toEcho (.inr twin₁.line) heard like₁
    exact ⟨_, _, .constructionBare (echo.kind.trans new) head rest (twin₂.kind.trans_ne stop),
      like_nodes (.cons like₂ (.cons rfl rfl)), twin₂⟩

theorem echoed_primaries : Part.Family.primaries.Keeps (Part.Echoed more) := by
  intro p f v g read rule family
  induction rule using Reads.below.casesOn with cases family
  | name ident =>
    intro f' _ _ echo _ heard _
    exact ⟨_, _, .name (echo.kind.trans ident), like_nodes (.cons (like_of_eq echo.value) rfl),
      echo.next (kind_ne ident (by decide)) heard⟩
  | @numberOrString f scalar =>
    intro f' _ _ echo _ heard _
    have within : f.current.kind ≠ .endOfInput := by
      rcases scalar with kind | kind <;> exact kind_ne kind (by decide)
    exact ⟨_, _, .numberOrString (by rwa [echo.kind]),
      Like.node (.cons (like_of_eq echo.value) rfl) nofun, echo.next within heard⟩
  | wordTrue word =>
    intro f' _ _ echo _ heard _
    exact ⟨_, _, .wordTrue (echo.kind.trans word), like_literal, echo.next
      (kind_ne word (by decide)) heard⟩
  | wordFalse word =>
    intro f' _ _ echo _ heard _
    exact ⟨_, _, .wordFalse (echo.kind.trans word), like_literal, echo.next
      (kind_ne word (by decide)) heard⟩
  | wordNull word =>
    intro f' _ _ echo _ heard _
    exact ⟨_, _, .wordNull (echo.kind.trans word), like_literal, echo.next
      (kind_ne word (by decide)) heard⟩
  | wordThis word =>
    intro f' _ _ echo _ heard _
    exact ⟨_, _, .wordThis (echo.kind.trans word), like_nodes rfl, echo.next
      (kind_ne word (by decide)) heard⟩
  | functionExpression inner _ ih =>
    exact ih.through rfl rfl rfl fun _ _ _ again => .functionExpression again
  | parenthesized opening inner close _ ih =>
    intro f' _ _ echo _ heard _
    obtain ⟨v', g', again, like, kind, twin⟩ :=
      ih.between inner echo (kind_ne opening (by decide)) (kind_ne close (by decide)) heard rfl
    exact ⟨_, _, .parenthesized (echo.kind.trans opening) again (kind.trans close), like, twin⟩
  | array opening items close _ ih =>
    intro f' _ _ echo _ heard _
    obtain ⟨v', g', again, like, kind, twin⟩ :=
      ih.between items echo (kind_ne opening (by decide)) (kind_ne close (by decide)) heard rfl
    exact ⟨_, _, .array (echo.kind.trans opening) again (kind.trans close),
      like_nodes (.cons like rfl), twin⟩
  | object opening items close _ ih =>
    intro f' _ _ echo _ heard _
    obtain ⟨v', g', again, like, kind, twin⟩ :=
      ih.between items echo (kind_ne opening (by decide)) (kind_ne close (by decide)) heard rfl
    exact ⟨_, _, .object (echo.kind.trans opening) again (kind.trans close),
      like_nodes (.cons like rfl), twin⟩
  | propertyComputed opening key close colon value _ ih₁ _ ih₂ =>
    intro f' _ _ echo _ heard _
    have second := heard.back value.upto
    obtain ⟨v', g', again, like, kind, twin⟩ := ih₁.between key echo (kind_ne opening (by decide))
      (kind_ne close (by decide)) (second.back Feed.upto_next) rfl
    obtain ⟨w', h', rest, like', twin'⟩ :=
      ih₂.after (twin.next (kind_ne colon (by decide)) second) heard rfl
    exact ⟨_, _, .propertyComputed (echo.kind.trans opening) again (kind.trans close)
      (twin.kind.trans colon) rest,
      like_nodes (.cons like (.cons like' (.cons rfl (.cons rfl rfl)))), twin'⟩
  | @propertyLiteral f h w key colon value _ ih =>
    intro f' _ _ echo _ heard _
    have second := heard.back value.upto
    have within : f.current.kind ≠ .endOfInput := by
      rcases key with kind | kind <;> exact kind_ne kind (by decide)
    have twin := echo.next within (second.back Feed.upto_next)
    obtain ⟨w', h', rest, like, twin'⟩ :=
      ih.after (twin.next (kind_ne colon (by decide)) second) heard rfl
    have name : Like false (f'.literal f'.current.value) (f.literal f.current.value) :=
      Like.node (.cons (like_of_eq echo.value) rfl) nofun
    exact ⟨_, _, .propertyLiteral (by rwa [echo.kind]) (twin.kind.trans colon) rest,
      like_nodes (.cons name (.cons like (.cons rfl (.cons rfl rfl)))), twin'⟩
  | propertyNamed key colon value _ ih₁ _ ih₂ =>
    intro f' _ _ echo _ heard _
    obtain ⟨v', g', again, like, twin, w', h', rest, like', twin'⟩ :=
      ih₁.separated ih₂ value echo (kind_ne colon (by decide)) heard rfl rfl rfl
    cases again with
    | propertyName name =>
      exact ⟨_, _, .propertyNamed (.propertyName name) (twin.kind.trans colon) rest,
        like_nodes (.cons like (.cons like' (.cons rfl (.cons rfl rfl)))), twin'⟩
  | @propertyShort f key stop =>
    intro f' _ _ echo _ heard _
    have twin := echo.next (kind_ne key (by decide)) heard
    have name : Like false (f'.next.node .identifier [f'.spelled] f'.current.start)
        (f.next.node .identifier [f.spelled] f.current.start) :=
      like_nodes (.cons (like_of_eq echo.spelled) rfl)
    have value : Like false (f'.next.node .identifier [f'.current.value] f'.current.start)
        (f.next.node .identifier [f.current.value] f.current.start) :=
      like_nodes (.cons (like_of_eq echo.value) rfl)
    exact ⟨_, _, .propertyShort (echo.kind.trans key) (by rwa [twin.kind]),
      like_nodes (.cons name (.cons value (.cons rfl (.cons rfl rfl)))), twin⟩

theorem echoed_functions : Part.Family.functions.Keeps (Part.Echoed more) := by
  intro p f v g read rule family
  induction rule using Reads.below.casesOn with cases family
  | functionNamed word name params body _ ih₁ _ ih₂ _ ih₃ =>
    intro f' _ _ echo _ heard _
    have third := heard.back body.upto
    have second := third.back params.upto
    obtain ⟨v', g', named, like₁, twin₁⟩ :=
      ih₁.after (echo.next (kind_ne word (by decide)) (second.back name.upto)) second rfl
    obtain ⟨w', h', given, like₂, twin₂⟩ := ih₂.after twin₁ third rfl
    obtain ⟨o', i', block, like₃, twin₃⟩ := ih₃.after twin₂ heard rfl
    exact ⟨_, _, .functionNamed (echo.kind.trans word) named given block,
      like_nodes (.cons like₁ (.cons like₂ (.cons like₃ rfl))), twin₃⟩
  | functionUnnamed word name params body _ ih₁ _ ih₂ =>
    intro f' _ _ echo _ heard _
    have second := heard.back body.upto
    have twin := echo.next (kind_ne word (by decide)) (second.back params.upto)
    obtain ⟨w', h', given, like₂, twin₂⟩ := ih₁.after twin second rfl
    obtain ⟨o', i', block, like₃, twin₃⟩ := ih₂.after twin₂ heard rfl
    exact ⟨_, _, .functionUnnamed (echo.kind.trans word) (twin.kind.trans_ne name) given block,
      like_nodes (.cons rfl (.cons like₂ (.cons like₃ rfl))), twin₃⟩
  | blockEmpty opening close =>
    intro f' _ _ echo _ heard _
    have twin := echo.next (kind_ne opening (by decide)) (heard.back Feed.upto_next)
    exact ⟨_, _, .blockEmpty (echo.kind.trans opening) (twin.kind.trans close),
      like_attachTrailing (like_nodes (.cons rfl rfl)), twin.next (kind_ne close (by decide)) heard⟩
  | block opening body close _ ih =>
    intro f' _ _ echo _ heard _
    have left := heard.back Feed.upto_next
    have twin := echo.next (kind_ne opening (by decide)) (left.back body.upto)
    obtain ⟨vs', g', again, likes, twin'⟩ := ih.after twin.lift left rfl
    obtain ⟨vs', rfl, items⟩ := like_list.mp likes
    obtain ⟨v', vs', rfl, _, _⟩ := allLike_cons.mp items
    exact ⟨_, _, .block (echo.kind.trans opening) again (twin'.kind.trans close),
      like_nodes (.cons (like_items (like_mapLast items)) rfl),
      (twin'.resume echo).next (kind_ne close (by decide)) heard⟩
  | declaratorBare name stop _ ih =>
    intro f' _ _ echo _ heard _
    obtain ⟨v', g', again, like, twin⟩ := ih.first echo heard rfl rfl
    exact ⟨_, _, .declaratorBare again (twin.kind.trans_ne stop),
      like_nodes (.cons like (.cons rfl rfl)), twin⟩
  | declaratorInit name assign init _ ih₁ _ ih₂ =>
    intro f' _ _ echo _ heard _
    obtain ⟨v', g', named, like, twin, w', h', value, like', twin'⟩ :=
      ih₁.separated ih₂ init echo (kind_ne assign (by decide)) heard rfl rfl rfl
    exact ⟨_, _, .declaratorInit named (twin.kind.trans assign) value,
      like_nodes (.cons like (.cons like' rfl)), twin'⟩
  | declaration word items _ ih =>
    intro f' _ _ echo _ heard _
    have twin := echo.next (kind_apart word rfl) (heard.back items.upto)
    obtain ⟨v', g', again, like, twin'⟩ := ih.after twin heard rfl
    refine ⟨_, _, .declaration (by rwa [echo.kind]) again, ?_, twin'⟩
    rw [echo.kind]
    exact like_nodes (.cons rfl (.cons like rfl))

theorem echoed_clauses : Part.Family.clauses.Keeps (Part.Echoed more) := by
  intro p f v g read rule family
  induction rule using Reads.below.casesOn with cases family
  | loopInitDeclaration word inner _ ih =>
    exact ih.through rfl rfl rfl fun echo _ _ again =>
      .loopInitDeclaration (by rwa [echo.kind]) again
  | loopInitExpression word inner _ ih =>
    exact ih.through rfl rfl rfl fun echo _ _ again =>
      .loopInitExpression (by rwa [echo.kind]) again
  | counted first condition second update close body _ ih₁ _ ih₂ _ ih₃ =>
    intro f' start base echo _ heard like
    have fifth := heard.back body.upto
    have fourth := fifth.back Feed.upto_next
    have third := fourth.back update.upto
    have left := third.back Feed.upto_next
    have twin := echo.next (kind_ne first (by decide)) (left.back condition.upto)
    obtain ⟨t', g', test, like₁, twin₁⟩ := ih₁.after twin left rfl
    obtain ⟨v', h', step, like₂, twin₂⟩ :=
      ih₂.after (twin₁.next (kind_ne second (by decide)) third) fourth rfl
    obtain ⟨w', i', inner, like₃, twin₃⟩ :=
      ih₃.after (twin₂.next (kind_ne close (by decide)) fifth) heard rfl
    exact ⟨_, _, .counted (echo.kind.trans first) test (twin₁.kind.trans second) step
      (twin₂.kind.trans close) inner,
      like_nodes (.cons like (.cons like₁ (.cons like₂ (.cons like₃ rfl)))), twin₃⟩
  | handlerNone stop =>
    intro f' _ _ echo line _ _
    exact ⟨_, _, .handlerNone (echo.kind.trans_ne stop), rfl, echo.still rfl line⟩
  | handlerBare word paren body _ ih =>
    intro f' _ _ echo _ heard _
    have twin := echo.next (kind_ne word (by decide)) (heard.back body.upto)
    obtain ⟨w', g', again, like, twin'⟩ := ih.after twin heard rfl
    exact ⟨_, _, .handlerBare (echo.kind.trans word) (twin.kind.trans_ne paren) again,
      like_nodes (.cons rfl (.cons like rfl)), twin'⟩
  | handlerNamed word opening name close body _ ih₁ _ ih₂ =>
    intro f' _ _ echo _ heard _
    obtain ⟨kind, v', g', named, like₁, kind', twin⟩ := ih₁.inParens name echo
      (kind_ne word (by decide)) (kind_ne opening (by decide)) (kind_ne close (by decide))
      (heard.back body.upto) rfl
    obtain ⟨w', h', inner, like₂, twin'⟩ := ih₂.after twin heard rfl
    exact ⟨_, _, .handlerNamed (echo.kind.trans word) (kind.trans opening) named
      (kind'.trans close) inner, like_nodes (.cons like₁ (.cons like₂ rfl)), twin'⟩
  | finalizerNone stop =>
    intro f' _ _ echo line _ _
    exact ⟨_, _, .finalizerNone (echo.kind.trans_ne stop), rfl, echo.still rfl line⟩
  | finalizerSome word body _ ih =>
    intro f' _ _ echo _ heard _
    obtain ⟨w', g', again, like, twin⟩ :=
      ih.after (echo.next (kind_ne word (by decide)) (heard.back body.upto)) heard rfl
    exact ⟨_, _, .finalizerSome (echo.kind.trans word) again, like, twin⟩
  | labelNone stop =>
    intro f' _ _ echo line _ _
    have line := line.resolve_left Bool.false_ne_true
    exact ⟨_, _, .labelNone (by rwa [Feed.sees, echo.kind, line]), rfl, ⟨echo, line⟩⟩
  | labelSome line name _ ih =>
    intro f' _ _ echo same heard _
    have same := same.resolve_left Bool.false_ne_true
    obtain ⟨v', g', again, like, twin⟩ := ih.first echo heard rfl rfl
    exact ⟨_, _, .labelSome (same.trans line) again, like, twin⟩

theorem echoed_statements : Part.Family.statements.Keeps (Part.Echoed more) := by
  intro p f v g read rule family
  induction rule using Reads.below.casesOn with cases family
  | blockStatement inner _ ih =>
    exact ih.through rfl rfl rfl fun _ _ _ again => .blockStatement again
  | emptyStatement semicolon =>
    intro f' _ _ echo _ heard _
    exact ⟨_, _, .emptyStatement (echo.kind.trans semicolon), like_nodes rfl,
      echo.next (kind_ne semicolon (by decide)) heard⟩
  | variableDeclaration inner stop _ ih =>
    intro f' _ _ echo _ heard _
    obtain ⟨v', g', again, like, twin⟩ := ih.first echo (heard.back stop.upto) rfl rfl
    obtain ⟨h', stop', twin'⟩ := twin.ends stop heard
    exact ⟨_, _, .variableDeclaration again stop', like, twin'⟩
  | functionDeclaration inner _ ih =>
    exact ih.through rfl rfl rfl fun _ _ _ again => .functionDeclaration again
  | ifShort word opening condition close consequent stop _ ih₁ _ ih₂ =>
    intro f' _ _ echo _ heard _
    obtain ⟨kind, t', g', test, like₁, kind', twin⟩ := ih₁.inParens condition echo
      (kind_ne word (by decide)) (kind_ne opening (by decide)) (kind_ne close (by decide))
      (heard.back consequent.upto) rfl
    obtain ⟨l', h', left, like₂, twin'⟩ := ih₂.after twin heard rfl
    exact ⟨_, _, .ifShort (echo.kind.trans word) (kind.trans opening) test (kind'.trans close) left
      (twin'.kind.trans_ne stop), like_nodes (.cons like₁ (.cons like₂ (.cons rfl rfl))), twin'⟩
  | ifElse word opening condition close consequent els alternate _ ih₁ _ ih₂ _ ih₃ =>
    intro f' _ _ echo _ heard _
    have third := heard.back alternate.upto
    have second := third.back Feed.upto_next
    obtain ⟨kind, t', g', test, like₁, kind', twin₁⟩ := ih₁.inParens condition echo
      (kind_ne word (by decide)) (kind_ne opening (by decide)) (kind_ne close (by decide))
      (second.back consequent.upto) rfl
    obtain ⟨l', h', left, like₂, twin₂⟩ := ih₂.after twin₁ second rfl
    obtain ⟨r', i', right, like₃, twin₃⟩ :=
      ih₃.after (twin₂.next (kind_ne els (by decide)) third) heard rfl
    exact ⟨_, _, .ifElse (echo.kind.trans word) (kind.trans opening) test (kind'.trans close) left
      (twin₂.kind.trans els) right, like_nodes (.cons like₁ (.cons like₂ (.cons like₃ rfl))), twin₃⟩
  | forBare word opening semicolon rest _ ih =>
    intro f' _ _ echo _ heard _
    have second := heard.back rest.upto
    have twin₁ := echo.next (kind_ne word (by decide)) (second.back Feed.upto_next)
    have twin₂ := twin₁.next (kind_ne opening (by decide)) second
    obtain ⟨v', g', again, like, twin₃⟩ :=
      ih f'.current.start .null twin₂.toEcho (.inl rfl) heard rfl
    exact ⟨_, _, .forBare (echo.kind.trans word) (twin₁.kind.trans opening)
      (twin₂.kind.trans semicolon) again, like, twin₃⟩
  | @forCounted f g h v w word opening semicolon init loop rest _ ih₁ _ ih₂ =>
    intro f' _ _ echo _ heard _
    have third : Heard more g := heard.back rest.upto
    have second : Heard more f.next.next := third.back init.upto
    have twin₁ := echo.next (kind_ne word (by decide)) (second.back Feed.upto_next)
    have twin₂ := twin₁.next (kind_ne opening (by decide)) second
    obtain ⟨w', g', start, like₁, twin₃⟩ := ih₁.after twin₂.bar third rfl
    obtain ⟨v', h', again, like, twin₄⟩ :=
      ih₂ f'.current.start w' twin₃.lift.toEcho (.inl rfl) heard like₁
    exact ⟨_, _, .forCounted (echo.kind.trans word) (twin₁.kind.trans opening)
      (twin₂.kind.trans_ne semicolon) start (twin₃.lift.atLoopWord.trans loop) again, like, twin₄⟩
  | forIn word opening semicolon init loop target collection close body _ ih₁ _ ih₂ _ ih₃ =>
    intro f' _ _ echo _ heard _
    obtain ⟨l', g', kind₁, kind₂, start, like₁, twin, r', h', again, like₂, kind₃, twin'⟩ :=
      ih₁.loopHead ih₂ init collection echo (kind_ne word (by decide)) (kind_ne opening (by decide))
        (kind_ne loop (by decide)) (kind_ne close (by decide)) (heard.back body.upto) rfl rfl
    obtain ⟨w', i', inner, like₃, twin''⟩ := ih₃.after twin' heard rfl
    exact ⟨_, _, .forIn (echo.kind.trans word) (kind₁.trans opening) (kind₂.trans_ne semicolon)
      start (twin.kind.trans loop) (like_isLoopTarget like₁ target) again
      (kind₃.trans close) inner,
      like_nodes (.cons like₁ (.cons like₂ (.cons like₃ rfl))), twin''⟩
  | forOf word opening semicolon init loop of target collection close body _ ih₁ _ ih₂ _ ih₃ =>
    intro f' _ _ echo _ heard _
    obtain ⟨l', g', kind₁, kind₂, start, like₁, twin, r', h', again, like₂, kind₃, twin'⟩ :=
      ih₁.loopHead ih₂ init collection echo (kind_ne word (by decide)) (kind_ne opening (by decide))
        (kind_ne loop (by decide)) (kind_ne close (by decide)) (heard.back body.upto) rfl rfl
    obtain ⟨w', i', inner, like₃, twin''⟩ := ih₃.after twin' heard rfl
    exact ⟨_, _, .forOf (echo.kind.trans word) (kind₁.trans opening) (kind₂.trans_ne semicolon)
      start (twin.kind.trans loop) (twin.value.trans of) (like_isLoopTarget like₁ target) again
      (kind₃.trans close) inner,
      like_nodes (.cons like₁ (.cons like₂ (.cons like₃ rfl))), twin''⟩
  | whileStatement word opening condition close body _ ih₁ _ ih₂ =>
    intro f' _ _ echo _ heard _
    obtain ⟨kind, t', g', test, like₁, kind', twin⟩ := ih₁.inParens condition echo
      (kind_ne word (by decide)) (kind_ne opening (by decide)) (kind_ne close (by decide))
      (heard.back body.upto) rfl
    obtain ⟨w', h', inner, like₂, twin'⟩ := ih₂.after twin heard rfl
    exact ⟨_, _, .whileStatement (echo.kind.trans word) (kind.trans opening) test
      (kind'.trans close) inner, like_nodes (.cons like₁ (.cons like₂ rfl)), twin'⟩
  | @doWhile f g h i w test word body tail opening condition close stop _ ih₁ _ ih₂ =>
    intro f' _ _ echo _ heard _
    have fourth : Heard more h.next := by
      rw [stop] at heard
      split at heard
      · exact heard.back Feed.upto_next
      · exact heard
    have inside : g.Upto h := Feed.upto_next.trans (Feed.upto_next.trans condition.upto)
    have first : Heard more g := (fourth.back Feed.upto_next).back inside
    obtain ⟨w', g', inner, like₁, twin⟩ :=
      ih₁.after (echo.next (kind_ne word (by decide)) (first.back body.upto)) first rfl
    obtain ⟨kind, t', h', test, like₂, kind', twin'⟩ := ih₂.inParens condition twin.toEcho
      (kind_ne tail (by decide)) (kind_ne opening (by decide)) (kind_ne close (by decide))
      fourth rfl
    refine ⟨_, _, .doWhile (echo.kind.trans word) inner (twin.kind.trans tail)
      (kind.trans opening) test (kind'.trans close) rfl,
      like_nodes (.cons like₁ (.cons like₂ rfl)), ?_⟩
    subst stop
    rw [twin'.kind]
    split
    · rename_i semicolon
      rw [if_pos semicolon] at heard
      exact twin'.next (kind_ne semicolon (by decide)) heard
    · exact twin'
  | tryStatement word guarded handler finalizer both _ ih₁ _ ih₂ _ ih₃ =>
    intro f' _ _ echo _ heard _
    have third := heard.back finalizer.upto
    have second := third.back handler.upto
    obtain ⟨o', g', inner, like₁, twin₁⟩ :=
      ih₁.after (echo.next (kind_ne word (by decide)) (second.back guarded.upto)) second rfl
    obtain ⟨v', h', caught, like₂, twin₂⟩ := ih₂.after twin₁ third rfl
    obtain ⟨w', i', last, like₃, twin₃⟩ := ih₃.after twin₂ heard rfl
    exact ⟨_, _, .tryStatement (echo.kind.trans word) inner caught last
      (by rw [like₂.isNull, like₃.isNull, both]),
      like_nodes (.cons like₁ (.cons like₂ (.cons like₃ rfl))), twin₃⟩
  | returnBare word bare stop =>
    intro f' _ _ echo _ heard _
    have twin := echo.next (kind_ne word (by decide)) (heard.back stop.upto)
    obtain ⟨g', stop', twin'⟩ := twin.ends stop heard
    exact ⟨_, _, .returnBare (echo.kind.trans word) (twin.bare.trans bare) stop',
      like_nodes (.cons rfl rfl), twin'⟩
  | returnValue word bare value stop _ ih =>
    intro f' _ _ echo _ heard _
    obtain ⟨twin, v', g', again, like, h', stop', twin'⟩ :=
      ih.ended value stop echo (kind_ne word (by decide)) heard rfl
    exact ⟨_, _, .returnValue (echo.kind.trans word) (twin.bare.trans bare) again stop',
      like_nodes (.cons like rfl), twin'⟩
  | breakStatement word label stop _ ih =>
    intro f' _ _ echo _ heard _
    obtain ⟨-, v', g', again, like, h', stop', twin⟩ :=
      ih.ended label stop echo (kind_ne word (by decide)) heard rfl
    exact ⟨_, _, .breakStatement (echo.kind.trans word) again stop', like_nodes (.cons like rfl),
      twin⟩
  | continueStatement word label stop _ ih =>
    intro f' _ _ echo _ heard _
    obtain ⟨-, v', g', again, like, h', stop', twin⟩ :=
      ih.ended label stop echo (kind_ne word (by decide)) heard rfl
    exact ⟨_, _, .continueStatement (echo.kind.trans word) again stop',
      like_nodes (.cons like rfl), twin⟩
  | throwStatement word line value stop _ ih =>
    intro f' _ _ echo _ heard _
    obtain ⟨twin, v', g', again, like, h', stop', twin'⟩ :=
      ih.ended value stop echo (kind_ne word (by decide)) heard rfl
    exact ⟨_, _, .throwStatement (echo.kind.trans word) (twin.line.trans line) again stop',
      like_nodes (.cons like rfl), twin'⟩
  | expressionStatement word inner stop _ ih =>
    intro f' _ _ echo _ heard _
    obtain ⟨v', g', again, like, twin⟩ := ih.first echo (heard.back stop.upto) rfl rfl
    obtain ⟨h', stop', twin'⟩ := twin.ends stop heard
    exact ⟨_, _, .expressionStatement (by rwa [echo.kind]) again stop',
      like_nodes (.cons like rfl), twin'⟩

theorem Reads.echoed (read : Reads p f v g) : p.Echoed more f v g :=
  read.byFamily fun
    | .lists => echoed_lists
    | .names => echoed_names
    | .assignments => echoed_assignments
    | .operations => echoed_operations
    | .accesses => echoed_accesses
    | .primaries => echoed_primaries
    | .functions => echoed_functions
    | .clauses => echoed_clauses
    | .statements => echoed_statements

theorem Reads.first (read : Reads p f v g) (echo : Echo more f f') (heard : Heard more g)
    (fresh : p.fresh) (consumes : p.consumes) :
    ∃ v' g', Reads p f' v' g' ∧ Like false v' v ∧ Twin more g g' :=
  Part.Echoed.first read.echoed echo heard fresh consumes

theorem Reads.after (read : Reads p f v g) (twin : Twin more f f') (heard : Heard more g)
    (fresh : p.fresh) : ∃ v' g', Reads p f' v' g' ∧ Like false v' v ∧ Twin more g g' :=
  Part.Echoed.after read.echoed twin heard fresh

end ScriptTree.Grammar
