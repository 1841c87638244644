import ScriptTree.Proofs.Grammar.Completeness

/-!
Parsers that go the same way. Two parsers concur at a feed if the second does there what the first
does, and if the first refuses only at a token that is left and for a reason that the grammar has.
Steps that concur one after the other concur as a whole, so a parser that is given two sets of rules
needs them to concur only at the feeds where it hands on to them.
-/
namespace ScriptTree.Grammar

variable {α β : Type} {f g : Feed} {v w : Value} {k : TokenKind} {p : Part}

/-- A refusal at one of some tokens, for a reason other than depth. -/
def Refusal.Among (e : Refusal) (tokens : List Token) : Prop :=
  e.fault ≠ .tooDeep ∧ ∃ t ∈ tokens, e.line = t.start.line ∧ e.column = t.start.column

/-- A refusal among the tokens that are left is one among those that were left before. -/
theorem Refusal.Among.upto {e : Refusal} (among : e.Among g.tokens) (upto : f.Upto g) :
    e.Among f.tokens := by
  obtain ⟨fault, t, left, place⟩ := among
  exact ⟨fault, t, List.IsSuffix.mem left upto, place⟩

/-- The second parser goes the way of the first from a feed on, which ends within the grammar. -/
structure Concurs (p q : Parser α) (f : Feed) : Prop where
  same : q f = p f
  refusal : ∀ {e}, p f = .error e → e.Among f.tokens

namespace Concurs

variable {p p' q q' : Parser α}

/-- Parsers concur where they go on as two that concur further on. -/
theorem upto {p' q' : Parser α} (later : Concurs p' q' g) (upto : f.Upto g) (left : p f = p' g)
    (right : q f = q' g) : Concurs p q f := by
  constructor
  · rw [left, right, later.same]
  · intro e run
    rw [left] at run
    exact (later.refusal run).upto upto

theorem pure {a : α} : Concurs (Pure.pure a) (Pure.pure a) f := ⟨rfl, nofun⟩

theorem build {kind : Kind} {children : List Value} {start : Mark} :
    Concurs (build kind children start) (Grammar.build kind children start) f := ⟨rfl, nofun⟩

theorem refuse {e : GrammarFault} (reason : e ≠ .tooDeep) :
    Concurs (refuse e : Parser α) (Grammar.refuse e) f := by
  refine ⟨rfl, ?_⟩
  rintro _ ⟨⟩
  exact ⟨reason, f.current, List.mem_cons_self .., rfl, rfl⟩

theorem bind {k k' : α → Parser β} (first : Concurs p p' f)
    (later : ∀ {a g}, p f = .ok (a, g) → f.Upto g ∧ Concurs (k a) (k' a) g) :
    Concurs (p >>= k) (p' >>= k') f := by
  cases run : p f with
  | error e =>
    have left : (p >>= k) f = .error e := by
      change (Except.bind (p f) fun y => k y.1 y.2) = _
      rw [run]
      rfl
    have right : (p' >>= k') f = .error e := by
      change (Except.bind (p' f) fun y => k' y.1 y.2) = _
      rw [first.same, run]
      rfl
    constructor
    · rw [left, right]
    · intro e' run'
      rw [left] at run'
      cases run'
      exact first.refusal run
  | ok x =>
    obtain ⟨a, g⟩ := x
    obtain ⟨upto, rest⟩ := later run
    exact rest.upto upto (bind_run run) (bind_run (first.same.trans run))

/-- What reads a part concurs with what goes on from there. -/
theorem read {p p' : Parser Value} {part : Part} {k k' : Value → Parser β}
    (first : Concurs p p' f) (sound : ∀ {v g}, p f = .ok (v, g) → Reads part f v g)
    (later : ∀ {v g}, Reads part f v g → Concurs (k v) (k' v) g) :
    Concurs (p >>= k) (p' >>= k') f :=
  first.bind fun run => ⟨(sound run).upto, later (sound run)⟩

theorem ite {c : Prop} [Decidable c] (yes : c → Concurs p p' f) (no : ¬c → Concurs q q' f) :
    Concurs (if c then p else q) (if c then p' else q') f := by
  by_cases h : c
  · simpa only [if_pos h] using yes h
  · simpa only [if_neg h] using no h

theorem get {k k' : Feed → Parser α} (later : Concurs (k f) (k' f) f) :
    Concurs (MonadState.get >>= k) (MonadState.get >>= k') f :=
  later.upto .refl rfl rfl

theorem here {k k' : Mark → Parser α} (later : Concurs (k f.current.start) (k' f.current.start) f) :
    Concurs (Grammar.here >>= k) (Grammar.here >>= k') f :=
  later.upto .refl rfl rfl

theorem advance {k k' : Token → Parser α} (later : Concurs (k f.current) (k' f.current) f.next) :
    Concurs (Grammar.advance >>= k) (Grammar.advance >>= k') f :=
  later.upto Feed.upto_next rfl rfl

theorem built {kind : Kind} {children : List Value} {start : Mark} {k k' : Value → Parser α}
    (later : Concurs (k (f.node kind children start)) (k' (f.node kind children start)) f) :
    Concurs (Grammar.build kind children start >>= k)
      (Grammar.build kind children start >>= k') f :=
  later.upto .refl rfl rfl

variable {kind : TokenKind}

theorem check (yes : f.current.kind = kind → Concurs p p' f)
    (no : f.current.kind ≠ kind → Concurs q q' f) :
    Concurs (Grammar.check kind >>= fun seen => if seen then p else q)
      (Grammar.check kind >>= fun seen => if seen then p' else q') f := by
  by_cases seen : f.current.kind = kind
  · exact (yes seen).upto .refl (by rw [check_ite, if_pos seen]) (by rw [check_ite, if_pos seen])
  · exact (no seen).upto .refl (by rw [check_ite, if_neg seen]) (by rw [check_ite, if_neg seen])

theorem checked {k k' : Bool → Parser α} (later : Concurs (k (f.sees kind)) (k' (f.sees kind)) f) :
    Concurs (Grammar.check kind >>= k) (Grammar.check kind >>= k') f :=
  later.upto .refl rfl rfl

theorem accept (yes : f.current.kind = kind → Concurs p p' f.next)
    (no : f.current.kind ≠ kind → Concurs q q' f) :
    Concurs (Grammar.accept kind >>= fun taken => if taken then p else q)
      (Grammar.accept kind >>= fun taken => if taken then p' else q') f := by
  by_cases seen : f.current.kind = kind
  · exact (yes seen).upto Feed.upto_next (by rw [accept_ite, if_pos seen])
      (by rw [accept_ite, if_pos seen])
  · exact (no seen).upto .refl (by rw [accept_ite, if_neg seen])
      (by rw [accept_ite, if_neg seen])

theorem taken {k k' : Bool → Parser α} (yes : Concurs (k true) (k' true) f.next)
    (no : Concurs (k false) (k' false) f) :
    Concurs (Grammar.accept kind >>= k) (Grammar.accept kind >>= k') f := by
  by_cases seen : f.sees kind = true
  · exact yes.upto Feed.upto_next (by rw [accept_bind, if_pos seen])
      (by rw [accept_bind, if_pos seen])
  · exact no.upto .refl (by rw [accept_bind, if_neg seen]) (by rw [accept_bind, if_neg seen])

theorem expect {k k' : Token → Parser α}
    (later : f.current.kind = kind → Concurs (k f.current) (k' f.current) f.next) :
    Concurs (Grammar.expect kind >>= k) (Grammar.expect kind >>= k') f := by
  by_cases seen : f.current.kind = kind
  · exact (later seen).upto Feed.upto_next (expect_bind seen) (expect_bind seen)
  · have stops : Concurs (Grammar.expect kind) (Grammar.expect kind) f := by
      rw [Grammar.expect]
      apply check
      · intro same
        exact absurd same seen
      · intro _
        exact get (refuse (by simp))
    exact stops.bind fun run => absurd (expect_ok.mp run).1 seen

theorem endStatement {k k' : Unit → Parser α}
    (later : ∀ {g}, f.Ends g → Concurs (k ()) (k' ()) g) :
    Concurs (Grammar.endStatement >>= k) (Grammar.endStatement >>= k') f := by
  have stops : Concurs Grammar.endStatement Grammar.endStatement f := by
    rw [Grammar.endStatement]
    apply accept
    · intro _
      exact pure
    · intro _
      apply get
      exact ite (fun _ => pure) (fun _ => refuse (by simp))
  refine stops.bind fun {_ g} run => ?_
  rw [← bind_pure Grammar.endStatement] at run
  obtain ⟨h, ends, same⟩ := endStatement_bind_ok.mp run
  cases pure_ok.mp same
  exact ⟨ends.upto, later ends⟩

/-- A parser that is run at another feed, whose result is put back, concurs as it does there. -/
theorem around {p₀ p₀' : Parser α} (back : Feed → Feed) (inner : Concurs p p' g)
    (upto : f.Upto g) (left : p₀ f = (p g).map fun x => (x.1, back x.2))
    (right : p₀' f = (p' g).map fun x => (x.1, back x.2)) : Concurs p₀ p₀' f := by
  constructor
  · rw [left, right, inner.same]
  · intro e run
    rw [left] at run
    cases run' : p g with
    | error e' =>
      rw [run'] at run
      cases run
      exact (inner.refusal run').upto upto
    | ok x =>
      rw [run'] at run
      cases run

theorem allowingIn (inner : Concurs p p' f.lift) :
    Concurs (Grammar.allowingIn p) (Grammar.allowingIn p') f := by
  have put : ∀ q : Parser α,
      Grammar.allowingIn q f = (q f.lift).map fun x => (x.1, x.2.resume f) := by
    intro q
    change (Except.bind (q f.lift) fun x => .ok (x.1, x.2.resume f)) = _
    cases q f.lift <;> rfl
  exact inner.around (·.resume f) Feed.upto_lift (put p) (put p')

theorem withoutIn (inner : Concurs p p' f.bar) :
    Concurs (Grammar.withoutIn p) (Grammar.withoutIn p') f := by
  have put : ∀ q : Parser α,
      Grammar.withoutIn q f = (q f.bar).map fun x => (x.1, x.2.lift) := by
    intro q
    change (Except.bind (q f.bar) fun x => .ok (x.1, x.2.lift)) = _
    cases q f.bar <;> rfl
  exact inner.around Feed.lift Feed.upto_bar (put p) (put p')

theorem operatorRank {k k' : Option Nat → Parser α} (later : Concurs (k f.rank?) (k' f.rank?) f) :
    Concurs (Grammar.operatorRank >>= k) (Grammar.operatorRank >>= k') f :=
  later.upto .refl operatorRank_bind operatorRank_bind

end Concurs

end ScriptTree.Grammar
