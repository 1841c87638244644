import ScriptTree.Grammar.Parse

/-!
What it means that a parser succeeds, step by step. Each lemma turns the success of a sequence of
steps into a condition on the feed and the success of the remaining steps.
-/
namespace ScriptTree.Grammar

namespace Feed

/-- The node that is built at a feed: it reaches from a start to the last token taken. -/
def node (f : Feed) (kind : Kind) (children : List Value) (start : Mark) : Value :=
  .node kind children { span := some ⟨start, some f.prev.stop⟩ }

def lift (f : Feed) : Feed := { f with noIn := false }

def bar (f : Feed) : Feed := { f with noIn := true }

/-- The feed with the word `in` treated as at an earlier feed. -/
def resume (f earlier : Feed) : Feed := { f with noIn := earlier.noIn }

def rank? (f : Feed) : Option Nat :=
  if f.current.kind = .kwIn ∧ f.noIn then none else f.current.kind.rank?

/-- Where reading stands after the end of a statement. -/
def Ends (f g : Feed) : Prop :=
  f.current.kind = .semicolon ∧ g = f.next ∨
    f.current.kind ≠ .semicolon ∧ f.endsStatement ∧ g = f

variable {f g : Feed}

@[simp] theorem lift_prev : f.lift.prev = f.prev := rfl

@[simp] theorem lift_current : f.lift.current = f.current := rfl

@[simp] theorem lift_rest : f.lift.rest = f.rest := rfl

@[simp] theorem lift_noIn : f.lift.noIn = false := rfl

@[simp] theorem bar_prev : f.bar.prev = f.prev := rfl

@[simp] theorem bar_current : f.bar.current = f.current := rfl

@[simp] theorem bar_rest : f.bar.rest = f.rest := rfl

@[simp] theorem bar_noIn : f.bar.noIn = true := rfl

@[simp] theorem resume_prev : (f.resume g).prev = f.prev := rfl

@[simp] theorem resume_current : (f.resume g).current = f.current := rfl

@[simp] theorem resume_rest : (f.resume g).rest = f.rest := rfl

@[simp] theorem resume_noIn : (f.resume g).noIn = g.noIn := rfl

@[simp] theorem next_prev : f.next.prev = f.current := by
  unfold next
  split <;> rfl

@[simp] theorem next_noIn : f.next.noIn = f.noIn := by
  unfold next
  split <;> rfl

@[simp] theorem resume_next : f.resume g.next = f.resume g := by
  simp [resume]

end Feed

variable {α β : Type} {f g : Feed} {x : β × Feed} {k : TokenKind}

theorem bind_ok {p : Parser α} {q : α → Parser β} :
    (p >>= q) f = .ok x ↔ ∃ a g, p f = .ok (a, g) ∧ q a g = .ok x := by
  change (Except.bind (p f) fun y => q y.1 y.2) = _ ↔ _
  cases p f with
  | error e => simp [Except.bind]
  | ok y =>
    obtain ⟨a, g⟩ := y
    constructor
    · intro h
      exact ⟨a, g, rfl, h⟩
    · rintro ⟨_, _, h, hq⟩
      cases h
      exact hq

theorem bind_run {p : Parser α} {q : α → Parser β} {a : α} (run : p f = .ok (a, g)) :
    (p >>= q) f = q a g := by
  change (Except.bind (p f) fun y => q y.1 y.2) = _
  rw [run]
  rfl

theorem pure_ok {a : β} : (pure a : Parser β) f = .ok x ↔ (a, f) = x :=
  ⟨fun h => Except.ok.inj h, fun h => congrArg Except.ok h⟩

theorem build_ok {kind : Kind} {children : List Value} {start : Mark} {y : Value × Feed} :
    build kind children start f = .ok y ↔ (f.node kind children start, f) = y :=
  ⟨fun h => Except.ok.inj h, fun h => congrArg Except.ok h⟩

theorem refuse_ok {e : GrammarFault} : (refuse e : Parser β) f = .ok x ↔ False := by
  simp [refuse]

theorem refuse_bind_ok {e : GrammarFault} {q : α → Parser β} :
    (refuse e >>= q) f = .ok x ↔ False := by
  simp [bind_ok, refuse_ok]

theorem get_bind {q : Feed → Parser β} : (get >>= q) f = q f f := rfl

theorem here_bind {q : Mark → Parser β} : (here >>= q) f = q f.current.start f := rfl

theorem check_bind {q : Bool → Parser β} : (check k >>= q) f = q (f.sees k) f := rfl

theorem advance_bind {q : Token → Parser β} : (advance >>= q) f = q f.current f.next := rfl

theorem build_bind {kind : Kind} {children : List Value} {start : Mark} {q : Value → Parser β} :
    (build kind children start >>= q) f = q (f.node kind children start) f := rfl

theorem accept_bind {q : Bool → Parser β} :
    (accept k >>= q) f = if f.sees k then q true f.next else q false f := by
  have taken : accept k f = if f.sees k then .ok (true, f.next) else .ok (false, f) := by
    rw [accept, check_bind]
    split <;> rfl
  change (accept k f >>= fun r => q r.1 r.2) = _
  rw [taken]
  split <;> rfl

theorem ite_run {c : Prop} [Decidable c] {p q : Parser β} :
    (if c then p else q) f = if c then p f else q f := by
  split <;> rfl

theorem check_ite {p q : Parser β} :
    (check k >>= fun seen => if seen then p else q) f =
      if f.current.kind = k then p f else q f := by
  rw [check_bind, ite_run]
  simp [Feed.sees]

theorem accept_ite {p q : Parser β} :
    (accept k >>= fun taken => if taken then p else q) f =
      if f.current.kind = k then p f.next else q f := by
  rw [accept_bind]
  simp [Feed.sees]

theorem expect_ok {t : Token} :
    expect k f = .ok (t, g) ↔ f.current.kind = k ∧ f.current = t ∧ f.next = g := by
  by_cases h : f.current.kind = k <;> simp [expect, check_ite, h, get_bind, refuse_ok, advance]

theorem expect_bind_ok {q : Token → Parser β} :
    (expect k >>= q) f = .ok x ↔ f.current.kind = k ∧ q f.current f.next = .ok x := by
  simp only [bind_ok, expect_ok]
  constructor
  · rintro ⟨_, _, ⟨hk, rfl, rfl⟩, hq⟩
    exact ⟨hk, hq⟩
  · rintro ⟨hk, hq⟩
    exact ⟨_, _, ⟨hk, rfl, rfl⟩, hq⟩

theorem expect_bind {q : Token → Parser β} (seen : f.current.kind = k) :
    (expect k >>= q) f = q f.current f.next :=
  bind_run (expect_ok.mpr ⟨seen, rfl, rfl⟩)

theorem endStatement_bind_ok {q : Unit → Parser β} :
    (endStatement >>= q) f = .ok x ↔ ∃ g, f.Ends g ∧ q () g = .ok x := by
  simp only [endStatement, bind_assoc, accept_bind, Feed.Ends, Feed.sees]
  by_cases hs : f.current.kind = .semicolon <;> by_cases he : f.endsStatement = true <;>
    simp [hs, he, get_bind, refuse_bind_ok]

theorem allowingIn_ok {p : Parser β} {b : β} :
    allowingIn p f = .ok (b, g) ↔ ∃ h, p f.lift = .ok (b, h) ∧ h.resume f = g := by
  change (p >>= fun b => modify ({ · with noIn := f.noIn }) >>= fun _ => pure b) f.lift = _ ↔ _
  simp only [bind_ok]
  constructor
  · rintro ⟨c, h, hp, _, _, hm, hr⟩
    cases hm
    cases hr
    exact ⟨h, hp, rfl⟩
  · rintro ⟨h, hp, rfl⟩
    exact ⟨b, h, hp, (), _, rfl, rfl⟩

theorem allowingIn_run {p : Parser β} {b : β} (run : p f.lift = .ok (b, g)) :
    allowingIn p f = .ok (b, g.resume f) :=
  allowingIn_ok.mpr ⟨g, run, rfl⟩

theorem withoutIn_ok {p : Parser β} {b : β} :
    withoutIn p f = .ok (b, g) ↔ ∃ h, p f.bar = .ok (b, h) ∧ h.lift = g := by
  change (p >>= fun b => modify ({ · with noIn := false }) >>= fun _ => pure b) f.bar = _ ↔ _
  simp only [bind_ok]
  constructor
  · rintro ⟨c, h, hp, _, _, hm, hr⟩
    cases hm
    cases hr
    exact ⟨h, hp, rfl⟩
  · rintro ⟨h, hp, rfl⟩
    exact ⟨b, h, hp, (), _, rfl, rfl⟩

theorem operatorRank_bind {q : Option Nat → Parser β} :
    (operatorRank >>= q) f = q f.rank? f := by
  simp only [operatorRank, bind_assoc, get_bind, pure_bind, Feed.rank?, Feed.sees]
  by_cases h : f.current.kind = .kwIn <;> cases f.noIn <;> simp [h]

end ScriptTree.Grammar
