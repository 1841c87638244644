import ScriptTree.Proofs.Grammar.Brackets
import ScriptTree.Proofs.Print.Writing
import ScriptTree.Proofs.Tree.Likeness

/-!
Reading expressions again by rank. What has been written for an expression of a rank is read by
every part of the grammar that is at most as tight, if a token follows that cannot extend it.

Operators and accesses are read from left to right with what has been read so far at hand. An
operand on the left is therefore not read as a whole: its first operand is read, and what goes on
from the whole goes on from there.
-/
namespace ScriptTree

open Grammar Print Value

structure Grammar.Feed.At (f : Feed) (noIn : Bool) (ts : List Token) : Prop where
  tokens : f.tokens = ts
  closed : f.Closed
  noIn : f.noIn = noIn

namespace Grammar.Feed.At

variable {f g : Feed} {a b : Bool} {t : Token} {ts : List Token}

theorem current (stands : f.At b (t :: ts)) : f.current = t := (List.cons.inj stands.tokens).1

theorem kind (stands : f.At b (t :: ts)) : f.current.kind = t.kind := by rw [stands.current]

theorem value (stands : f.At b (t :: ts)) : f.current.value = t.value := by rw [stands.current]

theorem next (stands : f.At b (t :: ts)) (within : t.kind ≠ .endOfInput) : f.next.At b ts := by
  have kind : f.current.kind ≠ .endOfInput := by rwa [stands.current]
  obtain ⟨closed, tokens⟩ := stands.closed.next kind
  refine ⟨?_, closed, ?_⟩
  · rw [stands.tokens] at tokens
    exact (List.cons.inj tokens).2.symm
  · rw [next_noIn, stands.noIn]

theorem lift (stands : f.At b ts) : f.lift.At false ts := ⟨stands.tokens, stands.closed, rfl⟩

theorem bar (stands : f.At b ts) : f.bar.At true ts := ⟨stands.tokens, stands.closed, rfl⟩

theorem resume (stands : g.At a ts) (noIn : f.noIn = b) : (g.resume f).At b ts :=
  ⟨stands.tokens, stands.closed, noIn⟩

end Grammar.Feed.At

/-- A part reads a value again, up to notes, and leaves some tokens. -/
def Rereads (keep : Bool) (p : Part) (f : Feed) (noIn : Bool) (v : Value) (rest : List Token) :
    Prop :=
  ∃ w g, Reads p f w g ∧ Like keep w v ∧ g.At noIn rest

namespace TokenKind

/-- Whether a token of a class goes on with every expression before it. -/
def isTail (k : TokenKind) : Bool :=
  [dot, leftBracket, leftParen, arrow, increment, decrement].contains k

/-- Whether no expression goes on with a token of a class. -/
def isInert (k : TokenKind) : Bool :=
  !k.isTail && k.rank?.isNone && k != question && !k.isAssignment && k != comma

end TokenKind

/-- What is read from a rank on ends before a token of a class. -/
structure Halts (noIn : Bool) (least : Nat) (k : TokenKind) : Prop where
  tail : k.isTail = false
  ranked : ∀ rank, ¬(k = .kwIn ∧ noIn) → k.rank? = some rank → conditionalRank + rank < least
  question : least ≤ conditionalRank → k ≠ .question
  assignment : least ≤ assignmentRank → k.isAssignment = false
  comma : least ≤ sequenceRank → k ≠ .comma

variable {keep b : Bool} {least rank : Nat} {k : TokenKind} {f g : Feed} {v : Value} {t : Token}
  {ts rest : List Token}

namespace Halts

theorem of_inert (inert : k.isInert) : Halts b least k := by
  simp only [TokenKind.isInert, Bool.and_eq_true, Bool.not_eq_true', bne_iff_ne,
    Option.isNone_iff_eq_none] at inert
  obtain ⟨⟨⟨⟨tail, unranked⟩, question⟩, plain⟩, comma⟩ := inert
  refine ⟨tail, fun rank _ ranked => ?_, fun _ => question, fun _ => plain, fun _ => comma⟩
  rw [unranked] at ranked
  cases ranked

theorem of_loop : Halts true least .kwIn :=
  ⟨rfl, fun _ operator => absurd ⟨rfl, rfl⟩ operator, nofun, fun _ => rfl, nofun⟩

theorem of_comma (high : sequenceRank < least) : Halts b least .comma :=
  ⟨rfl, nofun, nofun, fun _ => rfl, fun low => by omega⟩

theorem of_question (high : conditionalRank < least) : Halts b least .question :=
  ⟨rfl, nofun, fun low => by omega, fun _ => rfl, nofun⟩

theorem of_assignment (operator : k.isAssignment) (high : assignmentRank < least) :
    Halts b least k := by
  have other : k.isTail = false ∧ k.rank? = none ∧ k ≠ .question ∧ k ≠ .comma :=
    TokenKind.holds_of_contains operator (by decide)
  obtain ⟨tail, unranked, question, comma⟩ := other
  refine ⟨tail, fun rank _ ranked => ?_, fun _ => question, fun low => by omega, fun _ => comma⟩
  rw [unranked] at ranked
  cases ranked

theorem of_operator (operator : k.rank? = some rank) (high : conditionalRank + rank < least) :
    Halts b least k := by
  have other : k.isTail = false ∧ k ≠ .question ∧ k.isAssignment = false ∧ k ≠ .comma :=
    TokenKind.holds_of_rank operator (by decide)
  obtain ⟨tail, question, assignment, comma⟩ := other
  refine ⟨tail, fun rank _ ranked => ?_, fun _ => question, fun _ => assignment, fun _ => comma⟩
  rw [operator] at ranked
  cases ranked
  exact high

/-- What ends reading from a rank on ends it from a tighter one on too. -/
theorem mono {most : Nat} (halts : Halts b least k) (order : least ≤ most) : Halts b most k where
  tail := halts.tail
  ranked := fun rank operator ranked =>
    Nat.lt_of_lt_of_le (halts.ranked rank operator ranked) order
  question := fun low => halts.question (Nat.le_trans order low)
  assignment := fun low => halts.assignment (Nat.le_trans order low)
  comma := fun low => halts.comma (Nat.le_trans order low)

/-- Where `in` is no operator, what ends reading elsewhere ends it too. -/
theorem within (halts : Halts false least k) : Halts b least k :=
  { halts with ranked := fun rank _ ranked => halts.ranked rank (by simp) ranked }

end Halts

/-- The first operand of a chain of accesses is read, and what goes on from the whole goes on from
there. No call is passed over after the callee of a construction. -/
def Accessed (keep : Bool) (plain : Prop) (f : Feed) (noIn : Bool) (v : Value)
    (rest : List Token) : Prop :=
  ∃ first f', Reads .head f first f' ∧ ∀ start, ∃ w g, Like keep w v ∧ g.At noIn rest ∧
    (∀ x h, Reads (.accesses start w) g x h → Reads (.accesses start first) f' x h) ∧
    (plain → ∀ x h, Reads (.members start w) g x h → Reads (.members start first) f' x h)

/-- The first operand of an operation is read, and what goes on from the whole goes on from
there. -/
def Operated (keep : Bool) (rank : Nat) (f : Feed) (noIn : Bool) (v : Value) (rest : List Token) :
    Prop :=
  ∃ first f' w g, Reads .unary f first f' ∧ Like keep w v ∧ g.At noIn rest ∧
    ∀ least x h, conditionalRank + least < rank →
      Reads (.operations f.current.start least w) g x h →
        Reads (.operations f.current.start least first) f' x h

/-- What no operator takes apart is read at once. -/
theorem Accessed.of_head {plain : Prop} (read : Rereads keep .head f b v rest) :
    Accessed keep plain f b v rest := by
  obtain ⟨w, g, head, like, stands⟩ := read
  exact ⟨w, g, head, fun _ => ⟨w, g, like, stands, fun _ _ more => more, fun _ _ _ more => more⟩⟩

theorem Accessed.access {plain : Prop} (accessed : Accessed keep plain f b v (t :: ts))
    (tail : t.kind ≠ .dot ∧ t.kind ≠ .leftBracket ∧ t.kind ≠ .leftParen) :
    Rereads keep .access f b v (t :: ts) := by
  obtain ⟨first, f', head, go⟩ := accessed
  obtain ⟨w, g, like, stands, more, _⟩ := go f.current.start
  have stop : Reads (.accesses f.current.start w) g w g := by
    rw [← stands.current] at tail
    exact .accessesStop tail.1 tail.2.1 tail.2.2
  exact ⟨w, g, .access head (more w g stop), like, stands⟩

/-- No operand begins with an operator. -/
theorem startsOperand_plain (starts : startsOperand k) :
    k.isUnary = false ∧ k.isUpdate = false :=
  TokenKind.holds_of_contains starts (by decide)

/-- Before a token that goes on with no operand, an access is a unary expression. -/
theorem Accessed.unary {plain : Prop} (accessed : Accessed keep plain f b v (t :: ts))
    (tail : t.kind.isTail = false) : Rereads keep .unary f b v (t :: ts) := by
  have ends : (t.kind ≠ .dot ∧ t.kind ≠ .leftBracket ∧ t.kind ≠ .leftParen) ∧
      t.kind.isUpdate = false := by
    generalize t.kind = k at tail
    cases k <;> first | decide | cases tail
  obtain ⟨w, g, access, like, stands⟩ := accessed.access ends.1
  have plain := startsOperand_plain access.starts
  have stop : (g.current.kind.isUpdate && !g.current.newlineBefore) = false := by
    rw [stands.current, ends.2, Bool.false_and]
  exact ⟨w, g, .unsigned plain.1 plain.2 (.unstepped access stop), like, stands⟩

theorem Rereads.operated (read : Rereads keep .unary f b v rest) :
    Operated keep rank f b v rest := by
  obtain ⟨w, g, unary, like, stands⟩ := read
  exact ⟨w, g, w, g, unary, like, stands, fun _ _ _ _ more => more⟩

theorem Operated.binary (operated : Operated keep rank f b v (t :: ts))
    (tight : conditionalRank + least < rank)
    (halts : Halts b (conditionalRank + least + 1) t.kind) :
    Rereads keep (.binary least) f b v (t :: ts) := by
  obtain ⟨first, f', w, g, unary, like, stands, go⟩ := operated
  have stop : Reads (.operations f.current.start least w) g w g := by
    refine .operationsStop fun rank ranked => ?_
    rw [Feed.rank?, stands.current, stands.noIn] at ranked
    split at ranked
    · cases ranked
    · have := halts.ranked rank ‹_› ranked
      omega
  exact ⟨w, g, .binary unary (go least w g tight stop), like, stands⟩

theorem Rereads.conditional (read : Rereads keep (.binary 0) f b v (t :: ts))
    (halts : Halts b conditionalRank t.kind) : Rereads keep .conditional f b v (t :: ts) := by
  obtain ⟨w, g, binary, like, stands⟩ := read
  refine ⟨w, g, .untested binary ?_, like, stands⟩
  rw [stands.current]
  exact halts.question (Nat.le_refl _)

theorem Rereads.assignment (read : Rereads keep .conditional f b v (t :: ts)) (closed : f.Closed)
    (halts : Halts b assignmentRank t.kind) : Rereads keep .assignment f b v (t :: ts) := by
  obtain ⟨w, g, inner, like, stands⟩ := read
  have starts : f.startsArrow = false := by
    rw [Bool.eq_false_iff]
    intro starts
    have arrow := inner.conditional_arrow closed starts
    rw [stands.current] at arrow
    have tail := halts.tail
    rw [arrow] at tail
    cases tail
  refine ⟨w, g, .unassigned starts inner ?_, like, stands⟩
  rw [stands.current]
  exact halts.assignment (Nat.le_refl _)

theorem Rereads.sequence (read : Rereads keep .assignment f b v (t :: ts))
    (halts : Halts b sequenceRank t.kind) : Rereads keep .sequence f b v (t :: ts) := by
  obtain ⟨w, g, inner, like, stands⟩ := read
  refine ⟨w, g, .single inner ?_, like, stands⟩
  rw [stands.current]
  exact halts.comma (Nat.le_refl _)

/-- What is written for an expression of a rank is read again. -/
inductive Ranked (width : Int) (c : Context) (v : Value) (ls : List Lexeme) : Nat → Prop
  | ofAccess {rank : Nat} (tight : callRank ≤ rank)
      (read : ∀ {σ : Stage} {f : Feed} {b : Bool} {rest : List Token},
        f.At b (σ.tokens width ls ++ rest) →
          Accessed c.comments (startsWithCall v = false) f b v rest) : Ranked width c v ls rank
  | ofUnary {rank : Nat} (tight : unaryRank ≤ rank) (loose : rank < callRank)
      (read : ∀ {σ : Stage} {f : Feed} {b : Bool} {t : Token} {ts : List Token},
        f.At b (σ.tokens width ls ++ t :: ts) → (b → c.noIn) → Halts false unaryRank t.kind →
          Rereads c.comments .unary f b v (t :: ts)) : Ranked width c v ls rank
  | ofOperation {rank : Nat} (tight : conditionalRank < rank) (loose : rank < unaryRank)
      (read : ∀ {σ : Stage} {f : Feed} {b : Bool} {t : Token} {ts : List Token},
        f.At b (σ.tokens width ls ++ t :: ts) → (b → c.noIn) → Halts false (rank + 1) t.kind →
          t.kind ≠ .power → Operated c.comments rank f b v (t :: ts)) : Ranked width c v ls rank
  | ofConditional
      (read : ∀ {σ : Stage} {f : Feed} {b : Bool} {t : Token} {ts : List Token},
        f.At b (σ.tokens width ls ++ t :: ts) → (b → c.noIn) → Halts false assignmentRank t.kind →
          Rereads c.comments .conditional f b v (t :: ts)) : Ranked width c v ls conditionalRank
  | ofAssignment
      (read : ∀ {σ : Stage} {f : Feed} {b : Bool} {t : Token} {ts : List Token},
        f.At b (σ.tokens width ls ++ t :: ts) → (b → c.noIn) → Halts false assignmentRank t.kind →
          Rereads c.comments .assignment f b v (t :: ts)) : Ranked width c v ls assignmentRank
  | ofSequence
      (read : ∀ {σ : Stage} {f : Feed} {b : Bool} {t : Token} {ts : List Token},
        f.At b (σ.tokens width ls ++ t :: ts) → (b → c.noIn) → Halts false sequenceRank t.kind →
          Rereads c.comments .sequence f b v (t :: ts)) : Ranked width c v ls sequenceRank

namespace Ranked

variable {width : Int} {c : Context} {ls : List Lexeme} {σ : Stage}

/-- Ranks from the loosest to the tightest. -/
theorem ranks : sequenceRank = 1 ∧ assignmentRank = 2 ∧ conditionalRank = 3 ∧ unaryRank = 16 ∧
    callRank = 18 := by decide

theorem accessed (ranked : Ranked width c v ls rank) (tight : callRank ≤ rank)
    (stands : f.At b (σ.tokens width ls ++ rest)) :
    Accessed c.comments (startsWithCall v = false) f b v rest := by
  have := ranks
  cases ranked with
  | ofAccess _ read => exact read stands
  | ofUnary _ loose => omega
  | ofOperation _ loose => omega
  | _ => omega

theorem unary (ranked : Ranked width c v ls rank) (tight : unaryRank ≤ rank)
    (stands : f.At b (σ.tokens width ls ++ t :: ts)) (bar : b → c.noIn)
    (halts : Halts false unaryRank t.kind) : Rereads c.comments .unary f b v (t :: ts) := by
  have := ranks
  cases ranked with
  | ofAccess _ read => exact (read stands).unary halts.tail
  | ofUnary _ _ read => exact read stands bar halts
  | ofOperation _ loose => omega
  | _ => omega

/-- The left operand of an operator that binds at most as tightly; only what binds tighter than a
power stands before one. -/
theorem operated (ranked : Ranked width c v ls rank) (tight : conditionalRank < rank)
    (stands : f.At b (σ.tokens width ls ++ t :: ts)) (bar : b → c.noIn)
    (halts : Halts false (rank + 1) t.kind) (power : t.kind = .power → unaryRank ≤ rank) :
    Operated c.comments rank f b v (t :: ts) := by
  have := ranks
  by_cases unary : unaryRank ≤ rank
  · refine (ranked.unary unary stands bar ⟨halts.tail, fun r _ some => ?_, fun _ => by omega,
      fun _ => by omega, fun _ => by omega⟩).operated
    have : r ≤ 12 := by
      revert some
      generalize t.kind = k
      cases k <;> simp [TokenKind.rank?] <;> omega
    omega
  · cases ranked with
    | ofAccess => omega
    | ofUnary => omega
    | ofOperation _ _ read => exact read stands bar halts fun kind => unary (power kind)
    | _ => omega

/-- Only a power binds as tightly as a power. -/
theorem binary (ranked : Ranked width c v ls rank) (tight : conditionalRank + least < rank)
    (stands : f.At b (σ.tokens width ls ++ t :: ts)) (bar : b → c.noIn)
    (halts : Halts false (conditionalRank + least + 1) t.kind) :
    Rereads c.comments (.binary least) f b v (t :: ts) := by
  have := ranks
  refine (ranked.operated (by omega) stands bar (halts.mono (by omega)) fun power => ?_).binary
    tight halts.within
  have := halts.ranked 12 (by simp) (by rw [power]; rfl)
  omega

theorem assignment (ranked : Ranked width c v ls rank) (tight : assignmentRank ≤ rank)
    (stands : f.At b (σ.tokens width ls ++ t :: ts)) (bar : b → c.noIn)
    (halts : Halts false assignmentRank t.kind) :
    Rereads c.comments .assignment f b v (t :: ts) := by
  have := ranks
  have of_binary (high : conditionalRank < rank) :
      Rereads c.comments .assignment f b v (t :: ts) :=
    ((ranked.binary high stands bar (halts.mono (by omega))).conditional
      (halts.within.mono (by omega))).assignment stands.closed halts.within
  cases ranked with
  | ofAccess high => exact of_binary (by omega)
  | ofUnary high => exact of_binary (by omega)
  | ofOperation high => exact of_binary high
  | ofConditional read => exact (read stands bar halts).assignment stands.closed halts.within
  | ofAssignment read => exact read stands bar halts
  | ofSequence => omega

theorem sequence (ranked : Ranked width c v ls rank)
    (stands : f.At b (σ.tokens width ls ++ t :: ts)) (bar : b → c.noIn)
    (halts : Halts false sequenceRank t.kind) : Rereads c.comments .sequence f b v (t :: ts) := by
  have := ranks
  have of_assignment (high : assignmentRank ≤ rank) :
      Rereads c.comments .sequence f b v (t :: ts) :=
    (ranked.assignment high stands bar (halts.mono (by omega))).sequence halts.within
  cases ranked with
  | ofAccess high => exact of_assignment (by omega)
  | ofUnary high => exact of_assignment (by omega)
  | ofOperation high => exact of_assignment (by omega)
  | ofConditional => exact of_assignment (by omega)
  | ofAssignment => exact of_assignment (Nat.le_refl _)
  | ofSequence read => exact read stands bar halts

/-- An item of a list in brackets. -/
theorem nested (ranked : Ranked width c v ls rank) (tight : assignmentRank ≤ rank)
    (stands : f.At b (σ.tokens width ls ++ t :: ts)) (halts : Halts false assignmentRank t.kind) :
    Rereads c.comments .nested f b v (t :: ts) := by
  obtain ⟨w, g, inner, like, after⟩ := ranked.assignment tight stands.lift nofun halts
  exact ⟨w, _, .nested inner, like, after.resume stands.noIn⟩

/-- A whole expression in brackets. -/
theorem group (ranked : Ranked width c v ls rank)
    (stands : f.At b (σ.tokens width ls ++ t :: ts)) (halts : Halts false sequenceRank t.kind) :
    Rereads c.comments .group f b v (t :: ts) := by
  obtain ⟨w, g, inner, like, after⟩ := ranked.sequence stands.lift nofun halts
  exact ⟨w, _, .group inner, like, after.resume stands.noIn⟩

/-- What can be assigned to, before the operator. -/
theorem target (ranked : Ranked width c v ls rank) (tight : callRank ≤ rank)
    (stands : f.At b (σ.tokens width ls ++ t :: ts)) (halts : Halts b conditionalRank t.kind) :
    Rereads c.comments .conditional f b v (t :: ts) := by
  have := ranks
  have operated : Operated c.comments callRank f b v (t :: ts) :=
    ((ranked.accessed tight stands).unary halts.tail).operated
  exact (operated.binary (by omega) (halts.mono (by omega))).conditional halts

end Ranked

end ScriptTree
