import ScriptTree.Proofs.Print.Ranked
import ScriptTree.Proofs.Print.Scanned

/-!
What it means, form by form, that a part of a tree is read again from what is written for it, and
how a feed moves over lexemes.
-/
namespace ScriptTree

open Grammar Print Value

/-- The comments that a node is read with before those around it are attached: those inside, if it
is hollow. -/
def innerComments (c : Context) (v : Value) : List Comment :=
  if v.isHollow then trailingComments c v else []

def Value.bearing (comments : List Comment) (v : Value) : Value :=
  v.mapNotes ({ · with comments := comments })

/-- Whether a token can follow a statement without going on with it. -/
def Follows (v : Value) (k : TokenKind) : Prop :=
  k ≠ .kwFinally ∧ (v.endsOpen → k ≠ .kwElse)

inductive Separated (P : Value → List Lexeme → Prop) : List Value → List Lexeme → Prop
  | none : Separated P [] []
  | last {v : Value} {ls : List Lexeme} (item : P v ls) : Separated P [v] ls
  | more {v w : Value} {vs : List Value} {ls ms : List Lexeme} (item : P v ls)
      (more : Separated P (w :: vs) ms) :
      Separated P (v :: w :: vs) (ls ++ .mark .comma :: .blank :: ms)

/-- What is written is read again by a part, whatever follows. -/
def Taken (width : Int) (keep : Bool) (p : Part) (v : Value) (ls : List Lexeme) : Prop :=
  ∀ {σ : Stage} {f : Feed} {b : Bool} {rest : List Token},
    f.At b (σ.tokens width ls ++ rest) → Rereads keep p f b v rest

def TakenBefore (width : Int) (keep : Bool) (ok : Bool → TokenKind → Prop) (p : Part) (v : Value)
    (ls : List Lexeme) : Prop :=
  ∀ {σ : Stage} {f : Feed} {b : Bool} {t : Token} {ts : List Token},
    f.At b (σ.tokens width ls ++ t :: ts) → ok b t.kind → Rereads keep p f b v (t :: ts)

/-- Statements are read again up to a closing token. Where comments are kept, those before that
token make the last of them complete. -/
def LinesTaken (width : Int) (c : Context) (vs : List Value) (ls : List Lexeme) : Prop :=
  ∀ {σ : Stage} {f : Feed} {t : Token} {ts : List Token} {close : TokenKind},
    f.At false (σ.tokens width ls ++ t :: ts) → t.kind = close →
      close = .rightBrace ∨ close = .endOfInput → (c.comments → σ.pending.comments = []) →
        (c.comments → t.comments = (σ.after width ls).pending.comments) →
          ∃ ws g, Reads (.statements close) f (.list ws) g ∧ g.At false (t :: ts) ∧
            AllLike c.comments (mapLast (attachTrailing t) ws) vs

def Form.Rereads (width : Int) : Form → Value → List Lexeme → Prop
  | bare c rank, v, ls => (c.comments → v.comments = []) → Ranked width c v ls rank
  | expression c least, v, ls | operand c _ _ least, v, ls =>
    ∃ rank, least ≤ rank ∧ Ranked width c v ls rank
  | object c, v, ls => ∃ rank, callRank ≤ rank ∧ Ranked width c v ls rank
  | callee c, v, ls => ∀ {σ : Stage} {f : Feed} {b : Bool} {rest : List Token},
      f.At b (σ.tokens width ls ++ rest) → Accessed c.comments True f b v rest
  | arguments c, v, ls => Taken width c.comments .arguments v ls
  | elements c, v, ls =>
    TakenBefore width c.comments (fun _ k => k = .rightBracket) .elements v ls
  | property c, v, ls =>
    TakenBefore width c.comments (fun _ k => k = .comma ∨ k = .rightBrace) .property v ls
  | word c, v, ls => Taken width c.comments .propertyName v ls
  | binding c, v, ls => Taken width c.comments .binding v ls
  | function c declared, v, ls => Taken width c.comments (.function declared) (v.bearing []) ls
  | block c, v, ls => Taken width c.comments .block (v.bearing (innerComments c v)) ls
  | declarator c, v, ls =>
    TakenBefore width c.comments (fun b k => (b → c.noIn) ∧ Halts false assignmentRank k)
      .declarator v ls
  | declaration c, v, ls =>
    TakenBefore width c.comments (fun b k => (b → c.noIn) ∧ Halts false sequenceRank k)
      .declaration (v.bearing []) ls
  | loopInit c, v, ls => v = .null ∧ ls = [] ∨
      TakenBefore width c.comments (fun b k => b ∧ k = .semicolon) .loopInit v ls
  | loopPart c, v, ls => ∀ k, k = .semicolon ∨ k = .rightParen →
      TakenBefore width c.comments (fun b j => b = false ∧ j = k) (.optional k) v ls
  | loopTarget c, v, ls => isLoopTarget v ∧
      TakenBefore width c.comments (fun b k => b ∧ Halts true sequenceRank k) .loopInit v ls
  | handler c, v, ls => Taken width c.comments .handler v ls
  | own c, v, ls | choice c, v, ls =>
    TakenBefore width c.comments (fun b k => b = false ∧ Follows v k) .statement
      (v.bearing (innerComments c v)) ls
  | body c, v, ls =>
    TakenBefore width c.comments (fun b k => b = false ∧ Follows v k) .statement v ls
  | statement c, v, ls =>
    TakenBefore width c.comments (fun b k => b = false ∧ Follows v k) .statement
      (v.bearing []) ls
  | lines c, v, ls => ∃ vs, v = .list vs ∧ LinesTaken width c vs ls
  | program c, v, ls =>
    ∃ u, run Grammar.program (Stage.first.tokens width ls ++ [(Stage.first.after width ls).last]) =
      .ok u ∧ Like c.comments u (v.bearing (innerComments c v))
  | commas item, v, ls => ∃ vs, v = .list vs ∧ Separated (item.Rereads width) vs ls
  | key _, _, _ => True

namespace Grammar.Feed.At

variable {f : Feed} {b : Bool} {k : TokenKind} {width : Int} {σ : Stage} {ls ms : List Lexeme}
  {ts rest : List Token}

/-- A mark is taken. -/
theorem token (stands : f.At b (σ.token width (.mark k) :: ts)) (within : k ≠ .endOfInput) :
    f.current.kind = k ∧ f.next.At b ts :=
  ⟨stands.kind, stands.next within⟩

theorem mark (stands : f.At b (σ.tokens width (.mark k :: ls) ++ rest))
    (within : k ≠ .endOfInput) :
    f.current.kind = k ∧ f.next.At b ((σ.step width (.mark k)).tokens width ls ++ rest) :=
  token stands within

theorem append (stands : f.At b (σ.tokens width (ls ++ ms) ++ rest)) :
    f.At b (σ.tokens width ls ++ ((σ.after width ls).tokens width ms ++ rest)) := by
  rwa [Stage.tokens_append, List.append_assoc] at stands

/-- Lexemes stand before a mark. -/
theorem before (stands : f.At b (σ.tokens width (ls ++ .mark k :: ms) ++ rest)) :
    ∃ τ υ : Stage, f.At b (σ.tokens width ls ++
      τ.token width (.mark k) :: (υ.tokens width ms ++ rest)) := by
  rw [Stage.tokens_append, Stage.tokens_mark, List.append_assoc, List.cons_append] at stands
  exact ⟨_, _, stands⟩

/-- Lexemes stand before a mark between blanks. -/
theorem between
    (stands : f.At b (σ.tokens width (ls ++ .blank :: .mark k :: .blank :: ms) ++ rest)) :
    ∃ τ υ : Stage, f.At b (σ.tokens width ls ++
      τ.token width (.mark k) :: (υ.tokens width ms ++ rest)) := by
  rw [Stage.tokens_append, Stage.tokens_blank, Stage.tokens_mark, Stage.tokens_blank,
    List.append_assoc, List.cons_append] at stands
  exact ⟨_, _, stands⟩

/-- Lexemes stand between parentheses, after which nothing is pending. -/
theorem enclosed (stands : f.At b (σ.tokens width (enclosed ls ++ ms) ++ rest)) :
    f.current.kind = .leftParen ∧ ∃ τ υ ρ : Stage, ρ.pending = {} ∧
      f.next.At b (τ.tokens width ls ++
        υ.token width (.mark .rightParen) :: (ρ.tokens width ms ++ rest)) := by
  rw [ScriptTree.enclosed, List.cons_append, List.append_assoc, List.singleton_append] at stands
  obtain ⟨opening, stands⟩ := stands.mark (by decide)
  rw [Stage.tokens_append, Stage.tokens_mark, List.append_assoc, List.cons_append] at stands
  exact ⟨opening, _, _, _, rfl, stands⟩

theorem parens (stands : f.At b (σ.tokens width (ScriptTree.enclosed ls) ++ rest)) :
    f.current.kind = .leftParen ∧ ∃ τ υ : Stage, f.next.At b (τ.tokens width ls ++
      υ.token width (.mark .rightParen) :: rest) := by
  rw [← List.append_nil (ScriptTree.enclosed ls)] at stands
  obtain ⟨opening, τ, υ, ρ, _, stands⟩ := stands.enclosed
  exact ⟨opening, τ, υ, stands⟩

end Grammar.Feed.At

namespace Value

variable {keep : Bool} {v w : Value} {vs ws : List Value} {n : Notes} {k : Kind} {g : Feed}
  {start : Mark} {comments : List Comment}

theorem AllLike.nil : AllLike keep [] [] := rfl

/-- A node that is built has no comments. -/
theorem like_built (children : AllLike keep ws vs) (silent : keep → n.comments = []) :
    Like keep (g.node k ws start) (.node k vs n) :=
  .node children fun kept => (silent kept).symm

/-- Comments that are the node's own make no difference. -/
theorem Like.unbearing (like : Like keep w (v.bearing comments))
    (same : keep → comments = v.comments) : Like keep w v := by
  cases v with
  | node k vs n =>
    obtain ⟨ws, m, rfl, children, notes⟩ := like_node.mp like
    exact .node children fun kept => (notes kept).trans (same kept)
  | _ => exact like

/-- A node that stands alone is read with all of its comments. -/
theorem Like.of_alone {c : Context} (like : Like c.comments w (v.bearing (innerComments c v)))
    (alone : c.comments → v.Alone) : Like c.comments w v := by
  refine like.unbearing fun kept => ?_
  have alone := alone kept
  unfold Value.Alone at alone
  unfold innerComments trailingComments
  rw [if_pos kept]
  split at alone
  · rw [if_pos ‹_›]
    refine List.filter_eq_self.mpr fun x mem => ?_
    rw [(alone x mem).2]
    rfl
  · rw [if_neg ‹_›, alone]

theorem Like.isTarget (like : Like keep w v) : isTarget w = isTarget v := by
  unfold Grammar.isTarget
  rw [like.kind?]

theorem Like.isLoopTarget (like : Like keep w v) (target : isLoopTarget v) : isLoopTarget w := by
  unfold Grammar.isLoopTarget at target
  split at target
  next =>
    obtain ⟨_, items, _, rfl, _, listed, _⟩ := like.two
    obtain ⟨ws, rfl, likes⟩ := like_list.mp listed
    obtain ⟨_, us, rfl, one, others⟩ := allLike_cons.mp likes
    cases allLike_nil.mp others
    obtain ⟨_, init, _, rfl, _, none, _⟩ := one.two
    cases like_null.mp none
    rfl
  next =>
    obtain ⟨_, _, rfl, _⟩ := like_node.mp like
    rfl
  next =>
    obtain ⟨_, _, rfl, _⟩ := like_node.mp like
    rfl
  next => cases target

/-- Comments may be exchanged where none are kept. -/
theorem Like.rebearing {others : List Comment} (like : Like keep w (v.bearing comments))
    (same : keep → comments = others) : Like keep w (v.bearing others) := by
  cases v with
  | node k vs n =>
    obtain ⟨ws, m, rfl, children, notes⟩ := like_node.mp like
    exact .node children fun kept => (notes kept).trans (same kept)
  | _ => exact like

/-- A statement gets the comments before it. -/
theorem Like.leading (like : Like keep w (v.bearing [])) :
    Like keep (attachLeading comments w) (v.bearing comments) := by
  unfold attachLeading
  cases v with
  | node k vs n =>
    obtain ⟨ws, m, rfl, children, notes⟩ := like_node.mp like
    cases comments with
    | nil => exact .node children notes
    | cons x xs => exact .node children fun _ => rfl
  | list vs =>
    obtain ⟨ws, rfl, children⟩ := like_list.mp like
    cases comments <;> exact like
  | _ =>
    cases w <;> cases comments <;> first | exact like | cases like

/-- A statement gets the comments before the token after it. -/
theorem Like.trailing {t : Token} (like : Like keep w (v.bearing comments)) :
    Like keep (attachTrailing t w)
      (v.bearing (comments ++ t.comments.map ({ · with leading := false }))) := by
  unfold attachTrailing
  cases v with
  | node k vs n =>
    obtain ⟨ws, m, rfl, children, notes⟩ := like_node.mp like
    exact .node children fun kept => congrArg (· ++ _) (notes kept)
  | list vs =>
    obtain ⟨ws, rfl, children⟩ := like_list.mp like
    exact like
  | _ =>
    cases w <;> first | exact like | cases like

end Value

variable {width : Int} {keep b aloud : Bool} {e : Item} {p : Part} {k : TokenKind} {f : Feed}
  {σ : Stage} {vs : List Value} {v : Value} {ls : List Lexeme} {t : Token} {ts rest : List Token}
  {c : Context} {rank : Nat} {xs : List Comment}
  {P : Value → List Lexeme → Prop}

/-- Comments on the line are no tokens. -/
theorem Stage.tokens_beside : σ.tokens width (remarksBeside aloud xs ++ ls) =
    (σ.after width (remarksBeside aloud xs)).tokens width ls := by
  cases aloud with
  | false => rfl
  | true =>
    induction xs generalizing σ with
    | nil => rfl
    | cons x xs ih => exact ih

/-- No line ends with comments on it. -/
theorem Stage.line_beside (beside : ∀ x ∈ xs, x.Beside) :
    (σ.after width (remarksBeside aloud xs)).pending.newline = σ.pending.newline := by
  cases aloud with
  | false => rfl
  | true =>
    induction xs generalizing σ with
    | nil => rfl
    | cons x xs ih =>
      obtain ⟨first, later⟩ := List.forall_mem_cons.mp beside
      refine (ih later).trans ?_
      simp only [step, held, first.2, Bool.and_false, Bool.or_false]

theorem Taken.beside (taken : Taken width keep p v ls) :
    Taken width keep p v (remarksBeside aloud xs ++ ls) := by
  intro σ f b rest stands
  rw [Stage.tokens_beside] at stands
  exact taken stands

theorem Ranked.beside (ranked : Ranked width c v ls rank) :
    Ranked width c v (remarksBeside aloud xs ++ ls) rank := by
  cases ranked with
  | ofAccess tight read => exact .ofAccess tight fun stands => read (Stage.tokens_beside ▸ stands)
  | ofUnary tight loose read =>
    exact .ofUnary tight loose fun stands => read (Stage.tokens_beside ▸ stands)
  | ofOperation tight loose read =>
    exact .ofOperation tight loose fun stands => read (Stage.tokens_beside ▸ stands)
  | ofConditional read => exact .ofConditional fun stands => read (Stage.tokens_beside ▸ stands)
  | ofAssignment read => exact .ofAssignment fun stands => read (Stage.tokens_beside ▸ stands)
  | ofSequence read => exact .ofSequence fun stands => read (Stage.tokens_beside ▸ stands)

/-- The first token of an expression is on the line where the expression begins. -/
theorem Begins.line (begins : Begins keep ls) (stands : f.At b (σ.tokens width ls ++ rest)) :
    f.current.newlineBefore = σ.pending.newline := by
  obtain ⟨xs, l, ms, rfl, beside, first, _⟩ := begins
  have solid : l.isSolid := by cases l <;> first | rfl | cases first
  rw [Stage.tokens_beside, Stage.tokens_solid solid] at stands
  rw [stands.current]
  exact Stage.line_beside beside

/-- Items are read again up to a closing token. -/
theorem Separated.closed (separated : Separated P vs ls)
    (item : ∀ {v ls}, P v ls →
      TakenBefore width keep (fun _ j => j = .comma ∨ j = k) e.part v ls)
    (start : ∀ {f v g}, Reads e.part f v g → f.current.kind ≠ k) (other : k ≠ .comma)
    (stands : f.At b (σ.tokens width ls ++ t :: ts)) (close : t.kind = k) :
    Rereads keep (.closed k e) f b (.list vs) (t :: ts) := by
  induction separated generalizing f σ with
  | none => exact ⟨_, f, .closedNone (stands.kind.trans close), .refl, stands⟩
  | last one =>
    obtain ⟨w, g, read, like, after⟩ := item one stands (.inr close)
    refine ⟨_, g, .closedLast (start read) read ?_, like_list.mpr ⟨_, rfl, .cons like .nil⟩, after⟩
    rw [after.kind, close]
    exact other
  | more one _ ih =>
    obtain ⟨τ, υ, stands⟩ := stands.before
    obtain ⟨w, g, read, like, after⟩ := item one stands (.inl rfl)
    obtain ⟨comma, after⟩ := after.token (by decide)
    obtain ⟨ws, h, more, likes, after⟩ := ih after
    obtain ⟨us, rfl, others⟩ := like_list.mp likes
    exact ⟨_, h, .closedMore (start read) read comma more,
      like_list.mpr ⟨_, rfl, .cons like others⟩, after⟩

/-- Items are read again before a token that is no comma. -/
theorem Separated.commas (separated : Separated P (v :: vs) ls)
    (item : ∀ {v ls}, P v ls →
      TakenBefore width keep (fun a j => a = b ∧ Halts false assignmentRank j) e.part v ls)
    (stands : f.At b (σ.tokens width ls ++ t :: ts)) (halts : Halts false sequenceRank t.kind) :
    Rereads keep (.commas e) f b (.list (v :: vs)) (t :: ts) := by
  generalize all : v :: vs = us at separated
  induction separated generalizing f σ v vs with
  | none => cases all
  | last one =>
    obtain ⟨w, g, read, like, after⟩ := item one stands ⟨rfl, halts.mono (by decide)⟩
    refine ⟨_, g, .commasLast read ?_, like_list.mpr ⟨_, rfl, .cons like .nil⟩, after⟩
    rw [after.kind]
    exact halts.comma (Nat.le_refl _)
  | more one _ ih =>
    obtain ⟨τ, υ, stands⟩ := stands.before
    obtain ⟨w, g, read, like, after⟩ := item one stands ⟨rfl, .of_comma (by decide)⟩
    obtain ⟨comma, after⟩ := after.token (by decide)
    obtain ⟨ws, h, more, likes, after⟩ := ih after rfl
    obtain ⟨us, rfl, others⟩ := like_list.mp likes
    exact ⟨_, h, .commasMore read comma more, like_list.mpr ⟨_, rfl, .cons like others⟩, after⟩

end ScriptTree
