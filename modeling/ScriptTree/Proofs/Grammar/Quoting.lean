import ScriptTree.Proofs.Grammar.Halting
import ScriptTree.Proofs.Grammar.Precedence
import ScriptTree.Proofs.Grammar.Widening
import ScriptTree.Proofs.Token.Slicing

/-!
Expressions cut out of their source. The tokens from the first one of an expression to the last one
are those of a slice of the source, and the slice is read as the expression again. This holds of
what a chain of accesses or operators has come to at any place in it, too; but what a construction
has come to in its callee is read with the word before it, as a construction without arguments.
-/
namespace ScriptTree

namespace Grammar

open Value

variable {f g h : Feed} {p : Part} {v w : Value}

namespace Feed

/-- The last token taken is the one before those that are left, if any has been taken between two
feeds. -/
def Took (f g : Feed) : Prop :=
  g.tokens = f.tokens ∧ g.prev = f.prev ∨ ∃ ts, f.tokens = ts ++ g.prev :: g.tokens

theorem Took.refl : f.Took f := .inl ⟨rfl, rfl⟩

theorem Took.trans (first : f.Took g) (second : g.Took h) : f.Took h := by
  rcases first with ⟨tokens, prev⟩ | ⟨ts, tokens⟩
  · rwa [Took, tokens, prev] at second
  · rcases second with ⟨others, last⟩ | ⟨us, others⟩
    · exact .inr ⟨ts, by rw [tokens, others, last]⟩
    · exact .inr ⟨ts ++ g.prev :: us, by rw [tokens, others, List.append_assoc, List.cons_append]⟩

/-- Between two feeds tokens are taken, as long as there are any before the end of input. -/
def Moves (f g : Feed) : Prop := f.Closed → g.Closed ∧ f.Took g

theorem Moves.refl : f.Moves f := fun closed => ⟨closed, .refl⟩

theorem Moves.trans (first : f.Moves g) (second : g.Moves h) : f.Moves h := by
  intro closed
  obtain ⟨closed, took⟩ := first closed
  obtain ⟨closed, took'⟩ := second closed
  exact ⟨closed, took.trans took'⟩

theorem moves_next (within : f.current.kind ≠ .endOfInput) : f.Moves f.next := by
  intro closed
  obtain ⟨after, tokens⟩ := closed.next within
  refine ⟨after, .inr ⟨[], ?_⟩⟩
  rw [next_prev, tokens]
  rfl

theorem course_moves : Course Moves where
  refl := .refl
  trans := .trans
  next := moves_next
  same _ closed := ⟨closed, .inl ⟨rfl, rfl⟩⟩
  next_lift closed := by
    refine ⟨by rwa [Feed.Closed, tokens_next_lift], .inl ⟨tokens_next_lift, ?_⟩⟩
    rw [next_prev, next_prev, lift_current]

end Feed

theorem Reads.moves (read : Reads p f v g) : f.Moves g := read.carries Feed.course_moves

variable {e f' : Feed} {q : Feed → Value → Feed → Prop} {loop : Mark → Value → Part}
  {start : Mark} {object : Value} {least : Nat}

def Rereads (q : Feed → Value → Feed → Prop) (e h : Feed) (v : Value) : Prop :=
  ∀ ⦃u : Token⦄ ⦃e' : Feed⦄, u.kind = .endOfInput → Echo (some ⟨h.tokens, [u]⟩) e e' →
    ∃ w g, q e' w g ∧ Like false w v ∧ g.tokens = [u]

/-- A chain from one feed on has come to a value at another one: in an echo it comes to the value
again and goes on from it. -/
def Grows (q : Feed → Value → Feed → Prop) (loop : Mark → Value → Part) (e f : Feed) (v : Value) :
    Prop :=
  ∀ ⦃ts : List Token⦄ ⦃u : Token⦄ ⦃e' : Feed⦄, u.kind = .endOfInput → ts <:+ f.tokens →
    Echo (some ⟨ts, [u]⟩) e e' → ∃ v' f', Like false v' v ∧ Abreast ⟨ts, [u]⟩ f f' ∧
      ∀ w h, Reads (loop e'.current.start v') f' w h → q e' w h

/-- What the callee of a construction is so far, after the word before it. -/
def Calls (e : Feed) (v : Value) (g : Feed) : Prop :=
  e.current.kind = .kwNew ∧ ∃ o f, Reads .head e.next o f ∧
    Reads (.members e.current.start o) f v g

theorem Abreast.ends {ts us : List Token} (abreast : Abreast ⟨ts, us⟩ f f') (last : f.tokens = ts) :
    f'.tokens = us := by
  rcases abreast.place with ⟨heard, _⟩ | ⟨_, resumed⟩
  · have le := heard _ rfl
    rw [← last, Feed.tokens, List.length_cons] at le
    omega
  · exact resumed.tokens

theorem Part.isWhole_open (whole : p.isWhole) : p.isOpen ∧ p.fresh ∧ p.consumes := by
  cases p <;> first | exact ⟨rfl, rfl, rfl⟩ | cases whole

theorem Reads.rereads (read : Reads p e v h) (whole : p.isWhole) : Rereads (Reads p) e h v := by
  intro u e' ending echo
  obtain ⟨isOpen, fresh, consumes⟩ := p.isWhole_open whole
  obtain ⟨w, g, again, like, abreast⟩ :=
    (read.halts isOpen).first echo (.last ending) List.suffix_rfl fresh consumes
  exact ⟨w, g, again, like, abreast.ends rfl⟩

namespace Grows

/-- A chain may stop at the end of input. -/
theorem rereads (grows : Grows q loop e f v)
    (stop : ∀ {f : Feed} {start : Mark} {v : Value}, f.current.kind = .endOfInput →
      Reads (loop start v) f v f) : Rereads q e f v := by
  intro u e' ending echo
  obtain ⟨w, g, like, abreast, goes⟩ := grows ending List.suffix_rfl echo
  have last := abreast.ends rfl
  have halted : g.current.kind = .endOfInput := (List.cons.inj last).1 ▸ ending
  exact ⟨w, g, goes w g (stop halted), like, last⟩

theorem access_head (first : Reads .head e v f) : Grows (Reads .access) .accesses e f v := by
  intro ts u e' ending ahead echo
  obtain ⟨w, g, again, like, abreast⟩ := (first.halts rfl).first echo (.last ending) ahead rfl rfl
  exact ⟨w, g, like, abreast, fun _ _ more => .access again more⟩

theorem binary_unary (first : Reads .unary e v f) :
    Grows (Reads (.binary least)) (fun start v => .operations start least v) e f v := by
  intro ts u e' ending ahead echo
  obtain ⟨w, g, again, like, abreast⟩ := (first.halts rfl).first echo (.last ending) ahead rfl rfl
  exact ⟨w, g, like, abreast, fun _ _ more => .binary again more⟩

theorem callee_head (new : e.current.kind = .kwNew) (first : Reads .head e.next v f) :
    Grows Calls .members e f v := by
  intro ts u e' ending ahead echo
  have heard : Heard (some ⟨ts, [u]⟩) e.next :=
    first.heard (Feed.upto_next.closed echo.closed) ahead rfl
  obtain ⟨w, g, again, like, abreast⟩ :=
    (first.halts rfl).first (echo.next (kind_ne new (by decide)) heard).toEcho (.last ending) ahead
      rfl rfl
  exact ⟨w, g, like, abreast, fun _ _ more => ⟨echo.kind.trans new, w, g, again, more⟩⟩

/-- A chain goes on with a member access. -/
theorem member (grows : Grows q loop e f object) (read : Reads (.member start object) f v g)
    (goesOn : ∀ {start : Mark} {object v w : Value} {f g h : Feed},
      Reads (.member start object) f v g → Reads (loop start v) g w h →
        Reads (loop start object) f w h) : Grows q loop e g v := by
  intro ts u e' ending ahead echo
  obtain ⟨o, f', like, abreast, goes⟩ := grows ending (ahead.trans read.upto) echo
  have twin := abreast.twin (read.heard abreast.closed ahead rfl)
  obtain ⟨v', g', again, like', abreast'⟩ :=
    read.halts rfl e'.current.start o (.last ending) ahead twin.toEcho like
  exact ⟨v', g', like', abreast', fun w h more => goes w h (goesOn again more)⟩

/-- A chain goes on with a call. -/
theorem call (grows : Grows (Reads .access) .accesses e f object) (args : Reads .arguments f v g) :
    Grows (Reads .access) .accesses e g (g.node .callExpression [object, v] start) := by
  intro ts u e' ending ahead echo
  obtain ⟨o, f', like, abreast, goes⟩ := grows ending (ahead.trans args.upto) echo
  have twin := abreast.twin (args.heard abreast.closed ahead rfl)
  obtain ⟨v', g', again, like', abreast'⟩ :=
    (args.halts rfl).first twin.toEcho (.last ending) ahead rfl rfl
  exact ⟨g'.node .callExpression [o, v'] e'.current.start, g',
    like_nodes (.cons like (.cons like' rfl)), abreast',
    fun w h more => goes w h (.accessesCall again more)⟩

/-- A chain goes on with an operator and its right operand. -/
theorem operation {rank : Nat} {right : Value}
    (grows : Grows (Reads (.binary least)) (fun start v => .operations start least v) e f object)
    (ranked : f.rank? = some rank) (tighter : least < rank)
    (operand : Reads (.binary (if f.current.kind = .power then rank - 1 else rank)) f.next
      right g) :
    Grows (Reads (.binary least)) (fun start v => .operations start least v) e g
      (g.node (operationKind f.current.kind) [f.current.value, object, right] start) := by
  intro ts u e' ending ahead echo
  have upto : f.Upto g := Feed.upto_next.trans operand.upto
  obtain ⟨o, f', like, abreast, goes⟩ := grows ending (ahead.trans upto) echo
  have heard : Heard (some ⟨ts, [u]⟩) f.next :=
    operand.heard (Feed.upto_next.closed abreast.closed) ahead rfl
  have twin := abreast.twin (heard.back Feed.upto_next)
  have within : f.current.kind ≠ .endOfInput := Feed.rank?_ne ranked rfl
  obtain ⟨r, g', again, like', abreast'⟩ :=
    (operand.halts rfl).first (twin.next within heard).toEcho (.last ending) ahead rfl rfl
  rw [← twin.kind] at again
  have ranked' := twin.rank?.trans ranked
  refine ⟨g'.node (operationKind f'.current.kind) [f'.current.value, o, r] e'.current.start, g', ?_,
    abreast', fun w h more => goes w h (.operationsMore ranked' tighter again more)⟩
  rw [twin.kind]
  exact like_nodes (.cons (like_of_eq twin.value) (.cons like (.cons like' rfl)))

end Grows

/-- The callee of a construction, and the word before it, are read as a construction. -/
theorem Rereads.construction (again : Rereads Calls e f v) :
    Rereads (Reads .construction) e f (f.node .newExpression [v, .list []] e.current.start) := by
  intro u e' ending echo
  obtain ⟨w, g, ⟨new, o, f', first, more⟩, like, last⟩ := again ending echo
  have halted : g.current.kind = .endOfInput := (List.cons.inj last).1 ▸ ending
  exact ⟨_, g, .constructionBare new first more (by simp [halted]),
    like_nodes (.cons like (.cons rfl rfl)), last⟩

end Grammar

open Grammar Value

/-- From where a node begins to where it ends, a source holds an expression. -/
def Quotes (source : Text) (v w : Value) : Prop :=
  ∃ x y, v.extent? = some (x, y) ∧ parseExpression (source.slice x y) = .ok w ∧
    Conforms .parsed .expression w

variable {source : Text} {tokens : List Token} {v w : Value} {e h : Feed} {p : Part}

/-- What is read again before the end of input is what the source holds there. -/
theorem Grammar.Rereads.quotes (again : Rereads (Reads p) e h w) (whole : p.isWhole)
    (scan : tokenize source = .ok tokens) (within : e.tokens <:+ tokens) (moves : e.Moves h)
    (past : e.Past h) (extent : v.extent? = some (e.current.start.offset, h.prev.stop.offset)) :
    ∃ w', Quotes source v w' ∧ Like false w' w := by
  have closed : e.Closed := closed_suffix (tokenize_closed scan) within (List.cons_ne_nil _ _)
  obtain ⟨ts, taken⟩ : ∃ ts, e.tokens = ts ++ h.prev :: h.tokens := by
    refine (moves closed).2.resolve_left fun still => ?_
    have less := past.length_lt closed
    have same := congrArg List.length still.1
    simp only [Feed.tokens, List.length_cons] at same
    omega
  obtain ⟨between, last⟩ : ∃ between, e.current :: between = ts ++ [h.prev] := by
    cases ts with
    | nil => exact ⟨[], by rw [(List.cons.inj taken).1]; rfl⟩
    | cons t ts => exact ⟨ts ++ [h.prev], by rw [(List.cons.inj taken).1]; rfl⟩
  have inside : e.current :: e.rest = e.current :: (between ++ h.tokens) := by
    rw [← List.cons_append, last, List.append_assoc]
    exact taken
  have split := (List.cons.inj inside).2
  rw [Feed.tokens, inside] at within
  obtain ⟨first, others, ending, cut, kind, value, raw, same, halt⟩ :=
    tokenize_slice scan within (List.cons_ne_nil _ _) last
  have echoes : Echoes (some ⟨h.tokens, [ending]⟩) e.rest (others ++ [ending]) := by
    rw [split]
    exact echoes_of_cut same (.stop rfl)
  have echo : Echo (some ⟨h.tokens, [ending]⟩) e ⟨first, first, others ++ [ending], e.noIn⟩ :=
    ⟨rfl, kind, value, raw, echoes, closed⟩
  obtain ⟨w', g, read, like, done⟩ := again halt echo
  have halted : g.current.kind = .endOfInput := (List.cons.inj done).1 ▸ halt
  have settled := read.settle whole (tokenize_closed cut) halted
  have faithful : (Feed.ofTokens (first :: (others ++ [ending]))).Faithful := tokenize_faithful cut
  have parsed := parseExpression_reads cut settled halted
  exact ⟨w', ⟨_, _, extent, parsed, settled.yields faithful⟩, like⟩

end ScriptTree
