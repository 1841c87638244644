import ScriptTree.Proofs.Grammar.Concurrence

/-!
The loops of the grammar as rounds. A round carries what has been read so far and says whether
another one follows. Each loop is its round, taken again and again; each round after which another
one follows has taken a token, so that rounds go on no longer than there are tokens.
-/
namespace ScriptTree.Grammar

/-- Rounds from what has been read so far, up to a number of them. -/
@[simp] def rounds {σ : Type} (round : σ → Parser (ForInStep σ)) : Nat → σ → Parser σ
  | 0, _ => refuse .tooDeep
  | steps + 1, state => do
    match ← round state with
    | .yield state => rounds round steps state
    | .done state => return state

def commaRound (item : Parser Value) (items : List Value) : Parser (ForInStep (List Value)) := do
  let first ← item
  if ← accept .comma then return .yield (items ++ [first])
  return .done (items ++ [first])

def closedRound (close : TokenKind) (item : Parser Value) (items : List Value) :
    Parser (ForInStep (List Value)) := do
  if ← check close then return .done items
  let first ← item
  if ← accept .comma then return .yield (items ++ [first])
  return .done (items ++ [first])

def statementRound (r : Rules) (close : TokenKind) (body : List Value) :
    Parser (ForInStep (List Value)) := do
  if ← check close then return .done body
  if ← check .endOfInput then refuse .unexpectedEnd
  let leading := (← get).current.comments
  let first ← r.statement
  return .yield (body ++ [attachLeading leading first])

def elementRound (r : Rules) (items : List Value) : Parser (ForInStep (List Value)) := do
  if ← check .rightBracket then return .done items
  if ← accept .comma then return .yield (items ++ [.null])
  let first ← nestedAssignment r
  if ← check .rightBracket then return .done (items ++ [first])
  let _ ← expect .comma
  return .yield (items ++ [first])

def memberRound (r : Rules) (start : Mark) (object : Value) : Parser (ForInStep Value) := do
  match ← member? r start object with
  | some made => return .yield made
  | none => return .done object

def accessRound (r : Rules) (start : Mark) (object : Value) : Parser (ForInStep Value) := do
  match ← member? r start object with
  | some made => return .yield made
  | none =>
    if ← check .leftParen then
      let args ← arguments r
      return .yield (← build .callExpression [object, args] start)
    else return .done object

def operationRound (r : Rules) (start : Mark) (least : Nat) (left : Value) :
    Parser (ForInStep Value) := do
  match ← operatorRank with
  | none => return .done left
  | some rank =>
    if rank ≤ least then return .done left
    else
      let t ← advance
      let right ← r.binary (if t.kind == .power then rank - 1 else rank)
      let kind := if t.kind.isLogical then Kind.logicalExpression else Kind.binaryExpression
      return .yield (← build kind [t.value, left, right] start)

section Equations

variable {r : Rules} {item : Parser Value} {close : TokenKind} {start : Mark} {least : Nat}

/-- A list that is read by its rounds is put after the items before it. -/
theorem commaList_rounds (steps : Nat) (items : List Value) :
    (items ++ ·) <$> commaList item steps = rounds (commaRound item) steps items := by
  induction steps generalizing items with
  | zero => rfl
  | succ steps ih =>
    simp only [commaList, rounds, commaRound, map_eq_pure_bind, bind_assoc]
    congr 1
    funext first
    congr 1
    funext more
    cases more
    · rfl
    · simp [← ih]

theorem closedList_rounds (steps : Nat) (items : List Value) :
    (items ++ ·) <$> closedList close item steps = rounds (closedRound close item) steps items := by
  induction steps generalizing items with
  | zero => rfl
  | succ steps ih =>
    simp only [closedList, rounds, closedRound, map_eq_pure_bind, bind_assoc]
    congr 1
    funext closed
    cases closed
    · simp only [Bool.false_eq_true, if_false, bind_assoc]
      congr 1
      funext first
      congr 1
      funext more
      cases more
      · rfl
      · simp [← ih]
    · simp

theorem statements_rounds (steps : Nat) (body : List Value) :
    (body ++ ·) <$> statements r close steps = rounds (statementRound r close) steps body := by
  induction steps generalizing body with
  | zero => rfl
  | succ steps ih =>
    simp only [statements, rounds, statementRound, map_eq_pure_bind, bind_assoc]
    congr 1
    funext closed
    cases closed
    · simp only [Bool.false_eq_true, if_false, bind_assoc]
      congr 1
      funext last
      cases last
      · simp [← ih]
      · rfl
    · simp

theorem elements_rounds (steps : Nat) (items : List Value) :
    (items ++ ·) <$> elements r steps = rounds (elementRound r) steps items := by
  induction steps generalizing items with
  | zero => rfl
  | succ steps ih =>
    simp only [elements, rounds, elementRound, map_eq_pure_bind, bind_assoc]
    congr 1
    funext closed
    cases closed
    · simp only [Bool.false_eq_true, if_false, bind_assoc]
      congr 1
      funext hole
      cases hole
      · simp only [Bool.false_eq_true, if_false, bind_assoc]
        congr 1
        funext first
        congr 1
        funext last
        cases last <;> simp [← ih]
      · simp [← ih]
    · simp

theorem members_rounds (steps : Nat) (object : Value) :
    members r start steps object = rounds (memberRound r start) steps object := by
  induction steps generalizing object with
  | zero => rfl
  | succ steps ih =>
    simp only [members, rounds, memberRound, bind_assoc]
    congr 1
    funext made
    cases made
    · rfl
    · simp [ih]

theorem accesses_rounds (steps : Nat) (object : Value) :
    accesses r start steps object = rounds (accessRound r start) steps object := by
  induction steps generalizing object with
  | zero => rfl
  | succ steps ih =>
    simp only [accesses, rounds, accessRound, bind_assoc]
    congr 1
    funext made
    cases made
    · simp only [bind_assoc]
      congr 1
      funext called
      cases called <;> simp [ih]
    · simp [ih]

theorem operations_rounds (steps : Nat) (left : Value) :
    operations r start least steps left = rounds (operationRound r start least) steps left := by
  induction steps generalizing left with
  | zero => rfl
  | succ steps ih =>
    simp only [operations, rounds, operationRound, bind_assoc]
    congr 1
    funext ranked
    cases ranked
    · rfl
    · simp only []
      split <;> simp [ih]

end Equations

namespace Feed

/-- A later feed is further on, and the word `in` is there what it is here. -/
def Onward (f g : Feed) : Prop := f.Past g ∧ g.noIn = f.noIn

variable {f g h : Feed}

theorem Onward.next (onward : f.Onward g) : f.Onward g.next :=
  ⟨onward.1.trans upto_next, by rw [next_noIn, onward.2]⟩

theorem Onward.trans (first : f.Onward g) (upto : g.Upto h) (noIn : h.noIn = g.noIn) :
    f.Onward h :=
  ⟨first.1.trans upto, noIn.trans first.2⟩

theorem onward_next {k : TokenKind} (seen : f.current.kind = k) (within : k ≠ .endOfInput) :
    f.Onward f.next :=
  ⟨past (by rwa [seen]) .refl, next_noIn⟩

end Feed

/-- What takes a token and is no statement leads onward. -/
theorem Reads.onward {p : Part} {f g : Feed} {v : Value} (read : Reads p f v g)
    (consumes : p.consumes = true) (plain : p.holdsStatements = false ∨ f.noIn = false) :
    f.Onward g :=
  ⟨read.past consumes, read.noIn_eq plain⟩

/-- A round leads onward, or it is the last one and takes nothing. -/
def Moves {σ : Type} (round : Parser (ForInStep σ)) (f : Feed) : Prop :=
  ∀ {x g}, round f = .ok (x, g) → f.Onward g ∨ g = f ∧ ∃ s, x = .done s

section Moves

variable {r : Rules} {item : Parser Value} {e : Item} {close : TokenKind} {start : Mark}
  {least : Nat} {f : Feed} {items : List Value} {object : Value}

theorem Item.onward {f g : Feed} {v : Value} (read : Reads e.part f v g) : f.Onward g :=
  read.onward e.part_consumes (.inl e.part_holdsStatements)

theorem commaRound_moves (sound : ∀ {f v g}, item f = .ok (v, g) → Reads e.part f v g) :
    Moves (commaRound item items) f := by
  intro x g run
  obtain ⟨first, h, inner, rest⟩ := bind_ok.mp run
  have onward := Item.onward (sound inner)
  rw [accept_ite] at rest
  split at rest
  · cases pure_ok.mp rest
    exact .inl onward.next
  · cases pure_ok.mp rest
    exact .inl onward

theorem closedRound_moves (sound : ∀ {f v g}, item f = .ok (v, g) → Reads e.part f v g) :
    Moves (closedRound close item items) f := by
  intro x g run
  rw [closedRound, check_ite] at run
  split at run
  · cases pure_ok.mp run
    exact .inr ⟨rfl, _, rfl⟩
  · exact commaRound_moves sound run

theorem statementRound_moves (hr : r.Sound) (plain : f.noIn = false) :
    Moves (statementRound r close items) f := by
  intro x g run
  rw [statementRound, check_ite] at run
  split at run
  · cases pure_ok.mp run
    exact .inr ⟨rfl, _, rfl⟩
  · rw [check_ite] at run
    split at run
    · exact (refuse_bind_ok.mp run).elim
    · simp only [get_bind] at run
      obtain ⟨first, h, inner, rest⟩ := bind_ok.mp run
      cases pure_ok.mp rest
      exact .inl ((hr.statement inner).onward rfl (.inr plain))

theorem elementRound_moves (hr : r.Sound) : Moves (elementRound r items) f := by
  intro x g run
  rw [elementRound, check_ite] at run
  split at run
  · cases pure_ok.mp run
    exact .inr ⟨rfl, _, rfl⟩
  · rw [accept_ite] at run
    split at run
    · rename_i comma
      cases pure_ok.mp run
      exact .inl (Feed.onward_next comma (by decide))
    · obtain ⟨first, h, inner, rest⟩ := bind_ok.mp run
      have onward := Item.onward (e := .nested) (nestedAssignment_sound hr inner)
      rw [check_ite] at rest
      split at rest
      · cases pure_ok.mp rest
        exact .inl onward
      · obtain ⟨comma, rest⟩ := expect_bind_ok.mp rest
        cases pure_ok.mp rest
        exact .inl onward.next

theorem memberRound_moves (hr : r.Sound) : Moves (memberRound r start object) f := by
  intro x g run
  obtain ⟨made, h, inner, rest⟩ := bind_ok.mp run
  obtain ⟨v, rfl, read⟩ | ⟨rfl, rfl, _⟩ := member?_sound hr inner
  · cases pure_ok.mp rest
    exact .inl (read.onward rfl (.inl rfl))
  · cases pure_ok.mp rest
    exact .inr ⟨rfl, _, rfl⟩

theorem accessRound_moves (hr : r.Sound) : Moves (accessRound r start object) f := by
  intro x g run
  obtain ⟨made, h, inner, rest⟩ := bind_ok.mp run
  obtain ⟨v, rfl, read⟩ | ⟨rfl, rfl, _⟩ := member?_sound hr inner
  · cases pure_ok.mp rest
    exact .inl (read.onward rfl (.inl rfl))
  · simp only [check_ite] at rest
    split at rest
    · obtain ⟨args, i, called, rest⟩ := bind_ok.mp rest
      rw [build_bind] at rest
      cases pure_ok.mp rest
      exact .inl ((arguments_sound hr called).onward rfl (.inl rfl))
    · cases pure_ok.mp rest
      exact .inr ⟨rfl, _, rfl⟩

/-- A token with a rank is no end of input. -/
theorem operationRound_moves (hr : r.Sound) : Moves (operationRound r start least object) f := by
  intro x g run
  rw [operationRound, operatorRank_bind] at run
  cases ranked : f.rank? with
  | none =>
    simp only [ranked] at run
    cases pure_ok.mp run
    exact .inr ⟨rfl, _, rfl⟩
  | some rank =>
    simp only [ranked, ite_run] at run
    split at run
    · cases pure_ok.mp run
      exact .inr ⟨rfl, _, rfl⟩
    · rw [advance_bind] at run
      obtain ⟨right, h, operand, rest⟩ := bind_ok.mp run
      rw [build_bind] at rest
      cases pure_ok.mp rest
      have read := hr.binary operand
      have taken := Feed.onward_next rfl (Feed.rank?_ne ranked rfl)
      exact .inl (taken.trans read.upto (read.noIn_eq (.inl rfl)))

end Moves

/-- Rounds concur if each of them does: a round that another one follows leaves fewer tokens. -/
theorem rounds_concur {σ : Type} {round round' : σ → Parser (ForInStep σ)} {steps : Nat}
    {f : Feed} {state : σ} (depth : Nat) (entry : Bool → Prop)
    (step : ∀ {f s}, f.Fits depth → entry f.noIn → Concurs (round s) (round' s) f)
    (moves : ∀ {f s}, entry f.noIn → Moves (round s) f) (fits : f.Fits depth)
    (enough : f.Fits steps) (ready : entry f.noIn) :
    Concurs (rounds round steps state) (rounds round' steps state) f := by
  induction steps generalizing f state with
  | zero => exact absurd enough.2 (Nat.not_lt_zero _)
  | succ steps ih =>
    rw [rounds, rounds]
    refine (step fits ready).bind fun {x g} run => ?_
    obtain ⟨past, noIn⟩ | ⟨rfl, s, rfl⟩ := moves ready run
    · refine ⟨past.upto, ?_⟩
      cases x with
      | done _ => exact .pure
      | yield _ => exact ih (fits.upto past.upto) (enough.past past) (by rwa [noIn])
    · exact ⟨.refl, .pure⟩

end ScriptTree.Grammar
