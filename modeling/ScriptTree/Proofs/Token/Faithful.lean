import ScriptTree.Token.Scan

/-!
What the tokens of a source text are like: names are names, keywords and operators have the value
that spells them, comments can be written again, and the last token is the only end of input.
-/
namespace ScriptTree

open Scan

namespace TokenKind

variable {k : TokenKind}

/-- What holds of all tokens of a list holds of one that the list contains. -/
@[elab_as_elim]
theorem holds_of_contains {ks : List TokenKind} {q : TokenKind → Prop} (listed : ks.contains k)
    (all : ∀ k ∈ ks, q k) : q k :=
  all k (List.contains_iff_mem.mp listed)

theorem mem_binaryOperators_of_rank {rank : Nat} (ranked : k.rank? = some rank) :
    k ∈ binaryOperators := by
  cases k <;> first | decide | cases ranked

/-- What holds of every binary operator with its rank holds of one that has a rank. -/
@[elab_as_elim]
theorem holds_of_rank {rank : Nat} {q : TokenKind → Nat → Prop} (ranked : k.rank? = some rank)
    (all : ∀ k ∈ binaryOperators, q k (k.rank?.getD 0)) : q k rank := by
  have holds := all k (mem_binaryOperators_of_rank ranked)
  rwa [ranked] at holds

theorem update_cases (update : k.isUpdate) : k = .increment ∨ k = .decrement := by
  simpa only [isUpdate, Bool.or_eq_true, beq_iff_eq] using update

theorem declares_cases (word : k.declares) : k = .kwVar ∨ k = .kwLet ∨ k = .kwConst := by
  simpa only [declares, Bool.or_eq_true, beq_iff_eq, or_assoc] using word

end TokenKind

def isWord : Text → Bool
  | [] => false
  | c :: rest => startsWord c && rest.all continuesWord

/-- Whether a text is one word that is no keyword. -/
def isName (t : Text) : Bool := isWord t && (TokenKind.keyword? t).isNone

def closesComment : Text → Bool
  | 42 :: 47 :: _ => true
  | _ :: rest => closesComment rest
  | [] => false

/-- Whether a comment can stand in a source as it is written. -/
def Comment.legible (c : Comment) : Bool :=
  if c.block then !closesComment c.text
  else c.text.all fun p => p != Point.lineFeed && p != Point.carriageReturn && p != 0

/-- The value of a number that has been read: a natural or a floating-point number. -/
def Value.IsNumber (v : Value) : Prop := (∃ n : Nat, v = .int n) ∨ ∃ x, v = .float x

structure Token.Faithful (t : Token) : Prop where
  name : t.kind = .ident → ∃ w, isName w ∧ t.value = .text w ∧ t.raw = w
  word : t.kind.isKeyword → t.value = .text (text t.kind.spelling) ∧ t.raw = text t.kind.spelling
  operator : t.kind ∈ TokenKind.operators → t.value = .text (text t.kind.spelling)
  number : t.kind = .number → t.value.IsNumber
  string : t.kind = .string → ∃ s, t.value = .text s
  comments : ∀ c ∈ t.comments, c.legible ∧ c.leading

/-- Tokens of which the last one is the only end of input. -/
def Closed : List Token → Prop
  | [] => False
  | [t] => t.kind = .endOfInput
  | t :: u :: rest => t.kind ≠ .endOfInput ∧ Closed (u :: rest)

namespace Scan

theorem startsWord_continues {c : Point} (starts : startsWord c) : continuesWord c := by
  simp only [startsWord, continuesWord, Point.isAlphanumeric, Bool.or_eq_true] at *
  rcases starts with (letter | low) | dollar
  · exact .inl (.inl (.inl (.inl letter)))
  · exact .inl (.inr low)
  · exact .inr dollar

/-- The word at the front of a text that begins with a letter. -/
theorem isWord_takeWhile {c : Point} {rest : Text} (starts : startsWord c) :
    isWord ((c :: rest).takeWhile continuesWord) := by
  rw [List.takeWhile_cons_of_pos (startsWord_continues starts)]
  simp [isWord, starts, List.all_takeWhile]

theorem commentRest_ok {line : Nat} {here : Mark} {t inner : Text} {newline : Bool}
    {after : Cursor} (read : commentRest line here t = .ok (inner, newline, after)) :
    t = inner ++ 42 :: 47 :: after.rest ∧ closesComment inner = false := by
  fun_induction commentRest line here t generalizing inner newline after with
  | case1 => cases read
  | case2 =>
    cases read
    exact ⟨rfl, rfl⟩
  | case3 here c r open' ih =>
    cases more : commentRest line (if c = Point.lineFeed then here.nextLine 1 else here.right 1) r
    all_goals simp only [more] at read
    case error => cases read
    case ok x =>
      obtain ⟨inner', newline', after'⟩ := x
      cases read
      obtain ⟨rfl, closed⟩ := ih more
      refine ⟨rfl, ?_⟩
      unfold closesComment
      split
      next same =>
        simp only [List.cons.injEq] at same
        obtain ⟨rfl, rfl⟩ := same
        exact absurd rfl (open' _ rfl)
      next same =>
        cases same
        exact closed
      next same => cases same

theorem decimal_ok {c after : Cursor} {v : Value} (read : number.decimal c = .ok (v, after)) :
    v.IsNumber := by
  simp only [number.decimal] at read
  -- with or without a point, the cases are the same
  generalize (if headIs _ (· == 46) = true then (_ : Text) else []) = part at read
  split at read
  next => cases read
  next exponent _ =>
    split at read
    next => cases read
    next =>
      split at read
      next made worth =>
        cases read
        split at worth
        next =>
          obtain ⟨n, whole, rfl⟩ := Option.map_eq_some_iff.mp worth
          obtain ⟨m, _, same⟩ := Option.bind_eq_some_iff.mp whole
          cases same
          exact .inl ⟨m, rfl⟩
        next =>
          obtain ⟨x, _, rfl⟩ := Option.map_eq_some_iff.mp worth
          exact .inr ⟨x, rfl⟩
      next => cases read

theorem number_ok {c after : Cursor} {v : Value} (read : number c = .ok (v, after)) :
    v.IsNumber := by
  unfold number at read
  split at read
  next =>
    split at read
    next =>
      dsimp only at read
      split at read
      next => cases read
      next =>
        cases read
        exact .inl ⟨_, rfl⟩
    next => exact decimal_ok read
  next => exact decimal_ok read

theorem bind_ok {α β : Type} {x : Except Error α} {q : α → Except Error β} {b : β} :
    (x >>= q) = .ok b ↔ ∃ a, x = .ok a ∧ q a = .ok b := by
  cases x <;> simp [bind, Except.bind]

/-- What one step of the scan can take. -/
theorem piece_ok {c after : Cursor} {p : Piece} (read : piece c = .ok (p, after)) :
    (∃ newline comments, p = .gap newline comments ∧ ∀ x ∈ comments, x.legible ∧ x.leading) ∨
    (∃ s, p = .token .string (.text s)) ∨
    (∃ v, p = .token .number v ∧ v.IsNumber) ∨
    (∃ w, isWord w ∧ w <+: c.rest ∧ after = c.right w.length ∧
      p = .token ((TokenKind.keyword? w).getD .ident) (.text w)) ∨
    ∃ k ∈ TokenKind.operators, p = .token k (.text (text k.spelling)) := by
  unfold piece at read
  split at read
  · cases read
    exact .inl ⟨_, _, rfl, by simp⟩
  · cases read
    exact .inl ⟨_, _, rfl, by simp⟩
  · cases read
    refine .inl ⟨_, _, rfl, ?_⟩
    simp only [List.mem_singleton, forall_eq, Comment.legible, Bool.false_eq_true, if_false]
    exact ⟨List.all_takeWhile, trivial⟩
  · obtain ⟨⟨inner, newline, rest⟩, closed, made⟩ := bind_ok.mp read
    cases made
    refine .inl ⟨_, _, rfl, ?_⟩
    simp [Comment.legible, (commentRest_ok closed).2]
  rename_i p r _ _ _ whole
  -- the tests that pick the class of the piece, in their order
  split at read
  · cases read
    exact .inl ⟨_, _, rfl, by simp⟩
  split at read
  · cases read
    exact .inl ⟨_, _, rfl, by simp⟩
  split at read
  · obtain ⟨⟨value, rest⟩, _, made⟩ := bind_ok.mp read
    cases made
    exact .inr (.inl ⟨value, rfl⟩)
  split at read
  · obtain ⟨⟨value, rest⟩, worth, made⟩ := bind_ok.mp read
    cases made
    exact .inr (.inr (.inl ⟨value, rfl, number_ok worth⟩))
  split at read
  · rename_i starts
    cases read
    refine .inr (.inr (.inr (.inl ⟨_, ?_, List.takeWhile_prefix _, rfl, rfl⟩)))
    rw [whole]
    exact isWord_takeWhile starts
  split at read
  · rename_i kind found
    cases read
    exact .inr (.inr (.inr (.inr ⟨kind, List.mem_of_find?_eq_some found, rfl⟩)))
  · cases read

/-- A keyword is what its spelling spells. -/
theorem keyword?_some {w : Text} {k : TokenKind} (found : TokenKind.keyword? w = some k) :
    k.isKeyword ∧ w = text k.spelling := by
  refine ⟨?_, ?_⟩
  · exact List.contains_iff_mem.mpr (List.mem_of_find?_eq_some found)
  · have spelled := List.find?_some (p := fun kind : TokenKind => text kind.spelling == w) found
    exact (eq_of_beq spelled).symm

/-- The classes are apart: no operator is a keyword, and neither is a name, a literal or the end. -/
theorem operators_apart {k : TokenKind} (operator : k ∈ TokenKind.operators) :
    k.isKeyword = false ∧ k ≠ .ident ∧ k ≠ .number ∧ k ≠ .string ∧ k ≠ .endOfInput := by
  revert k
  decide

theorem keywords_apart {k : TokenKind} (keyword : k.isKeyword) :
    k ∉ TokenKind.operators ∧ k ≠ .ident ∧ k ≠ .number ∧ k ≠ .string ∧ k ≠ .endOfInput :=
  TokenKind.holds_of_contains keyword (by decide)

theorem scalars_apart : ∀ k ∈ [TokenKind.ident, .number, .string, .endOfInput],
    k ∉ TokenKind.operators := by
  decide

/-- The token of a piece that is one. -/
theorem piece_faithful {c after : Cursor} {k : TokenKind} {v : Value} {pending : Pending}
    (read : piece c = .ok (.token k v, after))
    (comments : ∀ x ∈ pending.comments, x.legible ∧ x.leading) :
    (tokenAt c after pending k v).Faithful ∧ k ≠ .endOfInput := by
  rcases piece_ok read with ⟨_, _, same, _⟩ | ⟨s, same⟩ | ⟨x, same, worth⟩ |
    ⟨w, word, front, rfl, same⟩ | ⟨k, operator, same⟩
  all_goals cases same
  · have operator := scalars_apart .string (by simp)
    exact ⟨⟨nofun, nofun, fun h => absurd h operator, nofun, fun _ => ⟨s, rfl⟩, comments⟩, nofun⟩
  · have operator := scalars_apart .number (by simp)
    exact ⟨⟨nofun, nofun, fun h => absurd h operator, fun _ => worth, nofun, comments⟩, nofun⟩
  · have raw : (tokenAt c (c.right w.length) pending ((TokenKind.keyword? w).getD .ident)
        (.text w)).raw = w := by
      obtain ⟨rest, whole⟩ := front
      simp [tokenAt, Cursor.right, Mark.right, ← whole]
    cases found : TokenKind.keyword? w with
    | none =>
      have operator := scalars_apart .ident (by simp)
      rw [found] at raw
      refine ⟨⟨fun _ => ⟨w, ?_, rfl, raw⟩, nofun, fun h => absurd h operator, nofun, nofun,
        comments⟩, nofun⟩
      simp [isName, word, found]
    | some k =>
      obtain ⟨keyword, spelled⟩ := keyword?_some found
      obtain ⟨operator, ident, number, string, last⟩ := keywords_apart keyword
      rw [found] at raw
      refine ⟨⟨fun h => absurd h ident, fun _ => ⟨?_, ?_⟩, fun h => absurd h operator,
        fun h => absurd h number, fun h => absurd h string, comments⟩, last⟩
      · exact congrArg Value.text spelled
      · rw [raw, spelled]
        rfl
  · obtain ⟨keyword, ident, number, string, last⟩ := operators_apart operator
    exact ⟨⟨fun h => absurd h ident, fun h => by simp [tokenAt, keyword] at h, fun _ => rfl,
      fun h => absurd h number, fun h => absurd h string, comments⟩, last⟩

theorem endOfInput_faithful {c : Cursor} {pending : Pending}
    (comments : ∀ x ∈ pending.comments, x.legible ∧ x.leading) :
    (tokenAt c c pending .endOfInput .null).Faithful :=
  ⟨nofun, nofun, fun h => absurd h (scalars_apart .endOfInput (by simp)), nofun, nofun,
    comments⟩

theorem tokensFrom_ok {steps : Nat} {c : Cursor} {pending : Pending} {tokens : List Token}
    (scan : tokensFrom steps c pending = .ok tokens)
    (comments : ∀ x ∈ pending.comments, x.legible ∧ x.leading) :
    Closed tokens ∧ ∀ t ∈ tokens, t.Faithful := by
  induction steps generalizing c pending tokens with
  | zero =>
    cases scan
    exact ⟨rfl, by simpa using endOfInput_faithful comments⟩
  | succ steps ih =>
    unfold tokensFrom at scan
    split at scan
    · cases scan
      exact ⟨rfl, by simpa using endOfInput_faithful comments⟩
    split at scan
    · cases scan
    · rename_i newline more after taken
      refine ih scan fun x mem => ?_
      rcases List.mem_append.mp mem with old | new
      · exact comments x old
      · rcases piece_ok taken with ⟨_, _, same, fine⟩ | ⟨_, same⟩ | ⟨_, same, _⟩ |
          ⟨_, _, _, _, same⟩ | ⟨_, _, same⟩
        all_goals cases same
        exact fine x new
    · rename_i kind value after taken
      obtain ⟨faithful, last⟩ := piece_faithful taken comments
      split at scan
      · cases scan
      · rename_i later more
        cases scan
        obtain ⟨closed, all⟩ := ih more (by simp)
        refine ⟨?_, by simpa using ⟨faithful, all⟩⟩
        match later, closed with
        | _ :: _, closed => exact ⟨last, closed⟩

end Scan

theorem tokenize_closed {source : Text} {tokens : List Token}
    (scan : tokenize source = .ok tokens) : Closed tokens :=
  (Scan.tokensFrom_ok scan (by simp)).1

theorem tokenize_faithful {source : Text} {tokens : List Token}
    (scan : tokenize source = .ok tokens) : ∀ t ∈ tokens, t.Faithful :=
  (Scan.tokensFrom_ok scan (by simp)).2

end ScriptTree
