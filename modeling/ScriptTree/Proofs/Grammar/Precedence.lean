import Mathlib.Data.List.Induction
import Mathlib.Tactic.Tauto
import ScriptTree.Proofs.Print.Rereading

/-!
Precedence. Names with binary operators between them are read as a tree in which every operator
binds as its rank says, and there is only one such tree for them: any two would both be what is
read.
-/
namespace ScriptTree

open Grammar Print Value

namespace TokenKind

/-- How tightly a binary operator binds; zero for other tokens. -/
def rank (k : TokenKind) : Nat := k.rank?.getD 0

/-- Whether an operation can be the left operand of an operator: it binds at least as tightly, and
more tightly than a power. -/
def takesLeft (o inner : TokenKind) : Bool :=
  if o = power then o.rank < inner.rank else o.rank ≤ inner.rank

/-- Whether an operation can be the right operand of an operator: it binds more tightly, or at least
as tightly as a power. -/
def takesRight (o inner : TokenKind) : Bool :=
  if o = power then o.rank ≤ inner.rank else o.rank < inner.rank

variable {k o p : TokenKind}

theorem rank_power : power.rank = 12 := rfl

/-- Nothing binds as tightly as a power. -/
theorem rank_lt_power (other : k ≠ power) : k.rank < 12 := by
  cases k <;> first | decide | exact absurd rfl other

/-- Of two operators side by side the second takes the operation of the first, or the first that of
the second. -/
theorem takesRight_of_not_takesLeft (alone : o.takesLeft p = false) : p.takesRight o := by
  unfold takesLeft at alone
  unfold takesRight
  by_cases first : p = power <;> by_cases second : o = power
  all_goals simp only [first, second, if_true, if_false, rank_power, decide_eq_true_eq,
    decide_eq_false_iff_not] at alone ⊢
  · exact Nat.le_refl _
  · have := rank_lt_power second
    omega
  · exact rank_lt_power first
  · omega

theorem rank_le (k : TokenKind) : k.rank ≤ 12 := by
  cases k <;> decide

theorem mem_binaryOperators (operator : k ∈ binaryOperators) : k.rank? = some k.rank :=
  (by decide : ∀ k ∈ binaryOperators, k.rank? = some k.rank) k operator

theorem eq_of_spelling (first : o ∈ binaryOperators) (second : p ∈ binaryOperators)
    (same : text o.spelling = text p.spelling) : o = p := by
  have all : ∀ o ∈ binaryOperators, ∀ p ∈ binaryOperators,
      text o.spelling = text p.spelling → o = p := by decide
  exact all o first p second same

end TokenKind

/-- Names that are joined by binary operators. -/
inductive OperatorTree
  | operand (name : Text)
  | operation (operator : TokenKind) (left right : OperatorTree)
  deriving DecidableEq

namespace OperatorTree

/-- The operator that is applied last. -/
def root? : OperatorTree → Option TokenKind
  | operand _ => none
  | operation o _ _ => some o

def first : OperatorTree → Text
  | operand x => x
  | operation _ l _ => l.first

def rest : OperatorTree → List (TokenKind × Text)
  | operand _ => []
  | operation o l r => l.rest ++ (o, r.first) :: r.rest

/-- Every operator of a tree takes its operands by rank. -/
def Binds : OperatorTree → Prop
  | operand _ => True
  | operation o l r => l.Binds ∧ r.Binds ∧
      (∀ p ∈ l.root?, o.takesLeft p) ∧ ∀ p ∈ r.root?, o.takesRight p

def value : OperatorTree → Value
  | operand x => .node .identifier [.text x] {}
  | operation o l r =>
    .node (if o ∈ [.nullish, .logicalOr, .logicalAnd] then .logicalExpression
      else .binaryExpression) [.text (text o.spelling), l.value, r.value] {}

def lexemes : OperatorTree → List Lexeme
  | operand x => [.word x]
  | operation o l r => l.lexemes ++ .blank :: .mark o :: .blank :: r.lexemes

def rank : OperatorTree → Nat
  | operand _ => primaryRank
  | operation o _ _ => conditionalRank + o.rank

/-- A tree with one more operator and name at its end: the operator takes as much of the tree as it
binds less tightly than. -/
def extend (o : TokenKind) (y : Text) : OperatorTree → OperatorTree
  | operand x => operation o (operand x) (operand y)
  | operation p l r =>
    if o.takesLeft p then operation o (operation p l r) (operand y)
    else operation p l (r.extend o y)

variable {t u l r : OperatorTree} {o : TokenKind} {x y : Text} {chain : List (TokenKind × Text)}

theorem first_extend : (t.extend o y).first = t.first := by
  induction t with
  | operand => rfl
  | operation p l r _ _ =>
    rw [extend]
    split <;> rfl

theorem rest_extend : (t.extend o y).rest = t.rest ++ [(o, y)] := by
  induction t with
  | operand => rfl
  | operation p l r _ ih =>
    rw [extend]
    split
    · rfl
    · rw [rest, rest, ih, first_extend, List.append_assoc, List.cons_append]

theorem root_extend : ∀ p ∈ (t.extend o y).root?, p = o ∨ p ∈ t.root? := by
  cases t with
  | operand =>
    rintro p ⟨⟩
    exact .inl rfl
  | operation q l r =>
    rw [extend]
    split <;> rintro p ⟨⟩
    · exact .inl rfl
    · exact .inr rfl

theorem binds_extend (binds : t.Binds) : (t.extend o y).Binds := by
  induction t with
  | operand => exact ⟨trivial, trivial, nofun, nofun⟩
  | operation p l r _ ih =>
    rw [extend]
    split
    · rename_i takes
      refine ⟨binds, trivial, ?_, nofun⟩
      rintro _ ⟨⟩
      exact takes
    · rename_i alone
      obtain ⟨left, right, before, after⟩ := binds
      refine ⟨left, ih right, before, fun q root => ?_⟩
      rcases root_extend q root with rfl | root
      · exact TokenKind.takesRight_of_not_takesLeft (Bool.eq_false_iff.mpr alone)
      · exact after q root

/-- Names with operators between them make a tree in which every operator binds by rank. -/
theorem exists_binds (x : Text) (chain : List (TokenKind × Text)) :
    ∃ t : OperatorTree, t.first = x ∧ t.rest = chain ∧ t.Binds := by
  induction chain using List.reverseRecOn with
  | nil => exact ⟨operand x, rfl, rfl, trivial⟩
  | append_singleton chain last ih =>
    obtain ⟨t, first, rest, binds⟩ := ih
    refine ⟨t.extend last.1 last.2, ?_, ?_, binds_extend binds⟩
    · rw [first_extend, first]
    · rw [rest_extend, rest]

/-- The names of a chain are names, and its operators are binary. -/
def LegibleChain (x : Text) (chain : List (TokenKind × Text)) : Prop :=
  isName x ∧ ∀ entry ∈ chain, entry.1 ∈ TokenKind.binaryOperators ∧ isName entry.2

theorem legible_operation : LegibleChain (operation o l r).first (operation o l r).rest ↔
    LegibleChain l.first l.rest ∧ o ∈ TokenKind.binaryOperators ∧
      LegibleChain r.first r.rest := by
  simp only [LegibleChain, first, rest, List.forall_mem_append, List.forall_mem_cons]
  tauto

def chainLexemes (x : Text) (chain : List (TokenKind × Text)) : List Lexeme :=
  .word x :: chain.flatMap fun entry => [.blank, .mark entry.1, .blank, .word entry.2]

/-- The text of a chain: names and operators with blanks between them. -/
def chainText (x : Text) (chain : List (TokenKind × Text)) : Text :=
  x ++ chain.flatMap fun entry =>
    text " " ++ text entry.1.spelling ++ text " " ++ entry.2

theorem lexemes_eq : t.lexemes = chainLexemes t.first t.rest := by
  induction t with
  | operand => rfl
  | operation o l r left right =>
    simp only [lexemes, left, right, chainLexemes, first, rest, List.flatMap_append,
      List.flatMap_cons, List.cons_append, List.nil_append]

theorem textOf_chain {width : Int} : textOf width (chainLexemes x chain) = chainText x chain := by
  induction chain generalizing x with
  | nil => simp [chainLexemes, chainText]
  | cons entry chain ih =>
    have more := ih (x := entry.2)
    simp only [chainLexemes, chainText, textOf_cons, Lexeme.text_word, Lexeme.text_mark,
      Lexeme.text_blank, List.flatMap_cons, List.cons_append, List.nil_append] at more ⊢
    rw [more, List.append_assoc, List.append_assoc, List.append_assoc]
    rfl

theorem spaced_chain (legible : LegibleChain x chain) : Spaced (chainLexemes x chain) := by
  obtain ⟨name, entries⟩ := legible
  have word {y : Text} (name : isName y) : isWord y := ((Bool.and_eq_true _ _).mp name).1
  induction chain generalizing x with
  | nil => exact ⟨word name, rfl, trivial⟩
  | cons entry chain ih =>
    obtain ⟨⟨operator, next⟩, entries⟩ := List.forall_mem_cons.mp entries
    have valid : (Lexeme.mark entry.1).valid := by
      have all : ∀ o ∈ TokenKind.binaryOperators, (Lexeme.mark o).valid := by decide
      exact all _ operator
    have apart : (Lexeme.mark entry.1).joins .blank := by
      simp [Lexeme.joins, Lexeme.touches, Lexeme.isWordy]
    exact ⟨word name, rfl, rfl, rfl, valid, apart, rfl, rfl, ih next entries⟩

theorem leftLeast_le (before : ∀ p ∈ t.root?, o.takesLeft p) (operator : o.rank ≤ 12) :
    leftLeast o o.rank ≤ t.rank := by
  have high : primaryRank = 19 ∧ conditionalRank = 3 := ⟨rfl, rfl⟩
  unfold leftLeast
  cases t with
  | operand =>
    simp only [rank]
    split <;> omega
  | operation p l r =>
    have takes := before p rfl
    unfold TokenKind.takesLeft at takes
    simp only [rank]
    split <;> simp_all only [if_true, if_false, decide_eq_true_eq]
    all_goals omega

theorem rightLeast_le (after : ∀ p ∈ t.root?, o.takesRight p) (operator : o.rank ≤ 12) :
    rightLeast o o.rank ≤ t.rank := by
  have high : primaryRank = 19 ∧ conditionalRank = 3 := ⟨rfl, rfl⟩
  unfold rightLeast
  cases t with
  | operand =>
    simp only [rank]
    split <;> omega
  | operation p l r =>
    have takes := after p rfl
    unfold TokenKind.takesRight at takes
    simp only [rank]
    split <;> simp_all only [if_true, if_false, decide_eq_true_eq]
    all_goals omega

/-- A tree that binds by rank is read as an expression of its rank. -/
theorem ranked {width : Int} (legible : LegibleChain t.first t.rest) (binds : t.Binds) :
    Ranked width { comments := false } t.value t.lexemes t.rank := by
  induction t with
  | operand x => exact Rereading.bare_name (Rereading.binding legible.1 fun _ => rfl) nofun
  | operation o l r left right =>
    obtain ⟨legibleLeft, operator, legibleRight⟩ := legible_operation.mp legible
    obtain ⟨bindsLeft, bindsRight, before, after⟩ := binds
    have most := TokenKind.rank_le o
    have kind : operationKind o = if o ∈ [TokenKind.nullish, .logicalOr, .logicalAnd] then
        Kind.logicalExpression else .binaryExpression := by
      cases o <;> rfl
    have read : (Form.bare { comments := false } (conditionalRank + o.rank)).Rereads width
        (.node (operationKind o) [.text (text o.spelling), l.value, r.value] {})
        (l.lexemes ++ .blank :: .mark o :: .blank :: r.lexemes) :=
      Rereading.operation (TokenKind.mem_binaryOperators operator) nofun
        ⟨l.rank, leftLeast_le before most, left legibleLeft bindsLeft⟩
        ⟨r.rank, rightLeast_le after most, right legibleRight bindsRight⟩
    rw [kind] at read
    exact read nofun

end OperatorTree

/-- An expression up to the end of the tokens of a source is the one that the source holds. -/
theorem parseExpression_reads {source : Text} {tokens : List Token} {v : Value} {g : Feed}
    (scanned : tokenize source = .ok tokens) (read : Reads .sequence (Feed.ofTokens tokens) v g)
    (ending : g.current.kind = .endOfInput) : parseExpression source = .ok v := by
  have fits : (Feed.ofTokens tokens).Fits (tokens.length + 1 + 1) := by
    have closed := tokenize_closed scanned
    cases tokens with
    | nil => exact closed.elim
    | cons t rest =>
      have shorter : rest.length < (t :: rest).length + 1 + 1 := by
        rw [List.length_cons]
        omega
      exact ⟨closed, shorter⟩
  have whole := expression_complete (rules_complete _) fits read
  have stop : g.sees .endOfInput := beq_iff_eq.mpr ending
  rw [parseExpression, scanned, ok_bind, run, wholeExpression, bind_run whole, check_bind, stop]
  rfl

namespace OperatorTree

variable {t u : OperatorTree} {x : Text} {chain : List (TokenKind × Text)}

/-- A tree that binds by rank is what the text of its chain is read as. -/
theorem parseExpression_value (legible : LegibleChain t.first t.rest) (binds : t.Binds) :
    ∃ v, parseExpression (chainText t.first t.rest) = .ok v ∧ Like false v t.value := by
  have spaced : Spaced t.lexemes := lexemes_eq ▸ spaced_chain legible
  have scanned : tokenize (textOf 0 t.lexemes) = _ := tokenize_spaced spaced
  obtain ⟨v, g, read, like, after⟩ := (ranked legible binds).sequence
    (Rereading.first_stands spaced) nofun (.of_inert rfl)
  rw [lexemes_eq, textOf_chain] at scanned
  rw [lexemes_eq] at read after
  exact ⟨v, parseExpression_reads scanned read after.kind, like⟩

/-- Trees with alike syntax trees are equal. -/
theorem eq_of_like (left : LegibleChain t.first t.rest) (right : LegibleChain u.first u.rest)
    (like : Like false u.value t.value) : u = t := by
  induction t generalizing u with
  | operand x =>
    cases u with
    | operand y =>
      obtain ⟨_, _, same, name, _⟩ := like.one
      cases same
      cases like_text.mp name
      rfl
    | operation p l r =>
      obtain ⟨_, _, same, _⟩ := like.one
      simp [value] at same
  | operation o l r first second =>
    obtain ⟨_, _, _, _, same, word, before, after, _⟩ := like.three
    obtain ⟨left, operator, right'⟩ := legible_operation.mp left
    cases u with
    | operand y => simp [value] at same
    | operation p l' r' =>
      obtain ⟨leftOther, other, rightOther⟩ := legible_operation.mp right
      simp only [value, Value.node.injEq, List.cons.injEq] at same
      obtain ⟨-, ⟨rfl, rfl, rfl, -⟩, -⟩ := same
      have spelled : text p.spelling = text o.spelling := Value.text.inj (like_text.mp word)
      rw [first left leftOther before, second right' rightOther after,
        TokenKind.eq_of_spelling other operator spelled]

end OperatorTree

/-- Names with binary operators between them are an expression. It is the one tree that is read as
them in order, in which every operator takes an operation on its left only if that binds at least as
tightly, and on its right only if it binds more tightly; with a power it is the other way round. The
nodes of logical operators are logical expressions, and all others binary ones. -/
theorem parseExpression_binds (x : Text) (chain : List (TokenKind × Text)) (name : isName x)
    (entries : ∀ entry ∈ chain, entry.1 ∈ TokenKind.binaryOperators ∧ isName entry.2) :
    ∃ v t, parseExpression (OperatorTree.chainText x chain) = .ok v ∧ Like false v t.value ∧
      t.first = x ∧ t.rest = chain ∧ t.Binds ∧
      ∀ u : OperatorTree, u.first = x → u.rest = chain → u.Binds → u = t := by
  obtain ⟨t, rfl, rfl, binds⟩ := OperatorTree.exists_binds x chain
  have legible : OperatorTree.LegibleChain t.first t.rest := ⟨name, entries⟩
  obtain ⟨v, parsed, like⟩ := OperatorTree.parseExpression_value legible binds
  refine ⟨v, t, parsed, like, rfl, rfl, binds, fun u first rest other => ?_⟩
  have legible' : OperatorTree.LegibleChain u.first u.rest := by rwa [first, rest]
  obtain ⟨w, again, alike⟩ := OperatorTree.parseExpression_value legible' other
  rw [first, rest] at again
  cases parsed.symm.trans again
  exact OperatorTree.eq_of_like legible legible' (alike.symm.trans like)

/-- In `a ?? b ** c ** d - e` the powers are taken together from the right, and then the difference.
-/
theorem parseExpression_binds_powers :
    let chain := [(TokenKind.nullish, text "b"), (.power, text "c"), (.power, text "d"),
      (.minus, text "e")]
    let powers := OperatorTree.operation .power (.operand (text "b"))
      (.operation .power (.operand (text "c")) (.operand (text "d")))
    let tree := OperatorTree.operation .nullish (.operand (text "a"))
      (.operation .minus powers (.operand (text "e")))
    isName (text "a") ∧
      (∀ entry ∈ chain, entry.1 ∈ TokenKind.binaryOperators ∧ isName entry.2) ∧
      ∃ v, parseExpression (text "a ?? b ** c ** d - e") = .ok v ∧ Like false v tree.value := by
  intro chain powers tree
  have name : isName (text "a") := by decide
  have entries : ∀ entry ∈ chain, entry.1 ∈ TokenKind.binaryOperators ∧ isName entry.2 := by decide
  obtain ⟨v, t, parsed, like, _, _, _, unique⟩ :=
    parseExpression_binds (text "a") chain name entries
  have binds : tree.Binds := by
    simp [tree, powers, OperatorTree.Binds, OperatorTree.root?, TokenKind.takesLeft,
      TokenKind.takesRight, TokenKind.rank, TokenKind.rank?]
  rw [← unique tree rfl rfl binds] at like
  exact ⟨name, entries, v, parsed, like⟩

end ScriptTree
