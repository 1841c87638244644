import ScriptTree.Proofs.Print.Spacing
import ScriptTree.Proofs.Print.Writable

/-!
The first token of an expression. The printer keeps an object and a function from the start of a
statement by the text that they begin with; a comment before them hides that text from it.
-/
namespace ScriptTree

open Print

namespace Value

def isCommented (v : Value) : Bool := !v.comments.isEmpty

/-- The ranks of an operation and of its first operand, if that stands without parentheses around
mixed operators. -/
def operationRanks (op : Text) (left : Value) : Option (Nat × Nat) :=
  match operatorRank (.text op) with
  | .ok own =>
    if mixesNullish op own left matches .ok false then
      some (own, if op == ScriptTree.text TokenKind.power.spelling then own + 1 else own)
    else none
  | .error _ => none

/-- Whether comments stand before a token with which an expression begins. The expression has to
bind at least as tightly as a rank; whether comments stand before it is known. -/
def hides (k : TokenKind) (least : Nat) (veiled : Bool) : Value → Bool
  | .node .objectExpression _ _ => veiled && k == .leftBrace
  | .node .functionExpression _ _ => veiled && k == .kwFunction
  | .node .memberExpression [v, _, _] _ | .node .callExpression [v, _] _ =>
    least ≤ callRank && v.hides k callRank (veiled || v.isCommented)
  | .node .updateExpression [_, .bool false, v] _ =>
    least ≤ postfixRank && v.hides k callRank (veiled || v.isCommented)
  | .node .binaryExpression [.text op, v, _] _ | .node .logicalExpression [.text op, v, _] _ =>
    match operationRanks op v with
    | some (own, inner) => least ≤ own && v.hides k inner (veiled || v.isCommented)
    | none => false
  | .node .assignmentExpression [_, v, _] _ =>
    least ≤ assignmentRank && v.hides k callRank (veiled || v.isCommented)
  | .node .conditionalExpression [v, _, _] _ =>
    least ≤ conditionalRank && v.hides k (conditionalRank + 1) (veiled || v.isCommented)
  | .node .sequenceExpression [.list (v :: _)] _ =>
    least ≤ sequenceRank && v.hides k assignmentRank (veiled || v.isCommented)
  | _ => false

/-- Whether comments stand before a token with which an expression begins. -/
def veils (k : TokenKind) (least : Nat) (v : Value) : Bool := v.hides k least v.isCommented

/-- Whether a node is no statement and no arrow function whose expression begins with a token that,
were it not hidden by comments, would call for parentheses. -/
def unveiled (aloud : Bool) : Value → Bool
  | .node .expressionStatement [v] _ =>
    !(aloud && (v.veils .leftBrace sequenceRank || v.veils .kwFunction sequenceRank))
  | .node .arrowFunctionExpression [_, v, .bool true] _ =>
    !(aloud && v.veils .leftBrace assignmentRank)
  | _ => true

end Value

/-- Whether a statement that begins with a token is no expression. -/
def TokenKind.clashes (k : TokenKind) : Bool := k == .leftBrace || k == .kwFunction

/-- Lexemes begin with comments and a token. One that clashes is hidden if there are such comments,
or if there are said to be others. -/
def Fronted (aloud : Bool) (ls : List Lexeme) (hides : TokenKind → Bool → Prop) : Prop :=
  ∃ xs l rest, ls = remarksBeside aloud xs ++ l :: rest ∧ l.isSolid ∧
    ∀ k, k.clashes → l.kind = k → ∀ veiled, (xs ≠ [] ∨ veiled = true) → hides k veiled

/-- What is written in the form of an expression begins with a token that is hidden as computed. -/
def Form.Fronts (aloud : Bool) (v : Value) (ls : List Lexeme) : Form → Prop
  | bare _ rank => Fronted aloud ls fun k veiled => ∀ least ≤ rank, v.hides k least veiled
  | expression _ least => Fronted aloud ls fun k veiled => v.hides k least (veiled || v.isCommented)
  | operand _ o rank least => Fronted aloud ls fun k veiled =>
      mixesNullish (text o.spelling) (conditionalRank + rank) v = .ok false ∧
        v.hides k least (veiled || v.isCommented)
  | object _ => Fronted aloud ls fun k veiled => v.hides k callRank (veiled || v.isCommented)
  | function _ declared => declared = false → ∃ rest children n,
      ls = .mark .kwFunction :: rest ∧ v = .node .functionExpression children n
  | commas (expression _ least) => ∀ w ws, v = .list (w :: ws) →
      Fronted aloud ls fun k veiled => w.hides k least (veiled || w.isCommented)
  | _ => True

variable {aloud : Bool} {f : Form} {c : Context} {v : Value} {l : Lexeme} {ls ms : List Lexeme}
  {xs : List Comment} {k o : TokenKind} {rank : Nat} {hides others : TokenKind → Bool → Prop}

@[simp] theorem remarksBeside_nil : remarksBeside aloud [] = [] := by cases aloud <;> rfl

theorem Fronted.imp (fronted : Fronted aloud ls hides)
    (imp : ∀ k veiled, hides k veiled → others k veiled) : Fronted aloud ls others := by
  obtain ⟨xs, l, rest, same, solid, hidden⟩ := fronted
  exact ⟨xs, l, rest, same, solid, fun k clash kind veiled some =>
    imp k veiled (hidden k clash kind veiled some)⟩

theorem Fronted.append (fronted : Fronted aloud ls hides) : Fronted aloud (ls ++ ms) hides := by
  obtain ⟨xs, l, rest, rfl, solid, hidden⟩ := fronted
  exact ⟨xs, l, rest ++ ms, by simp, solid, hidden⟩

/-- A token that does not clash. -/
theorem fronted_plain (plain : l.kind.clashes = false) (solid : l.isSolid) :
    Fronted aloud (l :: ls) hides :=
  ⟨[], l, ls, by simp, solid, fun _ clash kind => by simp [← kind, plain] at clash⟩

/-- A token that clashes, before which there are comments only if they are said to be there. -/
theorem fronted_clash (solid : l.isSolid)
    (hidden : ∀ veiled, veiled = true → hides l.kind veiled) : Fronted aloud (l :: ls) hides :=
  ⟨[], l, ls, by simp, solid, fun _ _ kind veiled some =>
    kind ▸ hidden veiled (some.resolve_left fun none => none rfl)⟩

theorem name_kind {name : Text} (isName : isName name) : (Lexeme.word name).kind = .ident := by
  have none := ((Bool.and_eq_true _ _).mp isName).2
  rw [Lexeme.kind, Option.isNone_iff_eq_none.mp none]
  rfl

theorem literal_plain (plain : v.isPlain) :
    (Lexeme.literal v).isSolid ∧ (Lexeme.literal v).kind.clashes = false := by
  cases v with
  | bool b => cases b <;> exact ⟨rfl, rfl⟩
  | null | text | int => exact ⟨rfl, rfl⟩
  | _ => cases plain

theorem unary_plain (operator : k.isUnary) : k.clashes = false :=
  TokenKind.holds_of_contains operator (by decide)

theorem update_plain (operator : k.isUpdate) : k.clashes = false := by
  rcases TokenKind.update_cases operator with rfl | rfl <;> rfl

theorem operationRanks_apart {l : Value} (ranked : o.rank? = some rank)
    (apart : mixesNullish (text o.spelling) (conditionalRank + rank) l = .ok false) :
    Value.operationRanks (text o.spelling) l = some (conditionalRank + rank, leftLeast o rank) := by
  have power : (text o.spelling == text TokenKind.power.spelling) = decide (o = .power) :=
    TokenKind.holds_of_rank ranked (by decide)
  simp only [Value.operationRanks, operatorRank, rankOf?_spelling ranked, apart, power, leftLeast,
    decide_eq_true_eq, if_true]

/-- What the printer writes for an expression begins with a token that is hidden as computed. -/
theorem Writes.front (writes : Writes aloud f v ls) : f.Fronts aloud v ls := by
  induction writes with
  | commasNone =>
    rename_i f
    cases f <;> first | exact True.intro | exact nofun
  | commasLast _ ih =>
    rename_i f _ _ _
    cases f with
    | expression => exact fun _ _ same => by cases same; exact ih
    | _ => exact True.intro
  | commasMore _ _ ih =>
    rename_i f _ _ _ _ _ _ _ _
    cases f with
    | expression => exact fun _ _ same => by cases same; exact ih.append
    | _ => exact True.intro
  | @opened _ least rank v _ _ fits _ _ ih =>
    obtain ⟨ys, l, rest, rfl, solid, hidden⟩ := ih
    refine ⟨v.comments ++ ys, l, rest, ?_, solid, fun k clash kind veiled some => ?_⟩
    · cases aloud <;> simp [remarksBeside]
    · refine hidden k clash kind _ ?_ least fits
      rw [Bool.or_eq_true, Value.isCommented]
      rcases some with some | veiled
      · cases comments : v.comments with
        | nil => exact .inl (by simpa [comments] using some)
        | cons => exact .inr (.inr rfl)
      · exact .inr (.inl veiled)
  | closed =>
    refine ⟨_, _, _, rfl, rfl, fun k clash kind => ?_⟩
    cases kind
    cases clash
  | name name => exact fronted_plain (by rw [name_kind name]; rfl) rfl
  | literal plain => exact fronted_plain (literal_plain plain).2 (literal_plain plain).1
  | this => exact fronted_plain rfl rfl
  | array => exact fronted_plain rfl rfl
  | objectNone | objectSome =>
    exact fronted_clash rfl fun veiled some least _ => by simp [Value.hides, Lexeme.kind, some]
  | functionNamed =>
    rintro rfl
    exact ⟨_, _, _, rfl, rfl⟩
  | functionUnnamed => exact fun _ => ⟨_, _, _, rfl, rfl⟩
  | functionExpression _ ih =>
    obtain ⟨rest, children, n, rfl, rfl⟩ := ih rfl
    exact fronted_clash rfl fun veiled some least _ => by simp [Value.hides, Lexeme.kind, some]
  | arrowBlock => exact fronted_plain rfl rfl
  | arrowValue => exact fronted_plain rfl rfl
  | arrowObject => exact fronted_plain rfl rfl
  | unary operator => exact fronted_plain (unary_plain operator) rfl
  | stepBefore operator => exact fronted_plain (update_plain operator) rfl
  | stepAfter _ _ _ ih =>
    refine ih.append.imp fun k veiled hides least fits => ?_
    simp [Value.hides, fits, hides]
  | operation ranked _ _ _ left =>
    refine left.append.imp fun k veiled hides least fits => ?_
    unfold Grammar.operationKind
    split <;> simp [Value.hides, operationRanks_apart ranked hides.1, fits, hides.2]
  | operandPlain apart _ ih => exact ih.imp fun k veiled hides => ⟨apart, hides⟩
  | operandMixed => exact fronted_plain rfl rfl
  | assignment _ _ _ _ left =>
    refine left.append.imp fun k veiled hides least fits => ?_
    simp [Value.hides, fits, hides]
  | conditional _ _ _ test =>
    refine test.append.imp fun k veiled hides least fits => ?_
    simp [Value.hides, fits, hides]
  | sequence _ ih =>
    refine (ih _ _ rfl).imp fun k veiled hides least fits => ?_
    simp [Value.hides, fits, hides]
  | call _ _ callee =>
    refine callee.append.imp fun k veiled hides least fits => ?_
    simp [Value.hides, fits, hides]
  | construction => exact fronted_plain rfl rfl
  | objectPlain _ _ ih => exact ih
  | objectNumber => exact fronted_plain rfl rfl
  | memberNamed _ _ object =>
    refine object.append.imp fun k veiled hides least fits => ?_
    simp [Value.hides, fits, hides]
  | memberIndexed _ _ object =>
    refine object.append.imp fun k veiled hides least fits => ?_
    simp [Value.hides, fits, hides]
  | _ => exact True.intro

end ScriptTree
