import ScriptTree.Print.Node
import ScriptTree.Proofs.Print.Lexeme
import ScriptTree.Proofs.Tree.Conforming

/-!
Printing as a relation: which lexemes a part of a tree is written with. It has neither depths nor
failures. That the printer computes it, that its lexemes are scanned as they are, and that they are
read as the tree again is proved by induction on it.
-/
namespace ScriptTree

open Print

/-- The ways in which a part of a tree is written. -/
inductive Form
  /-- An expression of a rank without parentheses around it. -/
  | bare (c : Context) (rank : Nat)
  /-- An expression that has to bind at least as tightly as a rank. -/
  | expression (c : Context) (least : Nat)
  | operand (c : Context) (operator : TokenKind) (rank least : Nat)
  | object (c : Context)
  | callee (c : Context)
  | arguments (c : Context)
  | elements (c : Context)
  | property (c : Context)
  | key (c : Context)
  | word (c : Context)
  | binding (c : Context)
  | function (c : Context) (declared : Bool)
  | block (c : Context)
  | declarator (c : Context)
  | declaration (c : Context)
  | loopInit (c : Context)
  | loopPart (c : Context)
  | loopTarget (c : Context)
  | handler (c : Context)
  | body (c : Context)
  | choice (c : Context)
  /-- A statement without the comments around it. -/
  | own (c : Context)
  | statement (c : Context)
  | lines (c : Context)
  | program (c : Context)
  | commas (item : Form)

def Form.isItem : Form → Bool
  | expression .. | binding _ | property _ | declarator _ => true
  | _ => false

def Value.isIn : Value → Bool
  | .node .binaryExpression [.text op, _, _] _ => op == ScriptTree.text "in"
  | _ => false

def leadingComments (c : Context) (v : Value) : List Comment :=
  if c.comments then v.comments.filter (·.leading) else []

/-- The comments printed after a statement, or inside a hollow one. -/
def trailingComments (c : Context) (v : Value) : List Comment :=
  if c.comments then v.comments.filter (!·.leading) else []

def remarksBefore (depth : Nat) (comments : List Comment) : List Lexeme :=
  comments.flatMap fun c => [.remark c, .line depth]

def remarksAfter (depth : Nat) (comments : List Comment) : List Lexeme :=
  comments.flatMap fun c => [.line depth, .remark c]

/-- The circumstances with all comments printed, also those that are not read again. -/
def Print.Context.aloud (aloud : Bool) (c : Context) : Context :=
  { c with comments := aloud || c.comments }

/-- Comments of an expression, in block form and each with a blank after it. -/
def remarksBeside (aloud : Bool) (comments : List Comment) : List Lexeme :=
  if aloud then comments.flatMap fun c => [.remark { c with block := true }, .blank] else []

/-- A comment that can stand on the line of an expression. -/
def Comment.Beside (c : Comment) : Prop :=
  { c with block := true }.legible ∧ c.text.contains Point.lineFeed = false

/-- The comments printed after a statement; a hollow block has them inside. -/
def followingComments (c : Context) (v : Value) : List Comment :=
  if v.isHollow then [] else trailingComments c v

/-- What stands between a unary operator and the text of its operand. -/
def unaryGap (o : TokenKind) (operand : Layout) : List Lexeme :=
  if isWordOperator (text o.spelling) ||
    isSign (text o.spelling) && operand.startsWith (text o.spelling) then [.blank] else []

def leftLeast (o : TokenKind) (rank : Nat) : Nat :=
  if o = .power then conditionalRank + rank + 1 else conditionalRank + rank

def rightLeast (o : TokenKind) (rank : Nat) : Nat :=
  if o = .power then conditionalRank + rank else conditionalRank + rank + 1

def bodyGap (c : Context) (body : Value) : Lexeme :=
  if body.isKind .blockStatement then .blank else .line c.depth

/-- Whether an expression would be read as a statement of another sort. -/
def clashes (l : Layout) : Bool :=
  l.startsWith (text "\x7b") || l.startsWith (text "function")

def enclosed (ls : List Lexeme) : List Lexeme := .mark .leftParen :: (ls ++ [.mark .rightParen])

variable (aloud : Bool) in
/-- A part of a tree is written with lexemes. Where comments are kept, there are none but those that
are read again; aloud, there may be comments on all nodes. -/
inductive Writes : Form → Value → List Lexeme → Prop
  | commasNone {f : Form} : Writes (.commas f) (.list []) []
  | commasLast {f : Form} {v : Value} {ls : List Lexeme} (item : Writes f v ls) :
      Writes (.commas f) (.list [v]) ls
  | commasMore {f : Form} {v w : Value} {vs : List Value} {ls ms : List Lexeme}
      (item : Writes f v ls) (more : Writes (.commas f) (.list (w :: vs)) ms) :
      Writes (.commas f) (.list (v :: w :: vs)) (ls ++ .mark .comma :: .blank :: ms)
  | binding {c : Context} {w : Text} {n : Notes} (name : isName w)
      (silent : c.comments → n.comments = []) (beside : aloud → ∀ x ∈ n.comments, x.Beside) :
      Writes (.binding c) (.node .identifier [.text w] n)
        (remarksBeside aloud n.comments ++ [.word w])
  | word {c : Context} {w : Text} {n : Notes} (word : isWord w)
      (silent : c.comments → n.comments = []) (beside : aloud → ∀ x ∈ n.comments, x.Beside) :
      Writes (.word c) (.node .identifier [.text w] n)
        (remarksBeside aloud n.comments ++ [.word w])
  | keyWord {c : Context} {v : Value} {ls : List Lexeme} (inner : Writes (.word c) v ls) :
      Writes (.key c) v ls
  | keyLiteral {c : Context} {v : Value} {n : Notes} (key : v.isKeyLiteral) (plain : v.isPlain)
      (silent : c.comments → n.comments = []) (beside : aloud → ∀ x ∈ n.comments, x.Beside) :
      Writes (.key c) (.node .literal [v] n)
        (remarksBeside aloud n.comments ++ [.literal v])
  | opened {c : Context} {least rank : Nat} {v : Value} {ls : List Lexeme}
      (inner : Writes (.bare c rank) v ls) (fits : least ≤ rank)
      (silent : c.comments → v.comments = []) (beside : aloud → ∀ x ∈ v.comments, x.Beside) :
      Writes (.expression c least) v (remarksBeside aloud v.comments ++ ls)
  | closed {c : Context} {least rank : Nat} {v : Value} {ls : List Lexeme}
      (inner : Writes (.bare c.lifted rank) v ls) (loose : rank < least ∨ c.noIn ∧ v.isIn)
      (silent : c.comments → v.comments = []) (beside : aloud → ∀ x ∈ v.comments, x.Beside) :
      Writes (.expression c least) v (remarksBeside aloud v.comments ++ enclosed ls)
  | name {c : Context} {w : Text} {n : Notes} (name : isName w) :
      Writes (.bare c primaryRank) (.node .identifier [.text w] n) [.word w]
  | literal {c : Context} {v : Value} {n : Notes} (plain : v.isPlain) :
      Writes (.bare c primaryRank) (.node .literal [v] n) [.literal v]
  | this {c : Context} {n : Notes} :
      Writes (.bare c primaryRank) (.node .thisExpression [] n) [.mark .kwThis]
  | array {c : Context} {es : List Value} {n : Notes} {ls : List Lexeme}
      (inner : Writes (.elements c.lifted) (.list es) ls) :
      Writes (.bare c primaryRank) (.node .arrayExpression [.list es] n)
        (.mark .leftBracket :: (ls ++ [.mark .rightBracket]))
  | elementsNone {c : Context} : Writes (.elements c) (.list []) []
  | elementsHole {c : Context} : Writes (.elements c) (.list [.null]) [.mark .comma]
  | elementsLast {c : Context} {v : Value} {ls : List Lexeme}
      (item : Writes (.expression c assignmentRank) v ls) : Writes (.elements c) (.list [v]) ls
  | elementsSkip {c : Context} {v : Value} {vs : List Value} {ls : List Lexeme}
      (more : Writes (.elements c) (.list (v :: vs)) ls) :
      Writes (.elements c) (.list (.null :: v :: vs)) (.mark .comma :: .blank :: ls)
  | elementsMore {c : Context} {v w : Value} {vs : List Value} {ls ms : List Lexeme}
      (item : Writes (.expression c assignmentRank) v ls)
      (more : Writes (.elements c) (.list (w :: vs)) ms) :
      Writes (.elements c) (.list (v :: w :: vs)) (ls ++ .mark .comma :: .blank :: ms)
  | objectNone {c : Context} {n : Notes} :
      Writes (.bare c primaryRank) (.node .objectExpression [.list []] n)
        [.mark .leftBrace, .mark .rightBrace]
  | objectSome {c : Context} {e : Value} {es : List Value} {n : Notes} {ls : List Lexeme}
      (inner : Writes (.commas (.property c.lifted)) (.list (e :: es)) ls) :
      Writes (.bare c primaryRank) (.node .objectExpression [.list (e :: es)] n)
        (.mark .leftBrace :: .blank :: (ls ++ [.blank, .mark .rightBrace]))
  | computed {c : Context} {k v : Value} {n : Notes} {ls ms : List Lexeme}
      (key : Writes (.expression c assignmentRank) k ls)
      (value : Writes (.expression c assignmentRank) v ms)
      (silent : c.comments → n.comments = []) :
      Writes (.property c) (.node .property [k, v, .bool true, .bool false] n)
        (.mark .leftBracket :: (ls ++ .mark .rightBracket :: .mark .colon :: .blank :: ms))
  | keyed {c : Context} {k v : Value} {n : Notes} {ls ms : List Lexeme}
      (key : Writes (.key c) k ls) (value : Writes (.expression c assignmentRank) v ms)
      (silent : c.comments → n.comments = []) :
      Writes (.property c) (.node .property [k, v, .bool false, .bool false] n)
        (ls ++ .mark .colon :: .blank :: ms)
  | shorthand {c : Context} {w : Text} {m n o : Notes} (name : isName w)
      (key : c.comments → m.comments = []) (value : c.comments → n.comments = [])
      (silent : c.comments → o.comments = []) (beside : aloud → ∀ x ∈ n.comments, x.Beside) :
      Writes (.property c) (.node .property [.node .identifier [.text w] m,
        .node .identifier [.text w] n, .bool false, .bool true] o)
        (remarksBeside aloud n.comments ++ [.word w])
  | functionNamed {c : Context} {declared : Bool} {i b : Value} {ps : List Value} {n : Notes}
      {ls ms ns : List Lexeme} (name : Writes (.binding c) i ls)
      (params : Writes (.commas (.binding c)) (.list ps) ms) (body : Writes (.block c) b ns)
      (alone : c.comments → b.Alone) :
      Writes (.function c declared)
        (.node (if declared then .functionDeclaration else .functionExpression) [i, .list ps, b] n)
        (.mark .kwFunction :: .blank :: (ls ++ (enclosed ms ++ .blank :: ns)))
  | functionUnnamed {c : Context} {b : Value} {ps : List Value} {n : Notes} {ms ns : List Lexeme}
      (params : Writes (.commas (.binding c)) (.list ps) ms) (body : Writes (.block c) b ns)
      (alone : c.comments → b.Alone) :
      Writes (.function c false) (.node .functionExpression [.null, .list ps, b] n)
        (.mark .kwFunction :: (enclosed ms ++ .blank :: ns))
  | functionExpression {c : Context} {v : Value} {ls : List Lexeme}
      (inner : Writes (.function c false) v ls) : Writes (.bare c primaryRank) v ls
  | arrowBlock {c : Context} {b : Value} {ps : List Value} {n : Notes} {ls ms : List Lexeme}
      (params : Writes (.commas (.binding c)) (.list ps) ls) (body : Writes (.block c) b ms)
      (alone : c.comments → b.Alone) :
      Writes (.bare c assignmentRank)
        (.node .arrowFunctionExpression [.list ps, b, .bool false] n)
        (enclosed ls ++ .blank :: .mark .arrow :: .blank :: ms)
  | arrowValue {c : Context} {b : Value} {ps : List Value} {n : Notes} {ls ms : List Lexeme}
      (params : Writes (.commas (.binding c)) (.list ps) ls)
      (body : Writes (.expression c.lifted assignmentRank) b ms)
      (plain : (layout ms).startsWith (text "\x7b") = false) :
      Writes (.bare c assignmentRank) (.node .arrowFunctionExpression [.list ps, b, .bool true] n)
        (enclosed ls ++ .blank :: .mark .arrow :: .blank :: ms)
  | arrowObject {c : Context} {b : Value} {ps : List Value} {n : Notes} {ls ms : List Lexeme}
      (params : Writes (.commas (.binding c)) (.list ps) ls)
      (body : Writes (.expression c.lifted assignmentRank) b ms)
      (brace : (layout ms).startsWith (text "\x7b")) :
      Writes (.bare c assignmentRank) (.node .arrowFunctionExpression [.list ps, b, .bool true] n)
        (enclosed ls ++ .blank :: .mark .arrow :: .blank :: enclosed ms)
  | unary {c : Context} {o : TokenKind} {v : Value} {n : Notes} {ls : List Lexeme}
      (operator : o.isUnary) (operand : Writes (.expression c unaryRank) v ls) :
      Writes (.bare c unaryRank) (.node .unaryExpression [.text (text o.spelling), v] n)
        (.mark o :: (unaryGap o (layout ls) ++ ls))
  | stepBefore {c : Context} {o : TokenKind} {v : Value} {n : Notes} {ls : List Lexeme}
      (operator : o.isUpdate) (target : Grammar.isTarget v)
      (operand : Writes (.expression c postfixRank) v ls) :
      Writes (.bare c unaryRank)
        (.node .updateExpression [.text (text o.spelling), .bool true, v] n) (.mark o :: ls)
  | stepAfter {c : Context} {o : TokenKind} {v : Value} {n : Notes} {ls : List Lexeme}
      (operator : o.isUpdate) (target : Grammar.isTarget v)
      (operand : Writes (.expression c callRank) v ls) :
      Writes (.bare c postfixRank)
        (.node .updateExpression [.text (text o.spelling), .bool false, v] n) (ls ++ [.mark o])
  | operation {c : Context} {o : TokenKind} {rank : Nat} {l r : Value} {n : Notes}
      {ls ms : List Lexeme} (ranked : o.rank? = some rank) (bar : c.noIn → o ≠ .kwIn)
      (left : Writes (.operand c o rank (leftLeast o rank)) l ls)
      (right : Writes (.operand c o rank (rightLeast o rank)) r ms) :
      Writes (.bare c (conditionalRank + rank))
        (.node (Grammar.operationKind o) [.text (text o.spelling), l, r] n)
        (ls ++ .blank :: .mark o :: .blank :: ms)
  | operandPlain {c : Context} {o : TokenKind} {rank least : Nat} {v : Value} {ls : List Lexeme}
      (apart : mixesNullish (text o.spelling) (conditionalRank + rank) v = .ok false)
      (inner : Writes (.expression c least) v ls) : Writes (.operand c o rank least) v ls
  | operandMixed {c : Context} {o : TokenKind} {rank least : Nat} {v : Value} {ls : List Lexeme}
      (mixed : mixesNullish (text o.spelling) (conditionalRank + rank) v = .ok true)
      (inner : Writes (.expression c least) v ls) :
      Writes (.operand c o rank least) v (enclosed ls)
  | assignment {c : Context} {o : TokenKind} {l r : Value} {n : Notes} {ls ms : List Lexeme}
      (operator : o.isAssignment) (target : Grammar.isTarget l)
      (left : Writes (.expression c callRank) l ls)
      (right : Writes (.expression c assignmentRank) r ms) :
      Writes (.bare c assignmentRank)
        (.node .assignmentExpression [.text (text o.spelling), l, r] n)
        (ls ++ .blank :: .mark o :: .blank :: ms)
  | conditional {c : Context} {t l r : Value} {n : Notes} {ls ms ns : List Lexeme}
      (test : Writes (.expression c (conditionalRank + 1)) t ls)
      (consequent : Writes (.expression c.lifted assignmentRank) l ms)
      (alternate : Writes (.expression c assignmentRank) r ns) :
      Writes (.bare c conditionalRank) (.node .conditionalExpression [t, l, r] n)
        (ls ++ .blank :: .mark .question :: .blank ::
          (ms ++ .blank :: .mark .colon :: .blank :: ns))
  | sequence {c : Context} {v w : Value} {vs : List Value} {n : Notes} {ls : List Lexeme}
      (items : Writes (.commas (.expression c assignmentRank)) (.list (v :: w :: vs)) ls) :
      Writes (.bare c sequenceRank) (.node .sequenceExpression [.list (v :: w :: vs)] n) ls
  | arguments {c : Context} {es : List Value} {ls : List Lexeme}
      (items : Writes (.commas (.expression c.lifted assignmentRank)) (.list es) ls) :
      Writes (.arguments c) (.list es) (enclosed ls)
  | call {c : Context} {v : Value} {es : List Value} {n : Notes} {ls ms : List Lexeme}
      (callee : Writes (.expression c callRank) v ls)
      (args : Writes (.arguments c) (.list es) ms) :
      Writes (.bare c callRank) (.node .callExpression [v, .list es] n) (ls ++ ms)
  | calleePlain {c : Context} {v : Value} {ls : List Lexeme} (plain : startsWithCall v = false)
      (inner : Writes (.expression c callRank) v ls) : Writes (.callee c) v ls
  | calleeCall {c : Context} {v : Value} {ls : List Lexeme} (call : startsWithCall v)
      (inner : Writes (.expression c callRank) v ls) : Writes (.callee c) v (enclosed ls)
  | construction {c : Context} {v : Value} {es : List Value} {n : Notes} {ls ms : List Lexeme}
      (callee : Writes (.callee c) v ls) (args : Writes (.arguments c) (.list es) ms) :
      Writes (.bare c callRank) (.node .newExpression [v, .list es] n)
        (.mark .kwNew :: .blank :: (ls ++ ms))
  | objectPlain {c : Context} {v : Value} {ls : List Lexeme} (plain : isNumberLiteral v = false)
      (inner : Writes (.expression c callRank) v ls) : Writes (.object c) v ls
  | objectNumber {c : Context} {v : Value} {ls : List Lexeme} (number : isNumberLiteral v)
      (inner : Writes (.expression c callRank) v ls) : Writes (.object c) v (enclosed ls)
  | memberNamed {c : Context} {v p : Value} {n : Notes} {ls ms : List Lexeme}
      (object : Writes (.object c) v ls) (name : Writes (.word c) p ms) :
      Writes (.bare c callRank) (.node .memberExpression [v, p, .bool false] n)
        (ls ++ .mark .dot :: ms)
  | memberIndexed {c : Context} {v p : Value} {n : Notes} {ls ms : List Lexeme}
      (object : Writes (.object c) v ls) (index : Writes (.expression c.lifted sequenceRank) p ms) :
      Writes (.bare c callRank) (.node .memberExpression [v, p, .bool true] n)
        (ls ++ .mark .leftBracket :: (ms ++ [.mark .rightBracket]))
  | blockNone {c : Context} {n : Notes}
      (none : trailingComments (c.aloud aloud) (.node .blockStatement [.list []] n) = []) :
      Writes (.block c) (.node .blockStatement [.list []] n) [.mark .leftBrace, .mark .rightBrace]
  | blockRemarks {c : Context} {x : Comment} {xs : List Comment} {n : Notes}
      (some : trailingComments (c.aloud aloud) (.node .blockStatement [.list []] n) = x :: xs)
      (legible : ∀ y ∈ x :: xs, y.legible) :
      Writes (.block c) (.node .blockStatement [.list []] n)
        (.mark .leftBrace ::
          (remarksAfter (c.depth + 1) (x :: xs) ++ [.line c.depth, .mark .rightBrace]))
  | block {c : Context} {e : Value} {es : List Value} {n : Notes} {ls : List Lexeme}
      (body : Writes (.lines c.lifted.deeper) (.list (e :: es)) ls) :
      Writes (.block c) (.node .blockStatement [.list (e :: es)] n)
        (.mark .leftBrace :: .line (c.depth + 1) :: (ls ++ [.line c.depth, .mark .rightBrace]))
  | declaratorBare {c : Context} {i : Value} {n : Notes} {ls : List Lexeme}
      (name : Writes (.binding c) i ls) (silent : c.comments → n.comments = []) :
      Writes (.declarator c) (.node .variableDeclarator [i, .null] n) ls
  | declaratorInit {c : Context} {i v : Value} {n : Notes} {ls ms : List Lexeme}
      (name : Writes (.binding c) i ls) (init : Writes (.expression c assignmentRank) v ms)
      (silent : c.comments → n.comments = []) :
      Writes (.declarator c) (.node .variableDeclarator [i, v] n)
        (ls ++ .blank :: .mark .assign :: .blank :: ms)
  | declaration {c : Context} {k : TokenKind} {e : Value} {es : List Value} {n : Notes}
      {ls : List Lexeme} (word : k.declares)
      (items : Writes (.commas (.declarator c)) (.list (e :: es)) ls) :
      Writes (.declaration c)
        (.node .variableDeclaration [.text (text k.spelling), .list (e :: es)] n)
        (.mark k :: .blank :: ls)
  | ownExpression {c : Context} {v : Value} {n : Notes} {ls : List Lexeme}
      (inner : Writes (.expression c sequenceRank) v ls) (plain : clashes (layout ls) = false) :
      Writes (.own c) (.node .expressionStatement [v] n) (ls ++ [.mark .semicolon])
  | ownClash {c : Context} {v : Value} {n : Notes} {ls : List Lexeme}
      (inner : Writes (.expression c sequenceRank) v ls) (clash : clashes (layout ls)) :
      Writes (.own c) (.node .expressionStatement [v] n) (enclosed ls ++ [.mark .semicolon])
  | ownBlock {c : Context} {v : Value} {ls : List Lexeme} (inner : Writes (.block c) v ls) :
      Writes (.own c) v ls
  | ownEmpty {c : Context} {n : Notes} :
      Writes (.own c) (.node .emptyStatement [] n) [.mark .semicolon]
  | ownDeclaration {c : Context} {v : Value} {ls : List Lexeme}
      (inner : Writes (.declaration c) v ls) : Writes (.own c) v (ls ++ [.mark .semicolon])
  | ownFunction {c : Context} {v : Value} {ls : List Lexeme}
      (inner : Writes (.function c true) v ls) : Writes (.own c) v ls
  | returnBare {c : Context} {n : Notes} :
      Writes (.own c) (.node .returnStatement [.null] n) [.mark .kwReturn, .mark .semicolon]
  | returnValue {c : Context} {v : Value} {n : Notes} {ls : List Lexeme}
      (value : Writes (.expression c sequenceRank) v ls) :
      Writes (.own c) (.node .returnStatement [v] n)
        (.mark .kwReturn :: .blank :: (ls ++ [.mark .semicolon]))
  | breakBare {c : Context} {n : Notes} :
      Writes (.own c) (.node .breakStatement [.null] n) [.mark .kwBreak, .mark .semicolon]
  | breakLabel {c : Context} {v : Value} {n : Notes} {ls : List Lexeme}
      (label : Writes (.binding c) v ls) :
      Writes (.own c) (.node .breakStatement [v] n)
        (.mark .kwBreak :: .blank :: (ls ++ [.mark .semicolon]))
  | continueBare {c : Context} {n : Notes} :
      Writes (.own c) (.node .continueStatement [.null] n) [.mark .kwContinue, .mark .semicolon]
  | continueLabel {c : Context} {v : Value} {n : Notes} {ls : List Lexeme}
      (label : Writes (.binding c) v ls) :
      Writes (.own c) (.node .continueStatement [v] n)
        (.mark .kwContinue :: .blank :: (ls ++ [.mark .semicolon]))
  | throwValue {c : Context} {v : Value} {n : Notes} {ls : List Lexeme}
      (value : Writes (.expression c sequenceRank) v ls) :
      Writes (.own c) (.node .throwStatement [v] n)
        (.mark .kwThrow :: .blank :: (ls ++ [.mark .semicolon]))
  | ownChoice {c : Context} {v : Value} {ls : List Lexeme} (inner : Writes (.choice c) v ls) :
      Writes (.own c) v ls
  | bodyBlock {c : Context} {v : Value} {ls : List Lexeme} (inner : Writes (.block c) v ls)
      (alone : c.comments → v.Alone) : Writes (.body c) v (.blank :: ls)
  | bodyLine {c : Context} {v : Value} {ls : List Lexeme}
      (other : v.isKind .blockStatement = false) (inner : Writes (.statement c.deeper) v ls)
      (alone : c.comments → v.Alone) : Writes (.body c) v (.line (c.depth + 1) :: ls)
  | choiceShort {c : Context} {t l : Value} {n : Notes} {ls ms : List Lexeme}
      (test : Writes (.expression c sequenceRank) t ls) (left : Writes (.body c) l ms) :
      Writes (.choice c) (.node .ifStatement [t, l, .null] n)
        (.mark .kwIf :: .blank :: (enclosed ls ++ ms))
  | choiceElse {c : Context} {t l r : Value} {n : Notes} {ls ms ns : List Lexeme}
      (test : Writes (.expression c sequenceRank) t ls) (left : Writes (.body c) l ms)
      (closed : l.endsOpen = false) (other : r.isKind .ifStatement = false)
      (right : Writes (.body c) r ns) :
      Writes (.choice c) (.node .ifStatement [t, l, r] n)
        (.mark .kwIf :: .blank :: (enclosed ls ++ (ms ++ bodyGap c l :: .mark .kwElse :: ns)))
  | choiceChain {c : Context} {t l r : Value} {n : Notes} {ls ms ns : List Lexeme}
      (test : Writes (.expression c sequenceRank) t ls) (left : Writes (.body c) l ms)
      (closed : l.endsOpen = false) (right : Writes (.choice c) r ns)
      (alone : c.comments → r.Alone) :
      Writes (.choice c) (.node .ifStatement [t, l, r] n)
        (.mark .kwIf :: .blank ::
          (enclosed ls ++ (ms ++ bodyGap c l :: .mark .kwElse :: .blank :: ns)))
  | initNone {c : Context} : Writes (.loopInit c) .null []
  | initDeclaration {c : Context} {v : Value} {ls : List Lexeme}
      (inner : Writes (.declaration c.loopHead) v ls) (silent : c.comments → v.comments = []) :
      Writes (.loopInit c) v ls
  | initExpression {c : Context} {v : Value} {ls : List Lexeme}
      (inner : Writes (.expression c.loopHead sequenceRank) v ls) : Writes (.loopInit c) v ls
  | partNone {c : Context} : Writes (.loopPart c) .null []
  | partSome {c : Context} {v : Value} {ls : List Lexeme}
      (inner : Writes (.expression c sequenceRank) v ls) : Writes (.loopPart c) v (.blank :: ls)
  | forCounted {c : Context} {i t u b : Value} {n : Notes} {ls ms ns os : List Lexeme}
      (init : Writes (.loopInit c) i ls) (test : Writes (.loopPart c) t ms)
      (update : Writes (.loopPart c) u ns) (body : Writes (.body c) b os) :
      Writes (.own c) (.node .forStatement [i, t, u, b] n)
        (.mark .kwFor :: .blank :: (enclosed
          (ls ++ .mark .semicolon :: (ms ++ .mark .semicolon :: ns)) ++ os))
  | targetVariable {c : Context} {k : TokenKind} {i : Value} {m n : Notes} {ls : List Lexeme}
      (word : k.declares) (name : Writes (.binding c) i ls)
      (silent : c.comments → m.comments = [] ∧ n.comments = []) :
      Writes (.loopTarget c) (.node .variableDeclaration
        [.text (text k.spelling), .list [.node .variableDeclarator [i, .null] m]] n)
        (.mark k :: .blank :: ls)
  | targetPlace {c : Context} {v : Value} {ls : List Lexeme} (target : Grammar.isTarget v)
      (inner : Writes (.expression c callRank) v ls) : Writes (.loopTarget c) v ls
  | forIn {c : Context} {l r b : Value} {n : Notes} {ls ms ns : List Lexeme}
      (left : Writes (.loopTarget c) l ls) (right : Writes (.expression c assignmentRank) r ms)
      (body : Writes (.body c) b ns) :
      Writes (.own c) (.node .forInStatement [l, r, b] n)
        (.mark .kwFor :: .blank ::
          (enclosed (ls ++ .blank :: .mark .kwIn :: .blank :: ms) ++ ns))
  | forOf {c : Context} {l r b : Value} {n : Notes} {ls ms ns : List Lexeme}
      (left : Writes (.loopTarget c) l ls) (right : Writes (.expression c assignmentRank) r ms)
      (body : Writes (.body c) b ns) :
      Writes (.own c) (.node .forOfStatement [l, r, b] n)
        (.mark .kwFor :: .blank ::
          (enclosed (ls ++ .blank :: .word (text "of") :: .blank :: ms) ++ ns))
  | whileLoop {c : Context} {t b : Value} {n : Notes} {ls ms : List Lexeme}
      (test : Writes (.expression c sequenceRank) t ls) (body : Writes (.body c) b ms) :
      Writes (.own c) (.node .whileStatement [t, b] n)
        (.mark .kwWhile :: .blank :: (enclosed ls ++ ms))
  | doLoop {c : Context} {t b : Value} {n : Notes} {ls ms : List Lexeme}
      (body : Writes (.body c) b ls) (test : Writes (.expression c sequenceRank) t ms) :
      Writes (.own c) (.node .doWhileStatement [b, t] n)
        (.mark .kwDo :: (ls ++ bodyGap c b :: .mark .kwWhile :: .blank ::
          (enclosed ms ++ [.mark .semicolon])))
  | handlerBare {c : Context} {b : Value} {n : Notes} {ls : List Lexeme}
      (body : Writes (.block c) b ls) (alone : c.comments → b.Alone)
      (silent : c.comments → n.comments = []) :
      Writes (.handler c) (.node .catchClause [.null, b] n) (.mark .kwCatch :: .blank :: ls)
  | handlerNamed {c : Context} {p b : Value} {n : Notes} {ls ms : List Lexeme}
      (param : Writes (.binding c) p ls) (body : Writes (.block c) b ms)
      (alone : c.comments → b.Alone) (silent : c.comments → n.comments = []) :
      Writes (.handler c) (.node .catchClause [p, b] n)
        (.mark .kwCatch :: .blank :: (enclosed ls ++ .blank :: ms))
  | tryHandled {c : Context} {b h : Value} {n : Notes} {ls ms : List Lexeme}
      (guarded : Writes (.block c) b ls) (first : c.comments → b.Alone)
      (handler : Writes (.handler c) h ms) :
      Writes (.own c) (.node .tryStatement [b, h, .null] n)
        (.mark .kwTry :: .blank :: (ls ++ .blank :: ms))
  | tryFinal {c : Context} {b z : Value} {n : Notes} {ls ms : List Lexeme}
      (guarded : Writes (.block c) b ls) (first : c.comments → b.Alone)
      (finalizer : Writes (.block c) z ms) (last : c.comments → z.Alone) :
      Writes (.own c) (.node .tryStatement [b, .null, z] n)
        (.mark .kwTry :: .blank :: (ls ++ .blank :: .mark .kwFinally :: .blank :: ms))
  | tryBoth {c : Context} {b h z : Value} {n : Notes} {ls ms ns : List Lexeme}
      (guarded : Writes (.block c) b ls) (first : c.comments → b.Alone)
      (handler : Writes (.handler c) h ms) (finalizer : Writes (.block c) z ns)
      (last : c.comments → z.Alone) :
      Writes (.own c) (.node .tryStatement [b, h, z] n)
        (.mark .kwTry :: .blank ::
          (ls ++ .blank :: (ms ++ .blank :: .mark .kwFinally :: .blank :: ns)))
  | statement {c : Context} {v : Value} {ls : List Lexeme} (own : Writes (.own c) v ls)
      (solid : c.comments → v.isHollow = false)
      (legible : (c.aloud aloud).comments → ∀ x ∈ v.comments, x.legible)
      (ordered : c.comments → v.comments = leadingComments c v ++ trailingComments c v) :
      Writes (.statement c) v (remarksBefore c.depth (leadingComments (c.aloud aloud) v) ++
        (ls ++ remarksAfter c.depth (followingComments (c.aloud aloud) v)))
  | linesLast {c : Context} {v : Value} {ls : List Lexeme} (item : Writes (.statement c) v ls) :
      Writes (.lines c) (.list [v]) ls
  | linesMore {c : Context} {v w : Value} {vs : List Value} {ls ms : List Lexeme}
      (item : Writes (.statement c) v ls) (quiet : trailingComments c v = [])
      (more : Writes (.lines c) (.list (w :: vs)) ms) :
      Writes (.lines c) (.list (v :: w :: vs)) (ls ++ .line c.depth :: ms)
  | programNone {c : Context} {n : Notes}
      (none : trailingComments (c.aloud aloud) (.node .program [.list []] n) = []) :
      Writes (.program c) (.node .program [.list []] n) []
  | programRemarks {c : Context} {x : Comment} {xs : List Comment} {n : Notes}
      (some : trailingComments (c.aloud aloud) (.node .program [.list []] n) = x :: xs)
      (legible : ∀ y ∈ x :: xs, y.legible) :
      Writes (.program c) (.node .program [.list []] n) (.remark x :: remarksAfter c.depth xs)
  | program {c : Context} {e : Value} {es : List Value} {n : Notes} {ls : List Lexeme}
      (body : Writes (.lines c) (.list (e :: es)) ls)
      (quiet : trailingComments (c.aloud aloud) (.node .program [.list (e :: es)] n) = []) :
      Writes (.program c) (.node .program [.list (e :: es)] n) ls

inductive Form.Family
  | lists
  | names
  | places
  | expressions
  | parts
  | blocks
  | statements

def Form.family : Form → Form.Family
  | commas _ | elements _ | arguments _ | lines _ => .lists
  | binding _ | word _ | key _ => .names
  | expression .. | operand .. | object _ | callee _ => .places
  | bare .. | function .. => .expressions
  | property _ | declarator _ | declaration _ | loopInit _ | loopPart _ | loopTarget _ => .parts
  | block _ | body _ | handler _ | statement _ | program _ => .blocks
  | choice _ | own _ => .statements

/-- The rule by which a part is written, with what is known of the parts that the rule takes. -/
abbrev Writes.Rule {aloud : Bool} (known : Form → Value → List Lexeme → Prop) {f : Form} {v : Value}
    {ls : List Lexeme} (writes : Writes aloud f v ls) : Prop :=
  Writes.below (motive := fun f v ls _ => known f v ls) writes

/-- What is known of the parts that a rule takes is known of what it writes, in a family. -/
def Form.Family.Keeps (family : Form.Family) (aloud : Bool)
    (known : Form → Value → List Lexeme → Prop) : Prop :=
  ∀ {f v ls} {writes : Writes aloud f v ls}, writes.Rule known → f.family = family → known f v ls

theorem Writes.byFamily {aloud : Bool} {known : Form → Value → List Lexeme → Prop}
    (keeps : ∀ family : Form.Family, family.Keeps aloud known) {f : Form} {v : Value}
    {ls : List Lexeme} (writes : Writes aloud f v ls) : known f v ls :=
  Writes.brecOn (motive := fun f v ls _ => known f v ls) writes
    fun f _ _ _ rule => keeps f.family rule rfl

end ScriptTree
