import ScriptTree.Proofs.Grammar.Run

/-!
The grammar as a relation: which value a part of the language reads from a feed, and where reading
stands after it. The relation has neither depths nor step counts. What holds of every parse is
proved by induction on it, and it is shown elsewhere that the parsers compute it.
-/
namespace ScriptTree.Grammar

/-- What stands between commas. -/
inductive Item
  | binding
  | nested
  | property
  | assignment
  | declarator

/-- The parts of the language. A part with a mark and a value goes on from that value, which has
been read from the mark on. -/
inductive Part
  | statement
  | assignment
  | unary
  | binary (least : Nat)
  | construction
  | sequence
  | conditional
  | arrow
  | arrowParameters
  | stepped
  | access
  | head
  | primary
  | nested
  | group
  | binding
  | propertyName
  | parameters
  | arguments
  | elements
  | property
  | function (declared : Bool)
  | block
  | declarator
  | declaration
  | loopInit
  | label
  | handler
  | finalizer
  | commas (item : Item)
  | closed (close : TokenKind) (item : Item)
  | statements (close : TokenKind)
  | optional (close : TokenKind)
  | counted (start : Mark) (init : Value)
  | member (start : Mark) (object : Value)
  | members (start : Mark) (object : Value)
  | accesses (start : Mark) (object : Value)
  | operations (start : Mark) (least : Nat) (left : Value)

def Item.part : Item → Part
  | binding => .binding
  | nested => .nested
  | property => .property
  | assignment => .assignment
  | declarator => .declarator

/-- The classes of tokens that begin a statement other than an expression. -/
def opensStatement (kind : TokenKind) : Bool :=
  [.leftBrace, .semicolon, .kwVar, .kwLet, .kwConst, .kwFunction, .kwIf, .kwFor, .kwWhile, .kwDo,
    .kwTry, .kwReturn, .kwBreak, .kwContinue, .kwThrow].contains kind

def operationKind (kind : TokenKind) : Kind :=
  if kind.isLogical then .logicalExpression else .binaryExpression

def Feed.literal (f : Feed) (value : Value) : Value :=
  (f.next.node .literal [value] f.current.start).mapNotes ({ · with raw := some f.current.raw })

def Feed.spelled (f : Feed) : Value := .text f.current.word

/-- A part reads a value between two feeds. -/
inductive Reads : Part → Feed → Value → Feed → Prop
  | commasLast {e : Item} {f g : Feed} {v : Value}
      (item : Reads e.part f v g) (stop : g.current.kind ≠ .comma) :
      Reads (.commas e) f (.list [v]) g
  | commasMore {e : Item} {f g h : Feed} {v : Value} {vs : List Value}
      (item : Reads e.part f v g) (comma : g.current.kind = .comma)
      (more : Reads (.commas e) g.next (.list vs) h) : Reads (.commas e) f (.list (v :: vs)) h
  | closedNone {k : TokenKind} {e : Item} {f : Feed}
      (close : f.current.kind = k) : Reads (.closed k e) f (.list []) f
  | closedLast {k : TokenKind} {e : Item} {f g : Feed} {v : Value}
      (start : f.current.kind ≠ k) (item : Reads e.part f v g)
      (stop : g.current.kind ≠ .comma) : Reads (.closed k e) f (.list [v]) g
  | closedMore {k : TokenKind} {e : Item} {f g h : Feed} {v : Value} {vs : List Value}
      (start : f.current.kind ≠ k) (item : Reads e.part f v g)
      (comma : g.current.kind = .comma) (more : Reads (.closed k e) g.next (.list vs) h) :
      Reads (.closed k e) f (.list (v :: vs)) h
  | binding {f : Feed} (name : f.current.kind = .ident) :
      Reads .binding f (f.next.node .identifier [f.current.value] f.current.start) f.next
  | propertyName {f : Feed} (name : f.current.kind = .ident ∨ f.current.kind.isKeyword) :
      Reads .propertyName f (f.next.node .identifier [f.spelled] f.current.start) f.next
  | nested {f g : Feed} {v : Value}
      (inner : Reads .assignment f.lift v g) : Reads .nested f v (g.resume f)
  | group {f g : Feed} {v : Value}
      (inner : Reads .sequence f.lift v g) : Reads .group f v (g.resume f)
  | single {f g : Feed} {v : Value}
      (item : Reads .assignment f v g) (stop : g.current.kind ≠ .comma) :
      Reads .sequence f v g
  | sequence {f g h : Feed} {v : Value} {vs : List Value}
      (first : Reads .assignment f v g) (comma : g.current.kind = .comma)
      (more : Reads (.commas .assignment) g.next (.list vs) h) :
      Reads .sequence f (h.node .sequenceExpression [.list (v :: vs)] f.current.start) h
  | arrowFunction {f g : Feed} {v : Value}
      (starts : f.startsArrow) (inner : Reads .arrow f v g) : Reads .assignment f v g
  | unassigned {f g : Feed} {v : Value}
      (starts : f.startsArrow = false) (inner : Reads .conditional f v g)
      (stop : g.current.kind.isAssignment = false) : Reads .assignment f v g
  | assigned {f g h : Feed} {left right : Value}
      (starts : f.startsArrow = false) (inner : Reads .conditional f left g)
      (operator : g.current.kind.isAssignment) (target : isTarget left)
      (value : Reads .assignment g.next right h) :
      Reads .assignment f
        (h.node .assignmentExpression [g.current.value, left, right] f.current.start) h
  | arrowName {f g : Feed} {v : Value}
      (name : Reads .binding f v g) : Reads .arrowParameters f (.list [v]) g
  | arrowNames {f g : Feed} {v : Value}
      (opening : f.current.kind ≠ .ident) (names : Reads .parameters f v g) :
      Reads .arrowParameters f v g
  | arrowBlock {f g h : Feed} {v w : Value}
      (params : Reads .arrowParameters f v g) (arrow : g.current.kind = .arrow)
      (brace : g.next.current.kind = .leftBrace) (body : Reads .block g.next w h) :
      Reads .arrow f (h.node .arrowFunctionExpression [v, w, .bool false] f.current.start) h
  | arrowValue {f g h : Feed} {v w : Value}
      (params : Reads .arrowParameters f v g) (arrow : g.current.kind = .arrow)
      (brace : g.next.current.kind ≠ .leftBrace) (body : Reads .nested g.next w h) :
      Reads .arrow f (h.node .arrowFunctionExpression [v, w, .bool true] f.current.start) h
  | untested {f g : Feed} {v : Value}
      (inner : Reads (.binary 0) f v g) (stop : g.current.kind ≠ .question) :
      Reads .conditional f v g
  | tested {f g h i : Feed} {left right test : Value}
      (condition : Reads (.binary 0) f test g) (question : g.current.kind = .question)
      (consequent : Reads .nested g.next left h) (colon : h.current.kind = .colon)
      (alternate : Reads .assignment h.next right i) :
      Reads .conditional f
        (i.node .conditionalExpression [test, left, right] f.current.start) i
  | binary {least : Nat} {f g h : Feed} {v left : Value} (first : Reads .unary f left g)
      (more : Reads (.operations f.current.start least left) g v h) : Reads (.binary least) f v h
  | operationsStop {start : Mark} {least : Nat} {f : Feed} {left : Value}
      (stop : ∀ rank, f.rank? = some rank → rank ≤ least) :
      Reads (.operations start least left) f left f
  | operationsMore {start : Mark} {least rank : Nat} {f g h : Feed} {v left right : Value}
      (ranked : f.rank? = some rank) (tighter : least < rank)
      (operand : Reads (.binary (if f.current.kind = .power then rank - 1 else rank)) f.next
        right g)
      (more : Reads (.operations start least
        (g.node (operationKind f.current.kind) [f.current.value, left, right] start)) g v h) :
      Reads (.operations start least left) f v h
  | unaryOperator {f g : Feed} {v : Value}
      (operator : f.current.kind.isUnary) (operand : Reads .unary f.next v g) :
      Reads .unary f (g.node .unaryExpression [f.current.value, v] f.current.start) g
  | stepBefore {f g : Feed} {v : Value}
      (plain : f.current.kind.isUnary = false) (operator : f.current.kind.isUpdate)
      (operand : Reads .unary f.next v g) (target : isTarget v) :
      Reads .unary f (g.node .updateExpression [f.current.value, .bool true, v] f.current.start) g
  | unsigned {f g : Feed} {v : Value}
      (plain : f.current.kind.isUnary = false) (still : f.current.kind.isUpdate = false)
      (inner : Reads .stepped f v g) : Reads .unary f v g
  | unstepped {f g : Feed} {v : Value} (inner : Reads .access f v g)
      (stop : (g.current.kind.isUpdate && !g.current.newlineBefore) = false) :
      Reads .stepped f v g
  | stepAfter {f g : Feed} {v : Value}
      (inner : Reads .access f v g) (operator : g.current.kind.isUpdate)
      (line : g.current.newlineBefore = false) (target : isTarget v) :
      Reads .stepped f
        (g.next.node .updateExpression [g.current.value, .bool false, v] f.current.start) g.next
  | access {f g h : Feed} {v w : Value}
      (first : Reads .head f v g) (more : Reads (.accesses f.current.start v) g w h) :
      Reads .access f w h
  | headNew {f g : Feed} {v : Value}
      (new : f.current.kind = .kwNew) (inner : Reads .construction f v g) :
      Reads .head f v g
  | headPrimary {f g : Feed} {v : Value}
      (plain : f.current.kind ≠ .kwNew) (inner : Reads .primary f v g) :
      Reads .head f v g
  | memberNamed {start : Mark} {f g : Feed} {v object : Value}
      (dot : f.current.kind = .dot) (name : Reads .propertyName f.next v g) :
      Reads (.member start object) f
        (g.node .memberExpression [object, v, .bool false] start) g
  | memberIndexed {start : Mark} {f g : Feed} {v object : Value}
      (bracket : f.current.kind = .leftBracket) (index : Reads .group f.next v g)
      (close : g.current.kind = .rightBracket) :
      Reads (.member start object) f
        (g.next.node .memberExpression [object, v, .bool true] start) g.next
  | membersMore {start : Mark} {f g h : Feed} {v w object : Value}
      (first : Reads (.member start object) f v g)
      (more : Reads (.members start v) g w h) : Reads (.members start object) f w h
  | membersStop {start : Mark} {f : Feed} {object : Value}
      (dot : f.current.kind ≠ .dot) (bracket : f.current.kind ≠ .leftBracket) :
      Reads (.members start object) f object f
  | accessesMember {start : Mark} {f g h : Feed} {v w object : Value}
      (first : Reads (.member start object) f v g)
      (more : Reads (.accesses start v) g w h) : Reads (.accesses start object) f w h
  | accessesCall {start : Mark} {f g h : Feed} {v w object : Value} (args : Reads .arguments f v g)
      (more : Reads (.accesses start (g.node .callExpression [object, v] start)) g w h) :
      Reads (.accesses start object) f w h
  | accessesStop {start : Mark} {f : Feed} {object : Value}
      (dot : f.current.kind ≠ .dot) (bracket : f.current.kind ≠ .leftBracket)
      (paren : f.current.kind ≠ .leftParen) : Reads (.accesses start object) f object f
  | constructionCall {f g h i : Feed} {v w object : Value}
      (new : f.current.kind = .kwNew) (first : Reads .head f.next object g)
      (more : Reads (.members f.current.start object) g v h) (args : Reads .arguments h w i) :
      Reads .construction f (i.node .newExpression [v, w] f.current.start) i
  | constructionBare {f g h : Feed} {v object : Value}
      (new : f.current.kind = .kwNew) (first : Reads .head f.next object g)
      (more : Reads (.members f.current.start object) g v h)
      (stop : h.current.kind ≠ .leftParen) :
      Reads .construction f (h.node .newExpression [v, .list []] f.current.start) h
  | arguments {f g : Feed} {v : Value} (opening : f.current.kind = .leftParen)
      (items : Reads (.closed .rightParen .nested) f.next v g)
      (close : g.current.kind = .rightParen) : Reads .arguments f v g.next
  | name {f : Feed} (ident : f.current.kind = .ident) :
      Reads .primary f (f.next.node .identifier [f.current.value] f.current.start) f.next
  | numberOrString {f : Feed} (scalar : f.current.kind = .number ∨ f.current.kind = .string) :
      Reads .primary f (f.literal f.current.value) f.next
  | wordTrue {f : Feed}
      (word : f.current.kind = .kwTrue) : Reads .primary f (f.literal (.bool true)) f.next
  | wordFalse {f : Feed}
      (word : f.current.kind = .kwFalse) : Reads .primary f (f.literal (.bool false)) f.next
  | wordNull {f : Feed}
      (word : f.current.kind = .kwNull) : Reads .primary f (f.literal .null) f.next
  | wordThis {f : Feed} (word : f.current.kind = .kwThis) :
      Reads .primary f (f.next.node .thisExpression [] f.current.start) f.next
  | functionExpression {f g : Feed} {v : Value}
      (inner : Reads (.function false) f v g) : Reads .primary f v g
  | parenthesized {f g : Feed} {v : Value}
      (opening : f.current.kind = .leftParen) (inner : Reads .group f.next v g)
      (close : g.current.kind = .rightParen) : Reads .primary f v g.next
  | array {f g : Feed} {v : Value}
      (opening : f.current.kind = .leftBracket) (items : Reads .elements f.next v g)
      (close : g.current.kind = .rightBracket) :
      Reads .primary f (g.next.node .arrayExpression [v] f.current.start) g.next
  | elementsNone {f : Feed}
      (close : f.current.kind = .rightBracket) : Reads .elements f (.list []) f
  | elementsHole {f g : Feed} {vs : List Value}
      (comma : f.current.kind = .comma) (more : Reads .elements f.next (.list vs) g) :
      Reads .elements f (.list (.null :: vs)) g
  | elementsLast {f g : Feed} {v : Value}
      (close : f.current.kind ≠ .rightBracket) (comma : f.current.kind ≠ .comma)
      (item : Reads .nested f v g) (stop : g.current.kind = .rightBracket) :
      Reads .elements f (.list [v]) g
  | elementsMore {f g h : Feed} {v : Value} {vs : List Value}
      (close : f.current.kind ≠ .rightBracket) (comma : f.current.kind ≠ .comma)
      (item : Reads .nested f v g) (next : g.current.kind = .comma)
      (more : Reads .elements g.next (.list vs) h) : Reads .elements f (.list (v :: vs)) h
  | object {f g : Feed} {v : Value} (opening : f.current.kind = .leftBrace)
      (items : Reads (.closed .rightBrace .property) f.next v g)
      (close : g.current.kind = .rightBrace) :
      Reads .primary f (g.next.node .objectExpression [v] f.current.start) g.next
  | propertyComputed {f g h : Feed} {v w : Value}
      (opening : f.current.kind = .leftBracket) (key : Reads .nested f.next v g)
      (close : g.current.kind = .rightBracket) (colon : g.next.current.kind = .colon)
      (value : Reads .nested g.next.next w h) :
      Reads .property f
        (h.node .property [v, w, .bool true, .bool false] f.current.start) h
  | propertyLiteral {f h : Feed} {w : Value}
      (key : f.current.kind = .string ∨ f.current.kind = .number)
      (colon : f.next.current.kind = .colon) (value : Reads .nested f.next.next w h) :
      Reads .property f
        (h.node .property [f.literal f.current.value, w, .bool false, .bool false]
          f.current.start) h
  | propertyNamed {f h : Feed} {v w : Value} (key : Reads .propertyName f v f.next)
      (colon : f.next.current.kind = .colon) (value : Reads .nested f.next.next w h) :
      Reads .property f (h.node .property [v, w, .bool false, .bool false] f.current.start) h
  | propertyShort {f : Feed} (key : f.current.kind = .ident)
      (stop : f.next.current.kind = .comma ∨ f.next.current.kind = .rightBrace) :
      Reads .property f
        (f.next.node .property
          [f.next.node .identifier [f.spelled] f.current.start,
            f.next.node .identifier [f.current.value] f.current.start, .bool false, .bool true]
          f.current.start) f.next
  | parameters {f g : Feed} {v : Value} (opening : f.current.kind = .leftParen)
      (items : Reads (.closed .rightParen .binding) f.next v g)
      (close : g.current.kind = .rightParen) : Reads .parameters f v g.next
  | functionNamed {declared : Bool} {f g h i : Feed} {v w object : Value}
      (word : f.current.kind = .kwFunction)
      (name : Reads .binding f.next v g) (params : Reads .parameters g w h)
      (body : Reads .block h object i) :
      Reads (.function declared) f
        (i.node (if declared then .functionDeclaration else .functionExpression) [v, w, object]
          f.current.start) i
  | functionUnnamed {f h i : Feed} {w object : Value}
      (word : f.current.kind = .kwFunction) (name : f.next.current.kind ≠ .ident)
      (params : Reads .parameters f.next w h) (body : Reads .block h object i) :
      Reads (.function false) f
        (i.node .functionExpression [.null, w, object] f.current.start) i
  | statementsNone {k : TokenKind} {f : Feed}
      (close : f.current.kind = k) : Reads (.statements k) f (.list []) f
  | statementsMore {k : TokenKind} {f g h : Feed} {v : Value} {vs : List Value}
      (close : f.current.kind ≠ k) (input : f.current.kind ≠ .endOfInput)
      (first : Reads .statement f v g) (more : Reads (.statements k) g (.list vs) h) :
      Reads (.statements k) f (.list (attachLeading f.current.comments v :: vs)) h
  | blockEmpty {f : Feed}
      (opening : f.current.kind = .leftBrace) (close : f.next.current.kind = .rightBrace) :
      Reads .block f
        (attachTrailing f.next.current
          (f.next.next.node .blockStatement [.list []] f.current.start)) f.next.next
  | block {f g : Feed} {v : Value} {vs : List Value} (opening : f.current.kind = .leftBrace)
      (body : Reads (.statements .rightBrace) f.next.lift (.list (v :: vs)) g)
      (close : g.current.kind = .rightBrace) :
      Reads .block f
        ((g.resume f).next.node .blockStatement
          [.list (mapLast (attachTrailing g.current) (v :: vs))] f.current.start)
        (g.resume f).next
  | declaratorBare {f g : Feed} {v : Value}
      (name : Reads .binding f v g) (stop : g.current.kind ≠ .assign) :
      Reads .declarator f (g.node .variableDeclarator [v, .null] f.current.start) g
  | declaratorInit {f g h : Feed} {v w : Value}
      (name : Reads .binding f v g) (assign : g.current.kind = .assign)
      (init : Reads .assignment g.next w h) :
      Reads .declarator f (h.node .variableDeclarator [v, w] f.current.start) h
  | declaration {f g : Feed} {v : Value}
      (word : f.current.kind.declares) (items : Reads (.commas .declarator) f.next v g) :
      Reads .declaration f
        (g.node .variableDeclaration [.text (text f.current.kind.spelling), v] f.current.start) g
  | blockStatement {f g : Feed} {v : Value} (inner : Reads .block f v g) : Reads .statement f v g
  | emptyStatement {f : Feed} (semicolon : f.current.kind = .semicolon) :
      Reads .statement f (f.next.node .emptyStatement [] f.current.start) f.next
  | variableDeclaration {f g h : Feed} {v : Value}
      (inner : Reads .declaration f v g) (stop : g.Ends h) :
      Reads .statement f v h
  | functionDeclaration {f g : Feed} {v : Value}
      (inner : Reads (.function true) f v g) : Reads .statement f v g
  | ifShort {f g h : Feed} {left test : Value}
      (word : f.current.kind = .kwIf) (opening : f.next.current.kind = .leftParen)
      (condition : Reads .sequence f.next.next test g) (close : g.current.kind = .rightParen)
      (consequent : Reads .statement g.next left h) (stop : h.current.kind ≠ .kwElse) :
      Reads .statement f (h.node .ifStatement [test, left, .null] f.current.start) h
  | ifElse {f g h i : Feed} {left right test : Value}
      (word : f.current.kind = .kwIf) (opening : f.next.current.kind = .leftParen)
      (condition : Reads .sequence f.next.next test g) (close : g.current.kind = .rightParen)
      (consequent : Reads .statement g.next left h) (els : h.current.kind = .kwElse)
      (alternate : Reads .statement h.next right i) :
      Reads .statement f (i.node .ifStatement [test, left, right] f.current.start) i
  | loopInitDeclaration {f g : Feed} {v : Value}
      (word : f.current.kind.declares) (inner : Reads .declaration f v g) :
      Reads .loopInit f v g
  | loopInitExpression {f g : Feed} {v : Value} (word : f.current.kind.declares = false)
      (inner : Reads .sequence f v g) : Reads .loopInit f v g
  | optionalNone {k : TokenKind} {f : Feed}
      (close : f.current.kind = k) : Reads (.optional k) f .null f
  | optionalSome {k : TokenKind} {f g : Feed} {v : Value}
      (close : f.current.kind ≠ k) (inner : Reads .sequence f v g) :
      Reads (.optional k) f v g
  | counted {start : Mark} {f g h i : Feed} {v w test init : Value}
      (first : f.current.kind = .semicolon)
      (condition : Reads (.optional .semicolon) f.next test g)
      (second : g.current.kind = .semicolon)
      (update : Reads (.optional .rightParen) g.next v h)
      (close : h.current.kind = .rightParen) (body : Reads .statement h.next w i) :
      Reads (.counted start init) f (i.node .forStatement [init, test, v, w] start) i
  | forBare {f g : Feed} {v : Value}
      (word : f.current.kind = .kwFor) (opening : f.next.current.kind = .leftParen)
      (semicolon : f.next.next.current.kind = .semicolon)
      (rest : Reads (.counted f.current.start .null) f.next.next v g) : Reads .statement f v g
  | forCounted {f g h : Feed} {v w : Value}
      (word : f.current.kind = .kwFor) (opening : f.next.current.kind = .leftParen)
      (semicolon : f.next.next.current.kind ≠ .semicolon)
      (init : Reads .loopInit f.next.next.bar w g) (loop : g.lift.atLoopWord = false)
      (rest : Reads (.counted f.current.start w) g.lift v h) : Reads .statement f v h
  | forIn {f g h i : Feed} {w left right : Value}
      (word : f.current.kind = .kwFor) (opening : f.next.current.kind = .leftParen)
      (semicolon : f.next.next.current.kind ≠ .semicolon)
      (init : Reads .loopInit f.next.next.bar left g) (loop : g.current.kind = .kwIn)
      (target : isLoopTarget left) (collection : Reads .sequence g.lift.next right h)
      (close : h.current.kind = .rightParen) (body : Reads .statement h.next w i) :
      Reads .statement f (i.node .forInStatement [left, right, w] f.current.start) i
  | forOf {f g h i : Feed} {w left right : Value}
      (word : f.current.kind = .kwFor) (opening : f.next.current.kind = .leftParen)
      (semicolon : f.next.next.current.kind ≠ .semicolon)
      (init : Reads .loopInit f.next.next.bar left g) (loop : g.current.kind = .ident)
      (of : g.current.value = .text (text "of")) (target : isLoopTarget left)
      (collection : Reads .assignment g.lift.next right h)
      (close : h.current.kind = .rightParen) (body : Reads .statement h.next w i) :
      Reads .statement f (i.node .forOfStatement [left, right, w] f.current.start) i
  | whileStatement {f g h : Feed} {w test : Value}
      (word : f.current.kind = .kwWhile) (opening : f.next.current.kind = .leftParen)
      (condition : Reads .sequence f.next.next test g) (close : g.current.kind = .rightParen)
      (body : Reads .statement g.next w h) :
      Reads .statement f (h.node .whileStatement [test, w] f.current.start) h
  | doWhile {f g h i : Feed} {w test : Value}
      (word : f.current.kind = .kwDo) (body : Reads .statement f.next w g)
      (tail : g.current.kind = .kwWhile) (opening : g.next.current.kind = .leftParen)
      (condition : Reads .sequence g.next.next test h) (close : h.current.kind = .rightParen)
      (stop : i = if h.next.current.kind = .semicolon then h.next.next else h.next) :
      Reads .statement f (i.node .doWhileStatement [w, test] f.current.start) i
  | handlerNone {f : Feed} (stop : f.current.kind ≠ .kwCatch) : Reads .handler f .null f
  | handlerBare {f g : Feed} {w : Value}
      (word : f.current.kind = .kwCatch) (paren : f.next.current.kind ≠ .leftParen)
      (body : Reads .block f.next w g) :
      Reads .handler f (g.node .catchClause [.null, w] f.current.start) g
  | handlerNamed {f g h : Feed} {v w : Value}
      (word : f.current.kind = .kwCatch) (opening : f.next.current.kind = .leftParen)
      (name : Reads .binding f.next.next v g) (close : g.current.kind = .rightParen)
      (body : Reads .block g.next w h) :
      Reads .handler f (h.node .catchClause [v, w] f.current.start) h
  | finalizerNone {f : Feed} (stop : f.current.kind ≠ .kwFinally) : Reads .finalizer f .null f
  | finalizerSome {f g : Feed} {w : Value}
      (word : f.current.kind = .kwFinally) (body : Reads .block f.next w g) :
      Reads .finalizer f w g
  | tryStatement {f g h i : Feed} {v w object : Value}
      (word : f.current.kind = .kwTry) (guarded : Reads .block f.next object g)
      (handler : Reads .handler g v h) (finalizer : Reads .finalizer h w i)
      (both : (v.isNull && w.isNull) = false) :
      Reads .statement f (i.node .tryStatement [object, v, w] f.current.start) i
  | returnBare {f g : Feed} (word : f.current.kind = .kwReturn)
      (bare : (f.next.sees .semicolon || f.next.endsStatement) = true)
      (stop : f.next.Ends g) :
      Reads .statement f (g.node .returnStatement [.null] f.current.start) g
  | returnValue {f g h : Feed} {v : Value} (word : f.current.kind = .kwReturn)
      (bare : (f.next.sees .semicolon || f.next.endsStatement) = false)
      (value : Reads .sequence f.next v g) (stop : g.Ends h) :
      Reads .statement f (h.node .returnStatement [v] f.current.start) h
  | labelNone {f : Feed} (stop : (f.sees .ident && !f.current.newlineBefore) = false) :
      Reads .label f .null f
  | labelSome {f g : Feed} {v : Value}
      (line : f.current.newlineBefore = false) (name : Reads .binding f v g) :
      Reads .label f v g
  | breakStatement {f g h : Feed} {v : Value}
      (word : f.current.kind = .kwBreak) (label : Reads .label f.next v g)
      (stop : g.Ends h) : Reads .statement f (h.node .breakStatement [v] f.current.start) h
  | continueStatement {f g h : Feed} {v : Value}
      (word : f.current.kind = .kwContinue) (label : Reads .label f.next v g)
      (stop : g.Ends h) : Reads .statement f (h.node .continueStatement [v] f.current.start) h
  | throwStatement {f g h : Feed} {v : Value} (word : f.current.kind = .kwThrow)
      (line : f.next.current.newlineBefore = false) (value : Reads .sequence f.next v g)
      (stop : g.Ends h) : Reads .statement f (h.node .throwStatement [v] f.current.start) h
  | expressionStatement {f g h : Feed} {v : Value} (word : opensStatement f.current.kind = false)
      (inner : Reads .sequence f v g) (stop : g.Ends h) :
      Reads .statement f (h.node .expressionStatement [v] f.current.start) h

/-- The families of parts. A long induction on the grammar goes family by family. -/
inductive Part.Family
  | lists
  | names
  | assignments
  | operations
  | accesses
  | primaries
  | functions
  | clauses
  | statements

def Part.family : Part → Part.Family
  | commas _ | closed .. | elements | Part.statements _ => .lists
  | binding | propertyName | nested | group | parameters | arguments | optional _ => .names
  | sequence | assignment | arrow | arrowParameters | conditional => .assignments
  | binary _ | operations .. | unary | stepped => .operations
  | access | head | member .. | members .. | accesses .. | construction => .accesses
  | primary | property => .primaries
  | function _ | block | declarator | declaration => .functions
  | loopInit | counted .. | label | handler | finalizer => .clauses
  | statement => .statements

/-- The rule by which a part was read, with what is known of the parts that the rule takes. -/
abbrev Reads.Rule (known : Part → Feed → Value → Feed → Prop) {p : Part} {f g : Feed} {v : Value}
    (read : Reads p f v g) : Prop :=
  Reads.below (motive := fun p f v g _ => known p f v g) read

/-- What is known of the parts that a rule takes is known of what it reads, in a family. -/
def Part.Family.Keeps (family : Part.Family) (known : Part → Feed → Value → Feed → Prop) : Prop :=
  ∀ {p f v g} {read : Reads p f v g}, read.Rule known → p.family = family → known p f v g

theorem Reads.byFamily {known : Part → Feed → Value → Feed → Prop}
    (keeps : ∀ family : Part.Family, family.Keeps known) {p : Part} {f g : Feed} {v : Value}
    (read : Reads p f v g) : known p f v g :=
  Reads.brecOn (motive := fun p f v g _ => known p f v g) read
    fun p _ _ _ _ rule => keeps p.family rule rfl

end ScriptTree.Grammar
