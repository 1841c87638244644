/-!
The kinds of syntax nodes. The standard kinds are the constructors; any further name is a kind too,
so that a tree with unknown nodes is still a tree.
-/
namespace ScriptTree

inductive Kind
  | node
  | expression
  | statement
  | declaration
  | function
  | pattern
  | program
  | identifier
  | literal
  | thisExpression
  | arrayExpression
  | objectExpression
  | property
  | functionExpression
  | arrowFunctionExpression
  | unaryExpression
  | updateExpression
  | binaryExpression
  | logicalExpression
  | assignmentExpression
  | conditionalExpression
  | callExpression
  | newExpression
  | memberExpression
  | sequenceExpression
  | expressionStatement
  | blockStatement
  | emptyStatement
  | variableDeclaration
  | variableDeclarator
  | functionDeclaration
  | returnStatement
  | ifStatement
  | forStatement
  | forInStatement
  | forOfStatement
  | whileStatement
  | doWhileStatement
  | breakStatement
  | continueStatement
  | throwStatement
  | tryStatement
  | catchClause
  | other (name : String)
  deriving DecidableEq, Inhabited

namespace Kind

def name : Kind → String
  | node => "Node"
  | expression => "Expression"
  | statement => "Statement"
  | declaration => "Declaration"
  | function => "Function"
  | pattern => "Pattern"
  | program => "Program"
  | identifier => "Identifier"
  | literal => "Literal"
  | thisExpression => "ThisExpression"
  | arrayExpression => "ArrayExpression"
  | objectExpression => "ObjectExpression"
  | property => "Property"
  | functionExpression => "FunctionExpression"
  | arrowFunctionExpression => "ArrowFunctionExpression"
  | unaryExpression => "UnaryExpression"
  | updateExpression => "UpdateExpression"
  | binaryExpression => "BinaryExpression"
  | logicalExpression => "LogicalExpression"
  | assignmentExpression => "AssignmentExpression"
  | conditionalExpression => "ConditionalExpression"
  | callExpression => "CallExpression"
  | newExpression => "NewExpression"
  | memberExpression => "MemberExpression"
  | sequenceExpression => "SequenceExpression"
  | expressionStatement => "ExpressionStatement"
  | blockStatement => "BlockStatement"
  | emptyStatement => "EmptyStatement"
  | variableDeclaration => "VariableDeclaration"
  | variableDeclarator => "VariableDeclarator"
  | functionDeclaration => "FunctionDeclaration"
  | returnStatement => "ReturnStatement"
  | ifStatement => "IfStatement"
  | forStatement => "ForStatement"
  | forInStatement => "ForInStatement"
  | forOfStatement => "ForOfStatement"
  | whileStatement => "WhileStatement"
  | doWhileStatement => "DoWhileStatement"
  | breakStatement => "BreakStatement"
  | continueStatement => "ContinueStatement"
  | throwStatement => "ThrowStatement"
  | tryStatement => "TryStatement"
  | catchClause => "CatchClause"
  | other name => name

/-- The standard kinds, the abstract ones first. -/
def standard : List Kind :=
  [node, expression, statement, declaration, function, pattern, program, identifier, literal,
    thisExpression, arrayExpression, objectExpression, property, functionExpression,
    arrowFunctionExpression, unaryExpression, updateExpression, binaryExpression,
    logicalExpression, assignmentExpression, conditionalExpression, callExpression, newExpression,
    memberExpression, sequenceExpression, expressionStatement, blockStatement, emptyStatement,
    variableDeclaration, variableDeclarator, functionDeclaration, returnStatement, ifStatement,
    forStatement, forInStatement, forOfStatement, whileStatement, doWhileStatement, breakStatement,
    continueStatement, throwStatement, tryStatement, catchClause]

/-- The kind of a name: a standard kind if there is one of that name. -/
def ofName (name : String) : Kind := (standard.find? (·.name == name)).getD (other name)

end Kind

end ScriptTree
