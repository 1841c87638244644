import ScriptTree.Text.Basic

/-!
The classes of tokens: literals, identifiers, keywords, operators and punctuation. Each keyword and
each operator has one spelling, and a binary operator has a rank by which it binds.
-/
namespace ScriptTree

inductive TokenKind
  | number
  | string
  | ident
  | kwVar
  | kwLet
  | kwConst
  | kwFunction
  | kwReturn
  | kwIf
  | kwElse
  | kwFor
  | kwIn
  | kwWhile
  | kwDo
  | kwBreak
  | kwContinue
  | kwThrow
  | kwTry
  | kwCatch
  | kwFinally
  | kwNew
  | kwThis
  | kwTypeOf
  | kwVoid
  | kwDelete
  | kwInstanceOf
  | kwTrue
  | kwFalse
  | kwNull
  | plus
  | minus
  | star
  | slash
  | percent
  | power
  | ampersand
  | bar
  | caret
  | tilde
  | shiftLeft
  | shiftRight
  | shiftRightZero
  | equal
  | unequal
  | same
  | different
  | less
  | lessEqual
  | greater
  | greaterEqual
  | logicalAnd
  | logicalOr
  | nullish
  | bang
  | assign
  | plusAssign
  | minusAssign
  | starAssign
  | slashAssign
  | percentAssign
  | powerAssign
  | shiftLeftAssign
  | shiftRightAssign
  | shiftRightZeroAssign
  | ampersandAssign
  | barAssign
  | caretAssign
  | increment
  | decrement
  | leftParen
  | rightParen
  | leftBracket
  | rightBracket
  | leftBrace
  | rightBrace
  | dot
  | comma
  | colon
  | semicolon
  | question
  | arrow
  | endOfInput
  deriving DecidableEq, Inhabited

namespace TokenKind

def name : TokenKind → String
  | number => "NUMBER"
  | string => "STRING"
  | ident => "IDENT"
  | kwVar => "VAR"
  | kwLet => "LET"
  | kwConst => "CONST"
  | kwFunction => "FUNCTION"
  | kwReturn => "RETURN"
  | kwIf => "IF"
  | kwElse => "ELSE"
  | kwFor => "FOR"
  | kwIn => "IN"
  | kwWhile => "WHILE"
  | kwDo => "DO"
  | kwBreak => "BREAK"
  | kwContinue => "CONTINUE"
  | kwThrow => "THROW"
  | kwTry => "TRY"
  | kwCatch => "CATCH"
  | kwFinally => "FINALLY"
  | kwNew => "NEW"
  | kwThis => "THIS"
  | kwTypeOf => "TYPEOF"
  | kwVoid => "VOID"
  | kwDelete => "DELETE"
  | kwInstanceOf => "INSTANCEOF"
  | kwTrue => "TRUE"
  | kwFalse => "FALSE"
  | kwNull => "NULL"
  | plus => "PLUS"
  | minus => "MINUS"
  | star => "STAR"
  | slash => "SLASH"
  | percent => "MOD"
  | power => "POW"
  | ampersand => "AMP"
  | bar => "PIPE"
  | caret => "CARET"
  | tilde => "TILDE"
  | shiftLeft => "LSHIFT"
  | shiftRight => "RSHIFT"
  | shiftRightZero => "URSHIFT"
  | equal => "EQ"
  | unequal => "NEQ"
  | same => "SEQ"
  | different => "SNEQ"
  | less => "LT"
  | lessEqual => "LTE"
  | greater => "GT"
  | greaterEqual => "GTE"
  | logicalAnd => "AND"
  | logicalOr => "OR"
  | nullish => "NULLISH"
  | bang => "NEG"
  | assign => "ASSIGN"
  | plusAssign => "PLUSEQ"
  | minusAssign => "MINUSEQ"
  | starAssign => "STAREQ"
  | slashAssign => "SLASHEQ"
  | percentAssign => "MODEQ"
  | powerAssign => "POWEQ"
  | shiftLeftAssign => "LSHIFTEQ"
  | shiftRightAssign => "RSHIFTEQ"
  | shiftRightZeroAssign => "URSHIFTEQ"
  | ampersandAssign => "AMPEQ"
  | barAssign => "PIPEEQ"
  | caretAssign => "CARETEQ"
  | increment => "INCR"
  | decrement => "DECR"
  | leftParen => "LPAR"
  | rightParen => "RPAR"
  | leftBracket => "LSQB"
  | rightBracket => "RSQB"
  | leftBrace => "LBRACE"
  | rightBrace => "RBRACE"
  | dot => "DOT"
  | comma => "COMMA"
  | colon => "COLON"
  | semicolon => "SEMI"
  | question => "QMARK"
  | arrow => "ARROW"
  | endOfInput => "EOF"

/-- The one spelling of a keyword, an operator or a punctuation mark. -/
def spelling : TokenKind → String
  | kwVar => "var"
  | kwLet => "let"
  | kwConst => "const"
  | kwFunction => "function"
  | kwReturn => "return"
  | kwIf => "if"
  | kwElse => "else"
  | kwFor => "for"
  | kwIn => "in"
  | kwWhile => "while"
  | kwDo => "do"
  | kwBreak => "break"
  | kwContinue => "continue"
  | kwThrow => "throw"
  | kwTry => "try"
  | kwCatch => "catch"
  | kwFinally => "finally"
  | kwNew => "new"
  | kwThis => "this"
  | kwTypeOf => "typeof"
  | kwVoid => "void"
  | kwDelete => "delete"
  | kwInstanceOf => "instanceof"
  | kwTrue => "true"
  | kwFalse => "false"
  | kwNull => "null"
  | plus => "+"
  | minus => "-"
  | star => "*"
  | slash => "/"
  | percent => "%"
  | power => "**"
  | ampersand => "&"
  | bar => "|"
  | caret => "^"
  | tilde => "~"
  | shiftLeft => "<<"
  | shiftRight => ">>"
  | shiftRightZero => ">>>"
  | equal => "=="
  | unequal => "!="
  | same => "==="
  | different => "!=="
  | less => "<"
  | lessEqual => "<="
  | greater => ">"
  | greaterEqual => ">="
  | logicalAnd => "&&"
  | logicalOr => "||"
  | nullish => "??"
  | bang => "!"
  | assign => "="
  | plusAssign => "+="
  | minusAssign => "-="
  | starAssign => "*="
  | slashAssign => "/="
  | percentAssign => "%="
  | powerAssign => "**="
  | shiftLeftAssign => "<<="
  | shiftRightAssign => ">>="
  | shiftRightZeroAssign => ">>>="
  | ampersandAssign => "&="
  | barAssign => "|="
  | caretAssign => "^="
  | increment => "++"
  | decrement => "--"
  | leftParen => "("
  | rightParen => ")"
  | leftBracket => "["
  | rightBracket => "]"
  | leftBrace => "\x7b"
  | rightBrace => "\x7d"
  | dot => "."
  | comma => ","
  | colon => ":"
  | semicolon => ";"
  | question => "?"
  | arrow => "=>"
  | _ => ""

def keywords : List TokenKind :=
  [kwVar, kwLet, kwConst, kwFunction, kwReturn, kwIf, kwElse, kwFor, kwIn, kwWhile, kwDo,
    kwBreak, kwContinue, kwThrow, kwTry, kwCatch, kwFinally, kwNew, kwThis, kwTypeOf, kwVoid,
    kwDelete, kwInstanceOf, kwTrue, kwFalse, kwNull]

/-- Operators and punctuation; a spelling stands before every other that it begins with. -/
def operators : List TokenKind :=
  [shiftRightZeroAssign, same, different, powerAssign, shiftLeftAssign, shiftRightAssign,
    shiftRightZero, arrow, equal, unequal, lessEqual, greaterEqual, logicalAnd, logicalOr,
    nullish, increment, decrement, plusAssign, minusAssign, starAssign, slashAssign,
    percentAssign, ampersandAssign, barAssign, caretAssign, power, shiftLeft, shiftRight, plus,
    minus, star, slash, percent, ampersand, bar, caret, tilde, less, greater, bang, assign,
    leftParen, rightParen, leftBracket, rightBracket, leftBrace, rightBrace, dot, comma, colon,
    semicolon, question]

def keyword? (word : Text) : Option TokenKind :=
  keywords.find? fun kind => text kind.spelling == word

/-- The longest operator at the start of a text. -/
def operator? (t : Text) : Option TokenKind :=
  operators.find? fun kind => t.startsWith (text kind.spelling)

def isKeyword (kind : TokenKind) : Bool := keywords.contains kind

/-- How tightly a binary operator binds, from one up. -/
def rank? : TokenKind → Option Nat
  | nullish => some 1
  | logicalOr => some 2
  | logicalAnd => some 3
  | bar => some 4
  | caret => some 5
  | ampersand => some 6
  | equal | unequal | same | different => some 7
  | less | greater | lessEqual | greaterEqual | kwInstanceOf | kwIn => some 8
  | shiftLeft | shiftRight | shiftRightZero => some 9
  | plus | minus => some 10
  | star | slash | percent => some 11
  | power => some 12
  | _ => none

def binaryOperators : List TokenKind :=
  [nullish, logicalOr, logicalAnd, bar, caret, ampersand, equal, unequal, same, different,
    less, greater, lessEqual, greaterEqual, kwInstanceOf, kwIn, shiftLeft, shiftRight,
    shiftRightZero, plus, minus, star, slash, percent, power]

def rankOf? (operator : Text) : Option Nat :=
  (binaryOperators.find? fun kind => text kind.spelling == operator).bind rank?

/-- Whether a binary operator decides by its left operand if the right one is looked at. -/
def isLogical (kind : TokenKind) : Bool :=
  kind == nullish || kind == logicalOr || kind == logicalAnd

def isAssignment (kind : TokenKind) : Bool :=
  [assign, plusAssign, minusAssign, starAssign, slashAssign, percentAssign, powerAssign,
    shiftLeftAssign, shiftRightAssign, shiftRightZeroAssign, ampersandAssign, barAssign,
    caretAssign].contains kind

def isUnary (kind : TokenKind) : Bool :=
  [bang, tilde, plus, minus, kwTypeOf, kwVoid, kwDelete].contains kind

def isUpdate (kind : TokenKind) : Bool := kind == increment || kind == decrement

def opens (kind : TokenKind) : Bool :=
  kind == leftParen || kind == leftBracket || kind == leftBrace

def closes (kind : TokenKind) : Bool :=
  kind == rightParen || kind == rightBracket || kind == rightBrace

def declares (kind : TokenKind) : Bool := kind == kwVar || kind == kwLet || kind == kwConst

end TokenKind

end ScriptTree
