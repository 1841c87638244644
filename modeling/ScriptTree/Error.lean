import ScriptTree.Text.Shown
import ScriptTree.Token.Kind

/-!
What can go wrong, as causes, and the wording of each. A notice is a failure that is reported to the
user; the other failures end the work at hand.
-/
namespace ScriptTree

/-- Why a source text cannot be cut into tokens. -/
inductive ScanFault
  | openComment
  | openString
  | openEscape
  | invalidEscape (digits : Text)
  | invalidHex
  | invalidNumber
  | wordAfterNumber
  | unexpected (c : Point)
  deriving DecidableEq

def ScanFault.message : ScanFault → Text
  | openComment => text "Unterminated comment"
  | openString => text "Unterminated string"
  | openEscape => text "Unterminated unicode escape"
  | invalidEscape digits => text "Invalid escape '" ++ digits ++ text "'"
  | invalidHex => text "Invalid hex literal"
  | invalidNumber => text "Invalid number"
  | wordAfterNumber => text "Identifier directly after number"
  | unexpected c => text "Unexpected character '" ++ [c] ++ text "'"

/-- Why tokens are not a program or an expression. -/
inductive GrammarFault
  | expected (wanted got : TokenKind)
  | expectedIdentifier (got : TokenKind)
  | expectedProperty (got : TokenKind)
  | expectedSemicolon
  | unexpected (got : TokenKind)
  | unexpectedInObject (got : TokenKind)
  | unexpectedEnd
  | unnamedFunction
  | forTarget
  | assignmentTarget
  | updateTarget
  | bareTry
  | lineEndAfterThrow
  | tooDeep
  deriving DecidableEq

def GrammarFault.message : GrammarFault → Text
  | expected wanted got => text "Expected " ++ text wanted.name ++ text ", got " ++ text got.name
  | expectedIdentifier got => text "Expected identifier, got " ++ text got.name
  | expectedProperty got => text "Expected property name, got " ++ text got.name
  | expectedSemicolon => text "Expected ';'"
  | unexpected got => text "Unexpected token " ++ text got.name
  | unexpectedInObject got =>
    text "Unexpected token " ++ text got.name ++ text " in object literal"
  | unexpectedEnd => text "Unexpected end of input"
  | unnamedFunction => text "Function declaration requires a name"
  | forTarget => text "Invalid left-hand side in for loop"
  | assignmentTarget => text "Invalid assignment target"
  | updateTarget => text "Invalid update target"
  | bareTry => text "Missing catch or finally after try"
  | lineEndAfterThrow => text "Illegal newline after throw"
  | tooDeep => text "Nesting too deep"

/-- How a value departs from a well-formed tree. -/
inductive Malformation
  | unknownKind
  | fieldCount (wanted got : Nat)
  | noField (name : String)
  | notList (name : String)
  | missing (name : String)
  | notNode (name : String)
  | notScalar (name : String)
  | expectedNode (type : String)
  | expectedExpression (type : String)
  | unprintable (type : String)
  | notExpression
  | notStatement
  | literal (shown : Text)
  | incomparable (left right : String)
  | abstractKind
  | unknownFields (names : List String)
  | declarationWord (word : Text)
  deriving DecidableEq

def Malformation.message : Malformation → Text
  | unknownKind => text "unknown node kind"
  | fieldCount wanted got =>
    text "expected " ++ Text.decimal wanted ++ text " fields, got " ++ Text.decimal got
  | noField name => text "no field '" ++ text name ++ text "'"
  | notList name => text "field '" ++ text name ++ text "' must be a list"
  | missing name => text "missing required field '" ++ text name ++ text "'"
  | notNode name => text "field '" ++ text name ++ text "' must hold a node"
  | notScalar name => text "field '" ++ text name ++ text "' must hold a scalar"
  | expectedNode type => text "expected a node, got " ++ text type
  | expectedExpression type => text "expected an expression node, got " ++ text type
  | unprintable type => text "cannot print " ++ text type
  | notExpression => text "not a printable expression"
  | notStatement => text "not a printable statement"
  | literal shown => text "unsupported literal value " ++ shown
  | incomparable left right => text "cannot compare " ++ text left ++ text " with " ++ text right
  | abstractKind => text "cannot build an abstract kind"
  | unknownFields names =>
    text "unknown fields [" ++ Text.join (text ", ") (names.map fun n => (text n).shown) ++
      text "]"
  | declarationWord word => text "invalid declaration kind '" ++ word ++ text "'"

/-- A failure that is reported to the user and leaves the session standing. -/
inductive Notice
  | general (parts : List Text)
  | scan (message : Text) (line column : Int)
  | grammar (message : Text) (place : Option (Int × Int))
  | mismatch (expected : Text) (actual : Option Text)
  | malformed (message : Text) (kind : Option Text)
  | unknownKind (kind : Text)
  deriving DecidableEq

namespace Notice

def placed (message : Text) (line column : Int) : Text :=
  message ++ text " at line " ++ Text.ofInt line ++ text ", col " ++ Text.ofInt column

/-- The wording of a notice. A scan message names its place unless the line is zero. -/
def render : Notice → Text
  | general [] => []
  | general [part] => part
  | general parts => text "(" ++ Text.join (text ", ") (parts.map Text.shown) ++ text ")"
  | scan message line column => if line = 0 then message else placed message line column
  | grammar message (some (line, column)) => placed message line column
  | grammar message none => message
  | mismatch expected actual =>
    text "Expected " ++ expected ++ text ", got " ++ actual.getD (text "non-node value")
  | malformed message (some (c :: kind)) => c :: kind ++ text ": " ++ message
  | malformed message _ => message
  | unknownKind kind => text "Unknown node kind '" ++ kind ++ text "'"

/-- Whether a notice says that a value is of the wrong kind. -/
def isTypeFault : Notice → Bool
  | mismatch .. => true
  | _ => false

def isLookupFault : Notice → Bool
  | unknownKind _ => true
  | _ => false

end Notice

inductive Error
  | scan (fault : ScanFault) (line column : Nat)
  | grammar (fault : GrammarFault) (line column : Nat)
  | malformed (how : Malformation) (kind : Option String)
  | mismatch (expected : String) (actual : Option String)
  | unknownKind (kind : String)
  /-- A member chain was asked for without a name. -/
  | emptyChain
  /-- Two paths have no scope in common. -/
  | separateTrees
  /-- An escape names no code point. -/
  | noSuchPoint
  /-- An escape names a number beyond a machine integer. -/
  | hugePoint
  /-- Digits that are not a decimal numeral, or too many of them. -/
  | unreadableNumber
  /-- An integer beyond the floating-point numbers. -/
  | hugeInteger
  /-- An integer with too many digits to write. -/
  | longInteger
  /-- A binary operator without a rank. -/
  | unknownOperator
  | indexOutOfRange
  /-- An index beyond a machine word. -/
  | hugeIndex
  /-- A table of kinds cannot be changed. -/
  | readOnly
  /-- Names that begin with an underscore are not kinds. -/
  | hiddenName
  | badPattern
  | noSuchPath
  | noSuchName
  /-- A value of a type for which the operation has no meaning. -/
  | wrongType
  /-- A value was asked for a part that values of its type do not have. -/
  | lacksPart
  deriving DecidableEq

def Error.notice? : Error → Option Notice
  | scan fault line column => some (.scan fault.message line column)
  | grammar fault line column => some (.grammar fault.message (some (line, column)))
  | malformed how kind => some (.malformed how.message (kind.map text))
  | mismatch expected actual => some (.mismatch (text expected) (actual.map text))
  | unknownKind kind => some (.unknownKind (text kind))
  | _ => none

def Error.message? : Error → Option Text
  | emptyChain => some (text "member chain needs at least one name")
  | separateTrees => some (text "paths do not belong to the same tree")
  | error => error.notice?.map Notice.render

end ScriptTree
