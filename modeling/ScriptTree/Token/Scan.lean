import ScriptTree.Error
import ScriptTree.Number.Numeral
import ScriptTree.Token.Basic

/-!
Cutting a source text into tokens. The scan takes one piece after the other from the front of the
text: a gap, which is a blank, a line end or a comment, or a token. Gaps are handed to the token
after them.
-/
namespace ScriptTree.Scan

structure Cursor where
  rest : Text
  mark : Mark

namespace Cursor

/-- Moves over some code points that stay on the line. -/
def right (c : Cursor) (count : Nat) : Cursor := ⟨c.rest.drop count, c.mark.right count⟩

/-- Moves over some code points that end the line. -/
def nextLine (c : Cursor) (count : Nat) : Cursor := ⟨c.rest.drop count, c.mark.nextLine count⟩

end Cursor

def fail {α : Type} (fault : ScanFault) (mark : Mark) : Except Error α :=
  .error (.scan fault mark.line mark.column)

/-- Blanks between tokens: space, tab, byte order mark and no-break space. -/
def isGap (c : Point) : Bool := c == 32 || c == 9 || c == 0xFEFF || c == 0xA0

/-- What starts a word: a letter, an underscore or a dollar sign. -/
def startsWord (c : Point) : Bool := c.isLetter || c == 95 || c == 36

def continuesWord (c : Point) : Bool := c.isAlphanumeric || c == 95 || c == 36

def headIs (t : Text) (p : Point → Bool) : Bool := t.head?.any p

def simpleEscape? (c : Point) : Option Point :=
  match c with
  | 110 => some 10
  | 116 => some 9
  | 114 => some 13
  | 98 => some 8
  | 102 => some 12
  | 118 => some 11
  | 48 => some 0
  | _ => none

def namedPoint (digits : Text) (mark : Mark) : Except Error Point :=
  match Numeral.readHex? digits with
  | none => fail (.invalidEscape digits) mark
  | some n =>
    if n < -2147483648 ∨ 2147483647 < n then .error .hugePoint
    else if n < 0 ∨ 0x10FFFF < n then .error .noSuchPoint
    else .ok n.toNat

/-- The first code points of a text, filled up with zeros. -/
def padded (t : Text) (count : Nat) : Text := t.take count ++ List.replicate (count - t.length) 0

mutual
/-- The value of a string from some place inside it to its closing quote. -/
def stringRest (quote : Point) (start here : Mark) : Text → Except Error (Text × Cursor)
  | [] => fail .openString start
  | c :: r =>
    if c = Point.lineFeed ∨ c = Point.carriageReturn then fail .openString start
    else if c = quote then .ok ([], ⟨r, here.right 1⟩)
    else if c ≠ Point.backslash then do
      let (value, after) ← stringRest quote start (here.right 1) r
      return (c :: value, after)
    else
      match r with
      | [] => fail .openString start
      | e :: r =>
        match simpleEscape? e with
        | some p => do
          let (value, after) ← stringRest quote start (here.right 2) r
          return (p :: value, after)
        | none =>
          if e = 120 then
            match r with
            | a :: b :: r => do
              let p ← namedPoint [a, b] (here.right 4)
              let (value, after) ← stringRest quote start (here.right 4) r
              return (p :: value, after)
            | r => fail (.invalidEscape (padded r 2)) (here.right 4)
          else if e = 117 then
            match r with
            | 123 :: r => bracedEscape quote start (here.right 3) [] r
            | a :: b :: c :: d :: r => do
              let p ← namedPoint [a, b, c, d] (here.right 6)
              let (value, after) ← stringRest quote start (here.right 6) r
              return (p :: value, after)
            | r => fail (.invalidEscape (padded r 4)) (here.right 6)
          else if e = Point.lineFeed then stringRest quote start (here.nextLine 2) r
          else
            match e, r with
            | 13, 10 :: r => stringRest quote start (here.nextLine 3) r
            | e, r => do
              let (value, after) ← stringRest quote start (here.right 2) r
              return (e :: value, after)

/-- The value of a string from inside a braced escape on, of which some digits are read. -/
def bracedEscape (quote : Point) (start here : Mark) (digits : Text) :
    Text → Except Error (Text × Cursor)
  | [] => fail .openEscape here
  | c :: r =>
    if c = 125 then do
      let p ← namedPoint digits (here.right 1)
      let (value, after) ← stringRest quote start (here.right 1) r
      return (p :: value, after)
    else bracedEscape quote start (here.right 1) (digits ++ [c]) r
end

/-- The text of a block comment from some place inside it, and whether it has a line feed. -/
def commentRest (line : Nat) (here : Mark) : Text → Except Error (Text × Bool × Cursor)
  | [] => .error (.scan .openComment line 0)
  | 42 :: 47 :: r => .ok ([], false, ⟨r, here.right 2⟩)
  | c :: r => do
    let (inner, newline, after) ←
      commentRest line (if c = Point.lineFeed then here.nextLine 1 else here.right 1) r
    return (c :: inner, c == Point.lineFeed || newline, after)

/-- The exponent at the start of a text; the mark of an exponent without digits is a fault. -/
def exponentText? : Text → Option Text
  | [] => some []
  | mark :: r =>
    if mark = 101 ∨ mark = 69 then
      let sign := if headIs r (fun c => c == 43 || c == 45) then r.take 1 else []
      let digits := (r.drop sign.length).takeWhile Point.isDigit
      if digits.isEmpty then none else some (mark :: sign ++ digits)
    else some []

/-- A number: its digits, whether it is written as a fraction, and what it is worth. -/
def number (c : Cursor) : Except Error (Value × Cursor) :=
  match c.rest with
  | 48 :: x :: r =>
    if x = 120 ∨ x = 88 then
      let digits := r.takeWhile (·.hexValue?.isSome)
      if digits.isEmpty then fail .invalidHex c.mark
      else .ok (.int (Numeral.readHexDigits digits), c.right (2 + digits.length))
    else decimal
  | _ => decimal
where
  decimal : Except Error (Value × Cursor) :=
    let whole := c.rest.takeWhile Point.isDigit
    let rest := c.rest.drop whole.length
    let part := if headIs rest (· == 46) then 46 :: (rest.drop 1).takeWhile Point.isDigit else []
    match exponentText? (rest.drop part.length) with
    | none => fail .invalidNumber c.mark
    | some exponent =>
      let written := whole ++ part ++ exponent
      let after := c.right written.length
      if headIs after.rest startsWord then fail .wordAfterNumber after.mark
      else
        let value :=
          if part.isEmpty && exponent.isEmpty then
            (Numeral.readNat? written).map fun n => Value.int n
          else (Numeral.readFraction? false written).map Value.float
        match value with
        | some value => .ok (value, after)
        | none => .error .unreadableNumber

/-- What the scan takes from the front of a source in one step. -/
inductive Piece
  | gap (newline : Bool) (comments : List Comment)
  | token (kind : TokenKind) (value : Value)

/-- The first piece of a source that is not empty, and what follows it. -/
def piece (c : Cursor) : Except Error (Piece × Cursor) :=
  match c.rest with
  | [] => .ok (.gap false [], c)
  | 13 :: 10 :: _ => .ok (.gap true [], c.nextLine 2)
  | 47 :: 47 :: r =>
    let inner := r.takeWhile fun p => p != Point.lineFeed && p != Point.carriageReturn && p != 0
    .ok (.gap false [⟨inner, false, true⟩], c.right (2 + inner.length))
  | 47 :: 42 :: r => do
    let (inner, newline, after) ← commentRest c.mark.line (c.mark.right 2) r
    return (.gap newline [⟨inner, true, true⟩], after)
  | p :: r =>
    if isGap p then .ok (.gap false [], c.right 1)
    else if p.isLineEnd then .ok (.gap true [], c.nextLine 1)
    else if p = Point.doubleQuote ∨ p = Point.apostrophe then do
      let (value, after) ← stringRest p c.mark (c.mark.right 1) r
      return (.token .string (.text value), after)
    else if p.isDigit || (p == 46 && headIs r Point.isDigit) then do
      let (value, after) ← number c
      return (.token .number value, after)
    else if startsWord p then
      let word := c.rest.takeWhile continuesWord
      .ok (.token ((TokenKind.keyword? word).getD .ident) (.text word), c.right word.length)
    else
      match TokenKind.operator? c.rest with
      | some kind =>
        let spelled := text kind.spelling
        .ok (.token kind (.text spelled), c.right spelled.length)
      | none => fail (.unexpected p) c.mark

structure Pending where
  newline : Bool := false
  comments : List Comment := []

def tokenAt (before after : Cursor) (pending : Pending) (kind : TokenKind) (value : Value) :
    Token :=
  ⟨kind, value, before.mark, after.mark, before.rest.take (after.mark.offset - before.mark.offset),
    pending.newline, pending.comments⟩

/-- The tokens of what is left of a source, in at most as many steps as it has code points. -/
def tokensFrom : Nat → Cursor → Pending → Except Error (List Token)
  | 0, c, pending => .ok [tokenAt c c pending .endOfInput .null]
  | steps + 1, c, pending =>
    if c.rest.isEmpty then .ok [tokenAt c c pending .endOfInput .null]
    else
      match piece c with
      | .error e => .error e
      | .ok (.gap newline comments, after) =>
        tokensFrom steps after ⟨pending.newline || newline, pending.comments ++ comments⟩
      | .ok (.token kind value, after) =>
        match tokensFrom steps after {} with
        | .error e => .error e
        | .ok tokens => .ok (tokenAt c after pending kind value :: tokens)

end Scan

/-- The tokens of a source text, the last of which is its end of input. -/
def tokenize (source : Text) : Except Error (List Token) :=
  Scan.tokensFrom source.length ⟨source, Mark.first⟩ {}

end ScriptTree
