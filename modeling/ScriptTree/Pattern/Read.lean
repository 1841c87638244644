import ScriptTree.Number.Numeral
import ScriptTree.Pattern.Basic

/-!
Reading patterns: alternatives, repetitions, groups, classes and escapes. A text that is no pattern
is refused.
-/
namespace ScriptTree.Pattern

def exactly (c : Point) : Pattern := oneOf false [.range c c]

def controlEscape? (c : Point) : Option Point :=
  match c with
  | 110 => some 10
  | 116 => some 9
  | 114 => some 13
  | 102 => some 12
  | 118 => some 11
  | 97 => some 7
  | _ => none

def classEscape? (c : Point) : Option PointClass :=
  match c with
  | 100 => some (.digit false)
  | 68 => some (.digit true)
  | 119 => some (.word false)
  | 87 => some (.word true)
  | 115 => some (.blank false)
  | 83 => some (.blank true)
  | _ => none

/-- Whether a code point stands for itself after a backslash. -/
def escapesItself (c : Point) : Bool :=
  !((48 ≤ c && c ≤ 57) || (65 ≤ c && c ≤ 90) || (97 ≤ c && c ≤ 122))

def pointEscape? (c : Point) : Option Point :=
  if c = 98 then some 8
  else (controlEscape? c).orElse fun _ => if escapesItself c then some c else none

/-- What an escape outside of a class stands for. -/
def escape? (c : Point) : Option Pattern :=
  match c with
  | 98 => some (boundary false)
  | 66 => some (boundary true)
  | 65 => some start
  | c =>
    match classEscape? c with
    | some k => some (oneOf false [k])
    | none => (pointEscape? c).map exactly

def classMember? : Text → Option ((Point ⊕ PointClass) × Text)
  | 92 :: c :: rest =>
    match classEscape? c with
    | some k => some (.inr k, rest)
    | none => (pointEscape? c).map fun p => (.inl p, rest)
  | 92 :: [] => none
  | c :: rest => some (.inl c, rest)
  | [] => none

def classMembers? : Nat → Bool → Text → Option (List PointClass × Text)
  | 0, _, _ => none
  | steps + 1, first, t => do
    match t, first with
    | 93 :: rest, false => return ([], rest)
    | t, _ =>
      let (member, rest) ← classMember? t
      match member, rest with
      | .inl low, 45 :: 93 :: _ => do
        let (others, rest) ← classMembers? steps false rest
        return (.range low low :: others, rest)
      | .inl low, 45 :: more => do
        let (high, rest) ← classMember? more
        match high with
        | .inl high =>
          guard (low ≤ high)
          let (others, rest) ← classMembers? steps false rest
          return (.range low high :: others, rest)
        | .inr _ => none
      | .inl low, rest => do
        let (others, rest) ← classMembers? steps false rest
        return (.range low low :: others, rest)
      | .inr k, rest => do
        let (others, rest) ← classMembers? steps false rest
        return (k :: others, rest)

def bracketed? (t : Text) : Option (Pattern × Text) :=
  match t with
  | 94 :: rest => do
    let (members, rest) ← classMembers? (t.length + 1) true rest
    return (oneOf true members, rest)
  | t => do
    let (members, rest) ← classMembers? (t.length + 1) true t
    return (oneOf false members, rest)

def leadingDigits (t : Text) : Text := t.takeWhile fun c => 48 ≤ c && c ≤ 57

def count? (digits : Text) : Option Nat :=
  if digits.isEmpty then none else Numeral.readNat? digits

def bounds? (t : Text) : Option (Nat × Option Nat × Text) :=
  let low := leadingDigits t
  match t.drop low.length with
  | 125 :: rest => (count? low).map fun n => (n, some n, rest)
  | 44 :: rest =>
    let high := leadingDigits rest
    match rest.drop high.length with
    | 125 :: rest => some ((count? low).getD 0, count? high, rest)
    | _ => none
  | _ => none

def repetition? : Text → Option (Nat × Option Nat × Text)
  | 42 :: rest => some (0, none, rest)
  | 43 :: rest => some (1, none, rest)
  | 63 :: rest => some (0, some 1, rest)
  | 123 :: rest => bounds? rest
  | _ => none

def isAnchor : Pattern → Bool
  | start | finish | boundary _ => true
  | _ => false

/-- A part with the repetition after it, if there is one. Anchors are not repeated, and nothing is
repeated twice over. -/
def quantified? (inner : Pattern) (t : Text) : Option (Pattern × Text) :=
  match repetition? t with
  | none => some (inner, t)
  | some (least, most, rest) => do
    guard (!inner.isAnchor && most.all (least ≤ ·))
    let (lazy, rest) : Bool × Text :=
      match rest with
      | 63 :: rest => (true, rest)
      | rest => (false, rest)
    guard (repetition? rest).isNone
    return (repeated inner least most lazy, rest)

mutual
/-- Alternatives, from the next group number on, up to the end or a closing parenthesis. -/
def alternatives? : Nat → Nat → Text → Option (Pattern × Nat × Text)
  | 0, _, _ => none
  | steps + 1, next, t => do
    let (left, next, rest) ← parts? steps next t
    match rest with
    | 124 :: rest =>
      let (right, next, rest) ← alternatives? steps next rest
      return (either left right, next, rest)
    | rest => return (left, next, rest)

def parts? : Nat → Nat → Text → Option (Pattern × Nat × Text)
  | 0, _, _ => none
  | _ + 1, next, [] => some (empty, next, [])
  | steps + 1, next, c :: t =>
    if c = 124 ∨ c = 41 then some (empty, next, c :: t)
    else do
      let (first, next, rest) ← part? steps next c t
      let (first, rest) ← quantified? first rest
      let (others, next, rest) ← parts? steps next rest
      return (sequence first others, next, rest)

def part? : Nat → Nat → Point → Text → Option (Pattern × Nat × Text)
  | 0, _, _, _ => none
  | steps + 1, next, c, t =>
    match c, t with
    | 40, 63 :: 58 :: t => do
      let (inner, next, rest) ← alternatives? steps next t
      match rest with
      | 41 :: rest => return (sequence inner empty, next, rest)
      | _ => none
    | 40, 63 :: _ => none
    | 40, t => do
      let (inner, after, rest) ← alternatives? steps (next + 1) t
      match rest with
      | 41 :: rest => return (group next inner, after, rest)
      | _ => none
    | 42, _ => none
    | 43, _ => none
    | 63, _ => none
    | 123, t => if (bounds? t).isSome then none else some (exactly 123, next, t)
    | 91, t => (bracketed? t).map fun (p, rest) => (p, next, rest)
    | 92, c :: t => (escape? c).map fun p => (p, next, t)
    | 92, [] => none
    | 46, t => some (any, next, t)
    | 94, t => some (start, next, t)
    | 36, t => some (finish, next, t)
    | c, t => some (exactly c, next, t)
end

def read? (t : Text) : Option Pattern :=
  match alternatives? (3 * t.length + 3) 1 t with
  | some (p, _, []) => some p
  | _ => none

end ScriptTree.Pattern
