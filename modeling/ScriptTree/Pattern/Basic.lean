import ScriptTree.Text.Blank
import ScriptTree.Text.Digit

/-!
Patterns for searching in a text, and the search itself. Of the ways in which a pattern fits at a
place the first in the order of its choices is taken: left alternatives before right ones, more
rounds of a repetition before fewer unless it is lazy.
-/
namespace ScriptTree

inductive PointClass
  | range (low high : Point)
  | digit (negated : Bool)
  | word (negated : Bool)
  | blank (negated : Bool)

/-- Letters, digits and the underscore make words. -/
def Point.isWordPoint (c : Point) : Bool := c.isAlphanumeric || c == 95

def PointClass.has (c : Point) : PointClass → Bool
  | range low high => low ≤ c && c ≤ high
  | digit negated => c.decimalValue?.isSome != negated
  | word negated => c.isWordPoint != negated
  | blank negated => c.isBlank != negated

/-- A pattern. Groups are numbered from one by their opening parentheses. -/
inductive Pattern
  | empty
  | any
  | oneOf (negated : Bool) (classes : List PointClass)
  | start
  | finish
  | boundary (negated : Bool)
  | group (number : Nat) (inner : Pattern)
  | sequence (first second : Pattern)
  | either (left right : Pattern)
  | repeated (inner : Pattern) (least : Nat) (most : Option Nat) (lazy : Bool)
  deriving Inhabited

namespace Pattern

structure State where
  offset : Nat
  before : Option Point
  rest : Text
  groups : List (Nat × Nat × Nat)

namespace State

def next (s : State) (c : Point) (rest : Text) : State := ⟨s.offset + 1, some c, rest, s.groups⟩

def atBoundary (s : State) : Bool :=
  s.before.any Point.isWordPoint != s.rest.head?.any Point.isWordPoint

/-- Whether the text ends here, or one line feed before its end. -/
def atFinish (s : State) : Bool := s.rest.isEmpty || s.rest == [Point.lineFeed]

end State

/-- Rounds of a repetition, at most as many as there are steps. Beyond the least number no round
begins where the round before it began, so that a round that takes nothing is the last. -/
def rounds (inner : (State → Option State) → State → Option State)
    (lazy : Bool) (goal : State → Option State) :
    Nat → Nat → Option Nat → Option Nat → State → Option State
  | 0, _, _, _, _ => none
  | steps + 1, least, most, last, s =>
    let round : Option Nat → Option State := fun last =>
      inner (rounds inner lazy goal steps (least - 1) (most.map (· - 1)) last) s
    let more : Unit → Option State := fun _ =>
      if most = some 0 ∨ last = some s.offset then none else round (some s.offset)
    if 0 < least then round last
    else if lazy then (goal s).orElse more
    else (more ()).orElse fun _ => goal s

/-- Fits a pattern at a state and goes on to a goal. -/
def fit : Pattern → (State → Option State) → State → Option State
  | empty, goal => goal
  | any, goal => fun s =>
    match s.rest with
    | c :: rest => if c = Point.lineFeed then none else goal (s.next c rest)
    | [] => none
  | oneOf negated classes, goal => fun s =>
    match s.rest with
    | c :: rest => if classes.any (·.has c) != negated then goal (s.next c rest) else none
    | [] => none
  | start, goal => fun s => if s.offset = 0 then goal s else none
  | finish, goal => fun s => if s.atFinish then goal s else none
  | boundary negated, goal => fun s => if s.atBoundary != negated then goal s else none
  | group number inner, goal => fun s =>
    fit inner (fun t => goal { t with groups := (number, s.offset, t.offset) :: t.groups }) s
  | sequence first second, goal => fit first (fit second goal)
  | either left right, goal => fun s => (fit left goal s).orElse fun _ => fit right goal s
  | repeated inner least most lazy, goal => fun s =>
    rounds (fit inner) lazy goal (s.rest.length + least + 2) least most none s

def groupCount : Pattern → Nat
  | group _ inner => groupCount inner + 1
  | sequence first second => groupCount first + groupCount second
  | either left right => groupCount left + groupCount right
  | repeated inner _ _ _ => groupCount inner
  | _ => 0

structure Fit where
  span : Nat × Nat
  groups : List (Option (Nat × Nat))

def fitAt (p : Pattern) (offset : Nat) (before : Option Point) (rest : Text) : Option Fit :=
  (fit p some ⟨offset, before, rest, []⟩).map fun s =>
    ⟨(offset, s.offset), (List.range p.groupCount).map fun i => s.groups.lookup (i + 1)⟩

def searchFrom (p : Pattern) (offset : Nat) (before : Option Point) : Text → Option Fit
  | [] => p.fitAt offset before []
  | c :: rest =>
    (p.fitAt offset before (c :: rest)).orElse fun _ => searchFrom p (offset + 1) (some c) rest

/-- The first place in a text where a pattern fits. -/
def search (p : Pattern) (t : Text) : Option Fit := searchFrom p 0 none t

end Pattern

end ScriptTree
