import ScriptTree.Handle

/-!
Editing sessions. A session keeps handles under names. Every node in it has a label of its own, and
an edit reaches the node of a label wherever a handle shows it, so that all handles on one node see
every change of it. The scope of a path is settled when its names are first asked for: no later edit
moves the path, or one that is found below it, to another scope.
-/
namespace ScriptTree

namespace Value

mutual
/-- Gives a label to every node that has none, and the next free label. -/
def stamp (free : Nat) : Value → Value × Nat
  | list items =>
    let (items, free) := stampItems free items
    (list items, free)
  | node kind children notes =>
    let (notes, free) : Notes × Nat :=
      if notes.label = 0 then ({ notes with label := free }, free + 1) else (notes, free)
    let (children, free) := stampItems free children
    (node kind children notes, free)
  | v => (v, free)

def stampItems (free : Nat) : List Value → List Value × Nat
  | [] => ([], free)
  | v :: vs =>
    let (v, free) := stamp free v
    let (vs, free) := stampItems free vs
    (v :: vs, free)
end

mutual
def amend (label : Nat) (change : Value → Value) : Value → Value
  | list items => list (amendItems label change items)
  | node kind children notes =>
    let v := node kind (amendItems label change children) notes
    if notes.label = label then change v else v
  | v => v

def amendItems (label : Nat) (change : Value → Value) : List Value → List Value
  | [] => []
  | v :: vs => amend label change v :: amendItems label change vs
end

def fieldIndex (v : Value) (field : String) : Except Error Nat :=
  match v.kind? with
  | none => .error .lacksPart
  | some kind =>
    match Vocabulary.standard.find? kind with
    | none => .error (.unknownKind kind.name)
    | some d => do
      let i ← d.index field
      if i < v.children.length then return i else .error .indexOutOfRange

def setChild (i : Nat) (new : Value) : Value → Value
  | node kind children notes => node kind (children.set i new) notes
  | v => v

/-- Where an index into a list points, counted from the end if it is negative. -/
def fromEnd (length : Nat) (index : Int) : Int := if index < 0 then index + length else index

/-- A list with an item put in before an index; indexes outside of the list mean its ends. -/
def insertItem (items : List Value) (index : Int) (new : Value) : List Value :=
  let i := (fromEnd items.length index).toNat
  items.take i ++ new :: items.drop i

def removeItem (items : List Value) (index : Int) : Except Error (List Value) :=
  let i := fromEnd items.length index
  if 0 ≤ i ∧ i < items.length then .ok (items.eraseIdx i.toNat) else .error .indexOutOfRange

def listAt (v : Value) (i : Nat) (fault : Error) : Except Error (List Value) :=
  match v.children[i]? with
  | some (list items) => .ok items
  | _ => .error fault

/-- Whether an index fits a machine word, with its sign. -/
def fitsWord (index : Int) : Bool := -9223372036854775808 ≤ index && index < 9223372036854775808

/-- The span of a node from the start of one node to the end of another; a start without a span
gives none. -/
def spanOver (first last : Value) : Option Span :=
  first.notes.span.map fun span => ⟨span.start, last.notes.span.bind (·.stop)⟩

end Value

namespace Path

def amend (label : Nat) (change : Value → Value) : Path → Path
  | root tree v => root tree (v.amend label change)
  | child parent v field index =>
    child (parent.amend label change) (v.amend label change) field index

end Path

/-- Changes the node of a label wherever a handle shows it. -/
def Handle.amend (label : Nat) (change : Value → Value) : Handle → Handle
  | bare v => bare (v.amend label change)
  | path p => path (p.amend label change)

/-- A handle, and for a path a mark of every step, the last one first. Two handles have a mark in
common if one was found below the other, or both below a third. -/
structure Held where
  handle : Handle
  marks : List Nat := []

structure Session where
  handles : List (String × Held) := []
  /-- The next free label or mark. -/
  free : Nat := 1
  /-- Whether marked steps lead to a name declared by `var`; the first answer for a mark counts. -/
  settled : List (Nat × Bool) := []

namespace Session

def get (s : Session) (name : String) : Except Error Handle :=
  match s.handles.lookup name with
  | some h => .ok h.handle
  | none => .error .noSuchName

def adopt (s : Session) (v : Value) : Value × Session :=
  let (v, free) := v.stamp s.free
  (v, { s with free })

/-- The handle that a selector means below another; all nodes in it have labels. -/
def load (s : Session) (selector : Selector) (origin : Handle) :
    Except Error (Handle × Session) := do
  match ← selector.start origin with
  | .bare v =>
    let (v, s) := s.adopt v
    return (← selector.select 0 (.bare v), s)
  | .path p => return (← selector.select 0 (.path p), s)

/-- Keeps a handle under a name, in the place of an earlier one. The steps that it has beyond those
of the handle it was found from get marks of their own. -/
def bind (s : Session) (name : String) (h : Handle) (origin : Option String := none) : Session :=
  let given := ((origin.bind fun origin => s.handles.lookup origin).map Held.marks).getD []
  let length :=
    match h with
    | .bare _ => 0
    | .path p => p.steps.length
  let fresh := List.range' s.free (length - given.length)
  { s with
    handles := (name, ⟨h, fresh ++ given⟩) :: s.handles.filter (·.1 != name)
    free := s.free + fresh.length }

def amend (s : Session) (target : Value) (change : Value → Value) : Session :=
  if target.isNode then
    let label := target.notes.label
    { s with handles := s.handles.map fun (name, h) =>
        (name, { h with handle := h.handle.amend label change }) }
  else s

def set (s : Session) (name field : String) (new : Value) : Except Error Session := do
  let target := (← s.get name).value
  let i ← target.fieldIndex field
  let (new, s) := s.adopt new
  return s.amend target (Value.setChild i new)

/-- Puts an item into a list field of a named node; what is no list has no place for items. -/
def insert (s : Session) (name field : String) (index : Int) (new : Value) :
    Except Error Session := do
  let target := (← s.get name).value
  let i ← target.fieldIndex field
  let items ← target.listAt i .lacksPart
  if !Value.fitsWord index then .error .hugeIndex
  let (new, s) := s.adopt new
  return s.amend target (Value.setChild i (.list (Value.insertItem items index new)))

/-- Takes an item out of a list field of a named node; taking one out of anything else has no
meaning. -/
def remove (s : Session) (name field : String) (index : Int) : Except Error Session := do
  let target := (← s.get name).value
  let i ← target.fieldIndex field
  let items ← Value.removeItem (← target.listAt i .wrongType) index
  return s.amend target (Value.setChild i (.list items))

/-- Adds a comment to a named node, after those it has. -/
def appendComment (s : Session) (name : String) (comment : Comment) : Except Error Session := do
  let target := (← s.get name).value
  if target.isNode then
    return s.amend target
      (Value.mapNotes fun notes => { notes with comments := notes.comments ++ [comment] })
  else .error .lacksPart

/-- Gives a named node the span from one named node to another, or to the end of the same one if
there is no other. -/
def copyPosition (s : Session) (name start : String) (stop : Option String) :
    Except Error Session := do
  let target := (← s.get name).value
  let first := (← s.get start).value
  let other ←
    match stop with
    | some stop => do pure (← s.get stop).value
    | none => pure .null
  if !target.isNode then .error .lacksPart
  match Value.spanOver first (if other.isNull then first else other) with
  | some span => return s.amend target (Value.mapNotes ({ · with span := some span }))
  | none => return s

/-- Settles the scope of a named path and of those on the way to it; what is settled stays. -/
def settle (s : Session) (name : String) : Session :=
  match s.handles.lookup name with
  | some ⟨.path p, marks⟩ => { s with settled := s.settled ++ marks.zip p.varSteps }
  | _ => s

/-- The scope that a named handle lies in, as far as it is settled; a bare value is a root. -/
def scope (s : Session) (name : String) : Except Error Scope :=
  match s.handles.lookup name with
  | some ⟨.path p, marks⟩ => .ok (p.scopeKnowing (marks.map fun mark => s.settled.lookup mark))
  | some ⟨.bare v, _⟩ => .ok (Path.root 0 v).scope
  | none => .error .noSuchName

def names (s : Session) (name : String) : Except Error (List Value) := do (← s.scope name).names

end Session

end ScriptTree
