import ScriptTree.Proofs.Print.Choice
import ScriptTree.Session

/-!
Trees with other notes. What follows the grammar still does after its notes have changed, as far as
the convention allows the change; adding labels and comments in a session is such a change.
-/
namespace ScriptTree

open Grammar Value

/-- Two trees differ in nothing but notes, which are related at every place. -/
inductive Renoted (R : Notes → Notes → Prop) : Value → Value → Prop
  | scalar {v : Value} (scalar : v.isScalar) : Renoted R v v
  | list {ws vs : List Value} (items : List.Forall₂ (Renoted R) ws vs) :
      Renoted R (.list ws) (.list vs)
  | node {k : Kind} {ws vs : List Value} {m n : Notes}
      (children : List.Forall₂ (Renoted R) ws vs) (notes : R m n) :
      Renoted R (.node k ws m) (.node k vs n)

namespace Renoted

variable {R S : Notes → Notes → Prop} {w v a b c d : Value} {ws vs : List Value} {k : Kind}
  {m n : Notes} {keep : Bool}

theorem of_scalar (renoted : Renoted R w v) (scalar : v.isScalar) : w = v := by
  cases renoted with
  | scalar => rfl
  | _ => cases scalar

mutual
/-- Trees that differ in nothing but notes are alike. -/
theorem like {w : Value} : (v : Value) → Renoted R w v → Like false w v
  | .list vs, renoted => by
    cases renoted with
    | scalar scalar => cases scalar
    | list items => exact like_list.mpr ⟨_, rfl, allLike vs items⟩
  | .node _ vs _, renoted => by
    cases renoted with
    | scalar scalar => cases scalar
    | node children => exact .node (allLike vs children) nofun
  | .null, renoted | .bool _, renoted | .int _, renoted | .float _, renoted | .text _, renoted => by
    rw [renoted.of_scalar rfl]
    exact .refl

theorem allLike {ws : List Value} : (vs : List Value) → List.Forall₂ (Renoted R) ws vs →
    AllLike false ws vs
  | [], items => by
    cases items
    rfl
  | v :: vs, items => by
    cases items with
    | cons first rest => exact .cons (like v first) (allLike vs rest)
end

mutual
/-- Alike trees have related notes if their comments say so. -/
theorem of_like (related : ∀ m n : Notes, m.comments = n.comments → R m n) {w : Value} :
    (v : Value) → Like true w v → Renoted R w v
  | .list vs, like => by
    obtain ⟨ws, rfl, items⟩ := like_list.mp like
    exact .list (of_allLike related vs items)
  | .node _ vs _, like => by
    obtain ⟨ws, m, rfl, children, notes⟩ := like_node.mp like
    exact .node (of_allLike related vs children) (related _ _ (notes rfl))
  | .null, like | .bool _, like | .int _, like | .float _, like | .text _, like => by
    simp only [like_null, like_bool, like_int, like_float, like_text] at like
    rw [like]
    exact .scalar rfl

theorem of_allLike (related : ∀ m n : Notes, m.comments = n.comments → R m n) {ws : List Value} :
    (vs : List Value) → AllLike true ws vs → List.Forall₂ (Renoted R) ws vs
  | [], likes => by
    cases allLike_nil.mp likes
    exact .nil
  | v :: vs, likes => by
    obtain ⟨w, ws, rfl, first, rest⟩ := allLike_cons.mp likes
    exact .cons (of_like related v first) (of_allLike related vs rest)
end

theorem list_inv (renoted : Renoted R w (.list vs)) :
    ∃ ws, w = .list ws ∧ List.Forall₂ (Renoted R) ws vs := by
  cases renoted with
  | scalar scalar => cases scalar
  | list items => exact ⟨_, rfl, items⟩

theorem node_inv (renoted : Renoted R w (.node k vs n)) :
    ∃ ws m, w = .node k ws m ∧ List.Forall₂ (Renoted R) ws vs ∧ R m n := by
  cases renoted with
  | scalar scalar => cases scalar
  | node children notes => exact ⟨_, _, rfl, children, notes⟩

theorem one (renoted : Renoted R w (.node k [a] n)) :
    ∃ a' m, w = .node k [a'] m ∧ Renoted R a' a ∧ R m n := by
  obtain ⟨ws, m, rfl, _ | ⟨first, ⟨⟩⟩, notes⟩ := renoted.node_inv
  exact ⟨_, m, rfl, first, notes⟩

theorem two (renoted : Renoted R w (.node k [a, b] n)) :
    ∃ a' b' m, w = .node k [a', b'] m ∧ Renoted R a' a ∧ Renoted R b' b ∧ R m n := by
  obtain ⟨ws, m, rfl, _ | ⟨first, _ | ⟨second, ⟨⟩⟩⟩, notes⟩ := renoted.node_inv
  exact ⟨_, _, m, rfl, first, second, notes⟩

theorem three (renoted : Renoted R w (.node k [a, b, c] n)) :
    ∃ a' b' c' m, w = .node k [a', b', c'] m ∧ Renoted R a' a ∧ Renoted R b' b ∧
      Renoted R c' c ∧ R m n := by
  obtain ⟨ws, m, rfl, _ | ⟨first, _ | ⟨second, _ | ⟨third, ⟨⟩⟩⟩⟩, notes⟩ := renoted.node_inv
  exact ⟨_, _, _, m, rfl, first, second, third, notes⟩

theorem four (renoted : Renoted R w (.node k [a, b, c, d] n)) :
    ∃ a' b' c' d' m, w = .node k [a', b', c', d'] m ∧ Renoted R a' a ∧ Renoted R b' b ∧
      Renoted R c' c ∧ Renoted R d' d ∧ R m n := by
  obtain ⟨ws, m, rfl, _ | ⟨first, _ | ⟨second, _ | ⟨third, _ | ⟨fourth, ⟨⟩⟩⟩⟩⟩, notes⟩ :=
    renoted.node_inv
  exact ⟨_, _, _, _, m, rfl, first, second, third, fourth, notes⟩

theorem isNull (renoted : Renoted R w v) : w.isNull = v.isNull := renoted.like.isNull

theorem null (renoted : Renoted R w .null) : w = .null := renoted.of_scalar rfl

theorem some (renoted : Renoted R w v) (some : w ≠ .null) : v ≠ .null := by
  rintro rfl
  exact some renoted.null

theorem notes (renoted : Renoted R w v) (same : ∀ n, R n n) : R w.notes v.notes := by
  cases renoted with
  | node _ notes => exact notes
  | _ => exact same _

theorem hollow (renoted : Renoted R w v) (hollow : v.isHollow) : w.isHollow := by
  unfold Value.isHollow at hollow
  split at hollow
  · obtain ⟨_, _, rfl, list, _⟩ := renoted.one
    obtain ⟨_, rfl, ⟨⟩⟩ := list.list_inv
    rfl
  · obtain ⟨_, _, rfl, list, _⟩ := renoted.one
    obtain ⟨_, rfl, ⟨⟩⟩ := list.list_inv
    rfl
  · cases hollow

theorem endsOpen (renoted : Renoted R w v) (closed : v.endsOpen = false) : w.endsOpen = false := by
  rw [Bool.eq_false_iff]
  intro opened
  rw [endsOpen_of_essence renoted.like.essence opened] at closed
  cases closed

end Renoted

theorem forall₂_each {α : Type} {R : α → α → Prop} {P : α → Prop} {xs ys : List α}
    (related : List.Forall₂ R xs ys) (each : ∀ y ∈ ys, ∀ x, R x y → P x) : ∀ x ∈ xs, P x := by
  induction related with
  | nil => exact nofun
  | cons first _ ih =>
    obtain ⟨one, others⟩ := List.forall_mem_cons.mp each
    exact List.forall_mem_cons.mpr ⟨one _ first, ih others⟩

structure Convention.Allows (s : Convention) (R : Notes → Notes → Prop) : Prop where
  scalar : ∀ {v}, s.literal v → v.isScalar
  silent : ∀ {m n}, s.silent n → R m n → s.silent m
  alone : ∀ {w v}, s.alone v → Renoted R w v → s.alone w
  listed : ∀ {ws vs}, s.listed vs → List.Forall₂ (Renoted R) ws vs → s.listed ws

def Role.Renotes (r : Role) (s : Convention) (R : Notes → Notes → Prop) (v : Value) : Prop :=
  ∀ {w}, Renoted R w v → Conforms s r w

variable {s : Convention} {R : Notes → Notes → Prop} {r : Role} {v w : Value}

theorem renoted_names (allows : s.Allows R) :
    Role.Family.names.Keeps s (·.Renotes s R) := by
  intro r v conforms rule family w renoted
  induction rule using Conforms.below.casesOn with cases family
  | binding name silent =>
    obtain ⟨_, _, rfl, word, notes⟩ := renoted.one
    rw [word.of_scalar rfl]
    exact .binding name (allows.silent silent notes)
  | word word silent =>
    obtain ⟨_, _, rfl, name, notes⟩ := renoted.one
    rw [name.of_scalar rfl]
    exact .word word (allows.silent silent notes)
  | keyWord _ _ ih => exact .keyWord (ih renoted)
  | keyLiteral key literal silent =>
    obtain ⟨_, _, rfl, value, notes⟩ := renoted.one
    rw [value.of_scalar (allows.scalar literal)]
    exact .keyLiteral key literal (allows.silent silent notes)

theorem renoted_expressions (allows : s.Allows R) :
    Role.Family.expressions.Keeps s (·.Renotes s R) := by
  intro r v conforms rule family w renoted
  induction rule using Conforms.below.casesOn with cases family
  | name _ _ ih => exact .name (ih renoted)
  | literal literal silent =>
    obtain ⟨_, _, rfl, value, notes⟩ := renoted.one
    rw [value.of_scalar (allows.scalar literal)]
    exact .literal literal (allows.silent silent notes)
  | this silent =>
    obtain ⟨_, _, rfl, ⟨⟩, notes⟩ := renoted.node_inv
    exact .this (allows.silent silent notes)
  | array _ silent _ ih =>
    obtain ⟨_, _, rfl, list, notes⟩ := renoted.one
    obtain ⟨_, rfl, items⟩ := list.list_inv
    exact .array (forall₂_each items fun e mem x same some => ih e mem (same.some some) same)
      (allows.silent silent notes)
  | object _ silent _ ih =>
    obtain ⟨_, _, rfl, list, notes⟩ := renoted.one
    obtain ⟨_, rfl, items⟩ := list.list_inv
    exact .object (forall₂_each items fun e mem _ => ih e mem) (allows.silent silent notes)
  | functionExpression _ _ _ alone silent _ name _ params _ body =>
    obtain ⟨_, _, _, _, rfl, first, second, third, notes⟩ := renoted.three
    obtain ⟨_, rfl, items⟩ := second.list_inv
    exact .functionExpression (fun some => name (first.some some) first)
      (forall₂_each items fun p mem _ => params p mem) (body third) (allows.alone alone third)
      (allows.silent silent notes)
  | arrowBlock _ _ alone silent _ params _ body =>
    obtain ⟨_, _, _, _, rfl, first, second, third, notes⟩ := renoted.three
    obtain ⟨_, rfl, items⟩ := first.list_inv
    rw [third.of_scalar rfl]
    exact .arrowBlock (forall₂_each items fun p mem _ => params p mem) (body second)
      (allows.alone alone second) (allows.silent silent notes)
  | arrowValue _ _ silent _ params _ body =>
    obtain ⟨_, _, _, _, rfl, first, second, third, notes⟩ := renoted.three
    obtain ⟨_, rfl, items⟩ := first.list_inv
    rw [third.of_scalar rfl]
    exact .arrowValue (forall₂_each items fun p mem _ => params p mem) (body second)
      (allows.silent silent notes)
  | unary operator _ silent _ operand =>
    obtain ⟨_, _, _, rfl, first, second, notes⟩ := renoted.two
    rw [first.of_scalar rfl]
    exact .unary operator (operand second) (allows.silent silent notes)
  | update operator target _ silent _ operand =>
    obtain ⟨_, _, _, _, rfl, first, second, third, notes⟩ := renoted.three
    rw [first.of_scalar rfl, second.of_scalar rfl]
    exact .update operator (third.like.isTarget.trans target) (operand third)
      (allows.silent silent notes)
  | operation ranked _ _ silent _ left _ right =>
    obtain ⟨_, _, _, _, rfl, first, second, third, notes⟩ := renoted.three
    rw [first.of_scalar rfl]
    exact .operation ranked (left second) (right third) (allows.silent silent notes)
  | assignment operator target _ _ silent _ left _ right =>
    obtain ⟨_, _, _, _, rfl, first, second, third, notes⟩ := renoted.three
    rw [first.of_scalar rfl]
    exact .assignment operator (second.like.isTarget.trans target) (left second) (right third)
      (allows.silent silent notes)
  | conditional _ _ _ silent _ test _ left _ right =>
    obtain ⟨_, _, _, _, rfl, first, second, third, notes⟩ := renoted.three
    exact .conditional (test first) (left second) (right third) (allows.silent silent notes)
  | call _ _ silent _ callee _ args =>
    obtain ⟨_, _, _, rfl, first, second, notes⟩ := renoted.two
    obtain ⟨_, rfl, items⟩ := second.list_inv
    exact .call (callee first) (forall₂_each items fun e mem _ => args e mem)
      (allows.silent silent notes)
  | construction _ _ silent _ callee _ args =>
    obtain ⟨_, _, _, rfl, first, second, notes⟩ := renoted.two
    obtain ⟨_, rfl, items⟩ := second.list_inv
    exact .construction (callee first) (forall₂_each items fun e mem _ => args e mem)
      (allows.silent silent notes)
  | memberNamed _ _ silent _ object _ name =>
    obtain ⟨_, _, _, _, rfl, first, second, third, notes⟩ := renoted.three
    rw [third.of_scalar rfl]
    exact .memberNamed (object first) (name second) (allows.silent silent notes)
  | memberIndexed _ _ silent _ object _ index =>
    obtain ⟨_, _, _, _, rfl, first, second, third, notes⟩ := renoted.three
    rw [third.of_scalar rfl]
    exact .memberIndexed (object first) (index second) (allows.silent silent notes)
  | sequence many _ silent _ ih =>
    obtain ⟨_, _, rfl, list, notes⟩ := renoted.one
    obtain ⟨_, rfl, items⟩ := list.list_inv
    exact .sequence (items.length_eq ▸ many) (forall₂_each items fun e mem _ => ih e mem)
      (allows.silent silent notes)

theorem renoted_parts (allows : s.Allows R) :
    Role.Family.parts.Keeps s (·.Renotes s R) := by
  intro r v conforms rule family w renoted
  induction rule using Conforms.below.casesOn with cases family
  | computed _ _ silent _ key _ value =>
    obtain ⟨_, _, _, _, _, rfl, first, second, third, fourth, notes⟩ := renoted.four
    rw [third.of_scalar rfl, fourth.of_scalar rfl]
    exact .computed (key first) (value second) (allows.silent silent notes)
  | keyed _ _ silent _ key _ value =>
    obtain ⟨_, _, _, _, _, rfl, first, second, third, fourth, notes⟩ := renoted.four
    rw [third.of_scalar rfl, fourth.of_scalar rfl]
    exact .keyed (key first) (value second) (allows.silent silent notes)
  | shorthand name key value silent =>
    obtain ⟨_, _, _, _, _, rfl, first, second, third, fourth, notes⟩ := renoted.four
    obtain ⟨_, _, rfl, word, one⟩ := first.one
    obtain ⟨_, _, rfl, again, two⟩ := second.one
    rw [third.of_scalar rfl, fourth.of_scalar rfl, word.of_scalar rfl, again.of_scalar rfl]
    exact .shorthand name (allows.silent key one) (allows.silent value two)
      (allows.silent silent notes)
  | declarator _ _ silent _ name _ init =>
    obtain ⟨_, _, _, rfl, first, second, notes⟩ := renoted.two
    exact .declarator (name first) (fun some => init (second.some some) second)
      (allows.silent silent notes)
  | declaration word some _ _ ih =>
    obtain ⟨_, _, _, rfl, first, second, _⟩ := renoted.two
    obtain ⟨_, rfl, items⟩ := second.list_inv
    rw [first.of_scalar rfl]
    refine .declaration word ?_ (forall₂_each items fun e mem _ => ih e mem)
    rintro rfl
    cases items
    exact some rfl
  | loopDeclaration inner silent _ ih =>
    refine .loopDeclaration (ih renoted) ?_
    cases inner
    obtain ⟨_, _, _, rfl, _, _, notes⟩ := renoted.two
    exact allows.silent silent notes
  | loopExpression _ _ ih => exact .loopExpression (ih renoted)
  | loopVariable word _ inner silent _ name =>
    obtain ⟨_, _, _, rfl, first, second, notes⟩ := renoted.two
    obtain ⟨_, rfl, _ | ⟨declarator, ⟨⟩⟩⟩ := second.list_inv
    obtain ⟨_, _, _, rfl, id, none, within⟩ := declarator.two
    rw [first.of_scalar rfl, none.null]
    exact .loopVariable word (name id) (allows.silent inner within) (allows.silent silent notes)
  | loopPlace target _ _ ih => exact .loopPlace (renoted.like.isTarget.trans target) (ih renoted)

theorem renoted_blocks (allows : s.Allows R) :
    Role.Family.blocks.Keeps s (·.Renotes s R) := by
  intro r v conforms rule family w renoted
  induction rule using Conforms.below.casesOn with cases family
  | block _ listed _ ih =>
    obtain ⟨_, _, rfl, list, _⟩ := renoted.one
    obtain ⟨_, rfl, items⟩ := list.list_inv
    exact .block (forall₂_each items fun e mem _ => ih e mem) (allows.listed listed items)
  | handler _ _ alone silent _ param _ body =>
    obtain ⟨_, _, _, rfl, first, second, notes⟩ := renoted.two
    exact .handler (fun some => param (first.some some) first) (body second)
      (allows.alone alone second) (allows.silent silent notes)
  | program _ listed alone _ ih =>
    have whole := allows.alone alone renoted
    obtain ⟨_, _, rfl, list, _⟩ := renoted.one
    obtain ⟨_, rfl, items⟩ := list.list_inv
    exact .program (forall₂_each items fun e mem _ => ih e mem) (allows.listed listed items) whole

theorem renoted_statements (allows : s.Allows R) :
    Role.Family.statements.Keeps s (·.Renotes s R) := by
  intro r v conforms rule family w renoted
  induction rule using Conforms.below.casesOn with cases family
  | blockStatement _ _ ih => exact .blockStatement (ih renoted)
  | declarationStatement _ _ ih => exact .declarationStatement (ih renoted)
  | emptyStatement =>
    obtain ⟨_, _, rfl, ⟨⟩, _⟩ := renoted.node_inv
    exact .emptyStatement
  | expressionStatement _ _ ih =>
    obtain ⟨_, _, rfl, inner, _⟩ := renoted.one
    exact .expressionStatement (ih inner)
  | functionDeclaration _ _ _ alone _ name _ params _ body =>
    obtain ⟨_, _, _, _, rfl, first, second, third, _⟩ := renoted.three
    obtain ⟨_, rfl, items⟩ := second.list_inv
    exact .functionDeclaration (name first) (forall₂_each items fun p mem _ => params p mem)
      (body third) (allows.alone alone third)
  | returnStatement _ _ ih =>
    obtain ⟨_, _, rfl, value, _⟩ := renoted.one
    exact .returnStatement fun some => ih (value.some some) value
  | breakStatement _ _ ih =>
    obtain ⟨_, _, rfl, label, _⟩ := renoted.one
    exact .breakStatement fun some => ih (label.some some) label
  | continueStatement _ _ ih =>
    obtain ⟨_, _, rfl, label, _⟩ := renoted.one
    exact .continueStatement fun some => ih (label.some some) label
  | throwStatement _ _ ih =>
    obtain ⟨_, _, rfl, value, _⟩ := renoted.one
    exact .throwStatement (ih value)
  | ifShort _ _ alone _ test _ left =>
    obtain ⟨_, _, _, _, rfl, first, second, third, _⟩ := renoted.three
    rw [third.null]
    exact .ifShort (test first) (left second) (allows.alone alone second)
  | ifElse _ _ _ closed one two _ test _ left _ right =>
    obtain ⟨_, _, _, _, rfl, first, second, third, _⟩ := renoted.three
    exact .ifElse (test first) (left second) (right third) (second.endsOpen closed)
      (allows.alone one second) (allows.alone two third)
  | forStatement _ _ _ _ alone _ init _ test _ update _ body =>
    obtain ⟨_, _, _, _, _, rfl, first, second, third, fourth, _⟩ := renoted.four
    exact .forStatement (fun some => init (first.some some) first)
      (fun some => test (second.some some) second) (fun some => update (third.some some) third)
      (body fourth) (allows.alone alone fourth)
  | forIn _ _ _ alone _ left _ right _ body =>
    obtain ⟨_, _, _, _, rfl, first, second, third, _⟩ := renoted.three
    exact .forIn (left first) (right second) (body third) (allows.alone alone third)
  | forOf _ _ _ alone _ left _ right _ body =>
    obtain ⟨_, _, _, _, rfl, first, second, third, _⟩ := renoted.three
    exact .forOf (left first) (right second) (body third) (allows.alone alone third)
  | whileStatement _ _ alone _ test _ body =>
    obtain ⟨_, _, _, rfl, first, second, _⟩ := renoted.two
    exact .whileStatement (test first) (body second) (allows.alone alone second)
  | doWhile _ _ alone _ body _ test =>
    obtain ⟨_, _, _, rfl, first, second, _⟩ := renoted.two
    exact .doWhile (body first) (test second) (allows.alone alone first)
  | tryStatement _ _ _ both one last _ guarded _ handler _ finalizer =>
    obtain ⟨_, _, _, _, rfl, first, second, third, _⟩ := renoted.three
    exact .tryStatement (guarded first) (fun some => handler (second.some some) second)
      (fun some => finalizer (third.some some) third)
      (by rw [second.isNull, third.isNull, both]) (allows.alone one first)
      fun some => allows.alone (last (third.some some)) third

/-- A tree follows the grammar after a change of notes that its convention allows. -/
theorem Conforms.renoted (allows : s.Allows R) (conforms : Conforms s r v) : r.Renotes s R v :=
  conforms.byFamily fun
    | .names => renoted_names allows
    | .expressions => renoted_expressions allows
    | .parts => renoted_parts allows
    | .blocks => renoted_blocks allows
    | .statements => renoted_statements allows

namespace Value

variable {change : Notes → Notes} {label : Nat}

mutual
/-- A change of the notes of one label. -/
theorem amend_renoted (same : ∀ n, R n n) (changed : ∀ n, R (change n) n) :
    (v : Value) → Renoted R (v.amend label (mapNotes change)) v
  | .list vs => .list (amendItems_renoted same changed vs)
  | .node _ vs n => by
    have children := amendItems_renoted same changed vs
    rw [amend]
    split
    · exact .node children (changed n)
    · exact .node children (same n)
  | .null | .bool _ | .int _ | .float _ | .text _ => .scalar rfl

theorem amendItems_renoted (same : ∀ n, R n n) (changed : ∀ n, R (change n) n) :
    (vs : List Value) → List.Forall₂ (Renoted R) (amendItems label (mapNotes change) vs) vs
  | [] => .nil
  | v :: vs => .cons (amend_renoted same changed v) (amendItems_renoted same changed vs)
end

mutual
/-- Labels make no difference. -/
theorem like_stamp {keep : Bool} : (v : Value) → (free : Nat) → Like keep (v.stamp free).1 v
  | .list vs, free => like_list.mpr ⟨_, rfl, allLike_stamp vs free⟩
  | .node _ vs n, free => by
    by_cases fresh : n.label = 0
    · simp only [stamp, fresh, if_true]
      exact .node (allLike_stamp vs _) fun _ => rfl
    · simp only [stamp, fresh, if_false]
      exact .node (allLike_stamp vs _) fun _ => rfl
  | .null, _ | .bool _, _ | .int _, _ | .float _, _ | .text _, _ => .refl

theorem allLike_stamp {keep : Bool} : (vs : List Value) → (free : Nat) →
    AllLike keep (stampItems free vs).1 vs
  | [], _ => rfl
  | v :: vs, free => .cons (like_stamp v free) (allLike_stamp vs _)
end

end Value

end ScriptTree
