import ScriptTree.Proofs.Path.Descent
import ScriptTree.Proofs.Print.Printing

/-!
What follows the grammar prints, unless an integer in it has too many digits to write.
-/
namespace ScriptTree

open Print Layout Value

namespace Value

mutual
/-- Whether every integer in a value can be written. -/
def isShort : Value → Bool
  | .int n => (Numeral.writeInt? n).isSome
  | .list items => areShort items
  | .node _ children _ => areShort children
  | _ => true

def areShort : List Value → Bool
  | [] => true
  | v :: vs => isShort v && areShort vs
end

theorem areShort_iff {vs : List Value} : areShort vs = true ↔ ∀ v ∈ vs, v.isShort = true := by
  induction vs with
  | nil => simp [areShort]
  | cons v vs ih => simp [areShort, ih]

end Value

/-- A computation gives something good if a condition holds, and else fails at an integer that is
too long to write. -/
def Answers {α : Type} (fine : Prop) (good : α → Prop) (x : Except Error α) : Prop :=
  (fine ∧ ∃ a, x = .ok a ∧ good a) ∨ (¬fine ∧ x = .error .longInteger)

namespace Answers

variable {α β : Type} {p q : Prop} {good : α → Prop} {kind : β → Prop} {x : Except Error α}
  {f : α → Except Error β}

theorem ok {a : α} (fits : good a) : Answers True good (.ok a) := .inl ⟨trivial, a, rfl, fits⟩

theorem bind (first : Answers p good x) (next : ∀ a, good a → Answers q kind (f a)) :
    Answers (p ∧ q) kind (x >>= f) := by
  rcases first with ⟨holds, a, rfl, fits⟩ | ⟨fails, rfl⟩
  · rcases next a fits with ⟨more, b, done, fine⟩ | ⟨fails, done⟩
    · exact .inl ⟨⟨holds, more⟩, b, done, fine⟩
    · exact .inr ⟨fun both => fails both.2, done⟩
  · exact .inr ⟨fun both => fails both.1, rfl⟩

theorem congr (answers : Answers p good x) (same : p ↔ q) : Answers q good x := by
  rwa [Answers, ← same]

theorem map {g : α → β} (answers : Answers p good x) (fits : ∀ a, good a → kind (g a)) :
    Answers p kind (g <$> x) :=
  (answers.bind fun a fine => .ok (fits a fine)).congr (by rw [and_true])

theorem mapM {vs : List α} {f : α → Except Error β} {fine : α → Prop}
    (each : ∀ v ∈ vs, Answers (fine v) kind (f v)) :
    Answers (∀ v ∈ vs, fine v) (∀ w ∈ ·, kind w) (vs.mapM f) := by
  induction vs with
  | nil => exact (Answers.ok (by simp)).congr (by simp)
  | cons v vs ih =>
    obtain ⟨first, rest⟩ := List.forall_mem_cons.mp each
    rw [List.mapM_cons]
    refine (first.bind fun w fits => (ih rest).map fun ws all => ?_).congr
      List.forall_mem_cons.symm
    exact List.forall_mem_cons.mpr ⟨fits, all⟩

end Answers

def Phrase.IsSource (p : Phrase) : Prop := ∃ l, p = .source l

def Layout.Any (_ : Layout) : Prop := True

namespace Answers

variable {β : Type} {p q : Prop} {kind : β → Prop} {x : Except Error Phrase}
  {f : Layout → Except Error β}

theorem done {l : Layout} : Answers True Layout.Any (.ok l) := .ok trivial

theorem source {l : Layout} : Answers True Phrase.IsSource (.ok (.source l)) := .ok ⟨l, rfl⟩

theorem spoken (answers : Answers p Phrase.IsSource x) (next : ∀ l, Answers q kind (f l)) :
    Answers (p ∧ q) kind (x >>= fun s => s.spoken >>= f) :=
  answers.bind fun s ⟨l, same⟩ => by
    subst same
    exact next l

theorem begun (answers : Answers p Phrase.IsSource x) (next : ∀ l, Answers q kind (f l)) :
    Answers (p ∧ q) kind (x >>= fun s => s.begun >>= f) :=
  answers.bind fun s ⟨l, same⟩ => by
    subst same
    exact next l

theorem strict (answers : Answers p Phrase.IsSource x) (next : ∀ l, Answers q kind (f l)) :
    Answers (p ∧ q) kind (x >>= fun s => s.strict >>= f) :=
  answers.bind fun s ⟨l, same⟩ => by
    subst same
    exact next l

end Answers

namespace Print

variable {r : Rules} {v : Value}

/-- A value prints as an expression in all circumstances. -/
def Expresses (r : Rules) (v : Value) : Prop :=
  ∀ c least, Answers v.isShort Phrase.IsSource (r.expression c least v)

def States (r : Rules) (v : Value) : Prop :=
  ∀ c, Answers v.isShort Layout.Any (r.statement c v)

def Blocks (r : Rules) (v : Value) : Prop := ∀ c, Answers v.isShort Layout.Any (block r c v)

theorem separated_ok {ps : List Phrase} (sources : ∀ p ∈ ps, p.IsSource) :
    ∃ l, Phrase.separated ps = .ok l := by
  have strict : ∃ ls, ps.mapM Phrase.strict = .ok ls := by
    induction ps with
    | nil => exact ⟨[], rfl⟩
    | cons p ps ih =>
      obtain ⟨⟨l, rfl⟩, rest⟩ := List.forall_mem_cons.mp sources
      obtain ⟨ls, done⟩ := ih rest
      exact ⟨l :: ls, mapM_cons rfl done⟩
  obtain ⟨ls, done⟩ := strict
  exact ⟨_, by rw [Phrase.separated, done]; rfl⟩

end Print

namespace Answers

variable {r : Rules} {c : Context} {n : Notes} {a b d e v : Value} {vs : List Value}
  {print : Value → Except Error Phrase}

/-- Items with commas between them. -/
theorem items {β : Type} {q : Prop} {kind : β → Prop} {f : Layout → Except Error β}
    (each : ∀ v ∈ vs, Answers v.isShort Phrase.IsSource (print v))
    (next : ∀ l, Answers q kind (f l)) :
    Answers (areShort vs ∧ q) kind (vs.mapM print >>= fun ps => Phrase.separated ps >>= f) := by
  refine ((Answers.mapM each).bind fun ps sources => ?_).congr (by rw [areShort_iff])
  obtain ⟨l, done⟩ := separated_ok sources
  rw [done]
  exact next l

theorem commaSeparated {least : Nat} (each : ∀ v ∈ vs, Expresses r v) :
    Answers (areShort vs) Layout.Any (commaSeparated r c least vs) := by
  refine ((Answers.mapM fun v mem => each v mem c least).bind fun ps sources => ?_).congr
    (by rw [and_true, areShort_iff])
  obtain ⟨l, done⟩ := separated_ok sources
  rw [done]
  exact .done

theorem literal (scalar : v.isScalar) :
    Answers (Value.node .literal [v] n).isShort Phrase.IsSource
      (bare r c (.node .literal [v] n) .literal) := by
  have written : Answers v.isShort (fun _ => True) (Literal.write v) := by
    cases v with
    | int i =>
      simp only [isShort, Literal.write, writeInteger]
      cases Numeral.writeInt? i with
      | none => exact .inr ⟨Bool.false_ne_true, rfl⟩
      | some t => exact .inl ⟨rfl, t, rfl, trivial⟩
    | list => cases scalar
    | node => cases scalar
    | _ => exact (Answers.ok trivial).congr (by simp [isShort])
  simp only [bare, fields_of .literal, ok_bind, isShort, areShort, Bool.and_true]
  exact (written.bind fun _ _ => .source).congr (by rw [and_true])

theorem array (each : ∀ v ∈ vs, v ≠ .null → Expresses r v) :
    Answers (Value.node .arrayExpression [.list vs] n).isShort Layout.Any
      (array r c (.node .arrayExpression [.list vs] n)) := by
  simp only [Print.array, Print.items, fields_of .arrayExpression, ok_bind, pure_ok]
  refine (Answers.items (fun v mem => ?_) fun l => .done).congr (by simp [isShort, areShort])
  split
  · cases v <;> simp_all [isNull]
    exact Answers.source.congr (by simp [isShort])
  · refine each v mem ?_ _ _
    rintro rfl
    contradiction

theorem property {computed : Bool} (key : Expresses r a) (value : Expresses r b) :
    Answers (Value.node .property [a, b, .bool computed, .bool false] n).isShort Phrase.IsSource
      (property r c (.node .property [a, b, .bool computed, .bool false] n)) := by
  simp only [Print.property, fields_of .property, ok_bind, pure_ok, isTruthy, Bool.false_eq_true,
    if_false]
  exact ((key c _).spoken fun _ => (value c _).spoken fun _ => .source).congr
    (by simp [isShort, areShort])

theorem object (each : ∀ v ∈ vs, ∀ c, Answers v.isShort Phrase.IsSource (Print.property r c v)) :
    Answers (Value.node .objectExpression [.list vs] n).isShort Layout.Any
      (object r c (.node .objectExpression [.list vs] n)) := by
  simp only [Print.object, Print.items, fields_of .objectExpression, ok_bind, pure_ok]
  split
  · rename_i none
    cases vs with
    | nil => exact Answers.done.congr (by simp [isShort, areShort])
    | cons => cases none
  · exact (Answers.items (fun v mem => each v mem _) fun l => .done).congr
      (by simp [isShort, areShort])

theorem function {k : Kind} (isFunction : k = .functionExpression ∨ k = .functionDeclaration)
    (name : a ≠ .null → Expresses r a) (params : ∀ v ∈ vs, Expresses r v) (body : Blocks r b) :
    Answers (Value.node k [a, .list vs, b] n).isShort Layout.Any
      (function r c (.node k [a, .list vs, b] n)) := by
  have rest {l : Layout → Layout → Layout} : Answers (areShort vs ∧ b.isShort ∧ True) Layout.Any
      (Print.commaSeparated r c sequenceRank vs >>= fun params =>
        block r c b >>= fun body => .ok (l params body)) :=
    (commaSeparated params).bind fun _ _ => (body c).bind fun _ _ => .done
  rcases isFunction with rfl | rfl
  all_goals
    simp only [Print.function, parameters, Print.items, fields_of .functionExpression,
      fields_of .functionDeclaration, ok_bind, pure_ok]
    split
    · exact rest.congr (by simp [isShort, areShort])
    · rename_i some
      exact ((name some c _).strict fun _ => rest).congr (by simp [isShort, areShort])

theorem arrowBlock {flag : Bool} (params : ∀ v ∈ vs, Expresses r v) (body : Blocks r b)
    (isBlock : b.isKind .blockStatement) :
    Answers (Value.node .arrowFunctionExpression [.list vs, b, .bool flag] n).isShort Layout.Any
      (arrow r c (.node .arrowFunctionExpression [.list vs, b, .bool flag] n)) := by
  simp only [Print.arrow, parameters, Print.items, fields_of .arrowFunctionExpression, ok_bind,
    pure_ok, isBlock, if_true]
  exact ((body c).bind fun _ _ => (commaSeparated params).bind fun _ _ => .done).congr
    (by simp [isShort, areShort, and_comm])

theorem arrowValue {flag : Bool} (params : ∀ v ∈ vs, Expresses r v) (body : Expresses r b)
    (other : b.isKind .blockStatement = false) :
    Answers (Value.node .arrowFunctionExpression [.list vs, b, .bool flag] n).isShort Layout.Any
      (arrow r c (.node .arrowFunctionExpression [.list vs, b, .bool flag] n)) := by
  simp only [Print.arrow, parameters, Print.items, fields_of .arrowFunctionExpression, ok_bind,
    pure_ok, other, Bool.false_eq_true, if_false]
  exact ((body _ _).begun fun _ => (commaSeparated params).bind fun _ _ => .done).congr
    (by simp [isShort, areShort, and_comm])

theorem unary {op : Text} (operand : Expresses r a) :
    Answers (Value.node .unaryExpression [.text op, a] n).isShort Phrase.IsSource
      (unary r c (.node .unaryExpression [.text op, a] n)) := by
  simp only [Print.unary, fields_of .unaryExpression, ok_bind, pure_ok]
  refine ((operand c _).bind (q := True) fun s source => ?_).congr (by simp [isShort, areShort])
  obtain ⟨l, rfl⟩ := source
  split
  · exact .source
  · split
    · exact .source
    · exact .source

theorem update {op : Text} {before : Bool} (operand : Expresses r a) :
    Answers (Value.node .updateExpression [.text op, .bool before, a] n).isShort Phrase.IsSource
      (update r c (.node .updateExpression [.text op, .bool before, a] n)) := by
  simp only [Print.update, fields_of .updateExpression, ok_bind, Phrase.ofValue]
  split <;>
  · refine ((operand c _).bind (q := True) fun s source => ?_).congr (by simp [isShort, areShort])
    obtain ⟨l, rfl⟩ := source
    exact .source

theorem operand {op : Text} {k : Nat} {l : Layout}
    (settled : ∀ op k, ∃ b, mixesNullish op k v = .ok b) :
    Answers True Phrase.IsSource (operand op k v (.source l)) := by
  obtain ⟨b, done⟩ := settled op k
  rw [Print.operand, done]
  cases b <;> exact .source

theorem operation {o : TokenKind} {rank : Nat} (ranked : o.rank? = some rank)
    (left : Expresses r a) (right : Expresses r b)
    (first : ∀ op k, ∃ flag, mixesNullish op k a = .ok flag)
    (second : ∀ op k, ∃ flag, mixesNullish op k b = .ok flag) :
    Answers (Value.node (Grammar.operationKind o) [.text (text o.spelling), a, b] n).isShort
      Layout.Any
      (binary r c (.node (Grammar.operationKind o) [.text (text o.spelling), a, b] n)) := by
  have known : operatorRank (.text (text o.spelling)) = .ok (conditionalRank + rank) := by
    rw [operatorRank, rankOf?_spelling ranked]
  have inner (c : Context) : Answers (a.isShort ∧ b.isShort) Layout.Any
      (Print.operation r c
        (.node (Grammar.operationKind o) [.text (text o.spelling), a, b] n)) := by
    unfold Grammar.operationKind
    split
    all_goals
      simp only [Print.operation, fields_of .logicalExpression, fields_of .binaryExpression,
        ok_bind, known, word, pure_ok]
      refine ((left c _).bind fun s source =>
        (right c _).bind (q := True) fun s' source' => ?_).congr (by rw [and_true])
      obtain ⟨l, rfl⟩ := source
      obtain ⟨l', rfl⟩ := source'
      refine ((operand first).bind fun s source => (operand second).bind (q := True)
        fun s' source' => ?_).congr (by simp)
      obtain ⟨l, rfl⟩ := source
      obtain ⟨l', rfl⟩ := source'
      exact .done
  have field : (Value.node (Grammar.operationKind o) [.text (text o.spelling), a, b] n).field
      "operator" = .ok (.text (text o.spelling)) := by
    unfold Grammar.operationKind
    split <;> rfl
  simp only [binary, field, ok_bind, pure_ok]
  split
  · exact ((inner _).bind fun _ _ => .done).congr (by simp [isShort, areShort])
  · exact (inner _).congr (by simp [isShort, areShort])

theorem assignment {op : Text} (left : Expresses r a) (right : Expresses r b) :
    Answers (Value.node .assignmentExpression [.text op, a, b] n).isShort Layout.Any
      (assignment r c (.node .assignmentExpression [.text op, a, b] n)) := by
  simp only [Print.assignment, fields_of .assignmentExpression, ok_bind, pure_ok, Value.spoken]
  refine ((left c _).bind fun s source => (right c _).bind (q := True) fun s' source' => ?_).congr
    (by simp [isShort, areShort])
  obtain ⟨l, rfl⟩ := source
  obtain ⟨l', rfl⟩ := source'
  exact .done

theorem conditional (test : Expresses r a) (consequent : Expresses r b)
    (alternate : Expresses r d) :
    Answers (Value.node .conditionalExpression [a, b, d] n).isShort Layout.Any
      (conditional r c (.node .conditionalExpression [a, b, d] n)) := by
  simp only [Print.conditional, fields_of .conditionalExpression, ok_bind, pure_ok]
  refine ((test c _).bind fun s source => (consequent _ _).bind fun s' source' =>
    (alternate c _).bind (q := True) fun s'' source'' => ?_).congr (by simp [isShort, areShort])
  obtain ⟨l, rfl⟩ := source
  obtain ⟨l', rfl⟩ := source'
  obtain ⟨l'', rfl⟩ := source''
  exact .done

theorem arguments (each : ∀ v ∈ vs, Expresses r v)
    (field : v.field "arguments" = .ok (.list vs)) :
    Answers (areShort vs) Layout.Any (arguments r c v) := by
  simp only [Print.arguments, Print.items, field, ok_bind, pure_ok]
  exact ((commaSeparated each).bind fun _ _ => .done).congr (by rw [and_true])

theorem call (callee : Expresses r a) (args : ∀ v ∈ vs, Expresses r v) :
    Answers (Value.node .callExpression [a, .list vs] n).isShort Layout.Any
      (call r c (.node .callExpression [a, .list vs] n)) := by
  simp only [Print.call, fields_of .callExpression, ok_bind, pure_ok]
  exact ((callee c _).spoken fun _ => (arguments args rfl).bind fun _ _ => .done).congr
    (by simp [isShort, areShort])

theorem construction (callee : Expresses r a) (args : ∀ v ∈ vs, Expresses r v) :
    Answers (Value.node .newExpression [a, .list vs] n).isShort Layout.Any
      (construction r c (.node .newExpression [a, .list vs] n)) := by
  simp only [Print.construction, fields_of .newExpression, ok_bind, pure_ok]
  exact ((callee c _).spoken fun _ => (arguments args rfl).bind fun _ _ => .done).congr
    (by simp [isShort, areShort])

theorem member {computed : Bool} (object : Expresses r a) (property : Expresses r b) :
    Answers (Value.node .memberExpression [a, b, .bool computed] n).isShort Layout.Any
      (member r c (.node .memberExpression [a, b, .bool computed] n)) := by
  simp only [Print.member, fields_of .memberExpression, ok_bind, pure_ok]
  refine ((object c _).spoken (q := b.isShort) fun _ => ?_).congr (by simp [isShort, areShort])
  split <;> exact ((property _ _).spoken fun _ => .done).congr (by rw [and_true])

theorem sequence (each : ∀ v ∈ vs, Expresses r v) :
    Answers (Value.node .sequenceExpression [.list vs] n).isShort Phrase.IsSource
      (bare r c (.node .sequenceExpression [.list vs] n) .sequenceExpression) := by
  simp only [bare, Print.items, fields_of .sequenceExpression, ok_bind, pure_ok]
  exact ((commaSeparated each).bind fun _ _ => .source).congr (by simp [isShort, areShort])

/-- An expression of a rank prints if it prints without parentheses. -/
theorem expression {k : Kind} {n : Notes} {rank : Nat}
    (ranked : Print.rank (.node k vs n) = .ok rank)
    (inner : ∀ c, Answers (Value.node k vs n).isShort Phrase.IsSource
      (bare r c (.node k vs n) k)) (c : Context) (least : Nat) :
    Answers (Value.node k vs n).isShort Phrase.IsSource
      (Print.expression r c least (.node k vs n)) := by
  have shown (l : Layout) :
      Answers True Phrase.IsSource (commented c (.node k vs n) (.source l)) := by
    unfold commented
    split <;> exact .source
  simp only [Print.expression, Value.kind?, ranked, ok_bind]
  split
  · exact ((inner _).strict fun l => shown _).congr (by rw [and_true])
  · refine ((inner c).bind fun s source => ?_).congr (by rw [and_true])
    obtain ⟨l, rfl⟩ := source
    exact shown l

theorem block (each : ∀ v ∈ vs, States r v) :
    Answers (Value.node .blockStatement [.list vs] n).isShort Layout.Any
      (block r c (.node .blockStatement [.list vs] n)) := by
  simp only [Print.block, Print.items, fields_of .blockStatement, ok_bind, pure_ok]
  split
  · refine ((Answers.mapM fun v mem => each v mem _).bind (q := True) fun ls _ => ?_).congr
      (by simp [isShort, areShort, areShort_iff])
    split <;> exact .done
  · rename_i none
    cases vs with
    | nil =>
      refine Answers.congr (p := True) ?_ (by simp [isShort, areShort])
      split <;> exact .done
    | cons => cases none rfl

theorem declarator (name : Expresses r a) (init : b ≠ .null → Expresses r b) :
    Answers (Value.node .variableDeclarator [a, b] n).isShort Phrase.IsSource
      (declarator r c (.node .variableDeclarator [a, b] n)) := by
  simp only [Print.declarator, fields_of .variableDeclarator, ok_bind, pure_ok]
  refine ((name c _).bind (q := b.isShort) fun s source => ?_).congr (by simp [isShort, areShort])
  obtain ⟨l, rfl⟩ := source
  split
  · exact Answers.source.congr (by simp [isShort])
  · rename_i some
    exact ((init some c _).spoken fun _ => .source).congr (by rw [and_true])

theorem declaration {word : Text}
    (each : ∀ v ∈ vs, Answers v.isShort Phrase.IsSource (Print.declarator r c v)) :
    Answers (Value.node .variableDeclaration [.text word, .list vs] n).isShort Layout.Any
      (declaration r c (.node .variableDeclaration [.text word, .list vs] n)) := by
  simp only [Print.declaration, Print.items, fields_of .variableDeclaration, ok_bind, pure_ok,
    Value.spoken]
  exact (Answers.items each fun _ => .done).congr (by simp [isShort, areShort])

theorem body (inBlock : v.isKind .blockStatement → Blocks r v) (stated : States r v) :
    Answers v.isShort Layout.Any (body r c v) := by
  simp only [Print.body, pure_ok]
  split
  · rename_i isBlock
    exact ((inBlock isBlock c).bind fun _ _ => .done).congr (by rw [and_true])
  · exact ((stated _).bind fun _ _ => .done).congr (by rw [and_true])

theorem handler (param : a ≠ .null → Expresses r a) (inner : Blocks r b) :
    Answers (Value.node .catchClause [a, b] n).isShort Layout.Any
      (handler r c (.node .catchClause [a, b] n)) := by
  have rest {l : Layout → Layout} : Answers (b.isShort ∧ True) Layout.Any
      (Print.block r c b >>= fun inner => .ok (l inner)) := (inner c).bind fun _ _ => .done
  simp only [Print.handler, fields_of .catchClause, ok_bind, pure_ok]
  split
  · exact rest.congr (by simp [isShort, areShort])
  · rename_i some
    exact ((param some c _).spoken fun _ => rest).congr (by simp [isShort, areShort])

theorem choice (test : Expresses r a)
    (consequent : ∀ c, Answers b.isShort Layout.Any (Print.body r c b))
    (chain : d.isKind .ifStatement → ∀ c, Answers d.isShort Layout.Any (r.choice c d))
    (alternate : d ≠ .null → ∀ c, Answers d.isShort Layout.Any (Print.body r c d)) :
    Answers (Value.node .ifStatement [a, b, d] n).isShort Layout.Any
      (choice r c (.node .ifStatement [a, b, d] n)) := by
  simp only [Print.choice, fields_of .ifStatement, ok_bind, pure_ok]
  refine ((test c _).spoken fun _ => (consequent c).bind (q := d.isShort) fun _ _ => ?_).congr
    (by simp [isShort, areShort])
  split
  · cases d with
    | null => exact Answers.done.congr (by simp [isShort])
    | _ => contradiction
  · rename_i some
    split
    · rename_i isChoice
      exact ((chain isChoice c).bind fun _ _ => .done).congr (by rw [and_true])
    · refine ((alternate ?_ c).bind fun _ _ => .done).congr (by rw [and_true])
      rintro rfl
      exact some rfl

theorem loopPart (part : v ≠ .null → Expresses r v) :
    Answers v.isShort Layout.Any (loopPart r c v) := by
  simp only [Print.loopPart, pure_ok]
  split
  · cases v with
    | null => exact Answers.done.congr (by simp [isShort])
    | _ => contradiction
  · rename_i some
    refine ((part ?_ c _).strict fun _ => .done).congr (by rw [and_true])
    rintro rfl
    exact some rfl

theorem countedLoop (init : Answers a.isShort Phrase.IsSource (Print.loopInit r c a))
    (test : b ≠ .null → Expresses r b) (update : d ≠ .null → Expresses r d)
    (inner : ∀ c, Answers e.isShort Layout.Any (Print.body r c e)) :
    Answers (Value.node .forStatement [a, b, d, e] n).isShort Layout.Any
      (countedLoop r c (.node .forStatement [a, b, d, e] n)) := by
  simp only [Print.countedLoop, fields_of .forStatement, ok_bind, pure_ok]
  refine (init.bind fun s source => (loopPart test).bind fun _ _ => (loopPart update).bind
    (q := e.isShort) fun _ _ => ?_).congr (by simp [isShort, areShort])
  obtain ⟨l, rfl⟩ := source
  exact ((inner c).bind fun _ _ => .done).congr (by rw [and_true])

theorem loopOver {k : Kind} {word : String} (isLoop : k = .forInStatement ∨ k = .forOfStatement)
    (left : Answers a.isShort Phrase.IsSource (Print.loopTarget r c a)) (right : Expresses r b)
    (inner : ∀ c, Answers d.isShort Layout.Any (Print.body r c d)) :
    Answers (Value.node k [a, b, d] n).isShort Layout.Any
      (loopOver r c word (.node k [a, b, d] n)) := by
  rcases isLoop with rfl | rfl
  all_goals
    simp only [Print.loopOver, fields_of .forInStatement, fields_of .forOfStatement, ok_bind,
      pure_ok]
    refine (left.bind fun s source => (right c _).bind (q := d.isShort) fun s' source' => ?_).congr
      (by simp [isShort, areShort])
    obtain ⟨l, rfl⟩ := source
    obtain ⟨l', rfl⟩ := source'
    exact ((inner c).bind fun _ _ => .done).congr (by rw [and_true])

theorem testedLoop (test : Expresses r a)
    (inner : ∀ c, Answers b.isShort Layout.Any (Print.body r c b)) :
    Answers (Value.node .whileStatement [a, b] n).isShort Layout.Any
      (testedLoop r c (.node .whileStatement [a, b] n)) := by
  simp only [Print.testedLoop, fields_of .whileStatement, ok_bind, pure_ok]
  exact ((test c _).spoken fun _ => (inner c).bind fun _ _ => .done).congr
    (by simp [isShort, areShort])

theorem repeatedLoop (inner : ∀ c, Answers a.isShort Layout.Any (Print.body r c a))
    (test : Expresses r b) :
    Answers (Value.node .doWhileStatement [a, b] n).isShort Layout.Any
      (repeatedLoop r c (.node .doWhileStatement [a, b] n)) := by
  simp only [Print.repeatedLoop, fields_of .doWhileStatement, ok_bind, pure_ok]
  exact ((inner c).bind fun _ _ => (test c _).spoken fun _ => .done).congr
    (by simp [isShort, areShort])

theorem guarded (first : Blocks r a)
    (handled : b ≠ .null → Answers b.isShort Layout.Any (Print.handler r c b))
    (last : d ≠ .null → Blocks r d) :
    Answers (Value.node .tryStatement [a, b, d] n).isShort Layout.Any
      (guarded r c (.node .tryStatement [a, b, d] n)) := by
  have rest {l : Layout} : Answers d.isShort Layout.Any (if d.isNull then .ok l else
      Print.block r c d >>= fun inner => .ok (l ++ lay " finally " ++ inner)) := by
    split
    · cases d with
      | null => exact Answers.done.congr (by simp [isShort])
      | _ => contradiction
    · rename_i some
      refine ((last ?_ c).bind fun _ _ => .done).congr (by rw [and_true])
      rintro rfl
      exact some rfl
  simp only [Print.guarded, fields_of .tryStatement, ok_bind, pure_ok]
  refine ((first c).bind (q := b.isShort ∧ d.isShort) fun _ _ => ?_).congr
    (by simp [isShort, areShort])
  split
  · cases b with
    | null => exact rest.congr (by simp [isShort])
    | _ => contradiction
  · rename_i some
    refine (handled ?_).bind fun _ _ => rest
    rintro rfl
    exact some rfl

theorem simple {k : Kind} {word field : String}
    (holds : (Value.node k [a] n).field field = .ok a) (value : a ≠ .null → Expresses r a) :
    Answers (Value.node k [a] n).isShort Layout.Any (simple r c word field (.node k [a] n)) := by
  simp only [Print.simple, wordWith, holds, ok_bind, pure_ok]
  split
  · exact Answers.done.congr (by simp [isShort, areShort])
  · rename_i some
    exact ((value some c _).spoken fun _ => .done).congr (by simp [isShort, areShort])

theorem wordWith {word : String} (value : Expresses r a) :
    Answers a.isShort Layout.Any (wordWith r c word a) := by
  simp only [Print.wordWith, pure_ok]
  exact ((value c _).spoken fun _ => .done).congr (by rw [and_true])

theorem expressionStatement (inner : Expresses r a) :
    Answers (Value.node .expressionStatement [a] n).isShort Layout.Any
      (expressionStatement r c (.node .expressionStatement [a] n)) := by
  simp only [Print.expressionStatement, fields_of .expressionStatement, ok_bind, pure_ok]
  exact ((inner c _).begun fun _ => .done).congr (by simp [isShort, areShort])

/-- A statement prints with the comments around it if it prints without them. -/
theorem statement (own : Answers v.isShort Layout.Any (bareStatement r c v))
    (shape : v.isKind .blockStatement → ∃ body, v.field "body" = .ok body) :
    Answers v.isShort Layout.Any (statement r c v) := by
  have kept : ∃ keeps, keepsTrailing v = .ok keeps := by
    unfold keepsTrailing
    split
    · rename_i isBlock
      obtain ⟨body, holds⟩ := shape isBlock
      exact ⟨_, by rw [holds]; rfl⟩
    · exact ⟨_, rfl⟩
  obtain ⟨keeps, done⟩ := kept
  simp only [Print.statement, done, ok_bind, pure_ok]
  exact (own.bind fun _ _ => .done).congr (by rw [and_true])

theorem program (each : ∀ v ∈ vs, States r v) :
    Answers (Value.node .program [.list vs] n).isShort Layout.Any
      (program r c (.node .program [.list vs] n)) := by
  simp only [Print.program, Print.items, fields_of .program, ok_bind, pure_ok]
  exact ((Answers.mapM fun v mem => each v mem c).bind fun _ _ => .done).congr
    (by simp [isShort, areShort, areShort_iff])

end Answers

/-! What is not a name is told from it by its kind, and every expression has a rank. -/

variable {s : Convention} {v : Value} {r : Role} {n : Nat}

/-- An expression is no statement of the two sorts that also stand in other places. -/
theorem Conforms.not_block_or_declaration (conforms : Conforms s .expression v) :
    v.isKind .blockStatement = false ∧ v.isKind .variableDeclaration = false := by
  cases conforms with
  | name inner =>
    cases inner
    exact ⟨rfl, rfl⟩
  | operation =>
    unfold Grammar.operationKind
    split <;> exact ⟨rfl, rfl⟩
  | _ => exact ⟨rfl, rfl⟩

/-- Rules that reach a value print it in its place, unless an integer in it is too long. -/
def Printable (v : Value) : Role → Prop
  | .expression | .binding | .word | .key => ∀ n, v.depth ≤ n → Expresses (rules n) v
  | .property => ∀ n, v.depth ≤ n + 1 → ∀ c,
      Answers v.isShort Phrase.IsSource (property (rules n) c v)
  | .declarator => ∀ n, v.depth ≤ n + 1 → ∀ c,
      Answers v.isShort Phrase.IsSource (declarator (rules n) c v)
  | .declaration => ∀ n, v.depth ≤ n + 1 → ∀ c,
      Answers v.isShort Layout.Any (declaration (rules n) c v)
  | .loopInit => ∀ n, v.depth ≤ n → ∀ c, Answers v.isShort Phrase.IsSource (loopInit (rules n) c v)
  | .loopTarget => ∀ n, v.depth ≤ n → ∀ c,
      Answers v.isShort Phrase.IsSource (loopTarget (rules n) c v)
  | .handler => ∀ n, v.depth ≤ n + 1 → ∀ c, Answers v.isShort Layout.Any (handler (rules n) c v)
  | .block => ∀ n, v.depth ≤ n + 1 → Blocks (rules n) v
  | .statement => ∀ n, v.depth ≤ n → States (rules n) v ∧
      (∀ c, Answers v.isShort Layout.Any (body (rules n) c v)) ∧
      (v.isKind .ifStatement → ∀ c, Answers v.isShort Layout.Any ((rules n).choice c v))
  | .program => ∀ n, v.depth ≤ n + 1 → ∀ c, Answers v.isShort Layout.Any (program (rules n) c v)

namespace Printable

variable {k : Kind} {vs : List Value} {o : Notes} {t : Text}

/-- A node that is printed by its own rule for the depth below it prints as an expression. -/
theorem ofBare {rank : Nat} (ranked : Print.rank (.node k vs o) = .ok rank)
    (inner : ∀ n, Value.depth (.node k vs o) ≤ n + 1 → ∀ c,
      Answers (Value.node k vs o).isShort Phrase.IsSource (bare (rules n) c (.node k vs o) k)) :
    Printable (.node k vs o) .expression := by
  intro n deep
  cases n with
  | zero => exact absurd (depth_pos (.node k vs o)) (by omega)
  | succ n => exact Answers.expression ranked (inner n deep)

theorem name : Printable (.node .identifier [.text t] o) .expression :=
  ofBare rfl fun _ _ _ => Answers.source.congr (by simp [isShort, areShort])

/-- A statement that is neither a block nor a choice. -/
theorem ofOwn (block : k ≠ .blockStatement) (choice : k ≠ .ifStatement)
    (own : ∀ n, Value.depth (.node k vs o) ≤ n + 1 → ∀ c,
      Answers (Value.node k vs o).isShort Layout.Any (bareStatement (rules n) c (.node k vs o))) :
    Printable (.node k vs o) .statement := by
  have noBlock : (Value.node k vs o).isKind .blockStatement = false := by
    rw [isKind_leaf (by rfl)]
    simpa using block
  have noChoice : (Value.node k vs o).isKind .ifStatement = false := by
    rw [isKind_leaf (by rfl)]
    simpa using choice
  have stated n (deep : Value.depth (.node k vs o) ≤ n) : States (rules n) (.node k vs o) := by
    cases n with
    | zero => exact absurd (depth_pos (.node k vs o)) (by omega)
    | succ n => exact fun c => Answers.statement (own n deep c) (by simp [noBlock])
  exact fun n deep => ⟨stated n deep, fun _ => Answers.body (by simp [noBlock]) (stated n deep),
    by simp [noChoice]⟩

theorem ofBlock (printable : Printable (.node .blockStatement [.list vs] o) .block) :
    Printable (.node .blockStatement [.list vs] o) .statement := by
  have stated n (deep : Value.depth (.node .blockStatement [.list vs] o) ≤ n) :
      States (rules n) (.node .blockStatement [.list vs] o) := by
    cases n with
    | zero => exact absurd (depth_pos (.node .blockStatement [.list vs] o)) (by omega)
    | succ n => exact fun c => Answers.statement (printable n deep c) fun _ => ⟨_, rfl⟩
  exact fun n deep => ⟨stated n deep,
    fun _ => Answers.body (fun _ => printable n (by omega)) (stated n deep), nofun⟩

theorem ofChoice
    (printable : ∀ n, Value.depth (.node .ifStatement vs o) ≤ n + 1 → ∀ c,
      Answers (Value.node .ifStatement vs o).isShort Layout.Any
        (Print.choice (rules n) c (.node .ifStatement vs o))) :
    Printable (.node .ifStatement vs o) .statement := by
  have noBlock : (Value.node .ifStatement vs o).isKind .blockStatement = false := rfl
  intro n deep
  cases n with
  | zero => exact absurd (depth_pos (.node .ifStatement vs o)) (by omega)
  | succ n =>
    have stated : States (rules (n + 1)) (.node .ifStatement vs o) := fun c =>
      Answers.statement (printable n deep c) (by simp [noBlock])
    exact ⟨stated, fun _ => Answers.body (by simp [noBlock]) stated, fun _ => printable n deep⟩

end Printable

theorem printable_names (scalar : ∀ {v}, s.literal v → v.isScalar) :
    Role.Family.names.Keeps s (fun r v => Printable v r) := by
  intro r v conforms rule family
  induction rule using Conforms.below.casesOn with cases family
  | binding | word => exact Printable.name
  | keyWord _ _ ih => exact ih
  | keyLiteral _ value =>
    exact .ofBare rfl fun n deep c => .literal (scalar value)

theorem printable_expressions (scalar : ∀ {v}, s.literal v → v.isScalar) :
    Role.Family.expressions.Keeps s (fun r v => Printable v r) := by
  intro r v conforms rule family
  induction rule using Conforms.below.casesOn with cases family
  | name _ _ ih => exact ih
  | literal value =>
    exact .ofBare rfl fun n deep c => .literal (scalar value)
  | this => exact .ofBare rfl fun _ _ _ => Answers.source.congr (by simp [isShort, areShort])
  | array _ _ _ elements =>
    refine .ofBare rfl fun n deep c => (Answers.array fun e mem some => ?_).map fun l _ => ⟨l, rfl⟩
    simp only [Value.depth, depthOfList] at deep
    have := depth_le_of_mem mem
    exact elements e mem some n (by omega)
  | object _ _ _ properties =>
    refine .ofBare rfl fun n deep c => (Answers.object fun e mem => ?_).map fun l _ => ⟨l, rfl⟩
    simp only [Value.depth, depthOfList] at deep
    have := depth_le_of_mem mem
    exact properties e mem n (by omega)
  | functionExpression _ _ _ _ _ _ name _ params _ body =>
    refine .ofBare rfl fun n deep c => (Answers.function (.inl rfl) (fun some => ?_)
      (fun p mem => ?_) ?_).map fun l _ => ⟨l, rfl⟩
    all_goals simp only [Value.depth, depthOfList] at deep
    · exact name some n (by omega)
    · have := depth_le_of_mem mem
      exact params p mem n (by omega)
    · exact body n (by omega)
  | arrowBlock _ inner _ _ _ params _ body =>
    refine .ofBare rfl fun n deep c => (Answers.arrowBlock (fun p mem => ?_) ?_
      (inner.isKind rfl)).map fun l _ => ⟨l, rfl⟩
    all_goals simp only [Value.depth, depthOfList] at deep
    · have := depth_le_of_mem mem
      exact params p mem n (by omega)
    · exact body n (by omega)
  | arrowValue _ inner _ _ params _ body =>
    refine .ofBare rfl fun n deep c => (Answers.arrowValue (fun p mem => ?_) ?_
      inner.not_block_or_declaration.1).map fun l _ => ⟨l, rfl⟩
    all_goals simp only [Value.depth, depthOfList] at deep
    · have := depth_le_of_mem mem
      exact params p mem n (by omega)
    · exact body n (by omega)
  | unary _ _ _ _ operand =>
    refine .ofBare rfl fun n deep c => .unary ?_
    simp only [Value.depth, depthOfList] at deep
    exact operand n (by omega)
  | update _ _ _ _ _ operand =>
    refine .ofBare rfl fun n deep c => .update ?_
    simp only [Value.depth, depthOfList] at deep
    exact operand n (by omega)
  | @operation _ _ _ _ o ranked left right _ _ first _ second =>
    refine .ofBare (rank_operation ranked) fun n deep c => ?_
    simp only [Value.depth, depthOfList] at deep
    have inner := Answers.operation (c := c) (n := o) ranked (first n (by omega))
      (second n (by omega)) left.mixes right.mixes
    unfold Grammar.operationKind at inner ⊢
    split at inner <;> rename_i logical <;> simp only [logical] <;>
      exact inner.map fun l _ => ⟨l, rfl⟩
  | assignment _ _ _ _ _ _ left _ right =>
    refine .ofBare rfl fun n deep c => (Answers.assignment ?_ ?_).map fun l _ => ⟨l, rfl⟩
    all_goals simp only [Value.depth, depthOfList] at deep
    · exact left n (by omega)
    · exact right n (by omega)
  | conditional _ _ _ _ _ test _ left _ right =>
    refine .ofBare rfl fun n deep c => (Answers.conditional ?_ ?_ ?_).map fun l _ => ⟨l, rfl⟩
    all_goals simp only [Value.depth, depthOfList] at deep
    · exact test n (by omega)
    · exact left n (by omega)
    · exact right n (by omega)
  | call _ _ _ _ callee _ args =>
    refine .ofBare rfl fun n deep c => (Answers.call ?_ fun e mem => ?_).map fun l _ => ⟨l, rfl⟩
    all_goals simp only [Value.depth, depthOfList] at deep
    · exact callee n (by omega)
    · have := depth_le_of_mem mem
      exact args e mem n (by omega)
  | construction _ _ _ _ callee _ args =>
    refine .ofBare rfl fun n deep c => (Answers.construction ?_ fun e mem => ?_).map
      fun l _ => ⟨l, rfl⟩
    all_goals simp only [Value.depth, depthOfList] at deep
    · exact callee n (by omega)
    · have := depth_le_of_mem mem
      exact args e mem n (by omega)
  | memberNamed _ _ _ _ object _ property | memberIndexed _ _ _ _ object _ property =>
    refine .ofBare rfl fun n deep c => (Answers.member ?_ ?_).map fun l _ => ⟨l, rfl⟩
    all_goals simp only [Value.depth, depthOfList] at deep
    · exact object n (by omega)
    · exact property n (by omega)
  | sequence _ _ _ _ items =>
    refine .ofBare rfl fun n deep c => .sequence fun e mem => ?_
    simp only [Value.depth, depthOfList] at deep
    have := depth_le_of_mem mem
    exact items e mem n (by omega)

theorem printable_parts : Role.Family.parts.Keeps s (fun r v => Printable v r) := by
  intro r v conforms rule family
  induction rule using Conforms.below.casesOn with cases family
  | computed _ _ _ _ key _ value | keyed _ _ _ _ key _ value =>
    intro n deep c
    simp only [Value.depth, depthOfList] at deep
    exact .property (key n (by omega)) (value n (by omega))
  | @shorthand w m o =>
    intro n deep c
    simp only [Value.depth, depthOfList] at deep
    exact (Printable.name (t := w) (o := o) n (by simp [Value.depth, depthOfList]; omega) c _).congr
      (by simp [isShort, areShort])
  | declarator _ _ _ _ name _ init =>
    intro n deep c
    simp only [Value.depth, depthOfList] at deep
    exact .declarator (name n (by omega)) fun some => init some n (by omega)
  | declaration _ _ _ _ declarators =>
    intro n deep c
    simp only [Value.depth, depthOfList] at deep
    refine .declaration fun e mem => ?_
    have := depth_le_of_mem mem
    exact declarators e mem n (by omega) c
  | @loopDeclaration v inner _ _ declared =>
    intro n deep c
    have isDeclaration := inner.isKind rfl
    have some := inner.isNode
    cases v with
    | node k vs o =>
      rw [loopInit, if_neg (by simp [isNull]), if_pos isDeclaration]
      exact (declared n (by omega) _).map fun l _ => ⟨l, rfl⟩
    | _ => cases some
  | @loopExpression v inner _ printed =>
    intro n deep c
    have some := inner.isNode
    cases v with
    | node k vs o =>
      rw [loopInit, if_neg (by simp [isNull]), if_neg (by simp [inner.not_block_or_declaration.2])]
      exact printed n deep _ _
    | _ => cases some
  | @loopVariable _ i m o _ _ _ _ _ name =>
    intro n deep c
    simp only [Value.depth, depthOfList] at deep
    have declared (e) (mem : e ∈ [Value.node .variableDeclarator [i, .null] m]) :
        Answers e.isShort Phrase.IsSource (Print.declarator (rules n) c e) := by
      cases List.mem_singleton.mp mem
      exact .declarator (name n (by omega)) fun some => absurd rfl some
    exact (Answers.declaration declared).map fun l _ => ⟨l, rfl⟩
  | loopPlace _ inner _ printed =>
    intro n deep c
    rw [loopTarget, if_neg (by simp [inner.not_block_or_declaration.2])]
    exact printed n deep _ _

theorem printable_blocks : Role.Family.blocks.Keeps s (fun r v => Printable v r) := by
  intro r v conforms rule family
  induction rule using Conforms.below.casesOn with cases family
  | block _ _ _ items =>
    intro n deep c
    simp only [Value.depth, depthOfList] at deep
    refine .block fun e mem => ?_
    have := depth_le_of_mem mem
    exact (items e mem n (by omega)).1
  | handler _ _ _ _ _ param _ body =>
    intro n deep c
    simp only [Value.depth, depthOfList] at deep
    exact .handler (fun some => param some n (by omega)) (body n (by omega))
  | program _ _ _ _ items =>
    intro n deep c
    simp only [Value.depth, depthOfList] at deep
    refine .program fun e mem => ?_
    have := depth_le_of_mem mem
    exact (items e mem n (by omega)).1

theorem printable_statements : Role.Family.statements.Keeps s (fun r v => Printable v r) := by
  intro r v conforms rule family
  induction rule using Conforms.below.casesOn with cases family
  | blockStatement inner _ printed =>
    cases inner
    exact .ofBlock printed
  | declarationStatement inner _ printed =>
    cases inner
    refine .ofOwn (by decide) (by decide) fun n deep c => ?_
    exact ((printed n deep c).bind fun _ _ => .done).congr (by rw [and_true])
  | emptyStatement =>
    exact .ofOwn (by decide) (by decide) fun n deep c =>
      Answers.done.congr (by simp [isShort, areShort])
  | expressionStatement _ _ inner =>
    refine .ofOwn (by decide) (by decide) fun n deep c => .expressionStatement ?_
    simp only [Value.depth, depthOfList] at deep
    exact inner n (by omega)
  | functionDeclaration _ _ _ _ _ name _ params _ body =>
    refine .ofOwn (by decide) (by decide) fun n deep c => .function (.inr rfl) (fun _ => ?_)
      (fun p mem => ?_) ?_
    all_goals simp only [Value.depth, depthOfList] at deep
    · exact name n (by omega)
    · have := depth_le_of_mem mem
      exact params p mem n (by omega)
    · exact body n (by omega)
  | returnStatement _ _ value | breakStatement _ _ value | continueStatement _ _ value =>
    refine .ofOwn (by decide) (by decide) fun n deep c => .simple rfl fun some => ?_
    simp only [Value.depth, depthOfList] at deep
    exact value some n (by omega)
  | throwStatement _ _ value =>
    refine .ofOwn (by decide) (by decide) fun n deep c => ?_
    simp only [Value.depth, depthOfList] at deep
    exact (Answers.wordWith (value n (by omega))).congr (by simp [isShort, areShort])
  | ifShort _ _ _ _ test _ left =>
    refine .ofChoice fun n deep c => ?_
    simp only [Value.depth, depthOfList] at deep
    exact .choice (test n (by omega)) (left n (by omega)).2.1
      (absurd · Bool.false_ne_true) fun some => absurd rfl some
  | ifElse _ _ _ _ _ _ _ test _ left _ right =>
    refine .ofChoice fun n deep c => ?_
    simp only [Value.depth, depthOfList] at deep
    have other := right n (by omega)
    exact .choice (test n (by omega)) (left n (by omega)).2.1 other.2.2 fun _ => other.2.1
  | @forStatement i _ _ _ _ _ _ _ _ _ _ init _ test _ update _ body =>
    refine .ofOwn (by decide) (by decide) fun n deep c => ?_
    simp only [Value.depth, depthOfList] at deep
    refine .countedLoop ?_ (fun some => test some n (by omega))
      (fun some => update some n (by omega)) (body n (by omega)).2.1
    by_cases none : i = .null
    · subst none
      exact Answers.source.congr (by simp [isShort])
    · exact init none n (by omega) c
  | forIn _ _ _ _ _ left _ right _ body =>
    refine .ofOwn (by decide) (by decide) fun n deep c => ?_
    simp only [Value.depth, depthOfList] at deep
    exact .loopOver (.inl rfl) (left n (by omega) c) (right n (by omega)) (body n (by omega)).2.1
  | forOf _ _ _ _ _ left _ right _ body =>
    refine .ofOwn (by decide) (by decide) fun n deep c => ?_
    simp only [Value.depth, depthOfList] at deep
    exact .loopOver (.inr rfl) (left n (by omega) c) (right n (by omega)) (body n (by omega)).2.1
  | whileStatement _ _ _ _ test _ body =>
    refine .ofOwn (by decide) (by decide) fun n deep c => ?_
    simp only [Value.depth, depthOfList] at deep
    exact .testedLoop (test n (by omega)) (body n (by omega)).2.1
  | doWhile _ _ _ _ body _ test =>
    refine .ofOwn (by decide) (by decide) fun n deep c => ?_
    simp only [Value.depth, depthOfList] at deep
    exact .repeatedLoop (body n (by omega)).2.1 (test n (by omega))
  | tryStatement _ _ _ _ _ _ _ guarded _ handler _ finalizer =>
    refine .ofOwn (by decide) (by decide) fun n deep c => ?_
    simp only [Value.depth, depthOfList] at deep
    exact .guarded (guarded n (by omega)) (fun some => handler some n (by omega) c)
      fun some => finalizer some n (by omega)

/-- What follows the grammar prints in its place, unless an integer in it is too long. -/
theorem Conforms.printable (scalar : ∀ {v}, s.literal v → v.isScalar) (conforms : Conforms s r v) :
    Printable v r :=
  conforms.byFamily fun
    | .names => printable_names scalar
    | .expressions => printable_expressions scalar
    | .parts => printable_parts
    | .blocks => printable_blocks
    | .statements => printable_statements

/-- A program prints exactly if every integer in it can be written, and nothing else can keep it
from that. -/
theorem Conforms.print (options : PrintOptions) (scalar : ∀ {v}, s.literal v → v.isScalar)
    (conforms : Conforms s .program v) :
    Answers v.isShort (fun _ => True) (v.print options) := by
  have inner := conforms.printable scalar v.depth (by omega) { comments := options.comments }
  have isNode := conforms.isNode
  have isProgram := conforms.isKind (k := .program) rfl
  simp only [Value.print, Value.layout, Value.phrase, Print.node, isNode, Bool.not_true,
    Bool.false_eq_true, if_false, isProgram, if_true, pure_ok, bind_assoc]
  refine ((inner.map fun l _ => ⟨l, rfl⟩).strict (q := True) fun l => ?_).congr
    (by rw [and_true])
  exact .ok trivial

end ScriptTree
