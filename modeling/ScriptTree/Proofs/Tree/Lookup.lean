import ScriptTree.Tree.Fields

/-!
What the fields of a node hold. A node that has as many values as its kind has fields holds them
under the names of the fields, in order.
-/
namespace ScriptTree

theorem ok_bind {α β : Type} {a : α} {f : α → Except Error β} : (Except.ok a >>= f) = f a := rfl

theorem pure_ok {α : Type} {a : α} : (pure a : Except Error α) = .ok a := rfl

theorem map_ok {α β : Type} {a : α} {f : α → β} :
    (f <$> (Except.ok a : Except Error α)) = .ok (f a) := rfl

theorem ok_of_any {ε α : Type} {x : Except ε α} {p : α → Bool} (any : x.toOption.any p = true) :
    ∃ a, x = .ok a ∧ p a = true := by
  cases x with
  | error => cases any
  | ok a => exact ⟨a, rfl, any⟩

theorem no_of_any {ε : Type} {x : Except ε Bool} (any : x.toOption.any (!·) = true) :
    x = .ok false := by
  obtain ⟨_ | _, same, no⟩ := ok_of_any any
  · exact same
  · cases no

/-- The fields of a kind have names of their own. -/
theorem Vocabulary.standard_names :
    ∀ d ∈ Vocabulary.standard, (d.fields.map (·.name)).Nodup := by
  decide

theorem Definition.index_of_field {d : Definition} {f : Field} {i : Nat}
    (distinct : (d.fields.map (·.name)).Nodup) (place : d.fields[i]? = some f) :
    d.index f.name = .ok i := by
  obtain ⟨bound, rfl⟩ := List.getElem?_eq_some_iff.mp place
  have found : d.indexOf? d.fields[i].name = some i := by
    rw [Definition.indexOf?, List.findIdx?_eq_some_iff_getElem]
    refine ⟨bound, beq_self_eq_true _, fun j before same => ?_⟩
    have inside := Nat.lt_trans before bound
    have names : (d.fields.map (·.name))[j]? = (d.fields.map (·.name))[i]? := by
      rw [List.getElem?_map, List.getElem?_map, List.getElem?_eq_getElem inside,
        List.getElem?_eq_getElem bound, Option.map_some, Option.map_some, beq_iff_eq.mp same]
    exact Nat.ne_of_lt before ((List.getElem?_inj (by simpa using inside) distinct).mp names)
  rw [Definition.index, found]

abbrev Kind.fieldNames : Kind → List String
  | .program | .blockStatement => ["body"]
  | .identifier => ["name"]
  | .literal => ["value"]
  | .arrayExpression => ["elements"]
  | .objectExpression => ["properties"]
  | .property => ["key", "value", "computed", "shorthand"]
  | .functionExpression | .functionDeclaration => ["id", "params", "body"]
  | .arrowFunctionExpression => ["params", "body", "expression"]
  | .unaryExpression => ["operator", "argument"]
  | .updateExpression => ["operator", "prefix", "argument"]
  | .binaryExpression | .logicalExpression | .assignmentExpression => ["operator", "left", "right"]
  | .conditionalExpression | .ifStatement => ["test", "consequent", "alternate"]
  | .callExpression | .newExpression => ["callee", "arguments"]
  | .memberExpression => ["object", "property", "computed"]
  | .sequenceExpression => ["expressions"]
  | .expressionStatement => ["expression"]
  | .variableDeclaration => ["kind", "declarations"]
  | .variableDeclarator => ["id", "init"]
  | .returnStatement | .throwStatement => ["argument"]
  | .breakStatement | .continueStatement => ["label"]
  | .forStatement => ["init", "test", "update", "body"]
  | .forInStatement | .forOfStatement => ["left", "right", "body"]
  | .whileStatement => ["test", "body"]
  | .doWhileStatement => ["body", "test"]
  | .tryStatement => ["block", "handler", "finalizer"]
  | .catchClause => ["param", "body"]
  | _ => []

theorem Kind.fieldNames_standard :
    ∀ d ∈ Vocabulary.standard, d.fields.map (·.name) = d.kind.fieldNames := by
  decide

/-- Nodes of a kind hold their values under some names, in order. -/
abbrev Kind.HoldsUnder (kind : Kind) : List String → Prop
  | [x] => ∀ {a n}, (Value.node kind [a] n).field x = .ok a
  | [x, y] => ∀ {a b n}, (Value.node kind [a, b] n).field x = .ok a ∧
      (Value.node kind [a, b] n).field y = .ok b
  | [x, y, z] => ∀ {a b c n}, (Value.node kind [a, b, c] n).field x = .ok a ∧
      (Value.node kind [a, b, c] n).field y = .ok b ∧
      (Value.node kind [a, b, c] n).field z = .ok c
  | [w, x, y, z] => ∀ {a b c d n}, (Value.node kind [a, b, c, d] n).field w = .ok a ∧
      (Value.node kind [a, b, c, d] n).field x = .ok b ∧
      (Value.node kind [a, b, c, d] n).field y = .ok c ∧
      (Value.node kind [a, b, c, d] n).field z = .ok d
  | _ => True

namespace Value

variable {kind : Kind} {vs : List Value} {n : Notes} {d : Definition} {name : String} {i : Nat}

theorem field_node (known : definitionOf kind vs.length = .ok d)
    (index : d.index name = .ok i) : (node kind vs n).field name = .ok (vs.getD i .null) := by
  rw [field, definition, known, ok_bind, index, ok_bind]
  rfl

theorem definition_of_fieldNames (some : kind.fieldNames ≠ []) :
    ∃ d, definitionOf kind kind.fieldNames.length = .ok d ∧ d ∈ Vocabulary.standard ∧
      d.kind = kind := by
  cases kind with
  | node | expression | statement | declaration | function | pattern | thisExpression
  | emptyStatement | other => exact absurd rfl some
  | _ => exact ⟨_, rfl, by decide, rfl⟩

theorem field_at (count : vs.length = kind.fieldNames.length)
    (named : kind.fieldNames[i]? = some name) :
    (node kind vs n).field name = .ok (vs.getD i .null) := by
  have some : kind.fieldNames ≠ [] := by
    rintro none
    rw [none] at named
    cases named
  obtain ⟨d, known, standard, rfl⟩ := definition_of_fieldNames some
  rw [← Kind.fieldNames_standard d standard, List.getElem?_map, Option.map_eq_some_iff] at named
  obtain ⟨f, place, rfl⟩ := named
  exact field_node (count ▸ known)
    (Definition.index_of_field (Vocabulary.standard_names d standard) place)

/-- Nodes of any kind hold their values under the names of its fields. -/
theorem fields_of (kind : Kind) : kind.HoldsUnder kind.fieldNames := by
  have held (vs : List Value) (n : Notes) (i : Nat) {name : String}
      (count : vs.length = kind.fieldNames.length) (named : kind.fieldNames[i]? = some name) :=
    field_at (n := n) count named
  generalize kind.fieldNames = names at held
  match names with
  | [x] => exact fun {a n} => held [a] n 0 rfl rfl
  | [x, y] => exact fun {a b n} => ⟨held [a, b] n 0 rfl rfl, held [a, b] n 1 rfl rfl⟩
  | [x, y, z] =>
    exact fun {a b c n} => ⟨held [a, b, c] n 0 rfl rfl, held [a, b, c] n 1 rfl rfl,
      held [a, b, c] n 2 rfl rfl⟩
  | [w, x, y, z] =>
    exact fun {a b c d n} => ⟨held [a, b, c, d] n 0 rfl rfl, held [a, b, c, d] n 1 rfl rfl,
      held [a, b, c, d] n 2 rfl rfl, held [a, b, c, d] n 3 rfl rfl⟩
  | [] | _ :: _ :: _ :: _ :: _ :: _ => trivial

end Value

end ScriptTree
