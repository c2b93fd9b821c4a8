import NodeStore.Value

/-!
# Filters

A filter is a test of a node, built from conditions on its fields. A dotted field name may lead through references to
other nodes; `$name` behind a reference addresses what the link stores, and `id` is the node's id.

* `Operator`: the comparisons.
* `Filter` with the combinators `Filter.and` and `Filter.or`.
-/

namespace NodeStore.Query

/-- A comparison of a field with a value. -/
inductive Operator where
  /-- Equal to the value, or to any value of a list. -/
  | equal
  | notEqual
  | greater
  | greaterEq
  | less
  | lessEq
  /-- Between the two values of a list, both included. -/
  | between
  /-- Holds a substring, or a member of a collection. -/
  | includes
  | notIncludes
  | exists
  | notExists
  deriving DecidableEq, Inhabited

namespace Operator

/-- The operator in filters and messages. -/
def name : Operator → String
  | equal => "="
  | notEqual => "!="
  | greater => ">"
  | greaterEq => ">="
  | less => "<"
  | lessEq => "<="
  | between => "between"
  | includes => "includes"
  | notIncludes => "!includes"
  | «exists» => "exists"
  | notExists => "!exists"

/-- Operators that hold where another one does not. -/
def negated : Operator → Bool
  | notEqual | notIncludes | notExists => true
  | _ => false

end Operator

/-- A test of a node. -/
inductive Filter where
  | condition (field : String) (operator : Operator) (value : Value)
  | all (filters : List Filter)
  | either (left right : Filter)
  deriving Inhabited

namespace Filter

/-- Both filters hold; a conjunction on the left is extended. -/
def and : Filter → Filter → Filter
  | all filters, g => all (filters ++ [g])
  | f, g => all [f, g]

/-- One of the filters holds; chains lean to the right. -/
def or : Filter → Filter → Filter
  | either left right, g => either left (right.or g)
  | f, g => either f g

end Filter

end NodeStore.Query
