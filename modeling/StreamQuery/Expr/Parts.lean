import StreamQuery.Expr.Equality
import StreamQuery.Expr.Typed

/-! # Parts of expressions

The direct children of a node, a node over other children or another query,
and the nodes below a node: without those of nested queries, or with them.
What nested queries hold is asked of those nodes.
-/

namespace StreamQuery

namespace Expr

/-- Direct children in the order of evaluation; a nested query is no child. -/
def children : Expr → List Expr
  | constant .. | param .. | row .. | element .. | subQuery .. => []
  | path base _ _ | component base _ _ => [base]
  | unary _ operand _ => [operand]
  | binary _ left right _ => [left, right]
  | conditional test yes no _ => [test, yes, no]
  | tuple items _ | call _ items _ => items
  | aggregate _ arg _ _ => arg.toList

/-- The node over other children. It keeps its type, a tuple apart, which has
the type of its new components. Children that do not fit leave it as it is. -/
def withChildren (e : Expr) (new : List Expr) : Expr :=
  match e, new with
  | path _ field t, [base] => path base field t
  | component _ index t, [base] => component base index t
  | unary op _ t, [operand] => unary op operand t
  | binary op _ _ t, [left, right] => binary op left right t
  | conditional _ _ _ t, [test, yes, no] => conditional test yes no t
  | tuple [] t, [] => tuple [] t
  | tuple _ _, items => pack items
  | call fn _ t, args => call fn args t
  | aggregate fn _ query t, [arg] => aggregate fn (some arg) query t
  | e, _ => e

/-- The node over another query. A sub-query has the type of its new rows. -/
def withQuery (e : Expr) (query : Query) : Expr :=
  match e with
  | subQuery .. => embed query
  | aggregate fn arg _ t => aggregate fn arg query t
  | e => e

mutual

/-- The node and all nodes below it, each before its children, those of nested
queries left out. -/
def nodes : Expr → List Expr
  | e@(constant ..) | e@(param ..) | e@(row ..) | e@(element ..) | e@(subQuery ..) => [e]
  | e@(path base _ _) | e@(component base _ _) => e :: nodes base
  | e@(unary _ operand _) => e :: nodes operand
  | e@(binary _ left right _) => e :: (nodes left ++ nodes right)
  | e@(conditional test yes no _) => e :: (nodes test ++ nodes yes ++ nodes no)
  | e@(tuple items _) | e@(call _ items _) => e :: nodesOf items
  | e@(aggregate _ arg _ _) => e :: nodesOption arg

def nodesOf : List Expr → List Expr
  | [] => []
  | e :: es => nodes e ++ nodesOf es

def nodesOption : Option Expr → List Expr
  | none => []
  | some e => nodes e

end

end Expr

mutual

/-- The node and all nodes below it, those of nested queries included; below a
node where `stop` holds there are none. -/
def Expr.reach (stop : Expr → Bool) (e : Expr) : List Expr :=
  e :: if stop e then [] else
    match e with
    | .constant .. | .param .. | .row .. | .element .. => []
    | .path base _ _ | .component base _ _ => Expr.reach stop base
    | .unary _ operand _ => Expr.reach stop operand
    | .binary _ left right _ => Expr.reach stop left ++ Expr.reach stop right
    | .conditional test yes no _ =>
      Expr.reach stop test ++ Expr.reach stop yes ++ Expr.reach stop no
    | .tuple items _ | .call _ items _ => Expr.reachAll stop items
    | .aggregate _ arg query _ => Expr.reachOption stop arg ++ Query.reach stop query
    | .subQuery query _ => Query.reach stop query

def Expr.reachAll (stop : Expr → Bool) : List Expr → List Expr
  | [] => []
  | e :: es => Expr.reach stop e ++ Expr.reachAll stop es

def Expr.reachOption (stop : Expr → Bool) : Option Expr → List Expr
  | none => []
  | some e => Expr.reach stop e

def Source.reachAll (stop : Expr → Bool) : List Source → List Expr
  | [] => []
  | .entity .. :: rest => Source.reachAll stop rest
  | .navigation _ path _ :: rest => Expr.reach stop path ++ Source.reachAll stop rest

def SortKey.reachAll (stop : Expr → Bool) : List SortKey → List Expr
  | [] => []
  | ⟨key, _⟩ :: rest => Expr.reach stop key ++ SortKey.reachAll stop rest

def Select.reach (stop : Expr → Bool) : Select → List Expr
  | ⟨sources, filters, projection, groupBy, having, orderBy, _, _, _, _, _, _⟩ =>
    Source.reachAll stop sources ++ Expr.reachAll stop filters ++
      Expr.reachOption stop projection ++ Expr.reachAll stop groupBy ++
      Expr.reachAll stop having ++ SortKey.reachAll stop orderBy

def Query.reach (stop : Expr → Bool) : Query → List Expr
  | ⟨current, _⟩ => Select.reach stop current

end

/-- Whether a query stands in the clauses of another, at any depth. -/
def Query.holds (q inner : Query) : Bool :=
  (q.reach fun _ => false).any fun node => decide (node.query? = some inner)

/-- Whether a query stands in an expression, at any depth. -/
def Expr.holds (e : Expr) (inner : Query) : Bool :=
  (e.reach fun _ => false).any fun node => decide (node.query? = some inner)

def Query.mentions (q : Query) (scope : ElementScope) : Bool :=
  (q.reach fun _ => false).any fun node =>
    match node with
    | .element s _ => s == scope
    | _ => false

def Query.negates (q : Query) : Bool :=
  (q.reach fun _ => false).any fun node =>
    match node with
    | .unary .not _ _ => true
    | _ => false

end StreamQuery
