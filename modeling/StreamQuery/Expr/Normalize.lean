import StreamQuery.Expr.Fresh
import StreamQuery.Expr.Simplify

/-! # Normal form of queries

The normal form of an expression with its nested queries, and of all clauses of
a query. Nested queries that are built anew on the way are told apart by their
marks. Putting a row in the place of an element ends in normal form too.
-/

namespace StreamQuery

namespace Expr

def normalize (e : Expr) : Expr :=
  match e.revise (thorough e.holds) with
  | none => e
  | some normal => ((normal.fresh e.holds).run e.nextMark).1

def isSettled (e : Expr) : Bool := e.normalize.like (.kept e.holds) e

end Expr

namespace Query

/-- Normal form of all clauses; none if every clause is left as it is. -/
def normalize? (q : Query) : Option Query :=
  (q.revise (Expr.thorough q.holds)).map fun normal =>
    ⟨((normal.current.fresh q.holds).run q.nextMark).1, normal.past⟩

def normalize (q : Query) : Query := q.normalize?.getD q

def isSettled (q : Query) : Bool := q.normalize?.all (Query.like (.kept q.holds) · q)

/-- Normal form of all clauses as a query of its own; none if every clause is
left as it is. -/
def renew? (q : Query) : StateM Nat (Option Query) :=
  match q.normalize? with
  | none => pure none
  | some normal => some <$> normal.fresh (·.isKept q.holds)

end Query

namespace Expr

/-- The queries that are left when a row takes the place of an element: those of
the row, and those of the expression that do not mention the element. -/
def heldBeside (e : Expr) (scope : ElementScope) (row : Expr) (q : Query) : Bool :=
  row.holds q || (e.holds q && !q.mentions scope)

/-- Puts a row in the place of the element of one scope. Components of the row
then resolve to the expressions it was built from. -/
def inline (e : Expr) (scope : ElementScope) (row : Expr) : Expr :=
  let replaced := e.replace fun node =>
    match node with
    | element s _ => if s = scope then some row else none
    | _ => none
  (replaced.revise (thorough (e.heldBeside scope row))).getD replaced

/-- Puts a row in the place of the element of one scope. The nested queries that
are built anew are queries of their own. -/
def inlined (e : Expr) (scope : ElementScope) (row : Expr) : StateM Nat Expr :=
  (e.inline scope row).fresh (·.isKept (e.heldBeside scope row))

mutual

/-- The components of a row, those of nested tuples in their places. -/
def columns : Expr → List Expr
  | tuple items _ => columnsOf items
  | e => [e]

def columnsOf : List Expr → List Expr
  | [] => []
  | e :: es => columns e ++ columnsOf es

end

end Expr

end StreamQuery
