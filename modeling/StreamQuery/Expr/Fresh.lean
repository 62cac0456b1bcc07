import StreamQuery.Expr.Parts

/-! # Queries of their own

A query that is built from another, or built anew when a part of it changes, is
a query of its own: it differs from every copy, if only in a constant that is
not a number. To show this it has a fresh mark. Nested queries that were kept
stay as they are.
-/

namespace StreamQuery

def takeMark : StateM Nat Nat := modifyGet fun mark => (mark, mark + 1)

mutual

/-- Nested queries that were not kept have fresh marks. -/
def Expr.fresh (kept : Query → Bool) : Expr → StateM Nat Expr
  | .constant value t => pure (.constant value t)
  | .param capture t => pure (.param capture t)
  | .row source t => pure (.row source t)
  | .element scope t => pure (.element scope t)
  | .path base field t => do pure (.path (← base.fresh kept) field t)
  | .component base index t => do pure (.component (← base.fresh kept) index t)
  | .unary op operand t => do pure (.unary op (← operand.fresh kept) t)
  | .binary op left right t => do
    pure (.binary op (← left.fresh kept) (← right.fresh kept) t)
  | .conditional test yes no t => do
    pure (.conditional (← test.fresh kept) (← yes.fresh kept) (← no.fresh kept) t)
  | .tuple items t => do pure (.tuple (← Expr.freshAll kept items) t)
  | .call fn args t => do pure (.call fn (← Expr.freshAll kept args) t)
  | .aggregate fn arg query t => do
    let arg ← Expr.freshOption kept arg
    let query ← if kept query then pure query else query.fresh kept
    pure (.aggregate fn arg query t)
  | .subQuery query t => do
    let query ← if kept query then pure query else query.fresh kept
    pure (.subQuery query t)

def Expr.freshAll (kept : Query → Bool) : List Expr → StateM Nat (List Expr)
  | [] => pure []
  | e :: es => do pure ((← e.fresh kept) :: (← Expr.freshAll kept es))

def Expr.freshOption (kept : Query → Bool) : Option Expr → StateM Nat (Option Expr)
  | none => pure none
  | some e => do pure (some (← e.fresh kept))

def Source.freshAll (kept : Query → Bool) : List Source → StateM Nat (List Source)
  | [] => pure []
  | .entity id name :: rest => do pure (.entity id name :: (← Source.freshAll kept rest))
  | .navigation id path rowType :: rest => do
    pure (.navigation id (← path.fresh kept) rowType :: (← Source.freshAll kept rest))

def SortKey.freshAll (kept : Query → Bool) : List SortKey → StateM Nat (List SortKey)
  | [] => pure []
  | ⟨key, direction⟩ :: rest => do
    pure (⟨← key.fresh kept, direction⟩ :: (← SortKey.freshAll kept rest))

def Select.fresh (kept : Query → Bool) : Select → StateM Nat Select
  | ⟨sources, filters, projection, groupBy, having, orderBy, shape, distinct, skip, limit,
      nextSource, mark⟩ => do
    pure ⟨← Source.freshAll kept sources, ← Expr.freshAll kept filters,
      ← Expr.freshOption kept projection, ← Expr.freshAll kept groupBy,
      ← Expr.freshAll kept having, ← SortKey.freshAll kept orderBy, shape, distinct, skip, limit,
      nextSource, mark⟩

/-- The current selection has a fresh mark; what it was derived from stays. -/
def Query.fresh (kept : Query → Bool) : Query → StateM Nat Query
  | ⟨current, past⟩ => do
    let mark ← takeMark
    pure ⟨{ ← Select.fresh kept current with mark }, past⟩

end

/-- The query as one of its own, over the same nested queries. -/
def Query.separate (q : Query) : StateM Nat Query := q.fresh fun _ => true

def marksOf (nodes : List Expr) : List Nat := nodes.filterMap fun node =>
  node.query?.map (·.current.mark)

/-- A mark that is greater than all others. -/
def markAfter (marks : List Nat) : Nat := marks.foldr (fun mark next => max (mark + 1) next) 0

/-- The first mark that no query in an expression has, nor any greater one. -/
def Expr.nextMark (e : Expr) : Nat := markAfter (marksOf (e.reach fun _ => false))

def Query.nextMark (q : Query) : Nat := markAfter (marksOf (q.reach fun _ => false))

end StreamQuery
