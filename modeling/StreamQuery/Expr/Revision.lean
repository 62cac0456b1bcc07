import StreamQuery.Expr.Typed

/-! # Revising expressions

A pass over a tree answers `none` where it leaves a tree as it is. A node is
rebuilt only if one of its parts was revised. That is seen in the types: a
rebuilt tuple or sub-query has the type of its new parts, one that was left
keeps the type it was given.
-/

namespace StreamQuery

def revised {α β γ : Type} (join : α → β → γ) (a : α) (a' : Option α) (b : β) (b' : Option β) :
    Option γ :=
  match a', b' with
  | none, none => none
  | _, _ => some (join (a'.getD a) (b'.getD b))

/-- What is done at a node. -/
structure Pass where
  /-- Asked first; an answer takes the place of the node, and nothing below the
  node is looked at. -/
  replace : Expr → Option Expr
  /-- Asked of a node whose parts are done. -/
  finish : Expr → Option Expr
  /-- Whether nested queries are revised too. -/
  deep : Bool

def Pass.settle (pass : Pass) (e : Expr) (rebuilt : Option Expr) : Option Expr :=
  (pass.finish (rebuilt.getD e)).or rebuilt

mutual

def Expr.revise (pass : Pass) (e : Expr) : Option Expr :=
  match pass.replace e with
  | some replacement => some replacement
  | none =>
    match e with
    | .constant value t => pass.settle (.constant value t) none
    | .param capture t => pass.settle (.param capture t) none
    | .row source t => pass.settle (.row source t) none
    | .element scope t => pass.settle (.element scope t) none
    | .path base field t =>
      pass.settle (.path base field t) ((base.revise pass).map (.path · field t))
    | .component base index t =>
      pass.settle (.component base index t) ((base.revise pass).map (.component · index t))
    | .unary op operand t =>
      pass.settle (.unary op operand t) ((operand.revise pass).map (.unary op · t))
    | .binary op left right t =>
      pass.settle (.binary op left right t)
        (revised (.binary op · · t) left (left.revise pass) right (right.revise pass))
    | .conditional test yes no t =>
      pass.settle (.conditional test yes no t)
        (revised (fun test arms => .conditional test arms.1 arms.2 t) test (test.revise pass)
          (yes, no) (revised Prod.mk yes (yes.revise pass) no (no.revise pass)))
    | .tuple items t => pass.settle (.tuple items t) ((Expr.reviseAll pass items).map Expr.pack)
    | .call fn args t =>
      pass.settle (.call fn args t) ((Expr.reviseAll pass args).map (.call fn · t))
    | .aggregate fn arg query t =>
      pass.settle (.aggregate fn arg query t)
        (revised (.aggregate fn · · t) arg (Expr.reviseOption pass arg)
          query (Query.revise pass query))
    | .subQuery query t =>
      pass.settle (.subQuery query t) ((Query.revise pass query).map Expr.embed)

def Expr.reviseAll (pass : Pass) : List Expr → Option (List Expr)
  | [] => none
  | e :: es => revised List.cons e (e.revise pass) es (Expr.reviseAll pass es)

def Expr.reviseOption (pass : Pass) : Option Expr → Option (Option Expr)
  | none => none
  | some e => (e.revise pass).map some

/-- Paths are revised, the rows they lead to keep their type. -/
def Source.reviseAll (pass : Pass) : List Source → Option (List Source)
  | [] => none
  | .entity id name :: rest => (Source.reviseAll pass rest).map (.entity id name :: ·)
  | .navigation id path rowType :: rest =>
    revised (fun path rest => .navigation id path rowType :: rest) path (path.revise pass)
      rest (Source.reviseAll pass rest)

def SortKey.reviseAll (pass : Pass) : List SortKey → Option (List SortKey)
  | [] => none
  | ⟨key, direction⟩ :: rest =>
    revised (fun key rest => ⟨key, direction⟩ :: rest) key (key.revise pass)
      rest (SortKey.reviseAll pass rest)

def Select.revise (pass : Pass) : Select → Option Select
  | ⟨sources, filters, projection, groupBy, having, orderBy, shape, distinct, skip, limit,
      nextSource, mark⟩ =>
    let sources' := Source.reviseAll pass sources
    let filters' := Expr.reviseAll pass filters
    let projection' := Expr.reviseOption pass projection
    let groupBy' := Expr.reviseAll pass groupBy
    let having' := Expr.reviseAll pass having
    let orderBy' := SortKey.reviseAll pass orderBy
    if sources'.isSome || filters'.isSome || projection'.isSome || groupBy'.isSome ||
        having'.isSome || orderBy'.isSome then
      some ⟨sources'.getD sources, filters'.getD filters, projection'.getD projection,
        groupBy'.getD groupBy, having'.getD having, orderBy'.getD orderBy, shape, distinct, skip,
        limit, nextSource, mark⟩
    else none

/-- The current selection is revised if the pass goes into queries; what it was
derived from stays. -/
def Query.revise (pass : Pass) : Query → Option Query
  | ⟨current, past⟩ => if pass.deep then (Select.revise pass current).map (⟨·, past⟩) else none

end

/-- Replaces nodes from the top down, in nested queries too. -/
def Expr.replace (e : Expr) (replacement : Expr → Option Expr) : Expr :=
  (e.revise ⟨replacement, fun _ => none, true⟩).getD e

/-- Puts other expressions into the clauses of the current selection; none if
every clause is left as it is. -/
def Query.mapClauses? (q : Query) (new : Expr → Option Expr) : Option Query :=
  q.revise ⟨new, fun _ => none, true⟩

end StreamQuery
