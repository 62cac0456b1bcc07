import StreamQuery.Catalog
import StreamQuery.Closure.Basic

/-! # Expressions and queries

An expression is a tree whose every node carries its type. It may hold a
query: an aggregate is taken over the rows of one, a sub-query is one. A query
holds expressions in its clauses, so the two kinds of tree are defined
together.
-/

namespace StreamQuery

/-- Identity of one source of rows in a query and the queries inside it. -/
abbrev SourceId := Nat

def SourceId.name (id : SourceId) : String := "#" ++ toString id

/-- Which stream element a placeholder stands for. Every compiled closure has
a scope of its own. -/
abbrev ElementScope := Nat

def ElementScope.name (scope : ElementScope) : String := "e" ++ toString scope

structure Capture where
  closure : ClosureId
  slot : Nat
  type : ValueType
  cell : Cell
deriving DecidableEq, Repr, Inhabited

/-- What the rows of a query are: plain rows, one row for each group, or one
row of aggregate values. -/
inductive Shape where
  | rows | grouped | aggregated
deriving DecidableEq, Repr, Inhabited

def Shape.name : Shape → String
  | rows => "rows"
  | grouped => "grouped"
  | aggregated => "aggregated"

inductive Direction where
  | asc | desc
deriving DecidableEq, Repr, Inhabited

def Direction.keyword : Direction → String
  | asc => "ASC"
  | desc => "DESC"

mutual

inductive Expr where
  | constant (value : Value) (type : ValueType)
  | param (capture : Capture) (type : ValueType)
  /-- The row of a source. -/
  | row (source : SourceId) (type : ValueType)
  /-- The current element of a stream, until a row takes its place. -/
  | element (scope : ElementScope) (type : ValueType)
  | path (base : Expr) (field : FieldRef) (type : ValueType)
  | component (base : Expr) (index : Nat) (type : ValueType)
  | unary (op : UnaryOp) (operand : Expr) (type : ValueType)
  | binary (op : BinaryOp) (left right : Expr) (type : ValueType)
  | conditional (test yes no : Expr) (type : ValueType)
  | tuple (items : List Expr) (type : ValueType)
  | call (fn : ScalarFn) (args : List Expr) (type : ValueType)
  | aggregate (fn : AggregateFn) (arg : Option Expr) (query : Query) (type : ValueType)
  | subQuery (query : Query) (type : ValueType)

/-- A source of rows: all rows of an entity, or the elements of a collection
that a path leads to. The first source of a query is its root. -/
inductive Source where
  | entity (id : SourceId) (name : String)
  | navigation (id : SourceId) (path : Expr) (rowType : ValueType)

structure SortKey where
  key : Expr
  direction : Direction

/-- One selection of rows. Filters are a conjunction; the first sort key is the
most significant. -/
structure Select where
  sources : List Source
  filters : List Expr
  projection : Option Expr
  groupBy : List Expr
  having : List Expr
  orderBy : List SortKey
  shape : Shape
  distinct : Bool
  skip : Option UInt64
  limit : Option UInt64
  nextSource : SourceId
  /-- Tells a selection from others that are written alike. -/
  mark : Nat

/-- A selection with those that it was derived from, the latest first. -/
structure Query where
  current : Select
  past : List Select

end

namespace Expr

def type : Expr → ValueType
  | constant _ t | param _ t | row _ t | element _ t | path _ _ t | component _ _ t
  | unary _ _ t | binary _ _ _ t | conditional _ _ _ t | tuple _ t | call _ _ t
  | aggregate _ _ _ t | subQuery _ t => t

/-- The same node under another type. -/
def withType (t : ValueType) : Expr → Expr
  | constant value _ => constant value t
  | param capture _ => param capture t
  | row source _ => row source t
  | element scope _ => element scope t
  | path base field _ => path base field t
  | component base index _ => component base index t
  | unary op operand _ => unary op operand t
  | binary op left right _ => binary op left right t
  | conditional test yes no _ => conditional test yes no t
  | tuple items _ => tuple items t
  | call fn args _ => call fn args t
  | aggregate fn arg query _ => aggregate fn arg query t
  | subQuery query _ => subQuery query t

def asConstant : Expr → Option Value
  | constant value _ => some value
  | _ => none

def asBool (e : Expr) : Option Bool := e.asConstant.bind Value.asBool

def asText (e : Expr) : Option String := e.asConstant.bind Value.asText

def query? : Expr → Option Query
  | aggregate _ _ query _ => some query
  | subQuery query _ => some query
  | _ => none

instance : Inhabited Expr := ⟨constant .null .null⟩

end Expr

namespace Source

def id : Source → SourceId
  | entity id _ => id
  | navigation id _ _ => id

def rowType : Source → ValueType
  | entity _ name => .entity name
  | navigation _ _ rowType => rowType

/-- The elements of a collection are the rows; a path of another type is
taken to be its own element. -/
def along (id : SourceId) (path : Expr) : Source :=
  navigation id path <| match path.type with
    | .collection element => element
    | other => other

def row (source : Source) : Expr := .row source.id source.rowType

end Source

namespace Select

def root? (s : Select) : Option Source := s.sources.head?

def currentRow (s : Select) : Expr :=
  match s.projection, s.root? with
  | some projection, _ => projection
  | none, some root => root.row
  | none, none => .constant .null .null

/-- The type of one row; erased if there is no source. -/
def rowType (s : Select) : ValueType :=
  match s.projection, s.root? with
  | some projection, _ => projection.type
  | none, some root => root.rowType
  | none, none => .any

def ofSource (source : Source) : Select where
  sources := [source]
  filters := []
  projection := none
  groupBy := []
  having := []
  orderBy := []
  shape := .rows
  distinct := false
  skip := none
  limit := none
  nextSource := source.id + 1
  mark := 0

end Select

namespace Query

def ofSource (source : Source) : Query := ⟨.ofSource source, []⟩

def ofEntity (name : String) : Query := ofSource (.entity 0 name)

def currentRow (q : Query) : Expr := q.current.currentRow

def rowType (q : Query) : ValueType := q.current.rowType

def parent? (q : Query) : Option Query :=
  match q.past with
  | [] => none
  | last :: earlier => some ⟨last, earlier⟩

def depth (q : Query) : Nat := q.past.length + 1

def selects (q : Query) : List Select := q.current :: q.past

end Query

end StreamQuery
