import StreamQuery.Expr.Normalize
import StreamQuery.Query.Refusal

/-! # Deriving queries

Each operation adds to one clause of a selection, or is refused where the
clauses, which are carried out in a fixed order, could not express it. The
query that an operation starts from stays as it was and is kept in the result.
-/

namespace StreamQuery

mutual

/-- Whether an expression reads a row of one of the sources other than through
a key, an aggregate or a nested query. -/
def Expr.readsRows (sources : List Source) (keys : List Expr) (e : Expr) : Bool :=
  !keys.any (·.same e) && match e with
    | .constant .. | .param .. | .element .. | .aggregate .. | .subQuery .. => false
    | .row id _ => sources.any (·.id == id)
    | .path base _ _ | .component base _ _ => Expr.readsRows sources keys base
    | .unary _ operand _ => Expr.readsRows sources keys operand
    | .binary _ left right _ =>
      Expr.readsRows sources keys left || Expr.readsRows sources keys right
    | .conditional test yes no _ =>
      Expr.readsRows sources keys test || Expr.readsRows sources keys yes ||
        Expr.readsRows sources keys no
    | .tuple items _ | .call _ items _ => Expr.anyReadsRows sources keys items

def Expr.anyReadsRows (sources : List Source) (keys : List Expr) : List Expr → Bool
  | [] => false
  | e :: es => Expr.readsRows sources keys e || Expr.anyReadsRows sources keys es

end

namespace Query

/-- The query after an edit, which may have opened sources below `next`. -/
def derive (q : Query) (next : SourceId) (edit : Select → Select) : Query :=
  ⟨edit { q.current with nextSource := max q.current.nextSource next }, q.current :: q.past⟩

def require (verb : Verb) (condition : Bool) (reason : Reason) : Except Refusal Unit :=
  if condition then .ok () else .error ⟨verb, reason⟩

def requireShape (q : Query) (verb : Verb) (allowed : List Shape) : Except Refusal Unit :=
  require verb (allowed.contains q.current.shape) (.shape q.current.shape)

def requireUnbounded (q : Query) (verb : Verb) : Except Refusal Unit :=
  require verb (q.current.skip.isNone && q.current.limit.isNone) .bounded

/-- Grouped and aggregated values read rows through aggregates or keys only. -/
def requireAggregated (q : Query) (verb : Verb) (value : Expr) (keys : List Expr) :
    Except Refusal Unit :=
  require verb (!value.readsRows q.current.sources keys) .rowsOutsideAggregate

/-- Adds a predicate: on rows, or on groups once there are groups. A predicate
that always holds adds nothing. -/
def filtered (q : Query) (predicate : Expr) (next : SourceId) : Except Refusal Query := do
  q.requireShape .filter [.rows, .grouped]
  q.requireUnbounded .filter
  require .filter (predicate.type.flowsTo .bool) (.predicateType predicate.type)
  pure <| q.derive next fun s =>
    if predicate.asBool = some true then s
    else if s.shape = .grouped then { s with having := s.having ++ [predicate] }
    else { s with filters := s.filters ++ [predicate] }

def projected (q : Query) (projection : Expr) (next : SourceId) : Except Refusal Query := do
  q.requireShape .select [.rows]
  require .select (!q.current.distinct) .projectionAfterDistinct
  pure <| q.derive next fun s => { s with projection := some projection }

/-- Whether a selection is one source with filters and nothing else. -/
def isPlain (s : Select) : Bool :=
  s.sources.length == 1 && s.projection.isNone && s.shape == .rows && s.orderBy.isEmpty &&
    !s.distinct && s.skip.isNone && s.limit.isNone

/-- Pairs every row with every row of another query, whose source and filters
move into this one. -/
def joined (q other : Query) (next : SourceId) : Except Refusal Query := do
  q.requireShape .join [.rows]
  q.requireUnbounded .join
  require .join (!q.current.distinct) .distinctRows
  require .join (isPlain other.current) .joinedNotPlain
  require .join
    (!q.current.sources.any fun source => other.current.root?.any (·.id == source.id)) .sourceReused
  pure <| q.derive (max next other.current.nextSource) fun s =>
    { s with
      sources := s.sources ++ other.current.sources
      filters := s.filters ++ other.current.filters
      projection := some (.pack [q.currentRow, other.currentRow]) }

/-- Groups rows by a key; each group is a row of its key and its value. -/
def grouped (q : Query) (key value : Expr) (next : SourceId) : Except Refusal Query := do
  q.requireShape .group [.rows]
  q.requireUnbounded .group
  require .group (!q.current.distinct) .distinctRows
  q.requireAggregated .group value (key.columns ++ [key])
  pure <| q.derive next fun s =>
    { s with
      groupBy := key.columns
      projection := some (.pack [key, value])
      shape := .grouped }

/-- Makes one row of aggregate values out of all rows. One row needs no order. -/
def aggregated (q : Query) (value : Expr) (next : SourceId) : Except Refusal Query := do
  q.requireShape .aggregate [.rows]
  q.requireUnbounded .aggregate
  require .aggregate (!q.current.distinct) .aggregateAfterDistinct
  q.requireAggregated .aggregate value []
  pure <| q.derive next fun s =>
    { s with projection := some value, shape := .aggregated, orderBy := [] }

def sorted (q : Query) (key : Expr) (direction : Direction) (next : SourceId) :
    Except Refusal Query := do
  q.requireShape .sortedBy [.rows, .grouped]
  q.requireUnbounded .sortedBy
  require .sortedBy key.type.isScalar (.sortKeyType key.type)
  pure <| q.derive next fun s => { s with orderBy := ⟨key, direction⟩ :: s.orderBy }

/-- The sum, or the greatest word if the sum is none. -/
def addSaturating (a b : UInt64) : UInt64 :=
  if a.toNat + b.toNat < UInt64.size then a + b else UInt64.ofNat (UInt64.size - 1)

/-- Leaves out rows at the start, after those left out before. -/
def skipped (q : Query) (count : UInt64) : Except Refusal Query := do
  q.requireShape .skip [.rows, .grouped]
  require .skip q.current.limit.isNone .skipAfterLimit
  pure <| q.derive q.current.nextSource fun s =>
    { s with skip := some (addSaturating (s.skip.getD 0) count) }

def limited (q : Query) (count : UInt64) : Except Refusal Query := do
  q.requireShape .limit [.rows, .grouped]
  pure <| q.derive q.current.nextSource fun s =>
    { s with limit := some (match s.limit with
        | some limit => min limit count
        | none => count) }

def distinctRows (q : Query) : Except Refusal Query := do
  q.requireShape .distinct [.rows, .grouped]
  q.requireUnbounded .distinct
  pure <| q.derive q.current.nextSource fun s => { s with distinct := true }

end Query

end StreamQuery
