import StreamQuery.Expr.Basic

/-! # Refused operations

Why a stream operation cannot be folded onto a query.
-/

namespace StreamQuery

inductive Verb where
  | filter | select | join | group | aggregate | count | sum | min | max | avg | sortedBy
  | skip | limit | distinct
deriving DecidableEq, Repr, Inhabited

def Verb.name : Verb → String
  | filter => "where"
  | select => "select"
  | join => "join"
  | group => "group"
  | aggregate => "aggregate"
  | count => "count"
  | sum => "sum"
  | min => "min"
  | max => "max"
  | avg => "avg"
  | sortedBy => "sorted_by"
  | skip => "skip"
  | limit => "limit"
  | distinct => "distinct"

inductive Reason where
  | shape (found : Shape)
  | bounded
  | predicateType (found : ValueType)
  | projectionAfterDistinct
  | distinctRows
  | joinedNotPlain
  | sourceReused
  | aggregateAfterDistinct
  | rowsOutsideAggregate
  | sortKeyType (found : ValueType)
  | skipAfterLimit
  | notStream (found : ValueType)
  | aggregateOver (fn : AggregateFn) (found : ValueType)
  | paramNotStream
deriving DecidableEq, Repr, Inhabited

def Reason.text : Reason → String
  | shape found => "stream is " ++ found.name
  | bounded => "stream is already bounded by skip or limit"
  | predicateType found => "predicate has type " ++ found.name
  | projectionAfterDistinct => "projection after distinct needs a sub-query"
  | distinctRows => "stream is distinct"
  | joinedNotPlain => "joined stream must be a plain source with optional filters"
  | sourceReused => "joined stream reuses a source"
  | aggregateAfterDistinct => "aggregating distinct rows needs a sub-query"
  | rowsOutsideAggregate => "value reads stream rows outside an aggregate"
  | sortKeyType found => "sort key has type " ++ found.name
  | skipAfterLimit => "skip after limit needs a sub-query"
  | notStream found => "closure returned " ++ found.name ++ ", not a stream"
  | aggregateOver fn found => fn.name ++ " over " ++ found.name
  | paramNotStream => "closure parameter is not a stream"

structure Refusal where
  verb : Verb
  reason : Reason
deriving DecidableEq, Repr, Inhabited

def Refusal.message (refusal : Refusal) : String :=
  refusal.verb.name ++ " is not supported here: " ++ refusal.reason.text

end StreamQuery
