import StreamQuery.Compile.Run

/-! # Stream operations on queries

An operation compiles its closures against the rows of the query and then
derives a query from what they compile to. Closures are compiled before the
operation is found to be refused.
-/

namespace StreamQuery

inductive Operation where
  | filter (predicate : Closure)
  | select (projection : Closure)
  /-- The closure takes a row and a source of streams and returns the stream to
  pair the row with. -/
  | join (other : Closure)
  /-- The second closure takes a key and the stream of its group. -/
  | group (key value : Closure)
  /-- The closure takes the whole stream. -/
  | aggregate (value : Closure)
  | count
  | sum (value : Closure)
  | min (value : Closure)
  | max (value : Closure)
  | avg (value : Closure)
  | sortedBy (key : Closure) (direction : Direction)
  | skip (count : UInt64)
  | limit (count : UInt64)
  | distinct

def Operation.verb : Operation → Verb
  | filter _ => .filter
  | select _ => .select
  | join _ => .join
  | group .. => .group
  | aggregate _ => .aggregate
  | count => .count
  | sum _ => .sum
  | min _ => .min
  | max _ => .max
  | avg _ => .avg
  | sortedBy .. => .sortedBy
  | skip _ => .skip
  | limit _ => .limit
  | distinct => .distinct

inductive FoldError where
  | compile (error : CompileError)
  | refused (refusal : Refusal)

namespace Query

/-- Folding: the supply of numbers is threaded through the closures. -/
abbrev FoldM := StateT Compile.Supply (Except FoldError)

def liftRefusal {α : Type} (result : Except Refusal α) : FoldM α :=
  match result with
  | .ok a => pure a
  | .error refusal => throw (.refused refusal)

def compileIn (env : Compile.Environment) (closure : Closure) (chain : Chain) (head : BinderId) :
    FoldM Expr := do
  let compilation := closure.compile env chain head (← get)
  set compilation.supply
  match compilation.outcome with
  | .ok e => pure e
  | .error error => throw (.compile error)

def inlineIn (e : Expr) (scope : ElementScope) (row : Expr) : FoldM Expr :=
  modifyGet (·.build (e.inlined scope row))

/-- A closure of the current row. -/
def overRow (q : Query) (env : Compile.Environment) (closure : Closure) : FoldM Expr := do
  let chain := (Chain.empty.push (.ofClosure closure) none).pushElement q.rowType (some 0)
  let e ← compileIn env closure chain 1
  inlineIn e (BinderId.scope 1) q.currentRow

/-- A closure of a key and the stream of its group, which is the query before
grouping. -/
def overGroup (q : Query) (env : Compile.Environment) (closure : Closure) (key : Expr) :
    FoldM Expr := do
  let chain := ((Chain.empty.push (.ofClosure closure) none).push (.stream q) (some 0)).pushElement
    key.type (some 1)
  let e ← compileIn env closure chain 2
  inlineIn e (BinderId.scope 2) key

/-- A closure of the whole stream. -/
def overStream (q : Query) (env : Compile.Environment) (closure : Closure) : FoldM Expr := do
  match closure.body.params.head? with
  | some (.stream _) =>
    let chain := (Chain.empty.push (.ofClosure closure) none).push (.stream q) (some 0)
    let e ← compileIn env closure chain 1
    pure e.simplify
  | _ => throw (.refused ⟨.aggregate, .paramNotStream⟩)

def aggregatedBy (q : Query) (env : Compile.Environment) (fn : AggregateFn) (closure : Closure) :
    FoldM Query := do
  let arg ← q.overRow env closure
  if fn.needsNumber && !arg.type.isNumeric then
    throw (.refused ⟨.aggregate, .aggregateOver fn arg.type⟩)
  else liftRefusal (q.aggregated (.summarize fn (some arg) q) (← get).nextSource)

def foldM (q : Query) (env : Compile.Environment) : Operation → FoldM Query
  | .filter closure => do
    let predicate ← q.overRow env closure
    liftRefusal (q.filtered predicate (← get).nextSource)
  | .select closure => do
    let projection ← q.overRow env closure
    liftRefusal (q.projected projection (← get).nextSource)
  | .join closure => do
    match ← q.overRow env closure with
    | .subQuery other _ => liftRefusal (q.joined other (← get).nextSource)
    | e => throw (.refused ⟨.join, .notStream e.type⟩)
  | .group keyOf valueOf => do
    let key ← q.overRow env keyOf
    let value ← q.overGroup env valueOf key
    liftRefusal (q.grouped key value (← get).nextSource)
  | .aggregate closure => do
    let value ← q.overStream env closure
    liftRefusal (q.aggregated value (← get).nextSource)
  | .count => do liftRefusal (q.aggregated (.summarize .count none q) (← get).nextSource)
  | .sum closure => q.aggregatedBy env .sum closure
  | .min closure => q.aggregatedBy env .min closure
  | .max closure => q.aggregatedBy env .max closure
  | .avg closure => q.aggregatedBy env .avg closure
  | .sortedBy closure direction => do
    let key ← q.overRow env closure
    liftRefusal (q.sorted key direction (← get).nextSource)
  | .skip count => liftRefusal (q.skipped count)
  | .limit count => liftRefusal (q.limited count)
  | .distinct => liftRefusal q.distinctRows

/-- Folds an operation onto a query, with marks from a number on. The next mark is given
back with the query. -/
def extend (q : Query) (env : Compile.Environment) (operation : Operation) (nextMark : Nat) :
    Except FoldError (Query × Nat) :=
  ((q.foldM env operation).run ⟨q.current.nextSource, nextMark⟩).map
    (Prod.map id Compile.Supply.nextMark)

def fold (q : Query) (env : Compile.Environment) (operation : Operation) (nextMark : Nat) :
    Except FoldError Query :=
  (q.extend env operation nextMark).map Prod.fst

end Query

end StreamQuery
