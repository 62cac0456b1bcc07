import StreamQuery.Compiler

/-! # Streams

A stream is a query together with the compiler that extends it. Each operation
gives a new stream and leaves the old one usable. Errors tell what kind they
are and which part they come from.
-/

namespace StreamQuery

inductive StreamErrorKind where
  | config | unsupported | unresolved | internal
deriving DecidableEq, Repr

inductive StreamErrorOrigin where
  | config | fold | render | compile
deriving DecidableEq, Repr

structure StreamError where
  kind : StreamErrorKind
  origin : StreamErrorOrigin
  message : String
deriving DecidableEq, Repr

namespace StreamError

def kindOf : ErrorClass → StreamErrorKind
  | .config => .config
  | .invariantViolation => .internal
  | .unresolved => .unresolved
  | .unsupported => .unsupported

def originOf : QueryError → StreamErrorOrigin
  | .settings => .config
  | .render _ => .render
  | .compile _ => .compile
  | .unknownEntity _ | .refused _ => .fold

def ofQueryError (error : QueryError) : StreamError :=
  ⟨kindOf error.errorClass, originOf error, error.message⟩

def isFallback (error : StreamError) : Bool :=
  match error.kind with
  | .unresolved | .unsupported => true
  | .config | .internal => false

end StreamError

/-- A query that can be extended. -/
structure Stream where
  compiler : Compiler
  query : Query

namespace Stream

def apply (stream : Stream) (operation : Operation) : Except StreamError Stream :=
  match stream.compiler.extend stream.query operation with
  | .ok (query, compiler) => .ok ⟨compiler, query⟩
  | .error error => .error (.ofQueryError error)

def filter (stream : Stream) (predicate : Closure) : Except StreamError Stream :=
  stream.apply (.filter predicate)

def select (stream : Stream) (projection : Closure) : Except StreamError Stream :=
  stream.apply (.select projection)

/-- Pairs each row with the rows of the stream that a closure returns. -/
def join (stream : Stream) (other : Closure) : Except StreamError Stream :=
  stream.apply (.join other)

def sortedBy (stream : Stream) (key : Closure) : Except StreamError Stream :=
  stream.apply (.sortedBy key .asc)

def sortedDescendingBy (stream : Stream) (key : Closure) : Except StreamError Stream :=
  stream.apply (.sortedBy key .desc)

def skip (stream : Stream) (count : UInt64) : Except StreamError Stream :=
  stream.apply (.skip count)

def limit (stream : Stream) (count : UInt64) : Except StreamError Stream :=
  stream.apply (.limit count)

def distinct (stream : Stream) : Except StreamError Stream := stream.apply .distinct

/-- Groups rows by a key; the second closure has each key and its group. -/
def group (stream : Stream) (key value : Closure) : Except StreamError Stream :=
  stream.apply (.group key value)

def aggregate (stream : Stream) (value : Closure) : Except StreamError Stream :=
  stream.apply (.aggregate value)

def count (stream : Stream) : Except StreamError Stream := stream.apply .count

def sum (stream : Stream) (value : Closure) : Except StreamError Stream := stream.apply (.sum value)

def min (stream : Stream) (value : Closure) : Except StreamError Stream := stream.apply (.min value)

def max (stream : Stream) (value : Closure) : Except StreamError Stream := stream.apply (.max value)

def avg (stream : Stream) (value : Closure) : Except StreamError Stream := stream.apply (.avg value)

def explain (stream : Stream) : Except StreamError Rendered :=
  (stream.compiler.explain stream.query).mapError .ofQueryError

def queryText (stream : Stream) : Except StreamError String :=
  (stream.compiler.queryText stream.query).mapError .ofQueryError

end Stream

structure Provider where
  compiler : Compiler

namespace Provider

def ofCatalog (catalog : Catalog) (settings : Settings) : Provider :=
  ⟨{ schema := catalog.schema, settings }⟩

def ofDocument (catalog : Catalog) (document : String) : Except StreamError Provider :=
  match Compiler.ofDocument catalog.schema document with
  | .ok compiler => .ok ⟨compiler⟩
  | .error error => .error (.ofQueryError error)

def streamAll (provider : Provider) (entity : String) : Except StreamError Stream :=
  match provider.compiler.streamAll entity with
  | .ok query => .ok ⟨provider.compiler, query⟩
  | .error error => .error (.ofQueryError error)

end Provider

end StreamQuery
