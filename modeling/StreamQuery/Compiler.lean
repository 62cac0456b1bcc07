import StreamQuery.Query.Operation
import StreamQuery.Rendering.Basic
import StreamQuery.Settings.Document

/-! # Compiler

A compiler opens queries over the entities of a schema, folds operations onto
them and renders them.
-/

namespace StreamQuery

inductive QueryError where
  /-- The document is no settings. -/
  | settings
  | render (error : RenderError)
  | compile (error : CompileError)
  | unknownEntity (name : String)
  | refused (refusal : Refusal)
deriving DecidableEq

namespace QueryError

def ofFold : FoldError → QueryError
  | .compile error => compile error
  | .refused refusal => refused refusal

def message : QueryError → String
  | settings => "invalid settings"
  | render error => error.message
  | compile error => error.message
  | unknownEntity name => "entity '" ++ name ++ "' is not queryable"
  | refused refusal => refusal.message

def errorClass : QueryError → ErrorClass
  | settings => .config
  | render _ => .invariantViolation
  | compile error => error.errorClass
  | unknownEntity _ => .unresolved
  | refused _ => .unsupported

end QueryError

structure Compiler where
  schema : Schema
  settings : Settings := {}
  /-- Mark of the next query that is built. -/
  nextMark : Nat := 1

namespace Compiler

def environment (compiler : Compiler) : Compile.Environment :=
  ⟨compiler.schema, compiler.settings⟩

def ofDocument (schema : Schema) (document : String) : Except QueryError Compiler :=
  match Settings.parse? document with
  | some settings => .ok { schema, settings }
  | none => .error .settings

def streamAll (compiler : Compiler) (entity : String) : Except QueryError Query :=
  if compiler.schema.isEntity entity then .ok (.ofEntity entity)
  else .error (.unknownEntity entity)

def compile (compiler : Compiler) (closure : Closure) (chain : Chain) (head : BinderId)
    (nextSource : SourceId) : Compile.Compilation :=
  closure.compile compiler.environment chain head ⟨nextSource, compiler.nextMark⟩

/-- Folds one operation onto a query. The compiler that is given back has marks left that
the query does not have. -/
def extend (compiler : Compiler) (query : Query) (operation : Operation) :
    Except QueryError (Query × Compiler) :=
  ((query.extend compiler.environment operation compiler.nextMark).mapError .ofFold).map
    (Prod.map id fun nextMark => { compiler with nextMark })

def fold (compiler : Compiler) (query : Query) (operation : Operation) :
    Except QueryError Query :=
  (query.fold compiler.environment operation compiler.nextMark).mapError .ofFold

def explain (compiler : Compiler) (query : Query) : Except QueryError Rendered :=
  (query.render compiler.settings).mapError .render

def queryText (compiler : Compiler) (query : Query) : Except QueryError String :=
  (compiler.explain query).map (·.text)

end Compiler

end StreamQuery
