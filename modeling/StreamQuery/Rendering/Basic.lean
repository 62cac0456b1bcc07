import StreamQuery.Expr.Normalize
import StreamQuery.Rendering.Alias
import StreamQuery.Rendering.Binding
import StreamQuery.Settings.Basic

/-! # Rendering queries

Every compound expression stands in parentheses. A selection names its sources
when it is entered. An aggregate over the rows of the selection it stands in is
a function of them; any other is a selection of its own, with the aggregate as
its only column.

The way through a query is written once, for any kind of text and any way to
keep names. `RenderM` writes strings and keeps the aliases and the parameters met
so far.
-/

namespace StreamQuery

inductive RenderError where
  | noSource
  | aggregateOverNoSource
  | noAlias (id : SourceId)
  | pathRoot (found : ValueType)
  | elementLeft (scope : ElementScope)
  | tupleComponent (index : Nat)
  | tupleOutsideProjection
  /-- The rows of an aggregate are not even the same as themselves, because a
  filter holds a number that differs from itself. -/
  | unsettledAggregate
deriving DecidableEq, Repr

def RenderError.text : RenderError → String
  | noSource => "query has no source"
  | aggregateOverNoSource => "aggregate over no source"
  | noAlias id => "source " ++ id.name ++ " has no alias"
  | pathRoot found => "path rooted at a " ++ found.name ++ " value"
  | elementLeft scope => "stream element " ++ scope.name ++ " was never inlined"
  | tupleComponent index => "tuple component " ++ toString index ++ " has no textual form"
  | tupleOutsideProjection => "tuple outside a projection"
  | unsettledAggregate => "aggregate over rows that differ from themselves"

def RenderError.message (error : RenderError) : String := "cannot render query: " ++ error.text

/-- What texts of queries are made of, apart from putting them together. -/
class Wording (T : Type) where
  nothing : T
  ofText : String → T
  ofValue : Value → T

/-- Steps that give out names while a query is written. -/
class Scribe (M : Type → Type) (T : outParam Type) where
  /-- Names sources that have no name yet. -/
  enter : List Source → M Unit
  aliasOf : SourceId → M T
  /-- The parameter for a captured variable. -/
  placeholder : Capture → M T

namespace Rendering

open Wording Scribe

/-! ## Texts -/

section Texts

variable {T : Type} [Append T] [Wording T]

/-- Texts with a separator between them. -/
def joined (separator : String) : List T → T
  | [] => nothing
  | [text] => text
  | text :: rest => text ++ (ofText separator ++ joined separator rest)

def parenthesized (text : T) : T := ofText "(" ++ text ++ ofText ")"

def call (name : String) (args : List T) : T :=
  ofText (name ++ "(") ++ joined ", " args ++ ofText ")"

def unary (op : UnaryOp) (operand : T) : T :=
  match op with
  | .not => ofText "(NOT " ++ operand ++ ofText ")"
  | .neg => ofText "(-" ++ operand ++ ofText ")"

def binary (op : BinaryOp) (left right : T) : T :=
  let between (symbol : String) : T :=
    ofText "(" ++ left ++ ofText (" " ++ symbol ++ " ") ++ right ++ ofText ")"
  match op with
  | .arith .rem => call "MOD" [left, right]
  | .arith op => between op.symbol
  | .compare op => between op.symbol
  | .and => between "AND"
  | .or => between "OR"
  | .concat => call "CONCAT" [left, right]
  | .like => between "LIKE"

def choice (test yes no : T) : T :=
  ofText "(CASE WHEN " ++ test ++ ofText " THEN " ++ yes ++ ofText " ELSE " ++ no ++ ofText " END)"

def conjunction : List T → T
  | [] => ofText "TRUE"
  | first :: rest => rest.foldl (binary .and) first

def clause (keyword : String) (items : List T) (layout : List T → T) : T :=
  if items.isEmpty then nothing else ofText keyword ++ layout items

def selection (distinct : Bool) (items : List T) (froms : T) (filters groups having keys : List T) :
    T :=
  ofText (if distinct then "SELECT DISTINCT " else "SELECT ") ++ joined ", " items ++
    ofText " FROM " ++ froms ++ clause " WHERE " filters conjunction ++
    clause " GROUP BY " groups (joined ", ") ++ clause " HAVING " having conjunction ++
    clause " ORDER BY " keys (joined ", ")

end Texts

/-! ## Expressions and selections -/

section Steps

variable {M : Type → Type} {T : Type} [Monad M] [MonadExcept RenderError M] [Append T] [Wording T]
  [Scribe M T]

def path : Expr → M T
  | .row id _ => aliasOf id
  | .path base field _ => do
    let base ← path base
    pure (base ++ ofText ("." ++ field.name))
  | other => throw (.pathRoot other.type)

def rootAlias (s : Select) (error : RenderError) : M T :=
  match s.root? with
  | some root => aliasOf root.id
  | none => throw error

/-- Collections are joined, entities are listed. -/
def separator : Source → String
  | .entity .. => ", "
  | .navigation .. => " JOIN "

def origin : Source → M T
  | .entity _ name => pure (ofText name)
  | .navigation _ path _ => Rendering.path path

def sources (isFirst : Bool) : List Source → M T
  | [] => pure nothing
  | source :: rest => do
    let shortName ← aliasOf source.id
    let name ← origin source
    let rest ← sources false rest
    let lead : T := if isFirst then nothing else ofText (separator source)
    pure (lead ++ name ++ ofText " " ++ shortName ++ rest)

/-- The text of an expression other than a tuple, which is its one column. -/
def whole (e : Expr) (columns : M (List T)) : M T :=
  match e with
  | .tuple .. => throw .tupleOutsideProjection
  | _ => do pure (joined "" (← columns))

mutual

/-- The columns of an expression in the scope of a selection. Those of a tuple
lie flat, anything else is one column. -/
def columns (l : Likeness) (scope : Select) : Expr → M (List T)
  | .constant value _ => pure [ofValue value]
  | .param capture _ => do pure [← placeholder capture]
  | .row id _ => do pure [← aliasOf id]
  | .element s _ => throw (.elementLeft s)
  | .path base field t => do pure [parenthesized (← path (.path base field t))]
  | .component _ index _ => throw (.tupleComponent index)
  | .unary op operand _ => do
    let operand ← whole operand (columns l scope operand)
    pure [unary op operand]
  | .binary op left right _ => do
    let left ← whole left (columns l scope left)
    let right ← whole right (columns l scope right)
    pure [binary op left right]
  | .conditional test yes no _ => do
    let test ← whole test (columns l scope test)
    let yes ← whole yes (columns l scope yes)
    let no ← whole no (columns l scope no)
    pure [choice test yes no]
  | .tuple items _ => columnsOf l scope items
  | .call fn args _ => do
    let args ← list l scope args
    pure [call fn.name args]
  | .aggregate fn arg query _ => do
    if scope.sameScope l query.current then
      let inner ← argument l scope arg query.current
      pure [call fn.name [inner]]
    else if query.current.sameScope .usual query.current then
      let column := do
        let inner ← argument l query.current arg query.current
        pure (call fn.name [inner])
      let inner ← select l query (some column)
      pure [parenthesized inner]
    else throw .unsettledAggregate
  | .subQuery query _ => do
    let inner ← select l query none
    pure [parenthesized inner]
termination_by structural e => e

def columnsOf (l : Likeness) (scope : Select) : List Expr → M (List T)
  | [] => pure []
  | e :: es => do
    let first ← columns l scope e
    let rest ← columnsOf l scope es
    pure (first ++ rest)
termination_by structural es => es

def list (l : Likeness) (scope : Select) : List Expr → M (List T)
  | [] => pure []
  | e :: es => do
    let first ← whole e (columns l scope e)
    let rest ← list l scope es
    pure (first :: rest)
termination_by structural es => es

/-- What an aggregate is taken of: its argument, or else the root of its rows. -/
def argument (l : Likeness) (scope : Select) : Option Expr → Select → M T
  | some e, _ => whole e (columns l scope e)
  | none, s => rootAlias s .aggregateOverNoSource
termination_by structural e _ => e

def sortKeys (l : Likeness) (scope : Select) : List SortKey → M (List T)
  | [] => pure []
  | ⟨key, direction⟩ :: rest => do
    let first ← whole key (columns l scope key)
    let rest ← sortKeys l scope rest
    pure ((first ++ ofText (" " ++ direction.keyword)) :: rest)
termination_by structural keys => keys

/-- A whole selection. With a column given, it has that one alone and no order. -/
def select (l : Likeness) : Query → Option (M T) → M T
  | ⟨⟨froms, filters, projection, groupBy, having, orderBy, shape, distinct, skip, limit,
      nextSource, mark⟩, _⟩, column? => do
    let scope : Select := ⟨froms, filters, projection, groupBy, having, orderBy, shape, distinct,
      skip, limit, nextSource, mark⟩
    let items := match column?, projection with
      | some column, _ => do pure [← column]
      | none, some e => columns l scope e
      | none, none => do pure [← rootAlias scope .noSource]
    let keys := if column?.isSome then pure [] else sortKeys l scope orderBy
    enter froms
    pure (selection distinct (← items) (← sources true froms) (← list l scope filters)
      (← list l scope groupBy) (← list l scope having) (← keys))
termination_by structural query _ => query

end

def expr (l : Likeness) (scope : Select) (e : Expr) : M T := whole e (columns l scope e)

end Steps

end Rendering

/-! ## Writing strings -/

/-- What a rendering keeps: the stem of the names of parameters, the aliases of the
sources met so far, and the parameters for the variables met so far. -/
structure Ledger where
  stem : String
  aliases : Aliases
  bindings : List Binding

abbrev RenderM := StateT Ledger (Except RenderError)

instance : Wording String where
  nothing := ""
  ofText s := s
  ofValue := Value.literal

instance : Scribe RenderM String where
  enter sources := modify fun ledger =>
    { ledger with aliases := ledger.aliases.addAll sources }
  aliasOf id := do
    match (← get).aliases.alias? id with
    | some name => pure name
    | none => throw (.noAlias id)
  placeholder capture := do
    let ledger ← get
    let (binding, bindings) := Binding.allocate ledger.stem ledger.bindings capture
    set { ledger with bindings }
    pure (":" ++ binding.name)

structure Rendered where
  text : String
  bindings : List Binding
  firstResult : Option UInt64
  maxResults : Option UInt64
deriving DecidableEq

/-- Whether two renderings are the same, the cells of their parameters aside. -/
def Rendered.alike (a b : Rendered) : Bool :=
  a.text == b.text && a.firstResult == b.firstResult && a.maxResults == b.maxResults &&
    a.bindings.length == b.bindings.length &&
    (a.bindings.zip b.bindings).all fun (x, y) => x.alike y

def Query.render (q : Query) (settings : Settings) : Except RenderError Rendered := do
  let normal := q.normalize
  let written : RenderM String := Rendering.select (.kept fun _ => true) normal none
  let (text, ledger) ← written.run ⟨settings.paramStem, .empty, []⟩
  pure ⟨text, ledger.bindings, normal.current.skip, normal.current.limit⟩

end StreamQuery
