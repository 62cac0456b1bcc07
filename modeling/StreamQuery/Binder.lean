import StreamQuery.Expr.Typed

/-! # Binding of arguments

A closure reads parameters and captured slots. Each is looked up along a chain
of binders, innermost first. Binders are kept in one list and know their
enclosing binder by its place, so nested closures share a chain. A nested
closure's captured slots are references into the closure that made it.
-/

namespace StreamQuery

/-- Place of a binder in its chain. -/
abbrev BinderId := Nat

def BinderId.name (id : BinderId) : String := "h" ++ toString id

/-- The scope of the placeholder that a stream-element binder owns. -/
def BinderId.scope (id : BinderId) : ElementScope := id

inductive BindError where
  | captureMissing (slot : Nat)
  | exhausted (arg : Argument)
  | paramEscaped (index : Nat)
  | streamUnbound (index : Nat)
  | typeMismatch (arg : Argument) (expected found : ValueType)
  | unsupportedCapture (slot : Nat) (type : ValueType)
deriving DecidableEq, Repr

def BindError.message : BindError → String
  | captureMissing slot => "capture slot " ++ toString slot ++ " has no runtime value"
  | exhausted arg => "no handler resolves " ++ arg.text
  | paramEscaped index =>
    "nested closure parameter " ++ toString index ++ " escaped its own closure"
  | streamUnbound index => "no stream is bound to parameter " ++ toString index
  | typeMismatch arg expected found =>
    arg.text ++ " resolves to " ++ found.name ++ ", expected " ++ expected.name
  | unsupportedCapture slot type =>
    "capture slot " ++ toString slot ++ " of type " ++ type.name ++
      " cannot become a query parameter"

/-- One way to find what an argument stands for. -/
inductive Binder where
  /-- The first parameter is the current element of a stream. -/
  | element (row : Expr)
  /-- Captured slots are parameters of the query. -/
  | parameters (closure : ClosureId) (slots : List (ValueType × Option Cell))
  /-- Captured slots are arguments of the enclosing closure. -/
  | outer (forwards : List Argument)
  /-- Parameters that are streams are this query. -/
  | stream (query : Query)

/-- What a binder makes of an argument: an expression, another argument to look
up further out, or nothing. -/
inductive Answer where
  | resolved (e : Expr)
  | forward (arg : Argument)
  | pass

namespace Binder

def ofClosure (closure : Closure) : Binder :=
  .parameters closure.body.id <|
    closure.body.captures.zipIdx.map fun (type, slot) => (type, closure.captured[slot]?)

/-- A captured slot as a parameter; only scalars can be one. -/
def capture (closure : ClosureId) (slots : List (ValueType × Option Cell)) (slot : Nat) :
    Except BindError Expr :=
  match slots[slot]? with
  | none => .error (.captureMissing slot)
  | some (type, cell) =>
    if !type.isScalar then .error (.unsupportedCapture slot type)
    else match cell with
      | none => .error (.captureMissing slot)
      | some cell => .ok (.ofCapture ⟨closure, slot, type, cell⟩)

def offer (binder : Binder) (arg : Argument) (expected : ValueType) : Except BindError Answer :=
  match binder, arg with
  | element row, .param 0 =>
    if row.type.flowsTo expected then .ok (.resolved row)
    else .error (.typeMismatch arg expected row.type)
  | parameters closure slots, .capture slot => (capture closure slots slot).map .resolved
  | outer forwards, .capture slot =>
    match forwards[slot]? with
    | some arg => .ok (.forward arg)
    | none => .error (.captureMissing slot)
  | outer _, .param index => .error (.paramEscaped index)
  | _, _ => .ok .pass

def forwardCount : Binder → Nat
  | outer forwards => forwards.length
  | _ => 0

end Binder

structure Link where
  binder : Binder
  parent : Option BinderId

/-- Binders in the order in which they were added. -/
structure Chain where
  links : Array Link

namespace Chain

def empty : Chain := ⟨#[]⟩

def size (chain : Chain) : Nat := chain.links.size

/-- Adds a binder; its place is the size before. -/
def push (chain : Chain) (binder : Binder) (parent : Option BinderId) : Chain :=
  ⟨chain.links.push ⟨binder, parent⟩⟩

/-- Adds a binder of a stream element, a placeholder of a scope of its own. -/
def pushElement (chain : Chain) (type : ValueType) (parent : Option BinderId) : Chain :=
  chain.push (.element (.element (BinderId.scope chain.size) type)) parent

/-- Follows the chain outward for at most `fuel` binders. -/
def resolveWithin (chain : Chain) (expected : ValueType) :
    (fuel : Nat) → Option BinderId → Argument → Except BindError Expr
  | 0, _, arg => .error (.exhausted arg)
  | _ + 1, none, arg => .error (.exhausted arg)
  | fuel + 1, some id, arg =>
    match chain.links[id]? with
    | none => .error (.exhausted arg)
    | some link => do
      match ← link.binder.offer arg expected with
      | .resolved e => pure e
      | .forward arg => chain.resolveWithin expected fuel link.parent arg
      | .pass => chain.resolveWithin expected fuel link.parent arg

/-- A walk that meets a binder twice with one argument would not end, so no
walk that ends has more steps. -/
def longestWalk (chain : Chain) : Nat :=
  chain.size * (1 + chain.links.foldl (fun n link => n + link.binder.forwardCount) 0) + 1

/-- What an argument stands for, seen from a binder. -/
def resolve (chain : Chain) (head : BinderId) (arg : Argument) (expected : ValueType) :
    Except BindError Expr :=
  chain.resolveWithin expected chain.longestWalk (some head) arg

def streamWithin (chain : Chain) : (fuel : Nat) → Option BinderId → Option Query
  | 0, _ => none
  | _ + 1, none => none
  | fuel + 1, some id =>
    match chain.links[id]? with
    | none => none
    | some ⟨.stream query, _⟩ => some query
    | some link => chain.streamWithin fuel link.parent

/-- The query that a stream parameter stands for, seen from a binder. -/
def resolveStream (chain : Chain) (head : BinderId) (index : Nat) : Except BindError Query :=
  match chain.streamWithin (chain.size + 1) (some head) with
  | some query => .ok query
  | none => .error (.streamUnbound index)

end Chain

end StreamQuery
