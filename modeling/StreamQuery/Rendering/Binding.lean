import StreamQuery.Expr.Basic

/-! # Parameters of a query

A captured variable becomes a parameter where it is met first. Parameters are
numbered and named in that order.
-/

namespace StreamQuery

/-- A parameter of a query: the variable whose value it takes, and its name. -/
structure Binding where
  index : Nat
  name : String
  capture : Capture
deriving DecidableEq, Repr

namespace Binding

/-- Uses of one slot and one cell share a parameter. -/
def reads (binding : Binding) (capture : Capture) : Bool :=
  binding.capture.slot == capture.slot && binding.capture.cell == capture.cell

def value (binding : Binding) (values : Cell → Value) : Value := values binding.capture.cell

/-- Whether two parameters have the same place, name, type and closure slot. -/
def alike (a b : Binding) : Bool :=
  a.index == b.index && a.name == b.name && decide (a.capture.type = b.capture.type) &&
    a.capture.closure == b.capture.closure && a.capture.slot == b.capture.slot

/-- The parameter for a variable, and all parameters with it: the one that reads
its slot and cell, or else a new one at the end. -/
def allocate (stem : String) (bindings : List Binding) (capture : Capture) :
    Binding × List Binding :=
  match bindings.find? (·.reads capture) with
  | some binding => (binding, bindings)
  | none =>
    let binding : Binding := ⟨bindings.length, stem ++ toString bindings.length, capture⟩
    (binding, bindings ++ [binding])

end Binding

end StreamQuery
