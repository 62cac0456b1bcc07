import StreamQuery.Binder

/-! # Stack and locals of one path

Instead of values the stack holds expressions, and closures that a later call
will use. Which closures there can be is told by a predicate. In a running body
they are those that it makes, so their own bodies are smaller ones.
-/

namespace StreamQuery

structure Made where
  body : Body
  forwards : List Argument
  /-- Innermost binder where the closure was made. -/
  creator : BinderId

/-- Whether an instruction of a body makes a closure. -/
def Body.Makes (outer : Body) (made : Made) : Prop :=
  .makeClosure made.body made.forwards ∈ outer.code

/-- A closure that was made and not yet used. -/
structure Pending (possible : Made → Prop) extends Made where
  isPossible : possible toMade

theorem Pending.sizeOf_lt {outer : Body} (pending : Pending outer.Makes) :
    sizeOf pending.body < sizeOf outer :=
  Body.sizeOf_lt_of_mem pending.isPossible

inductive Operand (possible : Made → Prop) where
  | value (e : Expr)
  | closure (pending : Pending possible)

/-- Operand stack, its top first, and assigned locals, the latest first. -/
structure Frame (possible : Made → Prop) where
  stack : List (Operand possible)
  locals : List (Nat × Operand possible)

namespace Frame

variable {possible : Made → Prop}

def empty : Frame possible := ⟨[], []⟩

def push (frame : Frame possible) (operand : Operand possible) : Frame possible :=
  { frame with stack := operand :: frame.stack }

def pushValue (frame : Frame possible) (e : Expr) : Frame possible := frame.push (.value e)

def pop? (frame : Frame possible) : Option (Operand possible × Frame possible) :=
  match frame.stack with
  | [] => none
  | top :: rest => some (top, { frame with stack := rest })

/-- Takes the topmost operands, the deepest of them first. -/
def popMany? (frame : Frame possible) (count : Nat) :
    Option (List (Operand possible) × Frame possible) :=
  if count ≤ frame.stack.length then
    some ((frame.stack.take count).reverse, { frame with stack := frame.stack.drop count })
  else none

def load? (frame : Frame possible) (slot : Nat) : Option (Operand possible) :=
  frame.locals.lookup slot

def store (frame : Frame possible) (slot : Nat) (operand : Operand possible) : Frame possible :=
  { frame with locals := (slot, operand) :: frame.locals }

end Frame

end StreamQuery
