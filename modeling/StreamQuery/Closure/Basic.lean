import StreamQuery.Operator
import StreamQuery.Value.Basic

/-! # Compiled closures

A closure is code for a small operand-stack machine, with the cells of the
variables it captured. Bodies are plain data: the code of a nested closure
stands inside the instruction that makes it.
-/

namespace StreamQuery

/-- Identity of a compiled body, for messages and bindings. -/
abbrev ClosureId := Nat

def ClosureId.name (id : ClosureId) : String := "lambda#" ++ toString id

/-- What a body reads from outside itself. -/
inductive Argument where
  | param (index : Nat)
  | capture (slot : Nat)
deriving DecidableEq, Repr, Inhabited

def Argument.text : Argument → String
  | param index => "param " ++ toString index
  | capture slot => "capture " ++ toString slot

structure Method where
  owner : String
  name : String
  /-- Number of arguments, the receiver not counted. -/
  argc : Nat
  isStatic : Bool
deriving DecidableEq, Repr, Inhabited

namespace Method

/-- Values that a call takes from the operand stack. -/
def arity (method : Method) : Nat :=
  if method.isStatic then method.argc else method.argc + 1

def text (method : Method) : String :=
  method.owner ++ "." ++ method.name ++ "/" ++ toString method.argc

end Method

mutual

/-- One instruction. Targets are absolute positions in the code. -/
inductive Instruction where
  | const (value : Value)
  | loadParam (index : Nat)
  | loadCapture (slot : Nat)
  | load (slot : Nat)
  | store (slot : Nat)
  | dup
  | pop
  | invoke (method : Method)
  | newTuple (arity : Nat)
  | makeClosure (body : Body) (captures : List Argument)
  | arith (op : ArithOp)
  | neg
  | compare (op : CompareOp)
  | convert (type : ValueType)
  /-- Jumps when the top compares so to zero, or to false. -/
  | ifZero (op : CompareOp) (target : Nat)
  /-- Jumps when the two topmost values compare so. -/
  | ifCompare (op : CompareOp) (target : Nat)
  | goto (target : Nat)
  | ret

structure Body where
  id : ClosureId
  params : List ValueType
  captures : List ValueType
  returns : ValueType
  code : List Instruction

end

namespace Instruction

def target? : Instruction → Option Nat
  | ifZero _ target | ifCompare _ target | goto target => some target
  | _ => none

/-- Branches are the jumps with a test. -/
def isBranch : Instruction → Bool
  | ifZero .. | ifCompare .. => true
  | _ => false

def method? : Instruction → Option Method
  | invoke method => some method
  | _ => none

end Instruction

namespace Body

def branchCount (body : Body) : Nat := body.code.countP (·.isBranch)

/-- The body of a closure made in the code is smaller than the whole body. -/
theorem sizeOf_lt_of_mem {outer inner : Body} {captures : List Argument}
    (h : .makeClosure inner captures ∈ outer.code) : sizeOf inner < sizeOf outer := by
  have inside := List.sizeOf_lt_of_mem h
  cases outer
  simp only [Instruction.makeClosure.sizeOf_spec, Body.mk.sizeOf_spec] at inside ⊢
  omega

end Body

/-- A captured variable. Cells have identity; their values are kept elsewhere
and read when a query runs. -/
structure Cell where
  number : Nat
deriving DecidableEq, Repr, Inhabited

/-- A body with the cells that it captured, in the order of its capture slots. -/
structure Closure where
  body : Body
  captured : List Cell

end StreamQuery
