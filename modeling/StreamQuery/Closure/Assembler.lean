import StreamQuery.Closure.Basic

/-! # Assembling closures

Code is written line by line. A branch names a label, which may be bound
before or after it; assembling puts the label's position into the branch.
-/

namespace StreamQuery

/-- A position in the code that branches can name before it is known. -/
abbrev Label := Nat

def Label.name (label : Label) : String := "L" ++ toString label

/-- A jump that waits for the position of its label. -/
inductive Jump where
  | ifZero (op : CompareOp)
  | ifCompare (op : CompareOp)
  | goto
deriving DecidableEq, Repr

def Jump.to (target : Nat) : Jump → Instruction
  | ifZero op => .ifZero op target
  | ifCompare op => .ifCompare op target
  | goto => .goto target

inductive Line where
  | plain (instruction : Instruction)
  | labelled (jump : Jump) (label : Label)

inductive AssembleError where
  | rebound (label : Label)
  | unbound (label : Label)
deriving DecidableEq, Repr

def AssembleError.message : AssembleError → String
  | rebound label => "label " ++ label.name ++ " bound twice"
  | unbound label => "label " ++ label.name ++ " is referenced but never bound"

/-- A closure body in the making. -/
structure Assembler where
  id : ClosureId
  params : List ValueType := []
  captures : List ValueType := []
  returns : ValueType := .any
  lines : Array Line := #[]
  /-- How many labels were handed out. -/
  issued : Nat := 0
  /-- Labels with the number of lines before them. -/
  bound : List (Label × Nat) := []

namespace Assembler

def param (a : Assembler) (type : ValueType) : Assembler :=
  { a with params := a.params ++ [type] }

def capture (a : Assembler) (type : ValueType) : Assembler :=
  { a with captures := a.captures ++ [type] }

def returning (a : Assembler) (type : ValueType) : Assembler := { a with returns := type }

def newLabel (a : Assembler) : Label × Assembler :=
  (a.issued, { a with issued := a.issued + 1 })

def position? (a : Assembler) (label : Label) : Option Nat := a.bound.lookup label

/-- Binds a label to the next line; a label is bound once. -/
def bind (a : Assembler) (label : Label) : Except AssembleError Assembler :=
  match a.position? label with
  | some _ => .error (.rebound label)
  | none => .ok { a with bound := (label, a.lines.size) :: a.bound }

def emit (a : Assembler) (instruction : Instruction) : Assembler :=
  { a with lines := a.lines.push (.plain instruction) }

def jump (a : Assembler) (jump : Jump) (label : Label) : Assembler :=
  { a with lines := a.lines.push (.labelled jump label) }

def call (a : Assembler) (owner name : String) (argc : Nat) : Assembler :=
  a.emit (.invoke ⟨owner, name, argc, false⟩)

def callStatic (a : Assembler) (owner name : String) (argc : Nat) : Assembler :=
  a.emit (.invoke ⟨owner, name, argc, true⟩)

def getter (a : Assembler) (owner name : String) : Assembler := a.call owner name 0

/-- The instruction of a line, if its label is bound. -/
def instruction (a : Assembler) : Line → Except AssembleError Instruction
  | .plain instruction => .ok instruction
  | .labelled jump label =>
    match a.position? label with
    | some target => .ok (jump.to target)
    | none => .error (.unbound label)

/-- The finished body, or the label of the first branch that lacks one. -/
def assemble (a : Assembler) : Except AssembleError Body := do
  let code ← a.lines.toList.mapM a.instruction
  pure ⟨a.id, a.params, a.captures, a.returns, code⟩

end Assembler

end StreamQuery
