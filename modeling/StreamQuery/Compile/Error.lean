import StreamQuery.Binder
import StreamQuery.Query.Refusal

/-! # Why a closure cannot be compiled -/

namespace StreamQuery

/-- A construct that has no counterpart in a query. -/
inductive Obstacle where
  | stackUnderflow
  | unassignedLocal (slot : Nat)
  | localBeyond (slot limit : Nat)
  | negation (found : ValueType)
  | arithmetic (op : ArithOp) (left right : ValueType)
  | comparison (op : CompareOp) (left right : ValueType)
  | branch (op : CompareOp) (found : ValueType)
  | conversion (found wanted : ValueType)
  | tupleArity (arity : Nat)
  | booleanReturn (found : ValueType)
  | closureAsValue (id : ClosureId)
  | closureAsArgument (id : ClosureId)
  | nestedParams (id : ClosureId)
  | unknownCall (method : Method)
  | tupleComponent (index size : Nat)
  | patternNotLiteral (method : String)
  | patternWildcard (method : String)
  | textOperation (found : ValueType)
  | notStreamSource
  | entityNotLiteral
  | entityUnknown (name : String)
  | streamFrom (found : ValueType)
  | aggregateOver (fn : AggregateFn) (found : ValueType)
  | streamOperation (found : ValueType)
  | refused (refusal : Refusal)
deriving DecidableEq, Repr

def Obstacle.text : Obstacle → String
  | stackUnderflow => "operand stack underflow"
  | unassignedLocal slot => "read of unassigned local " ++ toString slot
  | localBeyond slot limit =>
    "local slot " ++ toString slot ++ " beyond the " ++ toString limit ++ " allowed"
  | negation found => "negation of " ++ found.name
  | arithmetic op left right =>
    "arithmetic '" ++ op.symbol ++ "' on " ++ left.name ++ " and " ++ right.name
  | comparison op left right =>
    "comparison '" ++ op.symbol ++ "' of " ++ left.name ++ " with " ++ right.name
  | branch op found => "branch '" ++ op.symbol ++ "' on a value of type " ++ found.name
  | conversion found wanted => "conversion of " ++ found.name ++ " to " ++ wanted.name
  | tupleArity arity => "tuple of arity " ++ toString arity
  | booleanReturn found => "boolean closure returns " ++ found.name
  | closureAsValue id => id.name ++ " used as a value"
  | closureAsArgument id => id.name ++ " passed where a value is expected"
  | nestedParams id => id.name ++ " must take exactly one parameter"
  | unknownCall method => "no query equivalent for " ++ method.text
  | tupleComponent index size =>
    "component " ++ toString index ++ " of a " ++ toString size ++ "-tuple"
  | patternNotLiteral method => "String." ++ method ++ " needs a literal argument"
  | patternWildcard method => "String." ++ method ++ " argument contains a wildcard character"
  | textOperation found => "text operation on " ++ found.name
  | notStreamSource => "stream() called on a value that is not a stream source"
  | entityNotLiteral => "stream() needs a literal entity name"
  | entityUnknown name => "entity '" ++ name ++ "' is not queryable"
  | streamFrom found => "JinqStream.from over " ++ found.name
  | aggregateOver fn found => fn.name ++ " over " ++ found.name
  | streamOperation found => "stream operation on " ++ found.name
  | refused refusal => refusal.message

inductive ControlFault where
  | tooManySteps (limit : Nat)
  | tooManyBranches (limit : Nat)
  | endOfBody
  | backwardJump (target : Nat)
  | backwardBranch (target : Nat)
deriving DecidableEq, Repr

def ControlFault.text : ControlFault → String
  | tooManySteps limit => "more than " ++ toString limit ++ " instructions evaluated"
  | tooManyBranches limit => "more than " ++ toString limit ++ " branches"
  | endOfBody => "control reaches the end of the body"
  | backwardJump target => "backward jump to " ++ toString target
  | backwardBranch target => "backward branch to " ++ toString target

inductive ArgumentFault where
  | undeclaredParam
  | undeclaredCapture
  | unbound (cause : BindError)
deriving DecidableEq, Repr

def ArgumentFault.text : ArgumentFault → String
  | undeclaredParam => "closure declares no such parameter"
  | undeclaredCapture => "closure declares no such capture"
  | unbound cause => cause.message

/-- Broad kinds of errors, by what a caller can do about them. -/
inductive ErrorClass where
  | config | invariantViolation | unresolved | unsupported
deriving DecidableEq, Repr

namespace ErrorClass

def name : ErrorClass → String
  | config => "config"
  | invariantViolation => "invariant_violation"
  | unresolved => "unresolved"
  | unsupported => "unsupported"

/-- Whether evaluating the stream in memory could still give an answer. -/
def isFallback : ErrorClass → Bool
  | unresolved | unsupported => true
  | config | invariantViolation => false

end ErrorClass

/-- An error of compiling a closure; instructions are named by position. -/
inductive CompileError where
  | argument (closure : ClosureId) (arg : Argument) (fault : ArgumentFault)
  | control (closure : ClosureId) (pc : Nat) (fault : ControlFault)
  | field (closure : ClosureId) (entity accessor : String)
  | construct (closure : ClosureId) (pc : Nat) (obstacle : Obstacle)
deriving DecidableEq, Repr

namespace CompileError

def closure : CompileError → ClosureId
  | argument closure _ _ | control closure _ _ | field closure _ _ | construct closure _ _ =>
    closure

def message : CompileError → String
  | argument closure arg fault =>
    closure.name ++ ": cannot resolve " ++ arg.text ++ ": " ++ fault.text
  | control closure pc fault =>
    closure.name ++ ": irreducible control flow at instruction " ++ toString pc ++ ": " ++
      fault.text
  | field closure entity accessor =>
    closure.name ++ ": no queryable field behind '" ++ entity ++ "." ++ accessor ++ "'"
  | construct closure pc obstacle =>
    closure.name ++ ": unsupported construct at instruction " ++ toString pc ++ ": " ++
      obstacle.text

def errorClass : CompileError → ErrorClass
  | argument .. | field .. => .unresolved
  | control .. | construct .. => .unsupported

end CompileError

end StreamQuery
