import StreamQuery.Compile.Error
import StreamQuery.Expr.Simplify

/-! # Operators of the stack machine as expressions -/

namespace StreamQuery.Compile

def arith (op : ArithOp) (left right : Expr) : Except Obstacle Expr :=
  if left.type.isNumeric && right.type.isNumeric then .ok (.apply (.arith op) left right)
  else .error (.arithmetic op left.type right.type)

def negation (operand : Expr) : Except Obstacle Expr :=
  if operand.type.isNumeric then .ok (.neg operand) else .error (.negation operand.type)

/-- Numbers compare with numbers and scalars with their own type; equality asks
only that one type may flow to the other. -/
def comparable (op : CompareOp) (left right : ValueType) : Bool :=
  (left.isNumeric && right.isNumeric) || (decide (left = right) && left.isScalar) ||
    (op.isEquality && (left.flowsTo right || right.flowsTo left))

def comparison (op : CompareOp) (left right : Expr) : Except Obstacle Expr :=
  if comparable op left.type right.type then .ok (.compare op left right)
  else .error (.comparison op left.type right.type)

/-- The test of a value against zero, or of a truth value against false. -/
def zeroTest (op : CompareOp) (operand : Expr) : Except Obstacle Expr :=
  match operand.type, op with
  | .bool, .eq => .ok (.not operand)
  | .bool, .ne => .ok operand
  | type, _ =>
    if type.isNumeric then .ok (.compare op operand (.literal (.int 0)))
    else .error (.branch op type)

/-- A conversion between numbers changes the type alone. -/
def convert (operand : Expr) (type : ValueType) : Except Obstacle Expr :=
  if operand.type = type ∨ (operand.type.isNumeric && type.isNumeric) = true then
    .ok (operand.withType type)
  else .error (.conversion operand.type type)

/-- In a closure that returns a truth value, numbers stand for whether they
differ from zero. -/
def coerceReturn (returns : ValueType) (value : Expr) : Except Obstacle Expr :=
  if returns ≠ .bool ∨ value.type = .bool then .ok value
  else if value.asConstant = some (.int 0) then .ok (.bool false)
  else if value.asConstant = some (.int 1) then .ok (.bool true)
  else if value.type.isNumeric then .ok (.compare .ne value (.literal (.int 0)))
  else if value.type = .any then .ok (value.withType .bool)
  else .error (.booleanReturn value.type)

end StreamQuery.Compile
