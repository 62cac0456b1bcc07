/-! # Operators and functions of expressions -/

namespace StreamQuery

inductive CompareOp where
  | eq | ne | lt | le | gt | ge
deriving DecidableEq, Repr, Inhabited

namespace CompareOp

/-- The complement: `not (a op b)` is `a op.negate b`. -/
def negate : CompareOp → CompareOp
  | eq => ne
  | ne => eq
  | lt => ge
  | ge => lt
  | gt => le
  | le => gt

def holds (op : CompareOp) (order : Ordering) : Bool :=
  match op with
  | eq => order == .eq
  | ne => order != .eq
  | lt => order == .lt
  | le => order != .gt
  | gt => order == .gt
  | ge => order != .lt

def symbol : CompareOp → String
  | eq => "="
  | ne => "<>"
  | lt => "<"
  | le => "<="
  | gt => ">"
  | ge => ">="

/-- Equality and its complement, which need no order on the operands. -/
def isEquality : CompareOp → Bool
  | eq | ne => true
  | _ => false

theorem negate_negate (op : CompareOp) : op.negate.negate = op := by cases op <;> rfl

theorem holds_negate (op : CompareOp) (order : Ordering) :
    op.negate.holds order = !op.holds order := by
  cases op <;> cases order <;> rfl

end CompareOp

inductive ArithOp where
  | add | sub | mul | div | rem
deriving DecidableEq, Repr, Inhabited

def ArithOp.symbol : ArithOp → String
  | add => "+"
  | sub => "-"
  | mul => "*"
  | div => "/"
  | rem => "%"

/-- Operators of two operands. -/
inductive BinaryOp where
  | arith (op : ArithOp)
  | compare (op : CompareOp)
  | and
  | or
  | concat
  | like
deriving DecidableEq, Repr, Inhabited

namespace BinaryOp

def all : List BinaryOp :=
  [arith .add, arith .sub, arith .mul, arith .div, arith .rem, compare .eq, compare .ne,
    compare .lt, compare .le, compare .gt, compare .ge, and, or, concat, like]

def symbol : BinaryOp → String
  | arith op => op.symbol
  | compare op => op.symbol
  | and => "AND"
  | or => "OR"
  | concat => "CONCAT"
  | like => "LIKE"

def isLogical : BinaryOp → Bool
  | and | or => true
  | _ => false

def isPredicate : BinaryOp → Bool
  | compare _ | and | or | like => true
  | _ => false

end BinaryOp

inductive UnaryOp where
  | not | neg
deriving DecidableEq, Repr, Inhabited

/-- Functions of the values of one row. -/
inductive ScalarFn where
  | abs | sqrt | lower | upper | trim | length
deriving DecidableEq, Repr, Inhabited

namespace ScalarFn

def all : List ScalarFn := [abs, sqrt, lower, upper, trim, length]

def name : ScalarFn → String
  | abs => "ABS"
  | sqrt => "SQRT"
  | lower => "LOWER"
  | upper => "UPPER"
  | trim => "TRIM"
  | length => "LENGTH"

end ScalarFn

/-- Functions of all rows of a query. -/
inductive AggregateFn where
  | count | sum | min | max | avg
deriving DecidableEq, Repr, Inhabited

namespace AggregateFn

def all : List AggregateFn := [count, sum, min, max, avg]

def name : AggregateFn → String
  | count => "COUNT"
  | sum => "SUM"
  | min => "MIN"
  | max => "MAX"
  | avg => "AVG"

/-- Sums and averages are taken of numbers only. -/
def needsNumber : AggregateFn → Bool
  | sum | avg => true
  | _ => false

end AggregateFn

end StreamQuery
