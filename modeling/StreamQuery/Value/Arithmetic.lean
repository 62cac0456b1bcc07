import StreamQuery.Double.Remainder
import StreamQuery.Operator
import StreamQuery.Value.Basic

/-! # Arithmetic and order of constants

What can be computed before the query runs. Whole numbers are computed
exactly and the result kept only if it is a 64-bit word; floating results
are kept only if they are finite. Values of different kinds have no order,
numbers apart.
-/

namespace StreamQuery

def ArithOp.onDoubles (op : ArithOp) (l r : Double) : Double :=
  match op with
  | .add => .ofFloat (l.toFloat + r.toFloat)
  | .sub => .ofFloat (l.toFloat - r.toFloat)
  | .mul => .ofFloat (l.toFloat * r.toFloat)
  | .div => .ofFloat (l.toFloat / r.toFloat)
  | .rem => l.remainder r

namespace Value

def word? (i : Int) : Option Int64 :=
  if Int64.minValue.toInt ≤ i ∧ i ≤ Int64.maxValue.toInt then some (Int64.ofInt i) else none

/-- Exact arithmetic of words. Division cuts toward zero; it and its remainder
have no result for a zero divisor or a quotient out of range. -/
def arithWords? (op : ArithOp) (l r : Int64) : Option Int64 :=
  let a := l.toInt
  let b := r.toInt
  match op with
  | .add => word? (a + b)
  | .sub => word? (a - b)
  | .mul => word? (a * b)
  | .div => if b = 0 then none else word? (a.tdiv b)
  | .rem => if b = 0 then none else (word? (a.tdiv b)).bind fun _ => word? (a.tmod b)

/-- Floating arithmetic, if the result is finite. -/
def arithDoubles? (op : ArithOp) (l r : Double) : Option Double :=
  let x := op.onDoubles l r
  if x.isFinite then some x else none

def wordToDouble (i : Int64) : Double := Double.ofInt i.toInt

def arith? (op : ArithOp) : Value → Value → Option Value
  | int l, int r => (arithWords? op l r).map int
  | int l, double r => (arithDoubles? op (wordToDouble l) r).map double
  | double l, int r => (arithDoubles? op l (wordToDouble r)).map double
  | double l, double r => (arithDoubles? op l r).map double
  | _, _ => none

def neg? : Value → Option Value
  | int i => (word? (-i.toInt)).map int
  | double x => some (double x.neg)
  | _ => none

def order? : Value → Value → Option Ordering
  | int l, int r => some (compare l.toInt r.toInt)
  | double l, double r => l.order? r
  | int l, double r => (wordToDouble l).order? r
  | double l, int r => l.order? (wordToDouble r)
  | text l, text r => some (compare l r)
  | bool l, bool r => some (compare l r)
  | _, _ => none

end Value

end StreamQuery
