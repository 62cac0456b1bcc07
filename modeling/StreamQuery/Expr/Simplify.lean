import StreamQuery.Expr.Parts
import StreamQuery.Expr.Revision
import StreamQuery.Value.Arithmetic

/-! # Normal form of expressions

Constants are folded, negations stand on atoms only, a choice between truth
values becomes a guarded disjunction, and a component of a tuple becomes that
component. One pass from the leaves up is enough, because what a rule builds
from parts in normal form is in normal form again.
-/

namespace StreamQuery

/-- Whether a query that stands in a tree after a pass is one of those that were
held before, left as it was. A negation is always built anew, and with it the
query around it. -/
def Query.isKept (held : Query → Bool) (q : Query) : Bool := !q.negates && held q

/-- Equality after a pass: a query that was kept stays the same query, one that
was built anew is another than every copy of it. -/
def Likeness.kept (held : Query → Bool) : Likeness :=
  { Likeness.usual with query := fun q r => decide (q = r) && q.isKept held }

namespace Expr

/-- A conjunction with a constant operand is that operand or the other one. -/
def conj? (left right : Expr) : Option Expr :=
  match left.asBool, right.asBool with
  | some false, _ => some (bool false)
  | _, some false => some (bool false)
  | some true, _ => some right
  | _, some true => some left
  | none, none => none

def conj (left right : Expr) : Expr := (conj? left right).getD (and left right)

def disj? (left right : Expr) : Option Expr :=
  match left.asBool, right.asBool with
  | some true, _ => some (bool true)
  | _, some true => some (bool true)
  | some false, _ => some right
  | _, some false => some left
  | none, none => none

def disj (left right : Expr) : Expr := (disj? left right).getD (or left right)

/-- The complement of an expression in normal form, in normal form. -/
def negate : Expr → Expr
  | constant (.bool b) _ => bool !b
  | unary .not inner _ => inner
  | binary (.compare op) left right _ => compare op.negate left right
  | binary .and left right _ => disj (negate left) (negate right)
  | binary .or left right _ => conj (negate left) (negate right)
  | atom => not atom

def compare? (op : CompareOp) (left right : Expr) : Option Expr := do
  let order ← Value.order? (← left.asConstant) (← right.asConstant)
  some (bool (op.holds order))

def arith? (op : ArithOp) (left right : Expr) (t : ValueType) : Option Expr := do
  let value ← Value.arith? op (← left.asConstant) (← right.asConstant)
  some (constant value t)

def concat? (left right : Expr) : Option Expr := do
  some (literal (.text ((← left.asText) ++ (← right.asText))))

/-- A choice is decided by a constant test or by equal arms; one between truth
values is `(yes and test) or (no and not test)`. -/
def choice? (l : Likeness) (test yes no : Expr) (t : ValueType) : Option Expr :=
  match test.asBool with
  | some true => some yes
  | some false => some no
  | none =>
    if yes.like l no then some yes
    else if t = .bool then some (disj (conj yes test) (conj no (negate test)))
    else none

def component? (base : Expr) (index : Nat) : Option Expr :=
  match base with
  | tuple items _ => items[index]?
  | _ => none

/-- One rule at a node whose parts are in normal form. -/
def reduce? (l : Likeness) : Expr → Option Expr
  | unary .not operand _ => some (negate operand)
  | unary .neg operand t => (operand.asConstant.bind Value.neg?).map (constant · t)
  | binary .and left right _ => conj? left right
  | binary .or left right _ => disj? left right
  | binary (.compare op) left right _ => compare? op left right
  | binary (.arith op) left right t => arith? op left right t
  | binary .concat left right _ => concat? left right
  | conditional test yes no t => choice? l test yes no t
  | component base index _ => component? base index
  | _ => none

/-- The pass that leaves nested queries as they are. -/
def shallow : Pass := ⟨fun _ => none, reduce? .usual, false⟩

/-- The pass that goes into nested queries, of which some were held before. -/
def thorough (held : Query → Bool) : Pass := ⟨fun _ => none, reduce? (.kept held), true⟩

/-- Normal form, nested queries left as they are. -/
def simplify (e : Expr) : Expr := (e.revise shallow).getD e

end Expr

end StreamQuery
