import StreamQuery.Expr.Basic

/-! # Building typed expressions

Each function builds one kind of node and gives it the type that follows from
its parts.
-/

namespace StreamQuery.Expr

def literal (value : Value) : Expr := constant value value.type

def bool (b : Bool) : Expr := literal (.bool b)

def ofCapture (capture : Capture) : Expr := param capture capture.type

def access (base : Expr) (field : FieldRef) : Expr := path base field field.type

/-- A component has its type in the type of the tuple, or an erased one. -/
def pick (base : Expr) (index : Nat) : Expr :=
  component base index <| match base.type with
    | .tuple items => items[index]?.getD .any
    | _ => .any

def not (operand : Expr) : Expr := unary .not operand .bool

def neg (operand : Expr) : Expr := unary .neg operand operand.type

/-- Predicates are truth values, joined texts are texts, and arithmetic has the
wider type of its operands, or else that of the left one. -/
def apply (op : BinaryOp) (left right : Expr) : Expr :=
  binary op left right <| match op with
    | .compare _ | .and | .or | .like => .bool
    | .concat => .text
    | .arith _ => (left.type.widen right.type).getD left.type

def compare (op : CompareOp) (left right : Expr) : Expr := apply (.compare op) left right

def and (left right : Expr) : Expr := apply .and left right

def or (left right : Expr) : Expr := apply .or left right

/-- A choice has the wider type of its arms, or else that of the first one; a
null arm has no say. -/
def choose (test yes no : Expr) : Expr :=
  conditional test yes no <| match yes.type with
    | .null => no.type
    | type => (type.widen no.type).getD type

def pack (items : List Expr) : Expr := tuple items (.tuple (items.map type))

def invoke (fn : ScalarFn) (args : List Expr) : Expr :=
  call fn args <| match fn with
    | .abs => (args.head?.map type).getD .any
    | .sqrt => .double
    | .lower | .upper | .trim => .text
    | .length => .int

/-- The least and the greatest value have the type of the argument; a sum is
floating if its terms are. -/
def summarize (fn : AggregateFn) (arg : Option Expr) (query : Query) : Expr :=
  let argType := (arg.map type).getD .any
  aggregate fn arg query <| match fn with
    | .count => .long
    | .sum => if argType = .double then .double else .long
    | .avg => .double
    | .min | .max => argType

def embed (query : Query) : Expr := subQuery query (.stream query.rowType)

end StreamQuery.Expr
