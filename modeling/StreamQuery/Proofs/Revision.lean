import Mathlib
import StreamQuery.Expr.Revision

/-! # Laws of revising

What a pass makes of a tree, node by node. Below a node that is not replaced the
parts are revised first; tuples and sub-queries are the kinds of node whose type
may change with them.
-/

namespace StreamQuery

theorem revised_getD {α β γ : Type} (join : α → β → γ) (a : α) (a' : Option α) (b : β)
    (b' : Option β) : (revised join a a' b b').getD (join a b) = join (a'.getD a) (b'.getD b) := by
  cases a' <;> cases b' <;> rfl

namespace Pass

def result (pass : Pass) (e : Expr) : Expr := (e.revise pass).getD e

def finished (pass : Pass) (e : Expr) : Expr := (pass.finish e).getD e

/-- A node over its revised parts, if one of them was revised. -/
def rebuilt (pass : Pass) : Expr → Option Expr
  | .constant .. | .param .. | .row .. | .element .. => none
  | .path base field t => (base.revise pass).map (.path · field t)
  | .component base index t => (base.revise pass).map (.component · index t)
  | .unary op operand t => (operand.revise pass).map (.unary op · t)
  | .binary op left right t =>
    revised (.binary op · · t) left (left.revise pass) right (right.revise pass)
  | .conditional test yes no t =>
    revised (fun test arms => .conditional test arms.1 arms.2 t) test (test.revise pass)
      (yes, no) (revised Prod.mk yes (yes.revise pass) no (no.revise pass))
  | .tuple items _ => (Expr.reviseAll pass items).map Expr.pack
  | .call fn args t => (Expr.reviseAll pass args).map (.call fn · t)
  | .aggregate fn arg query t =>
    revised (.aggregate fn · · t) arg (Expr.reviseOption pass arg) query (Query.revise pass query)
  | .subQuery query _ => (Query.revise pass query).map Expr.embed

variable {pass : Pass}

theorem revise_eq_settle {e : Expr} (h : pass.replace e = none) :
    e.revise pass = pass.settle e (pass.rebuilt e) := by
  cases e <;> simp only [Expr.revise, h, rebuilt]

theorem settle_getD (e : Expr) (rebuilt : Option Expr) :
    (pass.settle e rebuilt).getD e = pass.finished (rebuilt.getD e) := by
  unfold settle finished
  cases pass.finish (rebuilt.getD e) <;> simp

theorem result_of_replace {e replacement : Expr} (h : pass.replace e = some replacement) :
    pass.result e = replacement := by
  unfold result
  rw [Expr.revise.eq_def, h]
  rfl

/-- A node over what a pass makes of its parts. -/
def rebuild (pass : Pass) (e : Expr) : Expr := (pass.rebuilt e).getD e

theorem result_eq_finished {e : Expr} (h : pass.replace e = none) :
    pass.result e = pass.finished (pass.rebuild e) := by
  rw [result, revise_eq_settle h, settle_getD, rebuild]

theorem reviseAll_getD (es : List Expr) :
    (Expr.reviseAll pass es).getD es = es.map pass.result := by
  induction es with
  | nil => rfl
  | cons e es ih =>
      rw [Expr.reviseAll, revised_getD List.cons, ih, List.map_cons]
      rfl

theorem reviseOption_getD (arg : Option Expr) :
    (Expr.reviseOption pass arg).getD arg = arg.map pass.result := by
  cases arg with
  | none => rfl
  | some e =>
      rw [Expr.reviseOption, Option.map_some, result]
      cases e.revise pass <;> rfl

@[simp] theorem rebuild_constant (value : Value) (t : ValueType) :
    pass.rebuild (.constant value t) = .constant value t := rfl

@[simp] theorem rebuild_param (capture : Capture) (t : ValueType) :
    pass.rebuild (.param capture t) = .param capture t := rfl

@[simp] theorem rebuild_row (source : SourceId) (t : ValueType) :
    pass.rebuild (.row source t) = .row source t := rfl

@[simp] theorem rebuild_element (scope : ElementScope) (t : ValueType) :
    pass.rebuild (.element scope t) = .element scope t := rfl

@[simp] theorem rebuild_path (base : Expr) (field : FieldRef) (t : ValueType) :
    pass.rebuild (.path base field t) = .path (pass.result base) field t := by
  rw [rebuild, rebuilt, result]
  cases base.revise pass <;> rfl

@[simp] theorem rebuild_component (base : Expr) (index : Nat) (t : ValueType) :
    pass.rebuild (.component base index t) = .component (pass.result base) index t := by
  rw [rebuild, rebuilt, result]
  cases base.revise pass <;> rfl

@[simp] theorem rebuild_unary (op : UnaryOp) (operand : Expr) (t : ValueType) :
    pass.rebuild (.unary op operand t) = .unary op (pass.result operand) t := by
  rw [rebuild, rebuilt, result]
  cases operand.revise pass <;> rfl

@[simp] theorem rebuild_binary (op : BinaryOp) (left right : Expr) (t : ValueType) :
    pass.rebuild (.binary op left right t) =
      .binary op (pass.result left) (pass.result right) t := by
  rw [rebuild, rebuilt, revised_getD fun l r => Expr.binary op l r t]
  rfl

@[simp] theorem rebuild_conditional (test yes no : Expr) (t : ValueType) :
    pass.rebuild (.conditional test yes no t) =
      .conditional (pass.result test) (pass.result yes) (pass.result no) t := by
  rw [rebuild, rebuilt,
    revised_getD fun test (arms : Expr × Expr) => Expr.conditional test arms.1 arms.2 t,
    revised_getD Prod.mk]
  rfl

/-- A tuple with a revised component has the type of its components, any other
keeps the type it had. -/
@[simp] theorem rebuild_tuple (items : List Expr) (t : ValueType) :
    pass.rebuild (.tuple items t) = .tuple (items.map pass.result)
      (if (Expr.reviseAll pass items).isSome then .tuple ((items.map pass.result).map Expr.type)
        else t) := by
  rw [rebuild, rebuilt, ← reviseAll_getD items]
  cases Expr.reviseAll pass items <;> rfl

@[simp] theorem rebuild_call (fn : ScalarFn) (args : List Expr) (t : ValueType) :
    pass.rebuild (.call fn args t) = .call fn (args.map pass.result) t := by
  rw [rebuild, rebuilt, ← reviseAll_getD args]
  cases Expr.reviseAll pass args <;> rfl

def resultQuery (pass : Pass) (q : Query) : Query := (Query.revise pass q).getD q

@[simp] theorem rebuild_aggregate (fn : AggregateFn) (arg : Option Expr) (query : Query)
    (t : ValueType) : pass.rebuild (.aggregate fn arg query t) =
      .aggregate fn (arg.map pass.result) (pass.resultQuery query) t := by
  rw [rebuild, rebuilt, revised_getD fun arg query => Expr.aggregate fn arg query t,
    reviseOption_getD]
  rfl

/-- A revised sub-query has the type of its rows, any other keeps the type it had. -/
@[simp] theorem rebuild_subQuery (query : Query) (t : ValueType) :
    pass.rebuild (.subQuery query t) = .subQuery (pass.resultQuery query)
      (if (Query.revise pass query).isSome then .stream (pass.resultQuery query).rowType
        else t) := by
  rw [rebuild, rebuilt, resultQuery]
  cases Query.revise pass query <;> rfl

end Pass

end StreamQuery
