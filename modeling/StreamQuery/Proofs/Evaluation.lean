import StreamQuery.Expr.Simplify
import StreamQuery.Proofs.Arithmetic
import StreamQuery.Proofs.Nodes
import StreamQuery.Proofs.Patterns

/-! # Values of expressions

An expression without nested queries has a value once its rows, elements and
parameters have one. Operators on constants mean what they mean for exact
whole numbers, texts and truth values; on everything else they are arbitrary
but total. Logic is two-valued.
-/

namespace StreamQuery

/-- What an expression can evaluate to: a constant, a tuple, or an object of a
database, such as a row of an entity or a collection of rows. -/
inductive Datum (Obj : Type) where
  | value (v : Value)
  | tuple (items : List (Datum Obj))
  | object (o : Obj)

namespace Datum

variable {Obj : Type}

abbrev null : Datum Obj := value .null

abbrev bool (b : Bool) : Datum Obj := value (.bool b)

abbrev int (i : Int64) : Datum Obj := value (.int i)

abbrev text (s : String) : Datum Obj := value (.text s)

def IsBool (d : Datum Obj) : Prop := ∃ b, d = bool b

@[simp] theorem isBool_bool (b : Bool) : IsBool (bool b : Datum Obj) := ⟨b, rfl⟩

def IsNumber : Datum Obj → Prop
  | value (.int _) | value (.double _) => True
  | _ => False

mutual

/-- What a type promises of its values: truth values, numbers, and tuples of as
many components as it lists. Other types promise nothing. -/
def Fits : ValueType → Datum Obj → Prop
  | .bool, d => d.IsBool
  | .int, d | .long, d | .double, d => d.IsNumber
  | .tuple types, .tuple items => FitsAll types items
  | .tuple _, _ => False
  | _, _ => True

def FitsAll : List ValueType → List (Datum Obj) → Prop
  | [], [] => True
  | t :: ts, d :: ds => Fits t d ∧ FitsAll ts ds
  | _, _ => False

end

mutual

def sample : ValueType → Datum Obj
  | .bool => bool false
  | .int | .long | .double => int 0
  | .tuple types => tuple (sampleAll types)
  | _ => null

def sampleAll : List ValueType → List (Datum Obj)
  | [] => []
  | t :: ts => sample t :: sampleAll ts

end

mutual

theorem fits_sample : ∀ t : ValueType, Fits t (sample t : Datum Obj)
  | .bool => isBool_bool false
  | .int | .long | .double => trivial
  | .tuple types => fitsAll_sample types
  | .null | .text | .entity _ | .collection _ | .stream _ | .streamSource | .any => trivial

theorem fitsAll_sample : ∀ ts : List ValueType, FitsAll ts (sampleAll ts : List (Datum Obj))
  | [] => trivial
  | t :: ts => ⟨fits_sample t, fitsAll_sample ts⟩

end

theorem Fits.isNumber {t : ValueType} {d : Datum Obj} (h : Fits t d) (ht : t.isNumeric = true) :
    d.IsNumber := by
  cases t <;> simp_all [ValueType.isNumeric, Fits]

theorem IsNumber.fits {t : ValueType} {d : Datum Obj} (h : d.IsNumber) (ht : t.isNumeric = true) :
    Fits t d := by
  cases t <;> simp_all [ValueType.isNumeric, Fits]

theorem FitsAll.getElem? {ts : List ValueType} {ds : List (Datum Obj)} (h : FitsAll ts ds)
    {index : Nat} {t : ValueType} (ht : ts[index]? = some t) :
    ∃ d, ds[index]? = some d ∧ Fits t d := by
  induction ts generalizing ds index with
  | nil => simp at ht
  | cons first rest ih =>
      cases ds with
      | nil => simp [FitsAll] at h
      | cons d ds =>
          cases index with
          | zero =>
              cases ht
              exact ⟨d, rfl, h.1⟩
          | succ index => exact ih h.2 ht

end Datum

/-- Total meanings of fields, operators and functions. What they have to agree
with is stated in the laws: exact arithmetic wherever the result is a word, the
orders of whole numbers, texts and truth values, and that a comparison and its
complement never hold together. -/
structure Operations (Obj : Type) where
  field : FieldRef → Datum Obj → Datum Obj
  /-- A component of what is no tuple, or of a tuple with fewer components. -/
  missing : Nat → Datum Obj → Datum Obj
  call : ScalarFn → List (Datum Obj) → Datum Obj
  neg : Datum Obj → Datum Obj
  arith : ArithOp → Datum Obj → Datum Obj → Datum Obj
  compare : CompareOp → Datum Obj → Datum Obj → Bool
  concat : Datum Obj → Datum Obj → Datum Obj
  like : Datum Obj → Datum Obj → Bool
  neg_int : ∀ i k : Int64, k.toInt = -i.toInt → neg (.int i) = .int k
  arith_int : ∀ (op : ArithOp) (l r k : Int64), op.Gives l.toInt r.toInt k.toInt →
    arith op (.int l) (.int r) = .int k
  compare_int : ∀ (op : CompareOp) (l r : Int64),
    compare op (.int l) (.int r) = true ↔ op.Relates l.toInt r.toInt
  compare_text : ∀ (op : CompareOp) (l r : String),
    compare op (.text l) (.text r) = true ↔ op.Relates l r
  compare_bool : ∀ (op : CompareOp) (l r : Bool),
    compare op (.bool l) (.bool r) = true ↔ op.Relates l r
  compare_negate : ∀ (op : CompareOp) (a b : Datum Obj),
    compare op.negate a b = !compare op a b
  concat_text : ∀ l r : String, concat (.text l) (.text r) = .text (l ++ r)

namespace Operations

variable {Obj : Type} (ops : Operations Obj)

def component (index : Nat) : Datum Obj → Datum Obj
  | .tuple items => items[index]?.getD (ops.missing index (.tuple items))
  | d => ops.missing index d

/-- A truth value stands for itself, anything else for whether it differs from
zero. -/
def truth : Datum Obj → Bool
  | .value (.bool b) => b
  | d => ops.compare .ne d (.int 0)

@[simp] theorem truth_bool (b : Bool) : ops.truth (.bool b) = b := rfl

theorem truth_of_isNumber {d : Datum Obj} (h : d.IsNumber) :
    ops.truth d = ops.compare .ne d (.int 0) := by
  cases d with
  | value v => cases v <;> first | rfl | exact h.elim
  | _ => rfl

theorem truth_int_iff (i : Int64) : ops.truth (.int i) = true ↔ i.toInt ≠ 0 :=
  ops.compare_int .ne i 0

theorem eq_bool_truth {d : Datum Obj} (h : d.IsBool) : d = .bool (ops.truth d) := by
  obtain ⟨b, rfl⟩ := h
  rfl

def binary : BinaryOp → Datum Obj → Datum Obj → Datum Obj
  | .arith op, l, r => ops.arith op l r
  | .compare op, l, r => .bool (ops.compare op l r)
  | .and, l, r => .bool (ops.truth l && ops.truth r)
  | .or, l, r => .bool (ops.truth l || ops.truth r)
  | .concat, l, r => ops.concat l r
  | .like, l, r => .bool (ops.like l r)

def unary : UnaryOp → Datum Obj → Datum Obj
  | .not, d => .bool (!ops.truth d)
  | .neg, d => ops.neg d

structure RespectsTypes : Prop where
  field : ∀ (f : FieldRef) (d : Datum Obj), Datum.Fits f.type (ops.field f d)
  neg : ∀ d : Datum Obj, d.IsNumber → (ops.neg d).IsNumber
  arith : ∀ (op : ArithOp) (l r : Datum Obj), l.IsNumber → r.IsNumber →
    (ops.arith op l r).IsNumber
  abs : ∀ d : Datum Obj, d.IsNumber → (ops.call .abs [d]).IsNumber
  sqrt : ∀ d : Datum Obj, d.IsNumber → (ops.call .sqrt [d]).IsNumber
  length : ∀ d : Datum Obj, (ops.call .length [d]).IsNumber

/-- Texts match a pattern where its wildcards can stand for what is left of them. -/
def ReadsPatterns : Prop := ∀ text pattern : String,
  ops.like (.text text) (.text pattern) = true ↔ Pattern.Matches pattern.toList text.toList

variable {ops} in
/-- A component of a tuple has its type in the type of the tuple. -/
theorem fits_component {types : List ValueType} {d : Datum Obj} (h : Datum.Fits (.tuple types) d)
    {index : Nat} {t : ValueType} (ht : types[index]? = some t) :
    Datum.Fits t (ops.component index d) := by
  cases d with
  | tuple items =>
      obtain ⟨item, hitem, fits⟩ := Datum.FitsAll.getElem? (by simpa [Datum.Fits] using h) ht
      simpa [component, hitem] using fits
  | value v => simp [Datum.Fits] at h
  | object o => simp [Datum.Fits] at h

/-- The order of two constants where they have one; all else is of one rank. -/
def rank : Datum Obj → Datum Obj → Ordering
  | .value v, .value w => (Value.order? v w).getD .eq
  | _, _ => .eq

/-- A meaning that can be computed, for any meaning of fields: arithmetic without
a result gives zero, and what is no text matches no pattern. -/
def standard (field : FieldRef → Datum Obj → Datum Obj) : Operations Obj where
  field := field
  missing _ _ := .null
  call
    | .lower, [.text s] => .text s.toLower
    | .upper, [.text s] => .text s.toUpper
    | .trim, [.text s] => .text s
    | .length, [.text s] => .int (Int64.ofNat s.length)
    | .abs, [.int i] => .int (if i.toInt < 0 then -i else i)
    | _, _ => .int 0
  neg
    | .value v => .value (v.neg?.getD (.int 0))
    | _ => .int 0
  arith op
    | .value v, .value w => .value ((Value.arith? op v w).getD (.int 0))
    | _, _ => .int 0
  compare op a b := op.holds (rank a b)
  concat
    | .text l, .text r => .text (l ++ r)
    | _, _ => .text ""
  like
    | .text l, .text r => decide (Pattern.Matches r.toList l.toList)
    | _, _ => false
  neg_int i k h := by simp [Value.neg?, Value.word?_eq_some_iff.mpr h]
  arith_int op l r k h := by simp [Value.arith?, Value.arithWords?_eq_some_iff.mpr h]
  compare_int op l r := op.holds_compare_iff l.toInt r.toInt
  compare_text op l r := op.holds_compare_iff l r
  compare_bool op l r := op.holds_compare_iff l r
  compare_negate op a b := op.holds_negate (rank a b)
  concat_text _ _ := rfl

theorem isNumber_getD {result : Option Value}
    (h : ∀ v, result = some v → (.value v : Datum Obj).IsNumber) :
    (.value (result.getD (.int 0)) : Datum Obj).IsNumber := by
  cases result with
  | none => trivial
  | some v => exact h v rfl

theorem isNumber_of_neg? {v u : Value} (h : v.neg? = some u) : (.value u : Datum Obj).IsNumber := by
  cases v <;> simp only [Value.neg?, Option.map_eq_some_iff, Option.some.injEq, reduceCtorEq] at h
  case int i =>
    obtain ⟨k, -, rfl⟩ := h
    trivial
  case double x =>
    subst h
    trivial

theorem isNumber_of_arith? {op : ArithOp} {v w u : Value} (h : Value.arith? op v w = some u) :
    (.value u : Datum Obj).IsNumber := by
  cases v <;> cases w <;> simp only [Value.arith?, Option.map_eq_some_iff, reduceCtorEq] at h
  all_goals
    obtain ⟨k, -, rfl⟩ := h
    trivial

theorem respectsTypes_standard {field : FieldRef → Datum Obj → Datum Obj}
    (h : ∀ f d, Datum.Fits f.type (field f d)) : (standard field).RespectsTypes where
  field := h
  neg d _ := by
    cases d with
    | value v => exact isNumber_getD fun u hu => isNumber_of_neg? hu
    | _ => trivial
  arith op l r _ _ := by
    cases l <;> cases r
    case value.value v w => exact isNumber_getD fun u hu => isNumber_of_arith? hu
    all_goals trivial
  abs d _ := by
    simp only [standard]
    split <;> trivial
  sqrt _ _ := trivial
  length d := by
    simp only [standard]
    split <;> trivial

theorem readsPatterns_standard (field : FieldRef → Datum Obj → Datum Obj) :
    (standard field).ReadsPatterns := by
  intro text pattern
  simp [standard]

end Operations

structure Valuation (Obj : Type) where
  row : SourceId → Datum Obj
  element : ElementScope → Datum Obj
  param : Capture → Datum Obj

namespace Expr

section

variable {Obj : Type} (ops : Operations Obj) (ν : Valuation Obj)

mutual

/-- The value of an expression. Nested queries have none here; they evaluate to
null. -/
def eval : Expr → Datum Obj
  | constant v _ => .value v
  | param capture _ => ν.param capture
  | row source _ => ν.row source
  | element scope _ => ν.element scope
  | path base field _ => ops.field field (eval base)
  | component base index _ => ops.component index (eval base)
  | unary op operand _ => ops.unary op (eval operand)
  | binary op left right _ => ops.binary op (eval left) (eval right)
  | conditional test yes no _ => if ops.truth (eval test) then eval yes else eval no
  | tuple items _ => .tuple (evalAll items)
  | call fn args _ => ops.call fn (evalAll args)
  | aggregate .. | subQuery .. => .null

def evalAll : List Expr → List (Datum Obj)
  | [] => []
  | e :: es => eval e :: evalAll es

end

theorem evalAll_eq_map (es : List Expr) : evalAll ops ν es = es.map (eval ops ν) := by
  induction es with
  | nil => rfl
  | cons e es ih => simp [evalAll, ih]

/-- A type that a node carries has no influence on its value. -/
@[simp] theorem eval_withType (t : ValueType) (e : Expr) :
    (e.withType t).eval ops ν = e.eval ops ν := by
  cases e <;> simp [withType, eval]

mutual

/-- Operands of logic and tests are truth values, and so are both arms of a choice
of that type. -/
def WellTyped : Expr → Prop
  | constant .. | param .. | row .. | element .. | aggregate .. | subQuery .. => True
  | path base _ _ | component base _ _ => WellTyped base
  | unary .not operand _ => WellTyped operand ∧ (eval ops ν operand).IsBool
  | unary .neg operand _ => WellTyped operand
  | binary op left right _ => WellTyped left ∧ WellTyped right ∧
      (op.isLogical = true → (eval ops ν left).IsBool ∧ (eval ops ν right).IsBool)
  | conditional test yes no t => WellTyped test ∧ WellTyped yes ∧ WellTyped no ∧
      (eval ops ν test).IsBool ∧
      (t = .bool → (eval ops ν yes).IsBool ∧ (eval ops ν no).IsBool)
  | tuple items _ | call _ items _ => WellTypedAll items

def WellTypedAll : List Expr → Prop
  | [] => True
  | e :: es => WellTyped e ∧ WellTypedAll es

end

theorem wellTypedAll_iff {es : List Expr} :
    WellTypedAll ops ν es ↔ ∀ e ∈ es, e.WellTyped ops ν := by
  induction es with
  | nil => simp [WellTypedAll]
  | cons e es ih => simp [WellTypedAll, ih]

end

/-- Without nested queries and without floating constants. -/
def Elementary (e : Expr) : Prop :=
  e.Everywhere fun node => node.query? = none ∧ ∀ x t, node ≠ constant (.double x) t

end Expr

end StreamQuery
