import StreamQuery.Proofs.Arithmetic
import StreamQuery.Proofs.CompileRun
import StreamQuery.Proofs.Machine
import StreamQuery.Proofs.Rules

/-! # Arithmetic on whole constants, and what becomes of its quotients

Code that computes with whole constants alone is run on rational numbers, each
with its type. Numbers may be divided in two ways: exactly, where a floating
operand makes the quotient a fraction, or with every quotient cut toward zero.
Compiling follows the second way. An integer constant that comes out is the
value under it, whatever the types say, and so the exact value as long as no
fraction was cut off on the way.
-/

namespace StreamQuery

/-! ## Numbers with a type -/

def cut (x : ℚ) : ℤ := x.num.tdiv x.den

@[simp] theorem cut_intCast (i : ℤ) : cut i = i := by simp [cut]

theorem cut_div (a : ℤ) {b : ℤ} (h : b ≠ 0) : cut (a / b) = a.tdiv b := by
  have lowest : (a / b : ℚ) = Rat.divInt a b := (Rat.divInt_eq_div a b).symm
  obtain ⟨c, ha, hb⟩ := Rat.num_den_mk h lowest
  generalize (a / b : ℚ) = x at ha hb ⊢
  rw [ha, hb, cut]
  rcases lt_trichotomy c 0 with negative | rfl | positive
  · have opposite : c * x.num = -(-c * x.num) ∧ c * x.den = -(-c * x.den) := by constructor <;> ring
    rw [opposite.1, opposite.2, Int.neg_tdiv, Int.tdiv_neg, neg_neg,
      Int.mul_tdiv_mul_of_pos _ _ (by omega)]
  · simp at hb
    exact absurd hb h
  · rw [Int.mul_tdiv_mul_of_pos _ _ positive]

/-- A typed number. It has no value after a division by zero. -/
structure Number where
  type : ValueType
  value : Option ℚ

abbrev Division := ValueType → ValueType → ℚ → ℚ → ℚ

/-- A floating operand makes the quotient a fraction. -/
def Division.exact : Division := fun l r x y =>
  if l = .double ∨ r = .double then x / y else cut (x / y)

def Division.cutting : Division := fun _ _ x y => cut (x / y)

namespace Number

def neg (n : Number) : Number := ⟨n.type, n.value.map (- ·)⟩

/-- A floating number that becomes a whole one is cut. -/
def convert (n : Number) (t : ValueType) : Number :=
  ⟨t, n.value.map fun x => if n.type = .double ∧ t ≠ .double then (cut x : ℚ) else x⟩

def arith (division : Division) (op : ArithOp) (l r : Number) : Number where
  type := (l.type.widen r.type).getD l.type
  value := do
    let x ← l.value
    let y ← r.value
    match op with
    | .add => some (x + y)
    | .sub => some (x - y)
    | .mul => some (x * y)
    | .div => if y = 0 then none else some (division l.type r.type x y)
    | .rem => if y = 0 then none else some (x - y * cut (x / y))

end Number

/-! ## Calculations -/

namespace Instruction

def conversion? : Instruction → Option ValueType
  | convert t => some t
  | invoke method => method.conversion?
  | _ => none

/-- Whole constants, conversions between numbers, negation and arithmetic. -/
def isCalculation : Instruction → Bool
  | const (.int _) | neg | arith _ => true
  | other => other.conversion?.any ValueType.isNumeric

def calculate (division : Division) (stack : List Number) (instruction : Instruction) :
    Option (List Number) :=
  match instruction, stack with
  | const (.int i), _ => some (⟨.int, some i.toInt⟩ :: stack)
  | neg, n :: rest => some (n.neg :: rest)
  | arith op, r :: l :: rest => some (l.arith division op r :: rest)
  | other, n :: rest => other.conversion?.map fun t => n.convert t :: rest
  | _, [] => none

/-- Whether the instruction cuts no fraction off that its types ask for. -/
def comesOut (stack : List Number) (instruction : Instruction) : Bool :=
  match instruction, stack with
  | arith .div, ⟨r, some y⟩ :: ⟨l, some x⟩ :: _ =>
    (decide (l ≠ .double) && decide (r ≠ .double)) || (x / y).isInt
  | _, _ => true

end Instruction

def calculate (division : Division) (code : List Instruction) (stack : List Number) :
    Option (List Number) :=
  code.foldlM (Instruction.calculate division) stack

def calculated (division : Division) (code : List Instruction) : Option ℚ := do
  let top ← (← calculate division code []).head?
  top.value

def comesOut : List Instruction → List Number → Bool
  | [], _ => true
  | instruction :: rest, stack =>
    instruction.comesOut stack &&
      (instruction.calculate .exact stack).all fun next => comesOut rest next

/-! ## Where both ways of dividing agree -/

theorem exact_eq_cutting {l r : ValueType} {x y : ℚ}
    (h : (l ≠ .double ∧ r ≠ .double) ∨ (x / y).isInt = true) :
    Division.exact l r x y = Division.cutting l r x y := by
  unfold Division.exact Division.cutting
  split
  next floating =>
    have whole : (x / y).isInt = true := h.resolve_left (by tauto)
    rw [Rat.isInt, beq_iff_eq, Rat.den_eq_one_iff] at whole
    rw [← whole, cut_intCast]
  next => rfl

theorem Number.arith_exact {op : ArithOp} {l r : Number} {rest : List Number}
    (h : (Instruction.arith op).comesOut (r :: l :: rest) = true) :
    l.arith .exact op r = l.arith .cutting op r := by
  obtain ⟨tl, x⟩ := l
  obtain ⟨tr, y⟩ := r
  -- Only a quotient of two values tells the two ways apart.
  cases op <;> try rfl
  cases x <;> cases y <;> try rfl
  next x y =>
    simp only [Instruction.comesOut, Bool.or_eq_true, Bool.and_eq_true, decide_eq_true_eq] at h
    simp [Number.arith, exact_eq_cutting h]

theorem Instruction.calculate_exact {instruction : Instruction} {stack : List Number}
    (h : instruction.comesOut stack = true) :
    instruction.calculate .exact stack = instruction.calculate .cutting stack := by
  unfold Instruction.calculate
  split <;> try rfl
  rw [Number.arith_exact h]

theorem calculate_exact {code : List Instruction} {stack : List Number}
    (h : comesOut code stack = true) :
    calculate .exact code stack = calculate .cutting code stack := by
  induction code generalizing stack with
  | nil => rfl
  | cons instruction rest ih =>
      simp only [comesOut, Bool.and_eq_true] at h
      have first := Instruction.calculate_exact h.1
      simp only [calculate, List.foldlM_cons] at ih ⊢
      rw [first] at h ⊢
      cases done : instruction.calculate .cutting stack with
      | none => rfl
      | some next => exact ih (by simpa [done] using h.2)

/-! ## Expressions that stand for numbers -/

namespace Expr

/-- The number that an expression over whole constants stands for when every
quotient is cut. A node may have been given any numeric type. -/
inductive Denotes : Expr → Number → Prop where
  | constant (i : Int64) {t : ValueType} : t.isNumeric = true →
      Denotes (.constant (.int i) t) ⟨t, some i.toInt⟩
  | neg {e : Expr} {n : Number} {t : ValueType} : Denotes e n → t.isNumeric = true →
      Denotes (.unary .neg e t) ⟨t, n.neg.value⟩
  | arith {op : ArithOp} {left right : Expr} {l r : Number} {t : ValueType} : Denotes left l →
      Denotes right r → t.isNumeric = true →
      Denotes (.binary (.arith op) left right t) ⟨t, (l.arith .cutting op r).value⟩

namespace Denotes

theorem type_eq {e : Expr} {n : Number} (h : e.Denotes n) :
    e.type = n.type ∧ n.type.isNumeric = true := by
  cases h with
  | constant i numeric => exact ⟨rfl, numeric⟩
  | neg _ numeric => exact ⟨rfl, numeric⟩
  | arith _ _ numeric => exact ⟨rfl, numeric⟩

theorem withType {e : Expr} {n : Number} (h : e.Denotes n) {t : ValueType}
    (numeric : t.isNumeric = true) : (e.withType t).Denotes ⟨t, n.value⟩ := by
  cases h with
  | constant i _ => exact .constant i numeric
  | neg inner _ => exact .neg inner numeric
  | arith left right _ => exact .arith left right numeric

/-- Where quotients are cut, every value is whole. -/
theorem exists_int {e : Expr} {n : Number} (h : e.Denotes n) {x : ℚ} (value : n.value = some x) :
    ∃ i : ℤ, x = i := by
  induction h generalizing x with
  | constant i _ => exact ⟨i.toInt, (Option.some.inj value).symm⟩
  | neg _ _ ih =>
      obtain ⟨y, hy, rfl⟩ := Option.map_eq_some_iff.mp value
      obtain ⟨i, rfl⟩ := ih hy
      exact ⟨-i, (Int.cast_neg i).symm⟩
  | @arith op _ _ l r _ _ _ _ ihl ihr =>
      obtain ⟨y, hy, z, hz, value⟩ :
          ∃ y, l.value = some y ∧ ∃ z, r.value = some z ∧ _ = some x := by
        simpa [Number.arith, Option.bind_eq_some_iff] using value
      obtain ⟨i, rfl⟩ := ihl hy
      obtain ⟨j, rfl⟩ := ihr hz
      cases op with
      | add => exact ⟨i + j, by simpa using value.symm⟩
      | sub => exact ⟨i - j, by simpa using value.symm⟩
      | mul => exact ⟨i * j, by simpa using value.symm⟩
      | div => exact ⟨cut (i / j), by simp_all [Division.cutting]⟩
      | rem => exact ⟨i - j * cut (i / j), by simp_all⟩

/-- So a conversion changes the type alone. -/
theorem convert {e : Expr} {n : Number} (h : e.Denotes n) {t : ValueType}
    (numeric : t.isNumeric = true) : (e.withType t).Denotes (n.convert t) := by
  have same : n.convert t = ⟨t, n.value⟩ := by
    cases value : n.value with
    | none => simp [Number.convert, value]
    | some x =>
        obtain ⟨i, rfl⟩ := h.exists_int value
        simp [Number.convert, value]
  rw [same]
  exact h.withType numeric

end Denotes

theorem simplify_eq_finished (e : Expr) : e.simplify = shallow.finished (shallow.rebuild e) :=
  Pass.result_eq_finished rfl

theorem asConstant_simplify_neg (e : Expr) (t : ValueType) :
    (unary .neg e t).simplify.asConstant = e.simplify.asConstant.bind Value.neg? := by
  rw [simplify_eq_finished, Pass.rebuild_unary]
  change (((e.simplify.asConstant.bind Value.neg?).map (constant · t)).getD
    (unary .neg e.simplify t)).asConstant = _
  cases e.simplify.asConstant.bind Value.neg? <;> rfl

theorem asConstant_simplify_arith (op : ArithOp) (left right : Expr) (t : ValueType) :
    (binary (.arith op) left right t).simplify.asConstant =
      left.simplify.asConstant.bind fun v => right.simplify.asConstant.bind (Value.arith? op v) := by
  rw [simplify_eq_finished, Pass.rebuild_binary]
  change ((arith? op left.simplify right.simplify t).getD
    (binary (.arith op) left.simplify right.simplify t)).asConstant = _
  unfold arith?
  cases left.simplify.asConstant with
  | none => rfl
  | some v =>
      cases right.simplify.asConstant with
      | none => rfl
      | some w => cases h : Value.arith? op v w <;> simp [h, asConstant]

theorem asConstant_simplify_compare {op : CompareOp} {left right : Expr} {v : Value}
    (h : (compare op left right).simplify.asConstant = some v) : ∃ b, v = .bool b := by
  rw [compare, apply, simplify_eq_finished, Pass.rebuild_binary] at h
  change ((compare? op left.simplify right.simplify).getD
    (binary (.compare op) left.simplify right.simplify .bool)).asConstant = some v at h
  cases decided : compare? op left.simplify right.simplify with
  | none => simp [decided, asConstant] at h
  | some e =>
      obtain ⟨_, -, _, -, order, -, rfl⟩ :
          ∃ a, _ ∧ ∃ b, _ ∧ ∃ order, _ ∧ bool (op.holds order) = e := by
        simpa [compare?, Option.bind_eq_some_iff] using decided
      rw [decided] at h
      exact ⟨op.holds order, (Option.some.inj h).symm⟩

/-- What words give exactly, numbers give with quotients cut. -/
theorem value_arith_of_gives {op : ArithOp} {l r : Number} {a b c : ℤ} (hl : l.value = some (a : ℚ))
    (hr : r.value = some (b : ℚ)) (gives : op.Gives a b c) :
    (l.arith .cutting op r).value = some (c : ℚ) := by
  cases op with
  | add => simp [Number.arith, hl, hr, show c = a + b from gives]
  | sub => simp [Number.arith, hl, hr, show c = a - b from gives]
  | mul => simp [Number.arith, hl, hr, show c = a * b from gives]
  | div =>
      obtain ⟨nonzero, rfl⟩ := gives
      simp [Number.arith, hl, hr, nonzero, Division.cutting, cut_div a nonzero]
  | rem =>
      obtain ⟨nonzero, -, rfl⟩ := gives
      simp [Number.arith, hl, hr, nonzero, cut_div a nonzero, Int.tmod_def]

/-- A constant that comes out is the number that was written. -/
theorem Denotes.asConstant_simplify {e : Expr} {n : Number} (h : e.Denotes n) {v : Value}
    (folded : e.simplify.asConstant = some v) : ∃ i, v = .int i ∧ n.value = some (i.toInt : ℚ) := by
  induction h generalizing v with
  | constant i _ =>
      obtain rfl : Value.int i = v := Option.some.inj folded
      exact ⟨i, rfl, rfl⟩
  | neg _ _ ih =>
      rw [asConstant_simplify_neg, Option.bind_eq_some_iff] at folded
      obtain ⟨w, inner, negated⟩ := folded
      obtain ⟨i, rfl, value⟩ := ih inner
      obtain ⟨k, hk, rfl⟩ := Option.map_eq_some_iff.mp negated
      exact ⟨k, rfl, by simp [Number.neg, value, Value.word?_eq_some_iff.mp hk]⟩
  | arith _ _ _ ihl ihr =>
      simp only [asConstant_simplify_arith, Option.bind_eq_some_iff] at folded
      obtain ⟨u, hu, w, hw, computed⟩ := folded
      obtain ⟨i, rfl, hi⟩ := ihl hu
      obtain ⟨j, rfl, hj⟩ := ihr hw
      obtain ⟨k, hk, rfl⟩ := Option.map_eq_some_iff.mp computed
      exact ⟨k, rfl, value_arith_of_gives hi hj (Value.arithWords?_eq_some_iff.mp hk)⟩

end Expr

/-! ## Compiling a calculation -/

namespace Compile

/-- A call that boxes is none on a stream or a tuple, and takes one value. -/
theorem boxing?_eq_some {method : Method} {t : ValueType} (h : boxing? method = some t) :
    tupleGetter? method = none ∧ method.owner ≠ "JinqStream" ∧ method.arity = 1 := by
  obtain ⟨boxed, owner, named⟩ := Option.bind_eq_some_iff.mp h
  have owners : method.owner ∈ ["Integer", "Long", "Double", "Boolean"] := by
    unfold boxedType? at owner
    split at owner <;> simp_all
  have foreign : method.owner ∉ tupleOwners ∧ method.owner ≠ "JinqStream" := by
    generalize method.owner = name at owners
    revert name
    decide
  refine ⟨by simp [tupleGetter?, foreign.1], foreign.2, ?_⟩
  split at named <;> simp_all [Method.arity]

section Calculation

variable {env : Environment} {body : Body} {head : BinderId} {nested : Nested body} {pc : Nat}
  {frame frame' : Frame body.Makes} {stack : List Number} {work work' : Work}

def Denote (frame : Frame body.Makes) (stack : List Number) : Prop :=
  List.Forall₂ (fun operand n => ∃ e, operand = .value e ∧ e.Denotes n) frame.stack stack

theorem Denote.empty : Denote (.empty : Frame body.Makes) [] := .nil

theorem Denote.pop {e : Expr} (h : Denote frame stack)
    (top : frame.stack = .value e :: frame'.stack) :
    ∃ n rest, stack = n :: rest ∧ e.Denotes n ∧ Denote frame' rest := by
  unfold Denote at h
  rw [top, List.forall₂_cons_left_iff] at h
  obtain ⟨n, rest, ⟨x, same, denotes⟩, below, rfl⟩ := h
  cases same
  exact ⟨n, rest, rfl, denotes, below⟩

theorem Denote.push {e : Expr} {n : Number} (h : Denote frame stack) (denotes : e.Denotes n) :
    Denote (frame.pushValue e) (n :: stack) :=
  .cons ⟨e, rfl, denotes⟩ h

theorem denotes_arith {op : ArithOp} {left right e : Expr} {l r : Number} (hl : left.Denotes l)
    (hr : right.Denotes r) (h : arith op left right = .ok e) :
    e.Denotes (l.arith .cutting op r) := by
  unfold arith at h
  split at h
  · cases h
    rw [Expr.apply, hl.type_eq.1, hr.type_eq.1]
    exact .arith hl hr (ValueType.isNumeric_widen hl.type_eq.2)
  · cases h

theorem denotes_negation {operand e : Expr} {n : Number} (hn : operand.Denotes n)
    (h : negation operand = .ok e) : e.Denotes n.neg := by
  unfold negation at h
  split at h
  · cases h
    rw [Expr.neg, hn.type_eq.1]
    exact .neg hn hn.type_eq.2
  · cases h

theorem denotes_convert {operand e : Expr} {n : Number} {t : ValueType}
    (hn : operand.Denotes n) (numeric : t.isNumeric = true) (h : convert operand t = .ok e) :
    e.Denotes (n.convert t) := by
  unfold convert at h
  split at h
  · cases h
    exact hn.convert numeric
  · cases h

/-- A conversion that is written as a call takes its one operand from the stack too. -/
theorem invoke_boxing {method : Method} {t : ValueType} (boxing : boxing? method = some t)
    {operands : List (Operand body.Makes)} {e : Expr}
    (h : invoke body.id pc env.schema nested method operands work = .ok e work') (one : operands.length = 1) :
    ∃ operand, operands = [.value operand] ∧ convert operand t = .ok e := by
  obtain ⟨getter, owner, -⟩ := boxing?_eq_some boxing
  obtain ⟨values, rfl, called⟩ := invoke_eq_ok owner h
  obtain ⟨operand, rfl⟩ : ∃ operand, values = [operand] :=
    List.length_eq_one_iff.mp (by simpa using one)
  refine ⟨operand, rfl, ?_⟩
  simp only [valueCall, getter, boxing, mapError_eq_ok, map_eq_ok] at called
  rcases called with ⟨⟨x, made, same⟩, -⟩ | ⟨entity, ⟨x, -, same⟩, -⟩
  · cases same
    exact made
  · cases same

/-- One instruction of a calculation, compiled and calculated side by side. -/
theorem step_calculation {instruction : Instruction} {written : instruction ∈ body.code}
    {flow : Flow body.Makes} (calculation : instruction.isCalculation = true)
    (denote : Denote frame stack)
    (h : step env (nested.handles head) pc instruction written frame work = .ok flow work') :
    ∃ frame' stack', flow = .next frame' ∧
      instruction.calculate .cutting stack = some stack' ∧ Denote frame' stack' := by
  cases step_eq_ok h with
  | const value =>
      obtain ⟨i, rfl⟩ : ∃ i, value = .int i := by
        cases value <;> simp_all [Instruction.isCalculation, Instruction.conversion?]
      exact ⟨_, _, rfl, rfl, denote.push (.constant i rfl)⟩
  | neg top _ made =>
      obtain ⟨n, rest, rfl, denotes, below⟩ := denote.pop top
      exact ⟨_, _, rfl, rfl, below.push (denotes_negation denotes made)⟩
  | @arith _ left _ _ under top _ made =>
      let second : Frame body.Makes := ⟨.value left :: under.stack, frame.locals⟩
      obtain ⟨r, _, rfl, hr, deeper⟩ := denote.pop (show _ = _ :: second.stack from top)
      obtain ⟨l, rest, rfl, hl, below⟩ := deeper.pop (show second.stack = _ :: under.stack from rfl)
      exact ⟨_, _, rfl, rfl, below.push (denotes_arith hl hr made)⟩
  | convert top _ made =>
      obtain ⟨n, rest, rfl, denotes, below⟩ := denote.pop top
      exact ⟨_, _, rfl, rfl, below.push (denotes_convert denotes calculation made)⟩
  | @invoke method _ _ enough invoked =>
      obtain ⟨t, boxing, numeric⟩ : ∃ t, boxing? method = some t ∧ t.isNumeric = true := by
        simpa [Instruction.isCalculation, Instruction.conversion?, conversion?_eq,
          Option.any_eq_true] using calculation
      obtain ⟨-, -, one⟩ := boxing?_eq_some boxing
      obtain ⟨operand, taken, made⟩ := invoke_boxing boxing invoked (by simp; omega)
      rw [one] at taken enough ⊢
      let below : Frame body.Makes := { frame with stack := frame.stack.drop 1 }
      have top : frame.stack = .value operand :: below.stack := by
        rw [← List.take_append_drop 1 frame.stack, List.reverse_eq_iff.mp taken]
        rfl
      obtain ⟨n, rest, rfl, denotes, below⟩ := denote.pop top
      refine ⟨_, _, rfl, ?_, below.push (denotes_convert denotes numeric made)⟩
      simp [Instruction.calculate, Instruction.conversion?, conversion?_eq, boxing]
  | _ => simp [Instruction.isCalculation, Instruction.conversion?] at calculation

/-- A run of a calculation returns the expression on top of its stack. -/
theorem run_calculation (before : List Instruction) {steps : List Instruction} {e : Expr}
    (code : body.code = before ++ steps ++ [.ret])
    (calculation : ∀ instruction ∈ steps, instruction.isCalculation = true)
    (denote : Denote frame stack)
    (h : run env (nested.handles head) before.length frame work = .ok e work') :
    ∃ top n rest, calculate .cutting steps stack = some (n :: rest) ∧ top.Denotes n ∧
      coerceReturn body.returns top = .ok e := by
  induction steps generalizing before frame stack work with
  | nil =>
      obtain ⟨instruction, fetched, flow, between, stepped, continues⟩ := run_eq_ok h
      obtain rfl : instruction = .ret := by simpa [code] using fetched.symm
      cases step_eq_ok stepped with
      | @ret top _ _ onTop _ coerced =>
          obtain ⟨n, rest, rfl, denotes, -⟩ := denote.pop onTop
          obtain ⟨rfl, -⟩ := continues
          exact ⟨top, n, rest, rfl, denotes, coerced⟩
  | cons instruction steps ih =>
      obtain ⟨found, fetched, flow, between, stepped, continues⟩ := run_eq_ok h
      obtain rfl : found = instruction := by simpa [code] using fetched.symm
      obtain ⟨frame', stack', rfl, first, denote'⟩ :=
        step_calculation (calculation found List.mem_cons_self) denote stepped
      have shifted : body.code = (before ++ [found]) ++ steps ++ [.ret] := by simp [code]
      have ran : run env (nested.handles head) (before ++ [found]).length frame' between = .ok e work' := by
        rw [List.length_append]
        exact continues
      obtain ⟨top, n, rest, after, result⟩ :=
        ih _ shifted (fun i hi => calculation i (List.mem_cons_of_mem _ hi)) denote' ran
      refine ⟨top, n, rest, ?_, result⟩
      rw [calculate, List.foldlM_cons, first]
      exact after

/-- A truth value is no integer, so a result that folds to one was returned as it is. -/
theorem coerceReturn_of_int {returns : ValueType} {top e : Expr} {v : Int64} {t : ValueType}
    (numeric : top.type.isNumeric = true) (coerced : coerceReturn returns top = .ok e)
    (folded : e.simplify = .constant (.int v) t) : top = e := by
  have differs (b : Bool) : e.simplify.asConstant ≠ some (.bool b) := by
    simp [folded, Expr.asConstant]
  simp only [coerceReturn, numeric, if_true] at coerced
  split at coerced
  · exact Except.ok.inj coerced
  · split at coerced
    · cases coerced
      exact absurd rfl (differs false)
    · split at coerced
      · cases coerced
        exact absurd rfl (differs true)
      · cases coerced
        obtain ⟨b, same⟩ := Expr.asConstant_simplify_compare (v := .int v) (by rw [folded]; rfl)
        cases same

end Calculation

end Compile

/-- An integer constant that a calculation compiles to is its value with every quotient cut
toward zero, and its exact value where nothing had to be cut off a floating quotient. -/
theorem Closure.compile_calculation {closure : Closure} {env : Compile.Environment} {chain : Chain}
    {head : BinderId} {supply : Compile.Supply} {steps : List Instruction} {v : Int64}
    {t : ValueType} (code : closure.body.code = steps ++ [.ret])
    (calculation : ∀ instruction ∈ steps, instruction.isCalculation = true)
    (compiled : (closure.compile env chain head supply).outcome = .ok (.constant (.int v) t)) :
    calculated .cutting steps = some (v.toInt : ℚ) ∧
      (comesOut steps [] = true → calculated .exact steps = some (v.toInt : ℚ)) := by
  obtain ⟨after, body, -⟩ := Closure.compile_eq_ok.mp ⟨compiled, rfl⟩
  obtain ⟨result, between, ran, simplified, -⟩ := Compile.compileBody_eq_ok body
  obtain ⟨top, n, rest, stack, denotes, coerced⟩ :=
    Compile.run_calculation [] code calculation .empty ran
  obtain ⟨typed, numeric⟩ := denotes.type_eq
  obtain rfl := Compile.coerceReturn_of_int (typed ▸ numeric) coerced simplified
  obtain ⟨i, same, value⟩ :=
    denotes.asConstant_simplify (v := .int v) (by rw [simplified]; rfl)
  cases same
  have ended : calculated .cutting steps = some (v.toInt : ℚ) := by
    simp [calculated, stack, value]
  refine ⟨ended, fun comes => ?_⟩
  rw [calculated, calculate_exact comes]
  exact ended

def Closure.ofCalculation (returns : ValueType) (steps : List Instruction) : Closure :=
  ⟨⟨1, [.entity "Customer"], [], returns, steps ++ [.ret]⟩, []⟩

/-- `9.0 / 3` as a whole number, and what is left of it modulo `-2`. -/
def remainderOfThird : List Instruction :=
  [.const (.int 9), .convert .double, .const (.int 3), .arith .div,
    .invoke ⟨"Double", "intValue", 0, false⟩, .const (.int 2), .neg, .arith .rem]

theorem compile_calculation_remainderOfThird :
    let closure := Closure.ofCalculation .int remainderOfThird
    (∀ instruction ∈ remainderOfThird, instruction.isCalculation = true) ∧
      (closure.compile ⟨⟨fun _ _ => none, fun _ => false⟩, {}⟩
        (Compile.elementChain closure (.entity "Customer")) 1 ⟨1, 0⟩).outcome =
          .ok (.constant (.int 1) .int) ∧
      comesOut remainderOfThird [] = true ∧ calculated .exact remainderOfThird = some 1 := by
  intro closure
  have calculation : ∀ instruction ∈ remainderOfThird, instruction.isCalculation = true := by decide
  have compiled : (closure.compile ⟨⟨fun _ _ => none, fun _ => false⟩, {}⟩
      (Compile.elementChain closure (.entity "Customer")) 1 ⟨1, 0⟩).outcome =
        .ok (.constant (.int 1) .int) := by
    decide +kernel
  have comes : comesOut remainderOfThird [] = true := by decide +kernel
  exact ⟨calculation, compiled, comes,
    (Closure.compile_calculation rfl calculation compiled).2 comes⟩

/-- `7.0 / 2 * 2` as a whole number. -/
def twiceTheHalf : List Instruction :=
  [.const (.int 7), .convert .double, .const (.int 2), .arith .div, .const (.int 2), .arith .mul,
    .convert .int]

/-- The half of seven loses its fraction, although it is taken of a floating number. -/
theorem compile_twiceTheHalf :
    let closure := Closure.ofCalculation .int twiceTheHalf
    (∀ instruction ∈ twiceTheHalf, instruction.isCalculation = true) ∧
      (closure.compile ⟨⟨fun _ _ => none, fun _ => false⟩, {}⟩
        (Compile.elementChain closure (.entity "Customer")) 1 ⟨1, 0⟩).outcome =
          .ok (.constant (.int 6) .int) ∧
      calculated .exact twiceTheHalf = some 7 := by
  decide +kernel

end StreamQuery
