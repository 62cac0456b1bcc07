import StreamQuery.Proofs.Evaluation

/-! # The operand-stack machine

Code run on values. The machine has an operand stack and locals, reads its row
and its captured cells, and follows the one side of a branch that the test
selects. Operators and fields mean what they mean in expressions. Calls are told
apart by their names and have a meaning of their own: which component a getter
reads, what boxing leaves as it is, and what a search finds in a text.
-/

namespace StreamQuery

/-! ## Calls that are known by name -/

namespace Method

def conversion? : Method → Option ValueType
  | ⟨"Integer", "valueOf", 1, true⟩ => some .int
  | ⟨"Long", "valueOf", 1, true⟩ => some .long
  | ⟨"Double", "valueOf", 1, true⟩ => some .double
  | ⟨"Boolean", "valueOf", 1, true⟩ => some .bool
  | ⟨owner, name, 0, false⟩ =>
    if owner ∈ ["Integer", "Long", "Double", "Boolean"] then
      match name with
      | "intValue" => some .int
      | "longValue" => some .long
      | "doubleValue" => some .double
      | "booleanValue" => some .bool
      | _ => none
    else none
  | _ => none

/-- The component that a getter of a tuple reads, counted in words by its name. -/
def component? : Method → Option Nat
  | ⟨owner, name, 0, false⟩ =>
    if owner ∈ ["Pair", "Tuple3", "Tuple4", "Tuple5"] then
      match name with
      | "getOne" => some 0
      | "getTwo" => some 1
      | "getThree" => some 2
      | "getFour" => some 3
      | "getFive" => some 4
      | _ => none
    else none
  | _ => none

end Method

namespace Compile

theorem component?_eq (method : Method) : method.component? = tupleGetter? method := by
  obtain ⟨owner, name, argc, isStatic⟩ := method
  unfold Method.component? tupleGetter?
  split
  · next same =>
      cases same
      by_cases known : owner ∈ ["Pair", "Tuple3", "Tuple4", "Tuple5"]
      · have listed : tupleOwners.contains owner = true := List.contains_iff_mem.mpr known
        rw [if_pos known]
        simp only [Bool.false_or, bne_self_eq_false, listed, Bool.not_true, Bool.false_eq_true,
          if_false]
        split
        case h_6 => simp_all [tupleGetters, List.findIdx?_cons, @eq_comm _ _ name]
        all_goals rfl
      · have missing : tupleOwners.contains owner = false := by simpa [tupleOwners] using known
        rw [if_neg known, missing]
        rfl
  · next other => cases isStatic <;> cases argc <;> simp_all

theorem conversion?_eq (method : Method) : method.conversion? = boxing? method := by
  obtain ⟨owner, name, argc, isStatic⟩ := method
  unfold Method.conversion? boxing?
  split
  case h_5 same =>
    cases same
    by_cases known : owner ∈ ["Integer", "Long", "Double", "Boolean"]
    · have boxed : (boxedType? owner).isSome = true := by
        simp only [List.mem_cons, List.not_mem_nil, or_false] at known
        rcases known with rfl | rfl | rfl | rfl <;> rfl
      obtain ⟨type, found⟩ := Option.isSome_iff_exists.mp boxed
      rw [if_pos known]
      simp only [found, Option.bind_eq_bind, Option.bind_some]
      split <;> simp_all
    · have missing : boxedType? owner = none := by
        unfold boxedType?
        split <;> simp_all
      rw [if_neg known, missing]
      rfl
  case h_6 other others =>
    cases found : boxedType? owner with
    | none => rfl
    | some type =>
        simp only [Option.bind_eq_bind, Option.bind_some]
        split <;> simp_all [boxedType?]
  all_goals
    next same =>
      cases same
      rfl

end Compile

/-! ## The machine -/

structure Machine (Obj : Type) where
  ops : Operations Obj
  schema : Schema
  closure : Closure
  row : Datum Obj
  cells : Cell → Datum Obj

namespace Machine

variable {Obj : Type}

/-- Position in the code, operand stack with its top first, and assigned locals,
the latest first. -/
structure State (Obj : Type) where
  pc : Nat
  stack : List (Datum Obj)
  locals : List (Nat × Datum Obj)

namespace State

def start : State Obj := ⟨0, [], []⟩

def next (s : State Obj) (stack : List (Datum Obj)) : State Obj := ⟨s.pc + 1, stack, s.locals⟩

end State

variable (m : Machine Obj)

/-! ## Calls -/

def entityCall (method : Method) (values : List (Datum Obj)) : Option (Datum Obj) :=
  match method.name, values with
  | "equals", [left, right] => some (.bool (m.ops.compare .eq left right))
  | accessor, [receiver] =>
    (m.schema.field? method.owner accessor).map fun field => m.ops.field field receiver
  | _, _ => none

/-- A search for a literal. What a text starts with, ends with or contains, its
characters tell. What is no text is searched with a pattern. -/
def search (search : Search) : Datum Obj → Datum Obj → Option (Datum Obj)
  | .text text, .text literal => some (.bool (decide (search.Finds literal text)))
  | d, .text literal => some (.bool (m.ops.like d (.text (search.pattern literal))))
  | _, _ => none

def libraryCall (method : Method) (values : List (Datum Obj)) : Option (Datum Obj) :=
  match method.owner, method.name, method.isStatic, values with
  | "String", "concat", false, [left, right] => some (m.ops.concat left right)
  | "String", "toLowerCase", false, [text] => some (m.ops.call .lower [text])
  | "String", "toUpperCase", false, [text] => some (m.ops.call .upper [text])
  | "String", "trim", false, [text] => some (m.ops.call .trim [text])
  | "String", "length", false, [text] => some (m.ops.call .length [text])
  | "String", "startsWith", false, [text, searched] => m.search .startsWith text searched
  | "String", "endsWith", false, [text, searched] => m.search .endsWith text searched
  | "String", "contains", false, [text, searched] => m.search .contains text searched
  | "Math", "abs", true, [value] => some (m.ops.call .abs [value])
  | "Math", "sqrt", true, [value] => some (m.ops.call .sqrt [value])
  | owner, "equals", false, [left, right] =>
    if owner ∈ ["String", "Object", "Integer", "Long", "Double", "Boolean"] then
      some (.bool (m.ops.compare .eq left right))
    else none
  | _, _, _, _ => none

/-- A call on values. Boxing and unboxing leave a value as it is. -/
def call (method : Method) (values : List (Datum Obj)) : Option (Datum Obj) :=
  match method.component?, method.conversion?, values with
  | some index, _, [tuple] => some (m.ops.component index tuple)
  | some _, _, _ => none
  | none, some _, [value] => some value
  | none, _, _ =>
    if !method.isStatic && m.schema.isEntity method.owner then m.entityCall method values
    else m.libraryCall method values

/-! ## Instructions -/

/-- A parameter: a stream source is a marker, the first of the others is the row. -/
def param (index : Nat) : Option (Datum Obj) :=
  match m.closure.body.params[index]?, index with
  | some .streamSource, _ => some .null
  | some _, 0 => some m.row
  | _, _ => none

def capture (slot : Nat) : Option (Datum Obj) := m.closure.captured[slot]?.map m.cells

def zeroTest (op : CompareOp) : Datum Obj → Bool
  | .bool b => m.ops.compare op (.bool b) (.bool false)
  | d => m.ops.compare op d (.int 0)

inductive Outcome (Obj : Type) where
  | running (s : State Obj)
  | returned (d : Datum Obj)

/-- One instruction; none where it cannot go on. Conversions leave a value as it
is. -/
def exec (s : State Obj) : Instruction → Option (Outcome Obj)
  | .const value => some (.running (s.next (.value value :: s.stack)))
  | .loadParam index => (m.param index).map fun d => .running (s.next (d :: s.stack))
  | .loadCapture slot => (m.capture slot).map fun d => .running (s.next (d :: s.stack))
  | .load slot => (s.locals.lookup slot).map fun d => .running (s.next (d :: s.stack))
  | .store slot =>
    match s.stack with
    | d :: rest => some (.running ⟨s.pc + 1, rest, (slot, d) :: s.locals⟩)
    | [] => none
  | .dup =>
    match s.stack with
    | d :: rest => some (.running (s.next (d :: d :: rest)))
    | [] => none
  | .pop =>
    match s.stack with
    | _ :: rest => some (.running (s.next rest))
    | [] => none
  | .invoke method =>
    if method.arity ≤ s.stack.length then
      (m.call method (s.stack.take method.arity).reverse).map fun d =>
        .running (s.next (d :: s.stack.drop method.arity))
    else none
  | .newTuple arity =>
    if arity ≤ s.stack.length then
      some (.running (s.next (.tuple (s.stack.take arity).reverse :: s.stack.drop arity)))
    else none
  | .makeClosure _ _ => none
  | .arith op =>
    match s.stack with
    | right :: left :: rest => some (.running (s.next (m.ops.arith op left right :: rest)))
    | _ => none
  | .neg =>
    match s.stack with
    | d :: rest => some (.running (s.next (m.ops.neg d :: rest)))
    | [] => none
  | .compare op =>
    match s.stack with
    | right :: left :: rest => some (.running (s.next (.bool (m.ops.compare op left right) :: rest)))
    | _ => none
  | .convert _ =>
    match s.stack with
    | _ :: _ => some (.running (s.next s.stack))
    | [] => none
  | .ifZero op target =>
    match s.stack with
    | d :: rest =>
      some (.running ⟨if m.zeroTest op d then target else s.pc + 1, rest, s.locals⟩)
    | [] => none
  | .ifCompare op target =>
    match s.stack with
    | right :: left :: rest =>
      some (.running ⟨if m.ops.compare op left right then target else s.pc + 1, rest, s.locals⟩)
    | _ => none
  | .goto target => some (.running ⟨target, s.stack, s.locals⟩)
  | .ret =>
    match s.stack with
    | d :: _ => some (.returned d)
    | [] => none

def step (s : State Obj) : Option (Outcome Obj) :=
  m.closure.body.code[s.pc]?.bind (m.exec s)

/-! ## Runs -/

inductive Returns : State Obj → Datum Obj → Prop where
  | ret {s : State Obj} {d : Datum Obj} : m.step s = some (.returned d) → Returns s d
  | step {s s' : State Obj} {d : Datum Obj} :
      m.step s = some (.running s') → Returns s' d → Returns s d

theorem Returns.unique {m : Machine Obj} {s : State Obj} {d d' : Datum Obj}
    (h : m.Returns s d) (h' : m.Returns s d') : d = d' := by
  induction h with
  | ret hs =>
      cases h' with
      | ret hs' => simp_all
      | step hs' _ => simp_all
  | step hs _ ih =>
      cases h' with
      | ret hs' => simp_all
      | step hs' rest => exact ih (by simp_all)

/-- A result as the type asks for it: for a truth value, whether it is true or
differs from zero. -/
def read (type : ValueType) (d : Datum Obj) : Datum Obj :=
  if type = .bool then .bool (m.ops.truth d) else d

def valuation : Valuation Obj := ⟨fun _ => .null, fun _ => m.row, fun capture => m.cells capture.cell⟩

end Machine

end StreamQuery
