import StreamQuery.Compile.Call
import StreamQuery.Compile.Frame
import StreamQuery.Expr.Normalize
import StreamQuery.Query.Derivation
import StreamQuery.Settings.Basic

/-! # Running a closure on expressions

The code is run with expressions in the place of values. A branch is followed
both ways and its two results are joined in a choice, unless its test is a
constant. Jumps only go forward and a nested closure has a smaller body, so
every run ends, whatever the limits on steps and branches are.

The way through a body is written once, for any kind of steps. A run leaves it
to others to look up its arguments and to compile the closures that it makes.
`CompileM` looks arguments up along the chain of binders.
-/

namespace StreamQuery.Compile

/-- What every closure of one compilation sees. -/
structure Environment where
  schema : Schema
  settings : Settings

/-- Numbers that are given out once: to sources, and as marks to queries. Opened queries
have the mark 0. -/
structure Supply where
  nextSource : SourceId
  nextMark : Nat := 1

def Supply.build {α : Type} (supply : Supply) (make : StateM Nat α) : α × Supply :=
  let (built, nextMark) := make.run supply.nextMark
  (built, { supply with nextMark })

/-- What compiling adds to: binders, numbers given out, and the steps and
branches of the running closure. -/
structure Work extends Supply where
  chain : Chain
  steps : Nat := 0
  forks : Nat := 0

/-- Steps of compiling. The work done is kept when a step fails. -/
abbrev CompileM := EStateM CompileError Work

section Steps

variable {M : Type → Type} [Monad M] [MonadExceptOf CompileError M] [MonadStateOf Work M]
  {α : Type}

def obstruct (id : ClosureId) (pc : Nat) (obstacle : Obstacle) : M α :=
  throw (.construct id pc obstacle)

def liftObstacle (id : ClosureId) (pc : Nat) (result : Except Obstacle α) : M α :=
  match result with
  | .ok a => pure a
  | .error obstacle => obstruct id pc obstacle

def openSource : M SourceId :=
  modifyGet fun work => (work.nextSource, { work with nextSource := work.nextSource + 1 })

def peekSource : M SourceId := do pure (← get).nextSource

def build (make : StateM Nat α) : M α :=
  modifyGet fun work =>
    let (built, supply) := work.toSupply.build make
    (built, { work with toSupply := supply })

def pushBinder (binder : Binder) (parent : Option BinderId) : M BinderId :=
  modifyGet fun work => (work.chain.size, { work with chain := work.chain.push binder parent })

def pushElement (type : ValueType) (parent : Option BinderId) : M BinderId :=
  modifyGet fun work => (work.chain.size, { work with chain := work.chain.pushElement type parent })

/-! ## Limits -/

inductive Counter where
  | steps | forks

namespace Counter

def limit (settings : Settings) : Counter → Nat
  | steps => settings.maxSteps
  | forks => settings.maxBranches

def fault (settings : Settings) : Counter → ControlFault
  | steps => .tooManySteps settings.maxSteps
  | forks => .tooManyBranches settings.maxBranches

def count (work : Work) : Counter → Nat
  | steps => work.steps
  | forks => work.forks

def raise (work : Work) : Counter → Work
  | steps => { work with steps := work.steps + 1 }
  | forks => { work with forks := work.forks + 1 }

end Counter

/-- Counts a step or a branch against its limit. -/
def count (counter : Counter) (env : Environment) (id : ClosureId) (pc : Nat) : M Unit := do
  modify (counter.raise ·)
  if counter.limit env.settings < counter.count (← get) then
    throw (.control id pc (counter.fault env.settings))

/-- Counts steps and branches afresh, and goes on counting as before. -/
def withOwnLimits (action : M α) : M α := do
  let before ← modifyGet fun work => (work, { work with steps := 0, forks := 0 })
  let a ← action
  modify fun work => { work with steps := before.steps, forks := before.forks }
  pure a

def checkLocal (env : Environment) (id : ClosureId) (pc slot : Nat) : M Unit :=
  if slot < env.settings.maxLocals then pure ()
  else obstruct id pc (.localBeyond slot env.settings.maxLocals)

/-! ## Arguments -/

/-- How the arguments of a closure are looked up: values by the type that is
expected, and streams. -/
structure Lookup (M : Type → Type) where
  value : Argument → ValueType → M (Except BindError Expr)
  stream : Nat → M (Except BindError Query)

def found (id : ClosureId) (arg : Argument) (answer : Except BindError α) : M α :=
  match answer with
  | .ok a => pure a
  | .error cause => throw (.argument id arg (.unbound cause))

/-- A parameter: a stream is looked up as such, a stream source is a marker,
everything else is looked up as a value. -/
def loadParam (look : Lookup M) (body : Body) (index : Nat) : M Expr := do
  let arg := Argument.param index
  match body.params[index]? with
  | none => throw (.argument body.id arg .undeclaredParam)
  | some (.stream _) => pure (.embed (← found body.id arg (← look.stream index)))
  | some .streamSource => pure (.constant .null .streamSource)
  | some expected => found body.id arg (← look.value arg expected)

def loadCapture (look : Lookup M) (body : Body) (slot : Nat) : M Expr := do
  let arg := Argument.capture slot
  match body.captures[slot]? with
  | none => throw (.argument body.id arg .undeclaredCapture)
  | some expected => found body.id arg (← look.value arg expected)

/-! ## Operands -/

variable {possible : Made → Prop} (id : ClosureId) (pc : Nat)

def pop (frame : Frame possible) : M (Operand possible × Frame possible) :=
  match frame.pop? with
  | some popped => pure popped
  | none => obstruct id pc .stackUnderflow

def popValue (frame : Frame possible) : M (Expr × Frame possible) := do
  match ← pop id pc frame with
  | (.value e, frame) => pure (e, frame)
  | (.closure pending, _) => obstruct id pc (.closureAsValue pending.body.id)

def popTwo (frame : Frame possible) : M (Expr × Expr × Frame possible) := do
  let (right, frame) ← popValue id pc frame
  let (left, frame) ← popValue id pc frame
  pure (left, right, frame)

def popMany (count : Nat) (frame : Frame possible) : M (List (Operand possible) × Frame possible) :=
  match frame.popMany? count with
  | some popped => pure popped
  | none => obstruct id pc .stackUnderflow

def valuesOf : List (Operand possible) → Except Obstacle (List Expr)
  | [] => .ok []
  | .value e :: rest => (valuesOf rest).map (e :: ·)
  | .closure pending :: _ => .error (.closureAsArgument pending.body.id)

/-! ## Calls -/

/-- A closure of one parameter over the rows of a query. Its own parameter is
the row, its captured slots belong to the closure that made it. -/
def overRows (nested : Pending possible → BinderId → M Expr) (pending : Pending possible)
    (query : Query) : M Expr := do
  if pending.body.params.length ≠ 1 then obstruct id pc (.nestedParams pending.body.id)
  else
    let outer ← pushBinder (.outer pending.forwards) (some pending.creator)
    let head ← pushElement query.rowType (some outer)
    let e ← nested pending head
    build (e.inlined head.scope query.currentRow)

def receiver (stream : Expr) : Except Obstacle Query :=
  match stream with
  | .subQuery query _ => .ok query
  | other => .error (.streamOperation other.type)

def aggregateNamed? : String → Option AggregateFn
  | "sumInteger" | "sumLong" | "sumDouble" => some .sum
  | "max" => some .max
  | "min" => some .min
  | "avg" => some .avg
  | _ => none

def overStream (nested : Pending possible → BinderId → M Expr) (stream : Expr)
    (pending : Pending possible) (use : Query → Expr → M Expr) : M Expr := do
  let query ← liftObstacle id pc (receiver stream)
  let e ← overRows id pc nested pending query
  use query e

/-- The stream that is derived from another one, with the next source to be
given out. -/
def derived (make : SourceId → Except Refusal Query) : M Expr := do
  let next ← peekSource
  let query ← liftObstacle id pc ((make next).mapError .refused)
  pure (.embed (← build query.separate))

def aggregated (fn : AggregateFn) (query : Query) (arg : Expr) : M Expr :=
  if fn.needsNumber && !arg.type.isNumeric then obstruct id pc (.aggregateOver fn arg.type)
  else pure (.summarize fn (some arg) query)

def streamCall (nested : Pending possible → BinderId → M Expr) (method : Method)
    (args : List (Operand possible)) : M Expr :=
  match method.name, method.isStatic, args with
  | "from", true, [.value path] =>
    match path.type with
    | .collection _ => do
      let source ← openSource
      pure (.embed (.ofSource (.along source path)))
    | other => obstruct id pc (.streamFrom other)
  | "count", false, [.value stream] => do
    let query ← liftObstacle id pc (receiver stream)
    pure (.summarize .count none query)
  | "where", false, [.value stream, .closure pending] =>
    overStream id pc nested stream pending fun query e => derived id pc (query.filtered e)
  | "select", false, [.value stream, .closure pending] =>
    overStream id pc nested stream pending fun query e => derived id pc (query.projected e)
  | name, false, [.value stream, .closure pending] =>
    match aggregateNamed? name with
    | some fn => overStream id pc nested stream pending (aggregated id pc fn)
    | none => obstruct id pc (.unknownCall method)
  | _, _, _ => obstruct id pc (.unknownCall method)

def invoke (schema : Schema) (nested : Pending possible → BinderId → M Expr) (method : Method)
    (args : List (Operand possible)) : M Expr := do
  if method.owner = "JinqStream" then streamCall id pc nested method args
  else
    let values ← liftObstacle id pc (valuesOf args)
    match valueCall schema method values with
    | .ok (.value e) => pure e
    | .ok (.rows entity) => do
      let source ← openSource
      pure (.embed (.ofSource (.entity source entity)))
    | .error (.obstacle obstacle) => obstruct id pc obstacle
    | .error (.field entity accessor) => throw (.field id entity accessor)

def newTuple (arity : Nat) (frame : Frame possible) : M (Frame possible) := do
  if arity < 2 ∨ 5 < arity then obstruct id pc (.tupleArity arity)
  else
    let (operands, frame) ← popMany id pc arity frame
    let items ← liftObstacle id pc (valuesOf operands)
    pure (frame.pushValue (.pack items))

end Steps

/-! ## Instructions -/

/-- What the run of a body leaves to others: to look up its arguments, and to
compile the closures that it makes, each with an innermost binder of its own. -/
structure Handles (M : Type → Type) (possible : Made → Prop) (body : Body) (head : BinderId)
    extends Lookup M where
  nested : Pending possible → BinderId → M Expr
  makes : ∀ inner forwards, .makeClosure inner forwards ∈ body.code →
    possible ⟨inner, forwards, head⟩

inductive Flow (possible : Made → Prop) where
  | next (frame : Frame possible)
  | jump (target : Nat) (frame : Frame possible)
  | branch (test : Expr) (target : Nat) (frame : Frame possible)
  | done (result : Expr)

section Instructions

variable {M : Type → Type} [Monad M] [MonadExceptOf CompileError M] [MonadStateOf Work M]
  {possible : Made → Prop} {body : Body} {head : BinderId}

/-- One instruction of a body. -/
def step (env : Environment) (handles : Handles M possible body head) (pc : Nat)
    (instruction : Instruction) (written : instruction ∈ body.code) (frame : Frame possible) :
    M (Flow possible) := do
  match instruction, written with
  | .const value, _ => pure (.next (frame.pushValue (.literal value)))
  | .loadParam index, _ =>
    pure (.next (frame.pushValue (← loadParam handles.toLookup body index)))
  | .loadCapture slot, _ =>
    pure (.next (frame.pushValue (← loadCapture handles.toLookup body slot)))
  | .load slot, _ =>
    checkLocal env body.id pc slot
    match frame.load? slot with
    | some operand => pure (.next (frame.push operand))
    | none => obstruct body.id pc (.unassignedLocal slot)
  | .store slot, _ =>
    checkLocal env body.id pc slot
    let (operand, frame) ← pop body.id pc frame
    pure (.next (frame.store slot operand))
  | .dup, _ =>
    let (operand, _) ← pop body.id pc frame
    pure (.next (frame.push operand))
  | .pop, _ =>
    let (_, frame) ← pop body.id pc frame
    pure (.next frame)
  | .invoke method, _ =>
    let (args, frame) ← popMany body.id pc method.arity frame
    let e ← invoke body.id pc env.schema handles.nested method args
    pure (.next (frame.pushValue e))
  | .newTuple arity, _ => pure (.next (← newTuple body.id pc arity frame))
  | .makeClosure inner forwards, written =>
    let made : Made := ⟨inner, forwards, head⟩
    pure (.next (frame.push (.closure ⟨made, handles.makes inner forwards written⟩)))
  | .arith op, _ =>
    let (left, right, frame) ← popTwo body.id pc frame
    pure (.next (frame.pushValue (← liftObstacle body.id pc (arith op left right))))
  | .neg, _ =>
    let (operand, frame) ← popValue body.id pc frame
    pure (.next (frame.pushValue (← liftObstacle body.id pc (negation operand))))
  | .compare op, _ =>
    let (left, right, frame) ← popTwo body.id pc frame
    pure (.next (frame.pushValue (← liftObstacle body.id pc (comparison op left right))))
  | .convert type, _ =>
    let (operand, frame) ← popValue body.id pc frame
    pure (.next (frame.pushValue (← liftObstacle body.id pc (convert operand type))))
  | .ifZero op target, _ =>
    let (operand, frame) ← popValue body.id pc frame
    pure (.branch (← liftObstacle body.id pc (zeroTest op operand)) target frame)
  | .ifCompare op target, _ =>
    let (left, right, frame) ← popTwo body.id pc frame
    pure (.branch (← liftObstacle body.id pc (comparison op left right)) target frame)
  | .goto target, _ => pure (.jump target frame)
  | .ret, _ =>
    let (value, _) ← popValue body.id pc frame
    pure (.done (← liftObstacle body.id pc (coerceReturn body.returns value)))

/-- How a run goes on after an instruction, given the runs from later ones. The
path that takes a branch comes before the one that does not. -/
def resume (env : Environment) (id : ClosureId) (pc : Nat)
    (later : (target : Nat) → pc < target → Frame possible → M Expr) : Flow possible → M Expr
  | .done result => pure result
  | .next frame => later (pc + 1) (Nat.lt_succ_self pc) frame
  | .jump target frame =>
    if forward : pc < target then later target forward frame
    else throw (.control id pc (.backwardJump target))
  | .branch test target frame =>
    if forward : pc < target then do
      count .forks env id pc
      let test := test.simplify
      match test.asBool with
      | some true => later target forward frame
      | some false => later (pc + 1) (Nat.lt_succ_self pc) frame
      | none => do
        let taken ← later target forward frame
        let passed ← later (pc + 1) (Nat.lt_succ_self pc) frame
        pure (.choose test taken passed)
    else throw (.control id pc (.backwardBranch target))

/-- One instruction of a run and what follows it, given the runs from later ones. -/
def advance (env : Environment) (handles : Handles M possible body head) (pc : Nat)
    (later : pc < body.code.length → (target : Nat) → pc < target → Frame possible → M Expr)
    (frame : Frame possible) : M Expr := do
  count .steps env body.id pc
  match fetched : body.code[pc]? with
  | none => throw (.control body.id pc .endOfBody)
  | some instruction =>
    let flow ← step env handles pc instruction (List.mem_of_getElem? fetched) frame
    resume env body.id pc (later (List.getElem?_eq_some_iff.mp fetched).1) flow

/-- Runs a body from an instruction to the end of every path that leads on from
there. -/
def run (env : Environment) (handles : Handles M possible body head) (pc : Nat)
    (frame : Frame possible) : M Expr :=
  advance env handles pc (fun _ target _ frame => run env handles target frame) frame
termination_by body.code.length - pc

/-- The result of a run in normal form, with limits of its own. -/
def inNormalForm (action : M Expr) : M Expr := withOwnLimits do
  let e ← action
  pure e.simplify

/-! ## Closures -/

/-- A body that can have no closures but those that it makes. -/
def Lookup.handles (look : Lookup M) (nested : Pending body.Makes → BinderId → M Expr)
    (head : BinderId) : Handles M body.Makes body head where
  toLookup := look
  nested := nested
  makes _ _ written := written

/-- Compiles a body, nested closures with limits of their own. How arguments are
looked up depends on the innermost binder. -/
def compileWith (look : BinderId → Lookup M) (env : Environment) (body : Body) (head : BinderId) :
    M Expr :=
  let nested (pending : Pending body.Makes) (inner : BinderId) : M Expr :=
    compileWith look env pending.body inner
  inNormalForm (run env ((look head).handles nested head) 0 .empty)
termination_by sizeOf body
decreasing_by exact pending.sizeOf_lt

end Instructions

/-- Looks arguments up along the chain of binders. -/
def Lookup.alongChain (head : BinderId) : Lookup CompileM where
  value arg expected := do pure ((← get).chain.resolve head arg expected)
  stream index := do pure ((← get).chain.resolveStream head index)

def compileBody (env : Environment) (body : Body) (head : BinderId) : CompileM Expr :=
  compileWith .alongChain env body head

/-- A compilation: its outcome, the binders it leaves behind, and the supply that
is left. -/
structure Compilation where
  outcome : Except CompileError Expr
  chain : Chain
  supply : Supply

end Compile

/-- Compiles a closure whose arguments are looked up from `head`, with numbers
from a supply. -/
def Closure.compile (closure : Closure) (env : Compile.Environment) (chain : Chain)
    (head : BinderId) (supply : Compile.Supply) : Compile.Compilation :=
  match (Compile.compileBody env closure.body head).run { toSupply := supply, chain } with
  | .ok e work => ⟨.ok e, work.chain, work.toSupply⟩
  | .error error work => ⟨.error error, work.chain, work.toSupply⟩

end StreamQuery
