import StreamQuery.Proofs.Explain
import StreamQuery.Proofs.Unbounded

/-! # What a compilation explores

A run starts others: at the instructions where its path goes on, and for the closures that a
call takes from its stack. What they come to settles what it comes to. Along every path of such
runs the place in the code goes up until a closure is entered, and then the body is one that the
code before it makes. For every closure that lies on a stack or in a local is made by the running
body, however often it was copied.
-/

namespace StreamQuery

def Body.NestedIn (inner outer : Body) : Prop :=
  ∃ forwards, .makeClosure inner forwards ∈ outer.code

theorem Body.NestedIn.sizeOf_lt {inner outer : Body} (h : inner.NestedIn outer) :
    sizeOf inner < sizeOf outer :=
  h.elim fun _ written => Body.sizeOf_lt_of_mem written

/-! ## Closures in a frame -/

section Frames

variable {possible possible' good : Made → Prop} {frame : Frame possible}
  {frame' : Frame possible'} {pending : Pending possible}

def Frame.Holds (frame : Frame possible) (pending : Pending possible) : Prop :=
  .closure pending ∈ frame.stack ∨ ∃ slot, (slot, .closure pending) ∈ frame.locals

theorem Operand.Matches.isPossible {operand : Operand possible} {operand' : Operand possible'}
    (h : operand.Matches good operand') (shape : operand = .closure pending) :
    possible' pending.toMade := by
  subst shape
  cases h with
  | @closure _ pending' same _ => exact same ▸ pending'.isPossible

/-- Where frames match, what one holds is possible in the other. -/
theorem Frame.Matches.isPossible (h : frame.Matches good frame') (holds : frame.Holds pending) :
    possible' pending.toMade := by
  rcases holds with onStack | ⟨slot, inLocal⟩
  · have all := h.stack.imp fun _ _ same => And.intro (@same.isPossible _ _ _ pending) same
    exact ((List.forall₂_and_left _ _).mp all).1 _ onStack rfl
  · have all := h.locals.imp fun _ _ same => And.intro (@same.2.isPossible _ _ _ pending) same
    exact ((List.forall₂_and_left _ _).mp all).1 _ inLocal rfl

theorem Frame.holds_of_popMany? {count : Nat} {args : List (Operand possible)}
    {rest : Frame possible} (popped : frame.popMany? count = some (args, rest))
    (taken : .closure pending ∈ args) : frame.Holds pending := by
  unfold Frame.popMany? at popped
  split at popped
  · cases popped
    exact .inl (List.mem_of_mem_take (List.mem_reverse.mp taken))
  · cases popped

end Frames

namespace Compile

/-! ## Ways on -/

section Ways

variable {possible possible' good : Made → Prop} {pc : Nat}

def Flow.ways (pc : Nat) : Flow possible → List (Nat × Frame possible)
  | .done _ => []
  | .next frame => [(pc + 1, frame)]
  | .jump target frame => if pc < target then [(target, frame)] else []
  | .branch test target frame =>
    if pc < target then
      match test.simplify.asBool with
      | some true => [(target, frame)]
      | some false => [(pc + 1, frame)]
      | none => [(target, frame), (pc + 1, frame)]
    else []

/-- A run goes on at later instructions only, with what the instruction left. -/
theorem Flow.Matches.ways {flow : Flow possible} {flow' : Flow possible'}
    (h : flow.Matches good flow') {way : Nat × Frame possible} (leads : way ∈ flow.ways pc) :
    pc < way.1 ∧ ∃ frame' : Frame possible', way.2.Matches good frame' := by
  cases h with
  | done result => cases leads
  | next h =>
      cases List.mem_singleton.mp leads
      exact ⟨Nat.lt_succ_self pc, _, h⟩
  | jump target h =>
      simp only [Flow.ways] at leads
      split at leads
      · next forward =>
          cases List.mem_singleton.mp leads
          exact ⟨forward, _, h⟩
      · cases leads
  | @branch test target frame _ h =>
      simp only [Flow.ways] at leads
      split at leads
      · next forward =>
          have both : way = (target, frame) ∨ way = (pc + 1, frame) := by
            split at leads <;> simp_all
          rcases both with rfl | rfl
          · exact ⟨forward, _, h⟩
          · exact ⟨Nat.lt_succ_self pc, _, h⟩
      · cases leads

/-- What follows an instruction is settled by the runs along its ways. -/
theorem resume_congr {M : Type → Type} [Monad M] [MonadExceptOf CompileError M]
    [MonadStateOf Work M] {env : Environment} {id : ClosureId} {flow : Flow possible}
    {later later' : Nat → Frame possible → M Expr}
    (same : ∀ way ∈ flow.ways pc, later way.1 way.2 = later' way.1 way.2) :
    resume env id pc (fun target _ frame => later target frame) flow =
      resume env id pc (fun target _ frame => later' target frame) flow := by
  cases flow with
  | done result => rfl
  | next frame => exact same _ (List.mem_singleton_self _)
  | jump target frame =>
      simp only [resume]
      split
      · next forward => exact same (target, frame) (by simp [Flow.ways, forward])
      · rfl
  | branch test target frame =>
      simp only [resume]
      split
      · next forward =>
          simp only [Flow.ways, forward, if_true] at same
          refine bind_congr fun _ => ?_
          cases constant : test.simplify.asBool with
          | none =>
              rw [constant] at same
              have taken : later target frame = later' target frame := same _ List.mem_cons_self
              have passed : later (pc + 1) frame = later' (pc + 1) frame :=
                same _ (List.mem_cons_of_mem _ List.mem_cons_self)
              rw [taken, passed]
          | some b =>
              rw [constant] at same
              cases b <;> exact same _ List.mem_cons_self
      · rfl

end Ways

/-! ## Runs that a run starts -/

/-- The runs that a run starts, with any work done before: one for each way on from its
instruction, and for a call one for each closure that it takes from the stack. -/
inductive Moment.Explores (env : Environment) (m : Moment) : Moment → Prop where
  | goes {instruction : Instruction} {flow : Flow fun _ => True}
      {way : Nat × Frame fun _ => True} {before after : Work}
      (fetched : m.body.code[m.pc]? = some instruction)
      (stepped : step env (m.handles env.runUnbounded) m.pc instruction
        (List.mem_of_getElem? fetched) m.frame before = some (.ok flow, after))
      (leads : way ∈ flow.ways m.pc) : Explores env m (m.goTo way.1 way.2)
  | enters {method : Method} {args : List (Operand fun _ => True)} {rest : Frame fun _ => True}
      {pending : Pending fun _ => True} (fetched : m.body.code[m.pc]? = some (.invoke method))
      (popped : m.frame.popMany? method.arity = some (args, rest))
      (taken : .closure pending ∈ args) (inner : BinderId) :
      Explores env m (.start pending.body inner)

theorem Moment.Explores.inside {env : Environment} {m m' : Moment} (h : Moment.Explores env m m') :
    m.pc < m.body.code.length := by
  cases h with
  | goes fetched | enters fetched => exact (List.getElem?_eq_some_iff.mp fetched).1

namespace Moment

def HoldsNested (m : Moment) : Prop :=
  ∀ pending, m.frame.Holds pending → pending.body.NestedIn m.body

/-- Further on in the same body, or at the beginning of one nested in it. -/
def Before (m m' : Moment) : Prop :=
  (m'.body = m.body ∧ m'.head = m.head ∧ m.pc < m'.pc) ∨ (m'.body.NestedIn m.body ∧ m'.pc = 0)

def Typed (m : Moment) : Prop :=
  ∃ frame : Frame m.body.Makes, m.frame.Matches (fun _ => True) frame

variable {env : Environment} {m m' : Moment}

theorem typed_start (body : Body) (head : BinderId) : (start body head).Typed := ⟨.empty, .empty⟩

theorem Typed.holdsNested (h : m.Typed) : m.HoldsNested := by
  obtain ⟨frame, same⟩ := h
  intro pending holds
  exact ⟨pending.forwards, same.isPossible holds⟩

/-- An instruction can be taken with closures of the body alone. -/
theorem handlesFollow_typed (env : Environment) (m : Moment) :
    HandlesFollow (.plain (.refl env)) m.head (m.handles env.runUnbounded)
      ((Lookup.walking m.head).handles (fun (pending : Pending m.body.Makes) inner =>
        inNormalForm (env.runUnbounded (.start pending.body inner))) m.head) where
  value _ _ := follows_plain fun _ _ ran => ran
  stream _ := follows_plain fun _ _ ran => ran
  nested := by
    intro pending pending' same _ inner _
    simp only [handles, Lookup.handles, same]
    exact follows_plain fun _ _ ran => ran

/-- One run started by another. -/
theorem Typed.explores (h : m.Typed) (explores : Explores env m m') : m'.Typed ∧ m.Before m' := by
  cases explores with
  | @goes instruction flow way _ _ fetched stepped leads =>
      obtain ⟨frame, same⟩ := h
      have follows : Follows _ _ _ _ (step env _ m.pc instruction _ frame) :=
        (handlesFollow_typed env m).step instruction (List.mem_of_getElem? fetched) same
      obtain ⟨-, flow', -, matched⟩ := follows.ok trivial stepped
      obtain ⟨later, frame', left⟩ := matched.ways leads
      exact ⟨⟨frame', left⟩, .inl ⟨rfl, rfl, later⟩⟩
  | @enters method args rest pending fetched popped taken inner =>
      have held := Frame.holds_of_popMany? popped taken
      exact ⟨typed_start pending.body inner, .inr ⟨h.holdsNested pending held, rfl⟩⟩

/-- All runs that follow from one. -/
theorem Typed.explored (h : m.Typed)
    (explored : Relation.ReflTransGen (Explores env) m m') : m'.Typed := by
  induction explored with
  | refl => exact h
  | tail _ explores ih => exact (ih.explores explores).1

/-- How far a run can still go: into smaller bodies, and to instructions that are left. -/
noncomputable def left (m : Moment) : ℕ ×ₗ ℕ := toLex (sizeOf m.body, m.body.code.length - m.pc)

theorem left_lt (before : m.Before m') (inside : m.pc < m.body.code.length) :
    m'.left < m.left := by
  rw [left, left, Prod.Lex.toLex_lt_toLex]
  rcases before with ⟨body, -, later⟩ | ⟨nested, -⟩
  · rw [body]
    exact .inr ⟨rfl, by omega⟩
  · exact .inl nested.sizeOf_lt

/-- No path of runs goes on forever. -/
theorem Typed.no_endless_path (h : m.Typed) :
    ¬ ∃ path : ℕ → Moment, path 0 = m ∧ ∀ n, Explores env (path n) (path (n + 1)) := by
  rintro ⟨path, rfl, explores⟩
  have typed (n : ℕ) : (path n).Typed := by
    induction n with
    | zero => exact h
    | succ n ih => exact (ih.explores (explores n)).1
  have falls : StrictAnti fun n => (path n).left := strictAnti_nat_of_succ_lt fun n =>
    left_lt ((typed n).explores (explores n)).2 (explores n).inside
  exact not_strictAnti_of_wellFoundedLT _ falls

/-! ## What settles a run -/

theorem eq_of_follows {α : Type} {head : BinderId} {x y : UnboundedM α}
    (there : Follows (.plain (.refl env)) head Eq x y)
    (back : Follows (.plain (.refl env)) head Eq y x) : x = y := by
  have more {x y : UnboundedM α} (h : Follows (.plain (.refl env)) head Eq x y) (work : Work)
      (outcome : Except CompileError α × Work) (ran : x work = some outcome) :
      y work = some outcome := by
    obtain ⟨result, after⟩ := outcome
    cases result with
    | ok a =>
        obtain ⟨-, _, ran', rfl⟩ := h.ok trivial ran
        exact ran'
    | error error => exact (h.error trivial ran).2 rfl
  funext work
  cases ran : x work with
  | some outcome => exact (more there work outcome ran).symm
  | none =>
      cases ran' : y work with
      | none => rfl
      | some outcome =>
          rw [more back work outcome ran'] at ran
          cases ran

/-- A call is settled by what the closures that it takes come to. -/
theorem invoke_congr {id : ClosureId} {pc : Nat}
    {nested nested' : Pending (fun _ => True) → BinderId → UnboundedM Expr} (method : Method)
    {args : List (Operand fun _ => True)}
    (same : ∀ pending, .closure pending ∈ args → nested pending = nested' pending) :
    invoke id pc env.schema nested method args = invoke id pc env.schema nested' method args := by
  let taken (made : Made) : Prop := .closure ⟨made, trivial⟩ ∈ args
  have matched : List.Forall₂ (Operand.Matches taken) args args := by
    refine List.forall₂_same.mpr fun operand mem => ?_
    cases operand with
    | value e => exact .value e
    | closure pending => exact .closure rfl mem
  have follows {nested nested' : Pending (fun _ => True) → BinderId → UnboundedM Expr}
      (same : ∀ pending, .closure pending ∈ args → nested pending = nested' pending) :
      Follows (.plain (.refl env)) (0 : BinderId) Eq (invoke id pc env.schema nested method args)
        (invoke id pc env.schema nested' method args) := by
    refine follows_invoke id pc ?_ (fun _ _ => trivial) method matched
    intro pending pending' alike mem inner _
    obtain rfl : pending = pending' := by
      obtain ⟨made, _⟩ := pending
      obtain ⟨_, _⟩ := pending'
      cases alike
      rfl
    rw [same pending mem]
    exact follows_plain fun _ _ ran => ran
  exact eq_of_follows (follows same) (follows fun pending mem => (same pending mem).symm)

theorem popMany?_of_popMany {id : ClosureId} {pc count : Nat} {frame : Frame fun _ => True}
    {popped : List (Operand fun _ => True) × Frame fun _ => True} {work after : Work}
    (h : (popMany id pc count frame : UnboundedM _) work = some (.ok popped, after)) :
    frame.popMany? count = some popped := by
  unfold popMany at h
  cases found : frame.popMany? count with
  | none =>
      rw [found] at h
      cases h
  | some taken =>
      rw [found] at h
      cases h
      rfl

/-- An instruction asks for runs only if it is a call, and then for those of the closures that
it takes. -/
theorem step_congr {runs runs' : Moment → UnboundedM Expr} (instruction : Instruction)
    (written : instruction ∈ m.body.code)
    (same : ∀ method args rest pending inner, instruction = .invoke method →
      m.frame.popMany? method.arity = some (args, rest) → .closure pending ∈ args →
        runs (.start pending.body inner) = runs' (.start pending.body inner)) :
    step env (m.handles runs) m.pc instruction written m.frame =
      step env (m.handles runs') m.pc instruction written m.frame := by
  cases instruction with
  | invoke method =>
      simp only [step]
      refine Endless.bind_congr fun before taken after ran => ?_
      obtain ⟨args, rest⟩ := taken
      have popped := popMany?_of_popMany ran
      have calls : invoke m.body.id m.pc env.schema (m.handles runs).nested method args =
          invoke m.body.id m.pc env.schema (m.handles runs').nested method args :=
        invoke_congr method fun pending mem => funext fun inner =>
          congrArg inNormalForm (same method args rest pending inner rfl popped mem)
      dsimp only
      rw [calls]
  | _ => rfl

/-- What a run comes to is settled by the runs that it explores. -/
theorem proceed_eq (m : Moment) (env : Environment) {runs : Moment → UnboundedM Expr}
    (same : ∀ m', Explores env m m' → runs m' = env.runUnbounded m') :
    env.proceed runs m = env.runUnbounded m := by
  rw [Environment.runUnbounded]
  unfold Environment.proceed
  rcases Option.eq_none_or_eq_some m.body.code[m.pc]? with missing | ⟨instruction, fetched⟩
  · rw [advance_of_end missing, advance_of_end missing]
  have stepped := @step_congr env m runs env.runUnbounded instruction
    (List.mem_of_getElem? fetched) fun method args rest pending inner call popped mem =>
      same _ (.enters (call ▸ fetched) popped mem inner)
  rw [advance_of_fetched fetched, advance_of_fetched fetched, stepped]
  refine bind_congr fun _ => Endless.bind_congr fun before flow after ran => ?_
  refine congrFun (resume_congr fun way leads => ?_) after
  exact same _ (.goes fetched ran leads)

end Moment

end Compile

open Compile (Moment)

/-- Compiling a closure ends whatever the limits are, where binders are enclosed by earlier ones:
without a bound it comes to what it comes to with one. On every path that it explores the place
in the code goes up, or a nested body begins; all closures on a stack or in a local are nested in
the running body; and no path goes on forever. A run asks for no others than it explores, so they
settle what it comes to. -/
theorem Closure.compile_terminates (closure : Closure) (env : Compile.Environment) {chain : Chain}
    (ordered : chain.Ordered) {head : BinderId} (inside : head < chain.size)
    (supply : Compile.Supply) :
    closure.compileUnbounded env chain head supply =
      some (closure.compile env chain head supply) ∧
    (∀ m, Relation.ReflTransGen (Moment.Explores env) (.start closure.body head) m →
      m.HoldsNested ∧ ∀ m', Moment.Explores env m m' → m.Before m') ∧
    (¬ ∃ path : ℕ → Moment, path 0 = .start closure.body head ∧
      ∀ n, Moment.Explores env (path n) (path (n + 1))) ∧
    ∀ m runs, (∀ m', Moment.Explores env m m' → runs m' = env.runUnbounded m') →
      env.proceed runs m = env.runUnbounded m := by
  have start := Moment.typed_start closure.body head
  refine ⟨closure.compileUnbounded_eq env ordered inside supply, fun m explored => ?_,
    start.no_endless_path, fun m runs same => m.proceed_eq env same⟩
  have typed := start.explored explored
  exact ⟨typed.holdsNested, fun m' explores => (typed.explores explores).2⟩

/-- The number of accounts of a customer in their own country. The closure that picks them is
copied to two locals, and used once more if the customer is called like the country. -/
def Reached.pickedTwice : Closure where
  body := ⟨1, [.entity "Customer"], [], .long,
    [.makeClosure Reached.isDomestic [.param 0], .dup, .store 0, .store 1,
      .loadParam 0, .invoke ⟨"Customer", "getAccounts", 0, false⟩,
      .invoke ⟨"JinqStream", "from", 1, true⟩,
      .load 0, .invoke ⟨"JinqStream", "where", 1, false⟩,
      .loadParam 0, .invoke ⟨"Customer", "getName", 0, false⟩,
      .loadParam 0, .invoke ⟨"Customer", "getCountry", 0, false⟩,
      .invoke ⟨"String", "equals", 1, false⟩, .ifZero .eq 17,
      .load 1, .invoke ⟨"JinqStream", "where", 1, false⟩,
      .invoke ⟨"JinqStream", "count", 0, false⟩, .ret]⟩
  captured := []

/-- Two ways with copies of one closure, under limits that are never met. -/
theorem Closure.compile_terminates_pickedTwice :
    let most := 2 ^ 64 - 1
    let env : Compile.Environment := ⟨Reached.customers.schema,
      { maxSteps := most, maxBranches := most, maxLocals := most }⟩
    let chain := Compile.elementChain Reached.pickedTwice (.entity "Customer")
    chain.Ordered ∧ 1 < chain.size ∧
      (∃ e, (Reached.pickedTwice.compile env chain 1 { nextSource := 1 }).outcome = .ok e) ∧
      Reached.pickedTwice.compileUnbounded env chain 1 { nextSource := 1 } =
        some (Reached.pickedTwice.compile env chain 1 { nextSource := 1 }) := by
  intro most env chain
  have compiles : (Reached.pickedTwice.compile env chain 1 { nextSource := 1 }).outcome.map
      (fun _ => ()) = .ok () := by
    decide +kernel
  obtain ⟨e, compiled, -⟩ := Compile.map_eq_ok.mp compiles
  have own : (Chain.empty.push (.ofClosure Reached.pickedTwice) none).Ordered := by
    intro id link found
    cases id with
    | zero =>
        cases found
        nofun
    | succ id => cases found
  have ordered : chain.Ordered := own.push Nat.zero_lt_one _
  exact ⟨ordered, by decide, ⟨e, compiled⟩,
    (Reached.pickedTwice.compile_terminates env ordered (by decide) _).1⟩

end StreamQuery
