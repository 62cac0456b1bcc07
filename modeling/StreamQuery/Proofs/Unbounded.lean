import StreamQuery.Proofs.Sealed

/-! # Compiling without a bound

The compiler as plain recursion, with nothing that says that it ends. A walk along a chain goes
on while there are binders. A closure on the stack is whatever an instruction put there: no
proof comes with it that its body is a smaller one. A run calls itself at the next instruction,
at the target of a jump, and for every closure that a call takes from the stack. Where this goes
on forever there is no answer.

Wherever binders are enclosed by earlier ones this comes to what compiling comes to. Every walk
along the chain ends, as it only meets earlier binders. Every run ends, as it only goes on at
later instructions, and takes from its stack only closures that its own body makes.
-/

namespace StreamQuery

/-! ## Walks along a chain -/

namespace Chain

def walk (chain : Chain) (expected : ValueType) (start : Option BinderId) (arg : Argument) :
    Option (Except BindError Expr) :=
  match start.bind (chain.links[·]?) with
  | none => some (.error (.exhausted arg))
  | some link =>
    match link.binder.offer arg expected with
    | .error cause => some (.error cause)
    | .ok (.resolved e) => some (.ok e)
    | .ok (.forward arg) => chain |>.walk expected link.parent arg
    | .ok .pass => chain |>.walk expected link.parent arg
partial_fixpoint

def streamWalk (chain : Chain) (index : Nat) (start : Option BinderId) :
    Option (Except BindError Query) :=
  match start.bind (chain.links[·]?) with
  | none => some (.error (.streamUnbound index))
  | some link =>
    match link.binder with
    | .stream query => some (.ok query)
    | _ => chain |>.streamWalk index link.parent
partial_fixpoint

/-- Every binder is enclosed by one that was added before it. -/
def Ordered (chain : Chain) : Prop :=
  ∀ (id : BinderId) (link : Link), chain.links[id]? = some link →
    ∀ parent ∈ link.parent, parent < id

variable {chain : Chain} {start : Option BinderId}

theorem Ordered.descends (h : chain.Ordered) {id : BinderId} (inside : id < chain.size) :
    chain.Descends (some id) := by
  induction id using Nat.strongRecOn with
  | _ id ih =>
      have found : chain.links[id]? = some _ := Array.getElem?_eq_getElem inside
      have smaller := h id _ found
      refine .step found smaller ?_
      cases enclosing : chain.links[id].parent with
      | none => exact .done
      | some parent =>
          have before := smaller parent enclosing
          exact ih parent before (Nat.lt_trans before inside)

theorem Ordered.push (h : chain.Ordered) {parent : BinderId} (inside : parent < chain.size)
    (binder : Binder) : (chain.push binder (some parent)).Ordered := by
  intro id link found
  rw [Chain.push, Array.getElem?_push] at found
  split at found
  · next last =>
      cases found
      rintro _ ⟨⟩
      exact last ▸ inside
  · exact h id link found

/-- A walk along a chain ends, and finds what a bounded one does. -/
theorem Descends.walk (h : chain.Descends start) (expected : ValueType) (arg : Argument) :
    chain.walk expected start arg = some (chain.outward expected start arg) := by
  induction h generalizing arg with
  | done =>
      rw [Chain.walk]
      rfl
  | step found smaller next ih =>
      rw [Chain.walk, outward, (Descends.step found smaller next).resolve_eq found]
      simp only [Option.bind_some, found]
      cases Binder.offer _ arg expected with
      | error cause => rfl
      | ok answer =>
          cases answer with
          | resolved e => rfl
          | forward arg => exact ih arg
          | pass => exact ih arg

theorem Descends.streamWalk (h : chain.Descends start) (index : Nat) :
    chain.streamWalk index start = some (streamAnswer (chain.stream? start) index) := by
  induction h with
  | done =>
      rw [Chain.streamWalk]
      rfl
  | @step id link found smaller next ih =>
      rw [Chain.streamWalk, (Descends.step found smaller next).stream?_eq found]
      simp only [Option.bind_some, found]
      cases link.binder with
      | stream query => rfl
      | element | parameters | outer => exact ih

end Chain

namespace Compile

def lookUp {α : Type} (find : Chain → Option α) : UnboundedM α := fun work =>
  (find work.chain).map fun found => (.ok found, work)

def Lookup.walking (head : BinderId) : Lookup UnboundedM where
  value arg expected := lookUp (Chain.walk · expected (some head) arg)
  stream index := lookUp (Chain.streamWalk · index (some head))

/-! ## Runs -/

/-- A run of a body from an instruction, with any closures at all on the stack and in locals. -/
structure Moment where
  body : Body
  head : BinderId
  pc : Nat
  frame : Frame fun _ => True

namespace Moment

def start (body : Body) (head : BinderId) : Moment := ⟨body, head, 0, .empty⟩

def handles (m : Moment) (runs : Moment → UnboundedM Expr) :
    Handles UnboundedM (fun _ => True) m.body m.head where
  toLookup := .walking m.head
  nested pending inner := inNormalForm (runs (.start pending.body inner))
  makes _ _ _ := trivial

def goTo (m : Moment) (pc : Nat) (frame : Frame fun _ => True) : Moment := { m with pc, frame }

end Moment

namespace Environment

/-- One instruction of a run, with all other runs given. -/
def proceed (env : Environment) (runs : Moment → UnboundedM Expr) (m : Moment) :
    UnboundedM Expr :=
  advance env (m.handles runs) m.pc (fun _ target _ frame => runs (m.goTo target frame)) m.frame

/-- What comes of other runs only settles more of a run. -/
theorem proceed_mono (env : Environment) {runs runs' : Moment → UnboundedM Expr}
    (more : ∀ m work outcome, runs m work = some outcome → runs' m work = some outcome)
    (m : Moment) (work : Work) {outcome : Except CompileError Expr × Work}
    (h : env.proceed runs m work = some outcome) : env.proceed runs' m work = some outcome := by
  let S : Comparison env env := .plain (.refl env)
  have looks : LookupFollows S m.head (.walking m.head) (.walking m.head) :=
    ⟨fun _ _ => follows_plain fun _ _ ran => ran, fun _ => follows_plain fun _ _ ran => ran⟩
  have nests : NestedFollows S (S.MadeAt m.head) (m.handles runs).nested
      (m.handles runs').nested := by
    intro pending pending' same _ inner _
    simp only [Moment.handles, same]
    exact Follows.inNormalForm (follows_plain (more _))
  have follows : Follows S m.head Eq (env.proceed runs m) (env.proceed runs' m) := by
    refine HandlesFollow.advance ⟨looks, nests⟩ (.refl (fun _ => trivial) m.frame) ?_
    intro inside target forward frame frame' same
    rw [same.eq]
    exact follows_plain (more _)
  obtain ⟨result, after⟩ := outcome
  cases result with
  | ok e =>
      obtain ⟨-, _, ran, rfl⟩ := follows.ok trivial h
      exact ran
  | error error => exact (follows.error trivial h).2 rfl

/-- Runs a body to the end of every path, without a bound. -/
def runUnbounded (env : Environment) (m : Moment) : UnboundedM Expr :=
  env.proceed (fun m => env |>.runUnbounded m) m
partial_fixpoint monotonicity by
  intro runs runs' below m work
  have more (m : Moment) (work : Work) (outcome : Except CompileError Expr × Work)
      (h : runs m work = some outcome) : runs' m work = some outcome := by
    have le := below m work
    generalize runs m work = found, runs' m work = found' at le h ⊢
    cases le with
    | bot => cases h
    | refl => exact h
  dsimp only
  cases h : env.proceed runs m work with
  | none => exact .bot
  | some outcome =>
      rw [env.proceed_mono more m work h]
      exact .refl

end Environment

/-! ## What compiling adds -/

/-- All binders are where they were, those that were added stand in earlier ones, and
sources were only opened. -/
structure Appends (work work' : Work) : Prop extends Advances work work' where
  parents : ∀ (id : BinderId) (link : Link), work.chain.size ≤ id →
    work'.chain.links[id]? = some link → ∃ parent < id, link.parent = some parent

namespace Appends

variable {work between work' : Work}

theorem of_chain (chain : work'.chain = work.chain) (le : work.nextSource ≤ work'.nextSource) :
    Appends work work' where
  nextSource_le := le
  chain := chain ▸ .refl
  parents id link added found := by
    rw [chain] at found
    have inside := (Array.getElem?_eq_some_iff.mp found).1
    exact absurd added (Nat.not_le.mpr inside)

theorem trans (h : Appends work between) (h' : Appends between work') : Appends work work' where
  toAdvances := h.toAdvances.trans h'.toAdvances
  parents id link added found := by
    rcases Nat.lt_or_ge id between.chain.size with early | late
    · -- A binder from the first part is still the same after the second.
      have before : between.chain.links[id]? = some _ := Array.getElem?_eq_getElem early
      have same := (h'.chain.keeps id _ before).symm.trans found
      cases same
      exact h.parents id _ added before
    · exact h'.parents id link late found

theorem pushed {parent : BinderId} (inside : parent < work.chain.size) (binder : Binder) :
    Appends work { work with chain := work.chain.push binder (some parent) } where
  nextSource_le := Nat.le_refl _
  chain := Chain.growsTo_push ..
  parents id link added found := by
    simp only [Chain.push, Array.getElem?_push] at found
    split at found
    · next last =>
        cases found
        exact ⟨parent, last ▸ inside, rfl⟩
    · have old := (Array.getElem?_eq_some_iff.mp found).1
      exact absurd added (Nat.not_le.mpr old)

theorem inside {id : BinderId} (h : Appends work work') (inside : id < work.chain.size) :
    id < work'.chain.size := by
  have found : work.chain.links[id]? = some _ := Array.getElem?_eq_getElem inside
  exact (Array.getElem?_eq_some_iff.mp (h.chain.keeps id _ found)).1

theorem ordered (h : Appends work work') (ordered : work.chain.Ordered) :
    work'.chain.Ordered := by
  intro id link found parent enclosing
  rcases Nat.lt_or_ge id work.chain.size with old | added
  · have before : work.chain.links[id]? = some _ := Array.getElem?_eq_getElem old
    have same := (h.chain.keeps id _ before).symm.trans found
    cases same
    exact ordered id _ before parent enclosing
  · obtain ⟨_, earlier, encloses⟩ := h.parents id link added found
    cases encloses.symm.trans enclosing
    exact earlier

end Appends

/-- A comparison where binders are enclosed by earlier ones: the innermost binder is there, and
work is only added to. -/
def Comparison.ordered (env : Environment) : Comparison env env where
  limits := .refl env
  Place := BinderId
  head := id
  Inner _ := True
  MadeAt head made := made.creator = head
  Stands head work := work.chain.Ordered ∧ head < work.chain.size
  Keeps := Appends
  keeps_of_chain := .of_chain
  keeps_trans := .trans
  stands stands kept := ⟨kept.ordered stands.1, kept.inside stands.2⟩
  makes _ _ _ := rfl
  nested := by
    rintro head work made ⟨ordered, inside⟩ rfl type
    let opened : Work :=
      { work with chain := work.chain.push (.outer made.forwards) (some made.creator) }
    have inside' : work.chain.size < opened.chain.size := by
      simp [opened, Chain.push, Chain.size]
    have first : Appends work opened := .pushed inside _
    have second : Appends opened
        { work with chain := opened.chain.pushElement type (some work.chain.size) } :=
      .pushed inside' _
    have both := first.trans second
    refine ⟨both, _, trivial, rfl, both.ordered ordered, ?_⟩
    simp [Chain.pushElement, Chain.push, Chain.size]

/-! ## No bound ends a compilation -/

section Bounds

variable {env : Environment} {head : BinderId}

theorem follows_lookUp {α : Type} {f : Work → α} {find : Chain → Option α}
    (ends : ∀ work : Work, work.chain.Ordered → head < work.chain.size →
      find work.chain = some (f work)) :
    Follows (.ordered env) head Eq (do pure (f (← get)) : CompileM α) (lookUp find) where
  ok := by
    intro work after a stands ran
    rw [asUnbounded_read] at ran
    cases ran
    refine ⟨Comparison.keeps_refl _ work, _, ?_, rfl⟩
    change (find work.chain).map _ = _
    rw [ends work stands.1 stands.2]
    rfl
  error := by
    intro work after error _ ran
    rw [asUnbounded_read] at ran
    cases ran

theorem lookupFollows_walking (head : BinderId) :
    LookupFollows (.ordered env) head (.alongChain head) (.walking head) where
  value arg expected := by
    dsimp only [Lookup.alongChain, Lookup.walking]
    exact follows_lookUp fun _ ordered inside => (ordered.descends inside).walk expected arg
  stream index := by
    dsimp only [Lookup.alongChain, Lookup.walking]
    exact follows_lookUp fun _ ordered inside => (ordered.descends inside).streamWalk index

variable {m : Moment}

theorem follows_runUnbounded {frame : Frame m.body.Makes}
    (nests : NestedFollows (.ordered env) (·.creator = m.head)
      (fun (pending : Pending m.body.Makes) inner => compileBody env pending.body inner)
      (m.handles env.runUnbounded).nested)
    (same : frame.Matches (·.creator = m.head) m.frame) :
    Follows (.ordered env) m.head Eq (run env (handlesOf env m.body m.head) m.pc frame)
      (env.runUnbounded m) := by
  -- On the instructions that are left.
  induction left : m.body.code.length - m.pc using Nat.strongRecOn generalizing m frame with
  | _ left ih =>
      subst left
      rw [run, Environment.runUnbounded]
      refine HandlesFollow.advance ⟨lookupFollows_walking m.head, nests⟩ same ?_
      intro inside target forward frame frame' same
      exact @ih _ (show m.body.code.length - target < _ by omega) (m.goTo target frame') frame nests
        same rfl

theorem follows_compileUnbounded (env : Environment) (body : Body) (head : BinderId) :
    Follows (.ordered env) head Eq (compileBody env body head)
      (inNormalForm (env.runUnbounded (.start body head))) := by
  -- A closure that a run takes from its stack has a smaller body.
  induction size : sizeOf body using Nat.strongRecOn generalizing body head with
  | _ size ih =>
      subst size
      rw [compileBody_eq]
      refine Follows.inNormalForm (follows_runUnbounded (m := .start body head) ?_ .empty)
      intro pending pending' same _ inner _
      simp only [Moment.handles, same]
      exact ih _ pending.sizeOf_lt pending.body inner rfl

end Bounds

end Compile

def Closure.compileUnbounded (closure : Closure) (env : Compile.Environment) (chain : Chain)
    (head : BinderId) (supply : Compile.Supply) : Option Compile.Compilation :=
  (Compile.inNormalForm (env.runUnbounded (.start closure.body head))
    { toSupply := supply, chain }).map fun (outcome, work) => ⟨outcome, work.chain, work.toSupply⟩

/-- Compiling a closure ends, without a bound and with what it comes to. -/
theorem Closure.compileUnbounded_eq (closure : Closure) (env : Compile.Environment) {chain : Chain}
    (ordered : chain.Ordered) {head : BinderId} (inside : head < chain.size)
    (supply : Compile.Supply) : closure.compileUnbounded env chain head supply =
      some (closure.compile env chain head supply) := by
  have follows := Compile.follows_compileUnbounded env closure.body head
  let before : Compile.Work := { toSupply := supply, chain }
  have stands : before.chain.Ordered ∧ head < before.chain.size := ⟨ordered, inside⟩
  unfold compileUnbounded Closure.compile EStateM.run
  cases compiled : Compile.compileBody env closure.body head before with
  | ok e work =>
      obtain ⟨-, _, ran, rfl⟩ := follows.ok stands (Compile.asUnbounded_eq_ok.mpr compiled)
      rw [Compile.asUnbounded_self] at ran
      rw [ran]
      rfl
  | error error work =>
      have ran := (follows.error stands (Compile.asUnbounded_eq_error.mpr compiled)).2 rfl
      rw [Compile.asUnbounded_self] at ran
      rw [ran]
      rfl

end StreamQuery
