import StreamQuery.Proofs.CompileRun

/-! # Compilations that follow each other

The way through a body is written once, for any kind of steps. So two compilations are compared
once, too: one follows the other if it ends as that does, with the same work left behind, wherever
the other ends at all. `Comparison` says what is known of the work on the way. If arguments are
looked up alike on both sides and nested closures are compiled alike, then all instructions, runs
and bodies follow.
-/

namespace StreamQuery

/-! ## Steps that may go on forever -/

/-- Steps with a state that may fail and may go on forever. The state is kept when a step
fails. -/
abbrev Endless (ε σ : Type) := ExceptT ε (StateT σ Option)

namespace Endless

variable {ε σ α β : Type} {x : Endless ε σ α} {f : α → Endless ε σ β} {state state' : σ}

theorem bind_apply (x : Endless ε σ α) (f : α → Endless ε σ β) (state : σ) :
    (x >>= f) state = (x state).bind fun (result, between) =>
      match result with
      | .ok a => f a between
      | .error error => some (.error error, between) := by
  change Option.bind (x state) _ = _
  congr 1
  funext (result, between)
  cases result <;> rfl

theorem bind_congr {f g : α → Endless ε σ β}
    (same : ∀ state a state', x state = some (.ok a, state') → f a state' = g a state') :
    x >>= f = x >>= g := by
  funext state
  rw [bind_apply, bind_apply]
  cases ran : x state with
  | none => rfl
  | some outcome =>
      obtain ⟨result, between⟩ := outcome
      cases result with
      | error error => rfl
      | ok a => exact same state a between ran

theorem bind_eq_ok {b : β} : (x >>= f) state = some (.ok b, state') ↔
    ∃ a between, x state = some (.ok a, between) ∧ f a between = some (.ok b, state') := by
  rw [bind_apply]
  rcases x state with _ | ⟨_ | a, between⟩ <;> simp

theorem bind_eq_error {error : ε} : (x >>= f) state = some (.error error, state') ↔
    x state = some (.error error, state') ∨
      ∃ a between, x state = some (.ok a, between) ∧ f a between = some (.error error, state') := by
  rw [bind_apply]
  rcases x state with _ | ⟨_ | a, between⟩ <;> simp

end Endless

/-- One of two settings allows all that the other does. -/
structure Settings.LimitsLe (settings raised : Settings) : Prop where
  maxBranches : settings.maxBranches ≤ raised.maxBranches
  maxSteps : settings.maxSteps ≤ raised.maxSteps
  maxLocals : settings.maxLocals ≤ raised.maxLocals

namespace Compile

abbrev UnboundedM := Endless CompileError Work

/-- A kind of steps that are among those that may go on forever. -/
class AsUnbounded (M : Type → Type) [Monad M] [MonadExceptOf CompileError M]
    [MonadStateOf Work M] where
  asUnbounded {α : Type} : M α → UnboundedM α
  asUnbounded_pure {α : Type} (a : α) : asUnbounded (pure a : M α) = pure a
  asUnbounded_bind {α β : Type} (x : M α) (f : α → M β) :
    asUnbounded (x >>= f) = asUnbounded x >>= fun a => asUnbounded (f a)
  asUnbounded_throw {α : Type} (error : CompileError) :
    asUnbounded (throw error : M α) = throw error
  asUnbounded_get : asUnbounded (get : M Work) = get
  asUnbounded_modifyGet {α : Type} (f : Work → α × Work) :
    asUnbounded (modifyGet f : M α) = modifyGet f

export AsUnbounded (asUnbounded)

instance : AsUnbounded UnboundedM where
  asUnbounded x := x
  asUnbounded_pure _ := rfl
  asUnbounded_bind _ _ := rfl
  asUnbounded_throw _ := rfl
  asUnbounded_get := rfl
  asUnbounded_modifyGet _ := rfl

theorem asUnbounded_self {α : Type} (x : UnboundedM α) : asUnbounded x = x := rfl

def ofBounded {α : Type} (x : CompileM α) : UnboundedM α := fun work =>
  match x work with
  | .ok a after => some (.ok a, after)
  | .error error after => some (.error error, after)

instance : AsUnbounded CompileM where
  asUnbounded := ofBounded
  asUnbounded_pure _ := rfl
  asUnbounded_bind x f := by
    funext work
    have ran : (x >>= f) work = EStateM.bind x f work := rfl
    rw [Endless.bind_apply]
    unfold ofBounded
    rw [ran, EStateM.bind]
    cases x work <;> rfl
  asUnbounded_throw _ := rfl
  asUnbounded_get := rfl
  asUnbounded_modifyGet _ := rfl

theorem asUnbounded_read {M : Type → Type} [Monad M] [MonadExceptOf CompileError M]
    [MonadStateOf Work M] [AsUnbounded M] {α : Type} (f : Work → α) (work : Work) :
    asUnbounded (do pure (f (← get)) : M α) work = some (.ok (f work), work) := by
  simp only [AsUnbounded.asUnbounded_bind, AsUnbounded.asUnbounded_get,
    AsUnbounded.asUnbounded_pure]
  rfl

section Outcomes

variable {α : Type} {x : CompileM α} {work after : Work}

theorem asUnbounded_eq_ok {a : α} :
    asUnbounded x work = some (.ok a, after) ↔ x work = .ok a after := by
  change ofBounded x work = _ ↔ _
  unfold ofBounded
  cases x work <;> simp

theorem asUnbounded_eq_error {error : CompileError} :
    asUnbounded x work = some (.error error, after) ↔ x work = .error error after := by
  change ofBounded x work = _ ↔ _
  unfold ofBounded
  cases x work <;> simp

end Outcomes

/-! ## Following, step by step -/

structure Environment.LimitsLe (env env' : Environment) : Prop where
  schema : env.schema = env'.schema
  settings : env.settings.LimitsLe env'.settings

theorem Environment.LimitsLe.refl (env : Environment) : env.LimitsLe env :=
  ⟨rfl, Nat.le_refl _, Nat.le_refl _, Nat.le_refl _⟩

/-- What two compilations are compared by: the places in nested closures where they are, and what
is known of the work there. -/
structure Comparison (env env' : Environment) where
  limits : env.LimitsLe env'
  Place : Type
  /-- The innermost binder. -/
  head : Place → BinderId
  /-- Whether a place is inside a nested closure. -/
  Inner : Place → Prop
  /-- What is known of the closures that were made at a place. -/
  MadeAt : Place → Made → Prop
  Stands : Place → Work → Prop
  Keeps : Work → Work → Prop
  keeps_of_chain {work after : Work} (chain : after.chain = work.chain)
    (le : work.nextSource ≤ after.nextSource) : Keeps work after
  keeps_trans {work between after : Work} :
    Keeps work between → Keeps between after → Keeps work after
  stands {p : Place} {work after : Work} : Stands p work → Keeps work after → Stands p after
  makes (p : Place) (inner : Body) (forwards : List Argument) :
    MadeAt p ⟨inner, forwards, head p⟩
  nested {p : Place} {work : Work} {made : Made} (h : Stands p work) (madeAt : MadeAt p made)
    (type : ValueType) :
    let inner := { work with
      chain := (work.chain.push (.outer made.forwards) (some made.creator)).pushElement type
        (some work.chain.size) }
    Keeps work inner ∧ ∃ p', Inner p' ∧ head p' = work.chain.size + 1 ∧ Stands p' inner

def Comparison.plain {env env' : Environment} (limits : env.LimitsLe env') :
    Comparison env env' where
  limits := limits
  Place := BinderId
  head := id
  Inner _ := True
  MadeAt _ _ := True
  Stands _ _ := True
  Keeps _ _ := True
  keeps_of_chain _ _ := trivial
  keeps_trans _ _ := trivial
  stands _ _ := trivial
  makes _ _ _ := trivial
  nested _ _ _ := ⟨trivial, _, trivial, rfl, trivial⟩

section Steps

variable {env env' : Environment} (S : Comparison env env') {α β γ δ : Type}
  {M M' : Type → Type} [Monad M] [MonadExceptOf CompileError M] [MonadStateOf Work M]
  [AsUnbounded M] [Monad M'] [MonadExceptOf CompileError M'] [MonadStateOf Work M']
  [AsUnbounded M']

/-- Where one computation ends, the other one does so with a related result and the same work. It
also fails alike if the limits are the same. -/
structure Follows (p : S.Place) (R : α → β → Prop) (x : M α) (y : M' β) : Prop where
  ok ⦃work after : Work⦄ ⦃a : α⦄ : S.Stands p work → asUnbounded x work = some (.ok a, after) →
    S.Keeps work after ∧ ∃ b, asUnbounded y work = some (.ok b, after) ∧ R a b
  error ⦃work after : Work⦄ ⦃error : CompileError⦄ : S.Stands p work →
    asUnbounded x work = some (.error error, after) →
      S.Keeps work after ∧ (env = env' → asUnbounded y work = some (.error error, after))

variable {S} {p : S.Place} {R : α → β → Prop} {T : γ → δ → Prop} {x : M α} {y : M' β}

theorem Comparison.keeps_refl (S : Comparison env env') (work : Work) : S.Keeps work work :=
  S.keeps_of_chain rfl (Nat.le_refl _)

theorem Follows.bind {f : α → M γ} {g : β → M' δ} (first : Follows S p R x y)
    (rest : ∀ a b, R a b → Follows S p T (f a) (g b)) : Follows S p T (x >>= f) (y >>= g) where
  ok := by
    intro work after c stands h
    rw [AsUnbounded.asUnbounded_bind, Endless.bind_eq_ok] at h
    obtain ⟨a, between, ran, h⟩ := h
    obtain ⟨kept, b, ran', related⟩ := first.ok stands ran
    obtain ⟨kept', d, h', related'⟩ := (rest a b related).ok (S.stands stands kept) h
    refine ⟨S.keeps_trans kept kept', d, ?_, related'⟩
    rw [AsUnbounded.asUnbounded_bind, Endless.bind_eq_ok]
    exact ⟨b, between, ran', h'⟩
  error := by
    intro work after error stands h
    rw [AsUnbounded.asUnbounded_bind, Endless.bind_eq_error] at h ⊢
    rcases h with failed | ⟨a, between, ran, h⟩
    · obtain ⟨kept, failed'⟩ := first.error stands failed
      exact ⟨kept, fun same => .inl (failed' same)⟩
    · obtain ⟨kept, b, ran', related⟩ := first.ok stands ran
      obtain ⟨kept', h'⟩ := (rest a b related).error (S.stands stands kept) h
      exact ⟨S.keeps_trans kept kept', fun same => .inr ⟨b, between, ran', h' same⟩⟩

/-- Both go on from the same result. -/
theorem Follows.andThen {x : M α} {y : M' α} {f : α → M γ} {g : α → M' δ}
    (first : Follows S p Eq x y) (rest : ∀ a, Follows S p T (f a) (g a)) :
    Follows S p T (x >>= f) (y >>= g) :=
  first.bind fun a _ same => same ▸ rest a

theorem follows_pure {a : α} {b : β} (h : R a b) : Follows S p R (pure a : M α) (pure b : M' β) where
  ok := by
    intro work after _ _ ran
    rw [AsUnbounded.asUnbounded_pure] at ran ⊢
    cases ran
    exact ⟨S.keeps_refl work, b, rfl, h⟩
  error := by
    intro work after _ _ ran
    rw [AsUnbounded.asUnbounded_pure] at ran
    cases ran

/-- A failure is followed by the same one, which is only asked for under the same limits. -/
theorem follows_throw_of {error : CompileError} (same : env = env' → y = throw error) :
    Follows S p R (throw error : M α) y where
  ok := by
    intro work after _ _ ran
    rw [AsUnbounded.asUnbounded_throw] at ran
    cases ran
  error := by
    intro work after _ _ ran
    rw [AsUnbounded.asUnbounded_throw] at ran
    cases ran
    refine ⟨S.keeps_refl work, fun limits => ?_⟩
    rw [same limits, AsUnbounded.asUnbounded_throw]
    rfl

theorem follows_throw (error : CompileError) :
    Follows S p R (throw error : M α) (throw error : M' β) :=
  follows_throw_of fun _ => rfl

theorem follows_liftObstacle (id : ClosureId) (pc : Nat) (result : Except Obstacle α) :
    Follows S p Eq (liftObstacle id pc result : M α) (liftObstacle id pc result : M' α) := by
  cases result with
  | ok a => exact follows_pure rfl
  | error obstacle => exact follows_throw _

theorem follows_modifyGet {f : Work → α × Work}
    (kept : ∀ work, S.Stands p work → S.Keeps work (f work).2) :
    Follows S p Eq (modifyGet f : M α) (modifyGet f : M' α) where
  ok := by
    intro work after _ stands ran
    rw [AsUnbounded.asUnbounded_modifyGet] at ran ⊢
    cases ran
    exact ⟨kept work stands, _, rfl, rfl⟩
  error := by
    intro work after _ _ ran
    rw [AsUnbounded.asUnbounded_modifyGet] at ran
    cases ran

theorem follows_get : Follows S p Eq (get : M Work) (get : M' Work) where
  ok := by
    intro work after _ _ ran
    rw [AsUnbounded.asUnbounded_get] at ran ⊢
    cases ran
    exact ⟨S.keeps_refl work, work, rfl, rfl⟩
  error := by
    intro work after _ _ ran
    rw [AsUnbounded.asUnbounded_get] at ran
    cases ran

/-- The work is read, in ways that do not differ where it stands. -/
theorem follows_read {f g : Work → α} (same : ∀ work, S.Stands p work → f work = g work) :
    Follows S p Eq (do pure (f (← get)) : M α) (do pure (g (← get)) : M' α) where
  ok := by
    intro work after a stands ran
    rw [asUnbounded_read] at ran ⊢
    cases ran
    exact ⟨S.keeps_refl work, g work, rfl, same work stands⟩
  error := by
    intro work after error _ ran
    rw [asUnbounded_read] at ran
    cases ran

theorem follows_openSource : Follows S p Eq (openSource : M SourceId) (openSource : M' SourceId) :=
  follows_modifyGet fun _ _ => S.keeps_of_chain rfl (Nat.le_succ _)

theorem follows_peekSource : Follows S p Eq (peekSource : M SourceId) (peekSource : M' SourceId) :=
  follows_read fun _ _ => rfl

theorem follows_build (make : StateM Nat α) :
    Follows S p Eq (build make : M α) (build make : M' α) :=
  follows_modifyGet fun _ _ => S.keeps_of_chain rfl (Nat.le_refl _)

/-- Whatever comes of one comes of the other. -/
theorem follows_plain {limits : env.LimitsLe env'} {head : BinderId} {x : M α} {y : M' α}
    (more : ∀ work outcome, asUnbounded x work = some outcome → asUnbounded y work = some outcome) :
    Follows (.plain limits) head Eq x y where
  ok _ _ a _ ran := ⟨trivial, a, more _ _ ran, rfl⟩
  error _ _ _ _ ran := ⟨trivial, fun _ => more _ _ ran⟩

/-- Under the same limits, steps that end come to the same. -/
theorem Follows.apply_eq {env : Environment} {S : Comparison env env} {p : S.Place}
    {x y : CompileM α} (h : Follows S p Eq x y) {work : Work} (stands : S.Stands p work) :
    x work = y work := by
  cases ran : x work with
  | ok a after =>
      obtain ⟨-, _, same, rfl⟩ := h.ok stands (asUnbounded_eq_ok.mpr ran)
      exact (asUnbounded_eq_ok.mp same).symm
  | error error after =>
      obtain ⟨-, same⟩ := h.error stands (asUnbounded_eq_error.mpr ran)
      exact (asUnbounded_eq_error.mp (same rfl)).symm

/-- A nested closure is opened, and what follows looks up its arguments from there. -/
theorem follows_opened {f : BinderId → M α} {g : BinderId → M' β} {made : Made}
    (madeAt : S.MadeAt p made) (type : ValueType)
    (rest : ∀ p', S.Inner p' → Follows S p' R (f (S.head p')) (g (S.head p'))) :
    Follows S p R
      (do let outer ← pushBinder (.outer made.forwards) (some made.creator)
          let inner ← pushElement type (some outer)
          f inner : M α)
      (do let outer ← pushBinder (.outer made.forwards) (some made.creator)
          let inner ← pushElement type (some outer)
          g inner : M' β) := by
  have size (work : Work) : (work.chain.push (.outer made.forwards) (some made.creator)).size =
      work.chain.size + 1 :=
    Array.size_push _
  have opens {N : Type → Type} [Monad N] [MonadExceptOf CompileError N] [MonadStateOf Work N]
      [AsUnbounded N] {τ : Type} (k : BinderId → N τ) (work : Work) :
      asUnbounded (do
          let outer ← pushBinder (.outer made.forwards) (some made.creator)
          let inner ← pushElement type (some outer)
          k inner : N τ) work =
        asUnbounded (k (work.chain.size + 1)) { work with
          chain := (work.chain.push (.outer made.forwards) (some made.creator)).pushElement type
            (some work.chain.size) } := by
    simp only [AsUnbounded.asUnbounded_bind, pushBinder, pushElement,
      AsUnbounded.asUnbounded_modifyGet]
    rw [← size]
    rfl
  constructor
  · intro work after a stands ran
    obtain ⟨kept, p', inner, head, stands⟩ := S.nested stands madeAt type
    rw [opens] at ran ⊢
    rw [← head] at ran ⊢
    obtain ⟨kept', found⟩ := (rest p' inner).ok stands ran
    exact ⟨S.keeps_trans kept kept', found⟩
  · intro work after error stands ran
    obtain ⟨kept, p', inner, head, stands⟩ := S.nested stands madeAt type
    rw [opens] at ran ⊢
    rw [← head] at ran ⊢
    obtain ⟨kept', found⟩ := (rest p' inner).error stands ran
    exact ⟨S.keeps_trans kept kept', found⟩

/-! ## Limits -/

theorem Counter.limit_le (h : env.LimitsLe env') (counter : Counter) :
    counter.limit env.settings ≤ counter.limit env'.settings := by
  cases counter with
  | steps => exact h.settings.maxSteps
  | forks => exact h.settings.maxBranches

/-- A count that passes a limit passes a larger one. -/
theorem follows_count (counter : Counter) (id : ClosureId) (pc : Nat) :
    Follows S p Eq (count counter env id pc : M Unit) (count counter env' id pc : M' Unit) := by
  have raised : Follows S p Eq (modify (counter.raise ·) : M PUnit)
      (modify (counter.raise ·) : M' PUnit) :=
    follows_modifyGet fun work _ => by
      cases counter <;> exact S.keeps_of_chain rfl (Nat.le_refl _)
  refine raised.andThen fun _ => follows_get.andThen fun work => ?_
  have le := Counter.limit_le S.limits counter
  by_cases many : counter.limit env.settings < counter.count work
  · rw [if_pos many]
    refine follows_throw_of fun same => ?_
    subst same
    rw [if_pos many]
  · rw [if_neg many, if_neg (by omega)]
    exact follows_pure rfl

theorem follows_checkLocal (id : ClosureId) (pc slot : Nat) :
    Follows S p Eq (checkLocal env id pc slot : M Unit) (checkLocal env' id pc slot : M' Unit) := by
  have le := S.limits.settings.maxLocals
  unfold checkLocal
  by_cases few : slot < env.settings.maxLocals
  · rw [if_pos few, if_pos (by omega)]
    exact follows_pure rfl
  · rw [if_neg few]
    refine follows_throw_of fun same => ?_
    subst same
    rw [if_neg few]
    rfl

theorem Follows.withOwnLimits {x : M α} {y : M' α} (h : Follows S p Eq x y) :
    Follows S p Eq (withOwnLimits x) (withOwnLimits y) := by
  refine (follows_modifyGet fun _ _ => ?_).andThen fun before => h.andThen fun a =>
    (follows_modifyGet fun _ _ => ?_).andThen fun _ => follows_pure rfl
  all_goals exact S.keeps_of_chain rfl (Nat.le_refl _)

theorem Follows.inNormalForm {x : M Expr} {y : M' Expr} (h : Follows S p Eq x y) :
    Follows S p Eq (inNormalForm x) (inNormalForm y) :=
  (h.andThen fun _ => follows_pure rfl).withOwnLimits

end Steps

end Compile

/-! ## Frames that match -/

section Frames

variable {possible possible' : Made → Prop} {good : Made → Prop}

/-- The same value or the same closure, which is a good one. -/
inductive Operand.Matches (good : Made → Prop) : Operand possible → Operand possible' → Prop where
  | value (e : Expr) : Operand.Matches good (.value e) (.value e)
  | closure {pending : Pending possible} {pending' : Pending possible'}
      (same : pending'.toMade = pending.toMade) (isGood : good pending.toMade) :
      Operand.Matches good (.closure pending) (.closure pending')

theorem Operand.Matches.eq {operand operand' : Operand possible}
    (h : operand.Matches good operand') : operand = operand' := by
  cases h with
  | value e => rfl
  | @closure pending pending' same _ =>
      obtain ⟨made, _⟩ := pending
      obtain ⟨_, _⟩ := pending'
      cases same
      rfl

structure Frame.Matches (good : Made → Prop) (frame : Frame possible) (frame' : Frame possible') :
    Prop where
  stack : List.Forall₂ (Operand.Matches good) frame.stack frame'.stack
  locals : List.Forall₂ (fun entry entry' => entry.1 = entry'.1 ∧ entry.2.Matches good entry'.2)
    frame.locals frame'.locals

variable {frame : Frame possible} {frame' : Frame possible'} {operand : Operand possible}
  {operand' : Operand possible'}

namespace Frame.Matches

theorem refl (all : ∀ made, good made) (frame : Frame possible) : frame.Matches good frame := by
  have same (operand : Operand possible) : operand.Matches good operand := by
    cases operand with
    | value e => exact .value e
    | closure pending => exact .closure rfl (all _)
  exact ⟨List.forall₂_same.mpr fun operand _ => same operand,
    List.forall₂_same.mpr fun entry _ => ⟨rfl, same entry.2⟩⟩

theorem empty : Matches good (.empty : Frame possible) (.empty : Frame possible') := ⟨.nil, .nil⟩

theorem eq {frame frame' : Frame possible} (h : frame.Matches good frame') : frame = frame' := by
  obtain ⟨stack, locals⟩ := frame
  obtain ⟨stack', locals'⟩ := frame'
  have sameStack : stack = stack' := List.forall₂_eq_eq_eq ▸ h.stack.imp fun _ _ same => same.eq
  have sameLocals : locals = locals' := List.forall₂_eq_eq_eq ▸
    h.locals.imp fun _ _ same => Prod.ext same.1 same.2.eq
  rw [sameStack, sameLocals]

theorem push (h : frame.Matches good frame') (top : operand.Matches good operand') :
    (frame.push operand).Matches good (frame'.push operand') :=
  ⟨.cons top h.stack, h.locals⟩

theorem pushValue (h : frame.Matches good frame') (e : Expr) :
    (frame.pushValue e).Matches good (frame'.pushValue e) :=
  h.push (.value e)

theorem store (h : frame.Matches good frame') (slot : Nat) (value : operand.Matches good operand') :
    (frame.store slot operand).Matches good (frame'.store slot operand') :=
  ⟨h.stack, .cons ⟨rfl, value⟩ h.locals⟩

theorem load? (h : frame.Matches good frame') (slot : Nat) :
    Option.Rel (Operand.Matches good) (frame.load? slot) (frame'.load? slot) := by
  obtain ⟨_, locals⟩ := h
  unfold Frame.load?
  generalize frame.locals = entries at locals ⊢
  generalize frame'.locals = entries' at locals ⊢
  induction locals with
  | nil => exact .none
  | @cons entry entry' entries entries' first rest ih =>
      obtain ⟨slot', operand⟩ := entry
      obtain ⟨_, operand'⟩ := entry'
      obtain ⟨rfl, value⟩ := first
      simp only [List.lookup]
      split
      · exact .some value
      · exact ih

end Frame.Matches

end Frames

namespace Compile

inductive Flow.Matches {possible possible' : Made → Prop} (good : Made → Prop) :
    Flow possible → Flow possible' → Prop where
  | next {frame : Frame possible} {frame' : Frame possible'} (h : frame.Matches good frame') :
      Flow.Matches good (.next frame) (.next frame')
  | jump (target : Nat) {frame : Frame possible} {frame' : Frame possible'}
      (h : frame.Matches good frame') : Flow.Matches good (.jump target frame) (.jump target frame')
  | branch (test : Expr) (target : Nat) {frame : Frame possible} {frame' : Frame possible'}
      (h : frame.Matches good frame') :
      Flow.Matches good (.branch test target frame) (.branch test target frame')
  | done (result : Expr) : Flow.Matches good (.done result) (.done result)

section Operands

variable {env env' : Environment} {S : Comparison env env'} {p : S.Place}
  {M M' : Type → Type} [Monad M] [MonadExceptOf CompileError M] [MonadStateOf Work M]
  [AsUnbounded M] [Monad M'] [MonadExceptOf CompileError M'] [MonadStateOf Work M']
  [AsUnbounded M'] {possible possible' good : Made → Prop} {frame : Frame possible}
  {frame' : Frame possible'} (id : ClosureId) (pc : Nat)

/-! ## Operands -/

theorem follows_pop (h : frame.Matches good frame') :
    Follows S p (fun a b => a.1.Matches good b.1 ∧ a.2.Matches good b.2)
      (pop id pc frame : M _) (pop id pc frame' : M' _) := by
  obtain ⟨stack, locals⟩ := frame
  obtain ⟨stack', locals'⟩ := frame'
  cases h.stack with
  | nil => exact follows_throw _
  | cons top rest => exact follows_pure ⟨top, rest, h.locals⟩

theorem follows_popValue (h : frame.Matches good frame') :
    Follows S p (fun a b => a.1 = b.1 ∧ a.2.Matches good b.2)
      (popValue id pc frame : M _) (popValue id pc frame' : M' _) := by
  refine (follows_pop id pc h).bind ?_
  rintro ⟨_, rest⟩ ⟨_, rest'⟩ ⟨top, below⟩
  cases top with
  | value e => exact follows_pure ⟨rfl, below⟩
  | closure same _ =>
      simp only [same]
      exact follows_throw _

theorem follows_popTwo (h : frame.Matches good frame') :
    Follows S p (fun a b => a.1 = b.1 ∧ a.2.1 = b.2.1 ∧ a.2.2.Matches good b.2.2)
      (popTwo id pc frame : M _) (popTwo id pc frame' : M' _) := by
  refine (follows_popValue id pc h).bind ?_
  rintro ⟨right, rest⟩ ⟨_, rest'⟩ ⟨rfl, below⟩
  refine (follows_popValue id pc below).bind ?_
  rintro ⟨left, rest⟩ ⟨_, rest'⟩ ⟨rfl, below⟩
  exact follows_pure ⟨rfl, rfl, below⟩

theorem follows_popMany (count : Nat) (h : frame.Matches good frame') :
    Follows S p (fun a b => List.Forall₂ (Operand.Matches good) a.1 b.1 ∧ a.2.Matches good b.2)
      (popMany id pc count frame : M _) (popMany id pc count frame' : M' _) := by
  unfold popMany Frame.popMany?
  rw [h.stack.length_eq]
  by_cases enough : count ≤ frame'.stack.length
  · simp only [if_pos enough]
    have taken := List.rel_reverse (List.forall₂_take count h.stack)
    exact follows_pure ⟨taken, List.forall₂_drop count h.stack, h.locals⟩
  · simp only [if_neg enough]
    exact follows_throw _

theorem valuesOf_eq {operands : List (Operand possible)} {operands' : List (Operand possible')}
    (h : List.Forall₂ (Operand.Matches good) operands operands') :
    valuesOf operands = valuesOf operands' := by
  induction h with
  | nil => rfl
  | cons first rest ih =>
      cases first with
      | value e => simp only [valuesOf, ih]
      | closure same _ => simp only [valuesOf, same]

theorem follows_newTuple (arity : Nat) (h : frame.Matches good frame') :
    Follows S p (fun a b => a.Matches good b) (newTuple id pc arity frame : M _)
      (newTuple id pc arity frame' : M' _) := by
  unfold newTuple
  split
  · exact follows_throw _
  · refine (follows_popMany id pc arity h).bind ?_
    rintro ⟨operands, rest⟩ ⟨operands', rest'⟩ ⟨same, below⟩
    simp only [valuesOf_eq same]
    refine (follows_liftObstacle _ _ _).andThen fun values => ?_
    exact follows_pure (below.pushValue _)

/-! ## Calls -/

def NestedFollows (S : Comparison env env') (good : Made → Prop)
    (nested : Pending possible → BinderId → M Expr)
    (nested' : Pending possible' → BinderId → M' Expr) : Prop :=
  ∀ ⦃pending pending'⦄, pending'.toMade = pending.toMade → good pending.toMade →
    ∀ p, S.Inner p → Follows S p Eq (nested pending (S.head p)) (nested' pending' (S.head p))

variable {nested : Pending possible → BinderId → M Expr}
  {nested' : Pending possible' → BinderId → M' Expr}

theorem follows_overRows (nests : NestedFollows S good nested nested')
    (here : ∀ made, good made → S.MadeAt p made) {pending : Pending possible}
    {pending' : Pending possible'} (same : pending'.toMade = pending.toMade)
    (isGood : good pending.toMade) (query : Query) :
    Follows S p Eq (overRows id pc nested pending query)
      (overRows id pc nested' pending' query) := by
  unfold overRows
  simp only [same]
  split
  · exact follows_throw _
  · refine follows_opened (here _ isGood) _ fun inner isInner => ?_
    exact (nests same isGood inner isInner).andThen fun e => follows_build _

theorem follows_overStream (nests : NestedFollows S good nested nested')
    (here : ∀ made, good made → S.MadeAt p made) {pending : Pending possible}
    {pending' : Pending possible'} (same : pending'.toMade = pending.toMade)
    (isGood : good pending.toMade) (stream : Expr) {use : Query → Expr → M Expr}
    {use' : Query → Expr → M' Expr}
    (uses : ∀ query e, Follows S p Eq (use query e) (use' query e)) :
    Follows S p Eq (overStream id pc nested stream pending use)
      (overStream id pc nested' stream pending' use') := by
  refine (follows_liftObstacle _ _ _).andThen fun query => ?_
  exact (follows_overRows id pc nests here same isGood query).andThen (uses query)

theorem follows_derived (make : SourceId → Except Refusal Query) :
    Follows S p Eq (derived id pc make : M Expr) (derived id pc make : M' Expr) := by
  refine follows_peekSource.andThen fun next => ?_
  refine (follows_liftObstacle _ _ _).andThen fun query => ?_
  exact (follows_build _).andThen fun _ => follows_pure rfl

theorem follows_aggregated (fn : AggregateFn) (query : Query) (arg : Expr) :
    Follows S p Eq (aggregated id pc fn query arg : M Expr)
      (aggregated id pc fn query arg : M' Expr) := by
  unfold aggregated
  split
  · exact follows_throw _
  · exact follows_pure rfl

section Shapes

variable {args : List (Operand possible)} {args' : List (Operand possible')}
  (same : List.Forall₂ (Operand.Matches good) args args')

include same

theorem matches_value {e : Expr} (shape : args = [.value e]) : args' = [.value e] := by
  subst shape
  obtain _ | ⟨first, rest⟩ := same
  cases first
  cases rest
  rfl

theorem matches_value' {e : Expr} (shape : args' = [.value e]) : args = [.value e] := by
  subst shape
  obtain _ | ⟨first, rest⟩ := same
  cases first
  cases rest
  rfl

theorem matches_closure {stream : Expr} {pending : Pending possible}
    (shape : args = [.value stream, .closure pending]) :
    ∃ pending' : Pending possible', pending'.toMade = pending.toMade ∧ good pending.toMade ∧
      args' = [.value stream, .closure pending'] := by
  subst shape
  obtain _ | ⟨first, _ | ⟨second, rest⟩⟩ := same
  cases first
  cases rest
  obtain _ | ⟨same, isGood⟩ := second
  exact ⟨_, same, isGood, rfl⟩

theorem matches_closure' {stream : Expr} {pending' : Pending possible'}
    (shape : args' = [.value stream, .closure pending']) :
    ∃ pending : Pending possible, args = [.value stream, .closure pending] := by
  subst shape
  obtain _ | ⟨first, _ | ⟨second, rest⟩⟩ := same
  cases first
  cases rest
  cases second
  exact ⟨_, rfl⟩

end Shapes

theorem follows_streamCall (nests : NestedFollows S good nested nested')
    (here : ∀ made, good made → S.MadeAt p made) (method : Method)
    {args : List (Operand possible)} {args' : List (Operand possible')}
    (same : List.Forall₂ (Operand.Matches good) args args') :
    Follows S p Eq (streamCall id pc nested method args)
      (streamCall id pc nested' method args') := by
  fun_cases streamCall id pc nested method args
  case case1 path static name element collection =>
    obtain rfl := matches_value same rfl
    rw [streamCall.eq_1 _ _ _ _ _ name static, collection]
    exact follows_openSource.andThen fun _ => follows_pure rfl
  case case2 path static name other =>
    obtain rfl := matches_value same rfl
    rw [streamCall.eq_1 _ _ _ _ _ name static]
    split
    · next element collection => exact absurd collection (other element)
    · exact follows_throw _
  case case3 stream static name =>
    obtain rfl := matches_value same rfl
    rw [streamCall.eq_2 _ _ _ _ _ name static]
    exact (follows_liftObstacle _ _ _).andThen fun query => follows_pure rfl
  case case4 stream pending static name =>
    obtain ⟨pending', made, isGood, rfl⟩ := matches_closure same rfl
    rw [streamCall.eq_3 _ _ _ _ _ _ name static]
    exact follows_overStream id pc nests here made isGood stream fun query e =>
      follows_derived id pc (query.filtered e)
  case case5 stream pending static name =>
    obtain ⟨pending', made, isGood, rfl⟩ := matches_closure same rfl
    rw [streamCall.eq_4 _ _ _ _ _ _ name static]
    exact follows_overStream id pc nests here made isGood stream fun query e =>
      follows_derived id pc (query.projected e)
  case case6 stream pending static fn notWhere notSelect found =>
    obtain ⟨pending', made, isGood, rfl⟩ := matches_closure same rfl
    rw [streamCall.eq_5 _ _ _ _ _ _ static notWhere notSelect, found]
    exact follows_overStream id pc nests here made isGood stream (follows_aggregated id pc fn)
  case case7 stream pending static notWhere notSelect missing =>
    obtain ⟨pending', made, isGood, rfl⟩ := matches_closure same rfl
    rw [streamCall.eq_5 _ _ _ _ _ _ static notWhere notSelect, missing]
    exact follows_throw _
  case case8 noRows noPath noCount _ _ =>
    have noRows' (stream : Expr) (pending' : Pending possible') (static : method.isStatic = false)
        (shape : args' = [.value stream, .closure pending']) : False := by
      obtain ⟨pending, rfl⟩ := matches_closure' same shape
      exact noRows stream pending static rfl
    have single {e : Expr} := matches_value' (e := e) same
    rw [streamCall.eq_6 _ _ _ _ _ noRows'
      (fun path name static shape => noPath path name static (single shape))
      (fun stream name static shape => noCount stream name static (single shape))
      (fun stream made _ => noRows' stream made) fun stream made _ => noRows' stream made]
    exact follows_throw _

theorem follows_invoke (nests : NestedFollows S good nested nested')
    (here : ∀ made, good made → S.MadeAt p made) (method : Method)
    {args : List (Operand possible)} {args' : List (Operand possible')}
    (same : List.Forall₂ (Operand.Matches good) args args') :
    Follows S p Eq (invoke id pc env.schema nested method args)
      (invoke id pc env'.schema nested' method args') := by
  unfold invoke
  rw [valuesOf_eq same, S.limits.schema]
  split
  · exact follows_streamCall id pc nests here method same
  · refine (follows_liftObstacle _ _ _).andThen fun values => ?_
    cases valueCall env'.schema method values with
    | ok called =>
        cases called with
        | value e => exact follows_pure rfl
        | rows entity => exact follows_openSource.andThen fun _ => follows_pure rfl
    | error fault => cases fault <;> exact follows_throw _

/-! ## Arguments -/

structure LookupFollows (S : Comparison env env') (p : S.Place) (look : Lookup M)
    (look' : Lookup M') : Prop where
  value (arg : Argument) (expected : ValueType) :
    Follows S p Eq (look.value arg expected) (look'.value arg expected)
  stream (index : Nat) : Follows S p Eq (look.stream index) (look'.stream index)

variable {look : Lookup M} {look' : Lookup M'}

theorem follows_found {α : Type} (arg : Argument) (answer : Except BindError α) :
    Follows S p Eq (found id arg answer : M α) (found id arg answer : M' α) := by
  cases answer with
  | ok a => exact follows_pure rfl
  | error cause => exact follows_throw _

theorem LookupFollows.loadParam (h : LookupFollows S p look look') (body : Body) (index : Nat) :
    Follows S p Eq (loadParam look body index) (loadParam look' body index) := by
  unfold Compile.loadParam
  cases body.params[index]? with
  | none => exact follows_throw _
  | some expected =>
      cases expected with
      | streamSource => exact follows_pure rfl
      | stream element =>
          refine (h.stream index).andThen fun answer => ?_
          exact (follows_found _ _ answer).andThen fun query => follows_pure rfl
      | _ => exact (h.value _ _).andThen fun answer => follows_found _ _ answer

theorem LookupFollows.loadCapture (h : LookupFollows S p look look') (body : Body) (slot : Nat) :
    Follows S p Eq (loadCapture look body slot) (loadCapture look' body slot) := by
  unfold Compile.loadCapture
  cases body.captures[slot]? with
  | none => exact follows_throw _
  | some expected => exact (h.value _ _).andThen fun answer => follows_found _ _ answer

/-- Along the chain of binders both sides find the same. -/
theorem lookupFollows_alongChain (head : BinderId) :
    LookupFollows S p (.alongChain head) (.alongChain head) where
  value _ _ := follows_read fun _ _ => rfl
  stream _ := follows_read fun _ _ => rfl

end Operands

/-! ## Instructions -/

section Runs

variable {env env' : Environment} {S : Comparison env env'} {p : S.Place}
  {M M' : Type → Type} [Monad M] [MonadExceptOf CompileError M] [MonadStateOf Work M]
  [AsUnbounded M] [Monad M'] [MonadExceptOf CompileError M'] [MonadStateOf Work M']
  [AsUnbounded M'] {possible possible' : Made → Prop} {body : Body}
  {handles : Handles M possible body (S.head p)} {handles' : Handles M' possible' body (S.head p)}
  {pc : Nat} {frame : Frame possible} {frame' : Frame possible'}

structure HandlesFollow (S : Comparison env env') (p : S.Place)
    (handles : Handles M possible body (S.head p))
    (handles' : Handles M' possible' body (S.head p)) : Prop
    extends LookupFollows S p handles.toLookup handles'.toLookup where
  nested : NestedFollows S (S.MadeAt p) handles.nested handles'.nested

/-- An instruction that pushes one value. -/
theorem follows_pushed {x : M Expr} {y : M' Expr} (h : Follows S p Eq x y)
    (below : frame.Matches (S.MadeAt p) frame') :
    Follows S p (Flow.Matches (S.MadeAt p)) (do pure (.next (frame.pushValue (← x))))
      (do pure (.next (frame'.pushValue (← y)))) :=
  h.andThen fun e => follows_pure (.next (below.pushValue e))

theorem HandlesFollow.step (h : HandlesFollow S p handles handles') (instruction : Instruction)
    (written : instruction ∈ body.code) (same : frame.Matches (S.MadeAt p) frame') :
    Follows S p (Flow.Matches (S.MadeAt p)) (step env handles pc instruction written frame)
      (step env' handles' pc instruction written frame') := by
  cases instruction with
  | const value => exact follows_pure (.next (same.pushValue _))
  | loadParam index => exact follows_pushed (h.loadParam body index) same
  | loadCapture slot => exact follows_pushed (h.loadCapture body slot) same
  | load slot =>
      refine (follows_checkLocal _ _ slot).andThen fun _ => ?_
      have found := same.load? slot
      generalize frame.load? slot = operand, frame'.load? slot = operand' at found ⊢
      cases found with
      | none => exact follows_throw _
      | some value => exact follows_pure (.next (same.push value))
  | store slot =>
      refine (follows_checkLocal _ _ slot).andThen fun _ => ?_
      refine (follows_pop _ _ same).bind fun _ _ popped => ?_
      exact follows_pure (.next (popped.2.store slot popped.1))
  | dup =>
      refine (follows_pop _ _ same).bind fun _ _ popped => ?_
      exact follows_pure (.next (same.push popped.1))
  | pop =>
      refine (follows_pop _ _ same).bind fun _ _ popped => ?_
      exact follows_pure (.next popped.2)
  | invoke method =>
      refine (follows_popMany _ _ method.arity same).bind fun _ _ popped => ?_
      refine follows_pushed ?_ popped.2
      exact follows_invoke _ _ h.nested (fun _ madeAt => madeAt) method popped.1
  | newTuple arity =>
      refine (follows_newTuple _ _ arity same).bind fun _ _ pushed => ?_
      exact follows_pure (.next pushed)
  | makeClosure inner captures => exact follows_pure (.next (same.push (.closure rfl (S.makes ..))))
  | arith op =>
      refine (follows_popTwo _ _ same).bind ?_
      rintro ⟨left, right, _⟩ ⟨_, _, _⟩ ⟨rfl, rfl, below⟩
      exact follows_pushed (follows_liftObstacle _ _ _) below
  | neg =>
      refine (follows_popValue _ _ same).bind ?_
      rintro ⟨operand, _⟩ ⟨_, _⟩ ⟨rfl, below⟩
      exact follows_pushed (follows_liftObstacle _ _ _) below
  | compare op =>
      refine (follows_popTwo _ _ same).bind ?_
      rintro ⟨left, right, _⟩ ⟨_, _, _⟩ ⟨rfl, rfl, below⟩
      exact follows_pushed (follows_liftObstacle _ _ _) below
  | convert type =>
      refine (follows_popValue _ _ same).bind ?_
      rintro ⟨operand, _⟩ ⟨_, _⟩ ⟨rfl, below⟩
      exact follows_pushed (follows_liftObstacle _ _ _) below
  | ifZero op target =>
      refine (follows_popValue _ _ same).bind ?_
      rintro ⟨operand, _⟩ ⟨_, _⟩ ⟨rfl, below⟩
      exact (follows_liftObstacle _ _ _).andThen fun test =>
        follows_pure (.branch test target below)
  | ifCompare op target =>
      refine (follows_popTwo _ _ same).bind ?_
      rintro ⟨left, right, _⟩ ⟨_, _, _⟩ ⟨rfl, rfl, below⟩
      exact (follows_liftObstacle _ _ _).andThen fun test =>
        follows_pure (.branch test target below)
  | goto target => exact follows_pure (.jump target same)
  | ret =>
      refine (follows_popValue _ _ same).bind ?_
      rintro ⟨value, _⟩ ⟨_, _⟩ ⟨rfl, _⟩
      exact (follows_liftObstacle _ _ _).andThen fun result => follows_pure (.done result)

/-! ## Runs -/

/-- What follows an instruction, given that the runs from later ones follow. -/
theorem follows_resume (id : ClosureId)
    {later : (target : Nat) → pc < target → Frame possible → M Expr}
    {later' : (target : Nat) → pc < target → Frame possible' → M' Expr} {flow : Flow possible}
    {flow' : Flow possible'} (same : flow.Matches (S.MadeAt p) flow')
    (runs : ∀ target forward frame frame', frame.Matches (S.MadeAt p) frame' →
      Follows S p Eq (later target forward frame) (later' target forward frame')) :
    Follows S p Eq (resume env id pc later flow) (resume env' id pc later' flow') := by
  cases same with
  | done result => exact follows_pure rfl
  | next same => exact runs _ _ _ _ same
  | jump target same =>
      simp only [resume]
      split
      · exact runs _ _ _ _ same
      · exact follows_throw _
  | branch test target same =>
      simp only [resume]
      split
      · next forward =>
          refine (follows_count .forks id pc).andThen fun _ => ?_
          have taken := runs target forward _ _ same
          have passed := runs (pc + 1) (Nat.lt_succ_self pc) _ _ same
          cases test.simplify.asBool with
          | some b => cases b with
            | true => exact taken
            | false => exact passed
          | none => exact taken.andThen fun _ => passed.andThen fun _ => follows_pure rfl
      · exact follows_throw _

theorem HandlesFollow.advance (h : HandlesFollow S p handles handles')
    {later : pc < body.code.length → (target : Nat) → pc < target → Frame possible → M Expr}
    {later' : pc < body.code.length → (target : Nat) → pc < target → Frame possible' → M' Expr}
    (same : frame.Matches (S.MadeAt p) frame')
    (runs : ∀ inside target forward frame frame', frame.Matches (S.MadeAt p) frame' →
      Follows S p Eq (later inside target forward frame) (later' inside target forward frame')) :
    Follows S p Eq (advance env handles pc later frame)
      (advance env' handles' pc later' frame') := by
  rcases Option.eq_none_or_eq_some body.code[pc]? with missing | ⟨instruction, fetched⟩
  · rw [advance_of_end missing, advance_of_end missing]
    exact (follows_count .steps body.id pc).andThen fun _ => follows_throw _
  · rw [advance_of_fetched fetched, advance_of_fetched fetched]
    refine (follows_count .steps body.id pc).andThen fun _ => ?_
    refine (h.step instruction _ same).bind fun flow flow' same => ?_
    exact follows_resume body.id same (runs _)

theorem HandlesFollow.run (h : HandlesFollow S p handles handles')
    (same : frame.Matches (S.MadeAt p) frame') :
    Follows S p Eq (run env handles pc frame) (run env' handles' pc frame') := by
  -- On the instructions that are left.
  induction left : body.code.length - pc using Nat.strongRecOn generalizing pc frame frame' with
  | _ left ih =>
      subst left
      rw [Compile.run, Compile.run]
      exact h.advance same fun inside target forward frame frame' same =>
        ih _ (by omega) same rfl

/-- A nested body compiles alike if all arguments are looked up alike. -/
theorem follows_compileWith {look : BinderId → Lookup M} {look' : BinderId → Lookup M'}
    (looks : ∀ p, S.Inner p → LookupFollows S p (look (S.head p)) (look' (S.head p))) (body : Body)
    (inner : S.Inner p) : Follows S p Eq (compileWith look env body (S.head p))
      (compileWith look' env' body (S.head p)) := by
  induction size : sizeOf body using Nat.strongRecOn generalizing body p with
  | _ size ih =>
      subst size
      have nests : NestedFollows S (S.MadeAt p)
          (fun (pending : Pending body.Makes) inner => compileWith look env pending.body inner)
          (fun (pending : Pending body.Makes) inner => compileWith look' env' pending.body inner) := by
        intro pending pending' same _ p' isInner
        simp only [same]
        exact ih _ pending.sizeOf_lt pending.body isInner rfl
      rw [compileWith, compileWith]
      exact (HandlesFollow.run ⟨looks p inner, nests⟩ .empty).inNormalForm

end Runs

end Compile

end StreamQuery
