import StreamQuery.Proofs.Built
import StreamQuery.Proofs.CallRenaming

/-! # Compiling under more binders

The element of a closure is numbered by the place of its binder. Where a chain has `k`
binders more, everything compiled along it goes the same way, and all elements are
numbered `k` higher. What is compiled looks at elements only to put rows in their places.
Marks may be renamed too, as long as those that are given out stay.

`Mirrors` says so of single steps and is put together along them; `compileBody_relabel`
says it of whole bodies. Renaming marks that are not given out yet changes nothing, so
there are none in what was compiled.
-/

namespace StreamQuery

/-! ## Chains -/

/-- Elements move up by `k`, also in what queries were derived from. Different marks stay
different, and sources are opened as before. -/
structure Relabel.Moves (r : Relabel) (k : Nat) : Prop where
  element : r.element = (· + k)
  mark : Function.Injective r.mark
  opened : r.mark 0 = 0
  within : r.within = r

variable {r : Relabel} {k : Nat}

theorem Relabel.Moves.renames (h : r.Moves k) : r.Renames where
  element := h.element ▸ add_left_injective k
  mark := h.mark

def Relabel.shift (k : Nat) : Relabel := ⟨(· + k), id, fun _ => true⟩

theorem Relabel.moves_shift : (shift k).Moves k := ⟨rfl, Function.injective_id, rfl, rfl⟩

theorem Relabel.keeps_shift {n : Nat} : (shift k).Keeps n := fun _ _ => rfl

def Binder.relabel (r : Relabel) : Binder → Binder
  | element row => element (row.relabel r)
  | parameters closure slots => parameters closure slots
  | outer forwards => outer forwards
  | stream query => stream (query.relabel r)

def Answer.relabel (r : Relabel) : Answer → Answer
  | resolved e => resolved (e.relabel r)
  | forward arg => forward arg
  | pass => pass

theorem Binder.offer_relabel (binder : Binder) (arg : Argument) (expected : ValueType) :
    (binder.relabel r).offer arg expected = (binder.offer arg expected).map (Answer.relabel r) := by
  cases binder with
  | element row =>
      rcases arg with (_ | index) | slot
      · simp only [relabel, offer, Expr.type_relabel]
        split <;> rfl
      · rfl
      · rfl
  | parameters closure slots =>
      cases arg with
      | param index => rfl
      | capture slot =>
          simp only [relabel, offer, capture]
          split
          · rfl
          split
          · rfl
          split <;> rfl
  | outer forwards =>
      cases arg with
      | param index => rfl
      | capture slot =>
          simp only [relabel, offer]
          split <;> rfl
  | stream query => cases arg <;> rfl

theorem Binder.forwardCount_relabel (binder : Binder) :
    (binder.relabel r).forwardCount = binder.forwardCount := by
  cases binder <;> rfl

def Link.shift (r : Relabel) (k : Nat) (link : Link) : Link :=
  ⟨link.binder.relabel r, link.parent.map (· + k)⟩

/-- Nothing is found at a link without slots that has none around it. -/
def Link.IsBlind (link : Link) : Prop := ∃ closure, link = ⟨.parameters closure [], none⟩

namespace Chain

def forwardCount (chain : Chain) : Nat :=
  chain.links.foldl (fun n link => n + link.binder.forwardCount) 0

/-- A chain with `k` binders more, in which all others but blind ones stand `k` places
higher. -/
structure ShiftsTo (r : Relabel) (k : Nat) (chain chain' : Chain) : Prop where
  size : chain'.size = chain.size + k
  forwardCount_le : chain.forwardCount ≤ chain'.forwardCount
  link : ∀ (id : BinderId) (link : Link), chain.links[id]? = some link →
    link.IsBlind ∨ chain'.links[id + k]? = some (link.shift r k)

namespace ShiftsTo

variable {chain chain' : Chain} {e : Expr} {arg : Argument} {expected : ValueType}

theorem push (h : chain.ShiftsTo r k chain') (binder : Binder) (parent : Option BinderId) :
    (chain.push binder parent).ShiftsTo r k
      (chain'.push (binder.relabel r) (parent.map (· + k))) where
  size := by
    have size := h.size
    simp only [Chain.push, Chain.size, Array.size_push] at size ⊢
    omega
  forwardCount_le := by
    have le := h.forwardCount_le
    simp only [forwardCount, Chain.push, Array.foldl_push, Binder.forwardCount_relabel] at le ⊢
    omega
  link id link found := by
    rw [Chain.push, Array.getElem?_push] at found
    split at found
    · next last =>
        cases found
        have place := Chain.links_push chain' (binder.relabel r) (parent.map (· + k))
        rw [h.size] at place
        exact .inr (last ▸ place)
    · exact (h.link id link found).imp_right fun known =>
        (growsTo_push ..).keeps (id + k) (link.shift r k) known

theorem pushElement (moves : r.Moves k) (h : chain.ShiftsTo r k chain') (t : ValueType)
    (parent : Option BinderId) : (chain.pushElement t parent).ShiftsTo r k
      (chain'.pushElement t (parent.map (· + k))) := by
  have moved : (Binder.element (.element chain.size t)).relabel r =
      .element (.element (chain.size + k) t) := by
    simp only [Binder.relabel, Expr.relabel, moves.element]
  have pushed := h.push (.element (.element chain.size t)) parent
  rw [moved, ← h.size] at pushed
  exact pushed

theorem resolveWithin (h : chain.ShiftsTo r k chain') {fuel fuel' : Nat} {start : Option BinderId}
    (le : fuel ≤ fuel') (found : chain.resolveWithin expected fuel start arg = .ok e) :
    chain'.resolveWithin expected fuel' (start.map (· + k)) arg =
      .ok (e.relabel r) := by
  induction fuel generalizing fuel' start arg with
  | zero => cases found
  | succ fuel ih =>
      obtain ⟨fuel', rfl⟩ : ∃ n, fuel' = n + 1 := ⟨fuel' - 1, by omega⟩
      have le : fuel ≤ fuel' := Nat.le_of_succ_le_succ le
      cases start with
      | none => cases found
      | some id =>
          cases known : chain.links[id]? with
          | none => simp [Chain.resolveWithin, known] at found
          | some link =>
              simp only [Chain.resolveWithin, known, bind, Except.bind] at found
              obtain ⟨closure, rfl⟩ | shifted := h.link id link known
              · -- Past a blind link there is nothing left to ask
                cases arg with
                | param index => cases fuel <;> cases found
                | capture slot => cases found
              · simp only [Option.map_some, Chain.resolveWithin, shifted, bind, Except.bind,
                  Link.shift, Binder.offer_relabel]
                cases offered : link.binder.offer arg expected with
                | error cause => simp [offered] at found
                | ok answer =>
                    rw [offered] at found
                    cases answer with
                    | resolved x =>
                        cases found
                        rfl
                    | forward arg => exact ih le found
                    | pass => exact ih le found

theorem longestWalk_le (h : chain.ShiftsTo r k chain') : chain.longestWalk ≤ chain'.longestWalk := by
  have size : chain.size ≤ chain'.size := h.size ▸ Nat.le_add_right ..
  exact Nat.succ_le_succ (Nat.mul_le_mul size (Nat.add_le_add_left h.forwardCount_le 1))

theorem resolve (h : chain.ShiftsTo r k chain') {head : BinderId}
    (found : chain.resolve head arg expected = .ok e) :
    chain'.resolve (head + k) arg expected = .ok (e.relabel r) :=
  h.resolveWithin h.longestWalk_le found

theorem streamWithin (h : chain.ShiftsTo r k chain') {fuel fuel' : Nat} {start : Option BinderId}
    {query : Query} (le : fuel ≤ fuel') (found : chain.streamWithin fuel start = some query) :
    chain'.streamWithin fuel' (start.map (· + k)) = some (query.relabel r) := by
  induction fuel generalizing fuel' start with
  | zero => cases found
  | succ fuel ih =>
      obtain ⟨fuel', rfl⟩ : ∃ n, fuel' = n + 1 := ⟨fuel' - 1, by omega⟩
      have le : fuel ≤ fuel' := Nat.le_of_succ_le_succ le
      cases start with
      | none => cases found
      | some id =>
          cases known : chain.links[id]? with
          | none => simp [Chain.streamWithin, known] at found
          | some link =>
              simp only [Chain.streamWithin, known] at found
              obtain ⟨closure, rfl⟩ | shifted := h.link id link known
              · cases fuel <;> cases found
              · simp only [Option.map_some, Chain.streamWithin, shifted]
                obtain ⟨binder, parent⟩ := link
                cases binder with
                | stream query' =>
                    cases found
                    rfl
                | element | parameters | outer => exact ih le found

theorem resolveStream (h : chain.ShiftsTo r k chain') {head : BinderId} {index : Nat} {query : Query}
    (found : chain.resolveStream head index = .ok query) :
    chain'.resolveStream (head + k) index = .ok (query.relabel r) := by
  unfold Chain.resolveStream at found ⊢
  cases known : chain.streamWithin (chain.size + 1) (some head) with
  | none => simp [known] at found
  | some query' =>
      simp only [known, Except.ok.injEq] at found
      subst found
      have le : chain.size + 1 ≤ chain'.size + 1 := by
        have size := h.size
        omega
      have known' := h.streamWithin le known
      rw [Option.map_some] at known'
      rw [known']

end ShiftsTo

def shift (r : Relabel) (k : Nat) (chain : Chain) : Chain :=
  ⟨Array.replicate k ⟨.parameters 0 [], none⟩ ++ chain.links.map (Link.shift r k)⟩

theorem forwardCount_le_shift (chain : Chain) :
    chain.forwardCount ≤ (chain.shift r k).forwardCount := by
  have counts (links : List Link) {n n' : Nat} (le : n ≤ n') :
      links.foldl (fun n link => n + link.binder.forwardCount) n ≤
        (links.map (Link.shift r k)).foldl (fun n link => n + link.binder.forwardCount) n' := by
    induction links generalizing n n' with
    | nil => exact le
    | cons link links ih =>
        refine ih ?_
        simp only [Link.shift, Binder.forwardCount_relabel]
        exact Nat.add_le_add_right le _
  simp only [forwardCount, shift, ← Array.foldl_toList, Array.toList_append, List.foldl_append,
    Array.toList_map]
  exact counts _ (Nat.zero_le _)

theorem shiftsTo_shift (chain : Chain) : chain.ShiftsTo r k (chain.shift r k) where
  size := by simp [shift, size, Nat.add_comm]
  forwardCount_le := chain.forwardCount_le_shift
  link id link found := by
    refine .inr ?_
    rw [shift, Array.getElem?_append_right (by simp)]
    simp [found]

end Chain

/-! ## Frames -/

variable {body : Body}

def Pending.shift (k : Nat) (pending : Pending body.Makes) : Pending body.Makes :=
  { pending with creator := pending.creator + k }

def Operand.shift (r : Relabel) (k : Nat) : Operand body.Makes → Operand body.Makes
  | .value e => .value (e.relabel r)
  | .closure pending => .closure (pending.shift k)

def Frame.shift (r : Relabel) (k : Nat) (frame : Frame body.Makes) : Frame body.Makes :=
  ⟨frame.stack.map (Operand.shift r k), frame.locals.map fun entry => (entry.1, entry.2.shift r k)⟩

theorem Frame.load?_shift (frame : Frame body.Makes) (slot : Nat) :
    (frame.shift r k).load? slot = (frame.load? slot).map (Operand.shift r k) := by
  obtain ⟨stack, locals⟩ := frame
  simp only [load?, shift]
  induction locals with
  | nil => rfl
  | cons entry locals ih =>
      rw [List.map_cons, List.lookup_cons, List.lookup_cons, ih]
      split <;> rfl

namespace Compile

def Flow.shift (r : Relabel) (k : Nat) : Flow body.Makes → Flow body.Makes
  | .next frame => .next (frame.shift r k)
  | .jump target frame => .jump target (frame.shift r k)
  | .branch test target frame => .branch (test.relabel r) target (frame.shift r k)
  | .done result => .done (result.relabel r)

/-! ## Steps in sequence -/

structure Shifted (r : Relabel) (k : Nat) (work work' : Work) : Prop where
  chain : work.chain.ShiftsTo r k work'.chain
  supply : work'.toSupply = work.toSupply
  steps : work'.steps = work.steps
  forks : work'.forks = work.forks

theorem Shifted.count {work work' : Work} (h : Shifted r k work work') (counter : Counter) :
    counter.count work' = counter.count work := by
  cases counter with
  | steps => exact h.steps
  | forks => exact h.forks

theorem Shifted.raise {work work' : Work} (h : Shifted r k work work') (counter : Counter) :
    Shifted r k (counter.raise work) (counter.raise work') := by
  cases counter with
  | steps => exact ⟨h.chain, h.supply, congrArg (· + 1) h.steps, h.forks⟩
  | forks => exact ⟨h.chain, h.supply, h.steps, congrArg (· + 1) h.forks⟩

theorem exists_shifted (r : Relabel) (k : Nat) (work : Work) : ∃ work', Shifted r k work work' :=
  ⟨{ work with chain := work.chain.shift r k }, work.chain.shiftsTo_shift, rfl, rfl, rfl⟩

/-- A computation whose twin does the same under `k` binders more, and ends with a result
that is changed alike if the marks that were given out are not. -/
def Mirrors (r : Relabel) (k : Nat) {α : Type} (f : α → α) (x x' : CompileM α) : Prop :=
  ∀ ⦃work work' after : Work⦄ ⦃a : α⦄, Shifted r k work work' → x work = .ok a after →
    work.nextMark ≤ after.nextMark ∧ (r.Keeps after.nextMark →
      ∃ after', x' work' = .ok (f a) after' ∧ Shifted r k after after')

section Steps

variable {α β : Type} {f : α → α} {g : β → β} {x x' : CompileM α}

theorem Mirrors.bind {y y' : α → CompileM β} (hx : Mirrors r k f x x')
    (hy : ∀ a, Mirrors r k g (y a) (y' (f a))) : Mirrors r k g (x >>= y) (x' >>= y') := by
  intro work work' after b shifted h
  obtain ⟨a, between, first, second⟩ := bind_eq_ok.mp h
  obtain ⟨start, mirrored⟩ := hx shifted first
  have rest : between.nextMark ≤ after.nextMark := by
    obtain ⟨twin, shifted⟩ := exists_shifted r k between
    exact (hy a shifted second).1
  refine ⟨Nat.le_trans start rest, fun keeps => ?_⟩
  obtain ⟨between', first', shifted⟩ := mirrored (keeps.mono rest)
  obtain ⟨after', second', shifted⟩ := (hy a shifted second).2 keeps
  exact ⟨after', bind_eq_ok.mpr ⟨f a, between', first', second'⟩, shifted⟩

theorem mirrors_pure {a b : α} (same : f a = b) : Mirrors r k f (pure a) (pure b) := by
  intro work work' after _ shifted h
  obtain ⟨rfl, rfl⟩ := pure_eq_ok.mp h
  exact ⟨Nat.le_refl _, fun _ => ⟨work', pure_eq_ok.mpr ⟨same.symm, rfl⟩, shifted⟩⟩

theorem mirrors_throw {error : CompileError} : Mirrors r k f (throw error) x' :=
  fun _ _ _ _ _ h => absurd h throw_ne_ok

theorem mirrors_obstruct {id : ClosureId} {pc : Nat} {obstacle : Obstacle} :
    Mirrors r k f (obstruct id pc obstacle) x' :=
  mirrors_throw

theorem mirrors_liftObstacle {id : ClosureId} {pc : Nat} {result result' : Except Obstacle α}
    (same : ∀ a, result = .ok a → result' = .ok (f a)) :
    Mirrors r k f (liftObstacle id pc result) (liftObstacle id pc result') := by
  intro work work' after a shifted h
  obtain ⟨found, rfl⟩ := liftObstacle_eq_ok.mp h
  exact ⟨Nat.le_refl _, fun _ => ⟨work', liftObstacle_eq_ok.mpr ⟨same a found, rfl⟩, shifted⟩⟩

theorem mirrors_modifyGet {edit edit' : Work → α × Work}
    (same : ∀ work work', Shifted r k work work' → work.nextMark ≤ (edit work).2.nextMark ∧
      (r.Keeps (edit work).2.nextMark →
        (edit' work').1 = f (edit work).1 ∧ Shifted r k (edit work).2 (edit' work').2)) :
    Mirrors r k f (modifyGet edit) (modifyGet edit') := by
  intro work work' after a shifted h
  obtain ⟨le, edited⟩ := same work work' shifted
  rw [modifyGet_eq_ok.mp h] at le edited
  refine ⟨le, fun keeps => ?_⟩
  obtain ⟨first, second⟩ := edited keeps
  exact ⟨_, modifyGet_eq_ok.mpr (Prod.ext first rfl), second⟩

theorem mirrors_openSource : Mirrors r k id openSource openSource := by
  refine mirrors_modifyGet fun work work' shifted => ⟨Nat.le_refl _, fun _ => ?_⟩
  obtain ⟨⟨source, mark⟩, chain, steps, forks⟩ := work
  obtain ⟨⟨source', mark'⟩, chain', steps', forks'⟩ := work'
  obtain ⟨sameChain, supply, sameSteps, sameForks⟩ := shifted
  cases supply
  exact ⟨rfl, sameChain, rfl, sameSteps, sameForks⟩

theorem mirrors_build {make make' : StateM Nat α} (le : ∀ m, m ≤ (make.run m).2)
    (same : ∀ m, r.Keeps (make.run m).2 → make'.run m = (f (make.run m).1, (make.run m).2)) :
    Mirrors r k f (build make) (build make') := by
  refine mirrors_modifyGet fun work work' shifted => ⟨le work.nextMark, fun keeps => ?_⟩
  obtain ⟨⟨source, mark⟩, chain, steps, forks⟩ := work
  obtain ⟨⟨source', mark'⟩, chain', steps', forks'⟩ := work'
  obtain ⟨sameChain, supply, sameSteps, sameForks⟩ := shifted
  cases supply
  simp only [Supply.build, same _ keeps]
  exact ⟨rfl, sameChain, rfl, sameSteps, sameForks⟩

theorem mirrors_pushBinder (binder : Binder) (parent : Option BinderId) :
    Mirrors r k (· + k) (pushBinder binder parent)
      (pushBinder (binder.relabel r) (parent.map (· + k))) :=
  mirrors_modifyGet fun _ _ shifted => ⟨Nat.le_refl _, fun _ =>
    ⟨shifted.chain.size, shifted.chain.push binder parent, shifted.supply, shifted.steps,
      shifted.forks⟩⟩

theorem mirrors_pushElement (moves : r.Moves k) (t : ValueType) (parent : Option BinderId) :
    Mirrors r k (· + k) (pushElement t parent) (pushElement t (parent.map (· + k))) :=
  mirrors_modifyGet fun _ _ shifted => ⟨Nat.le_refl _, fun _ =>
    ⟨shifted.chain.size, shifted.chain.pushElement moves t parent, shifted.supply, shifted.steps,
      shifted.forks⟩⟩

theorem mirrors_get {y y' : Work → CompileM α}
    (same : ∀ work work', Shifted r k work work' → Mirrors r k f (y work) (y' work')) :
    Mirrors r k f (get >>= y) (get >>= y') := by
  intro work work' after a shifted h
  obtain ⟨_, _, found, h⟩ := bind_eq_ok.mp h
  obtain ⟨rfl, rfl⟩ := get_eq_ok.mp found
  obtain ⟨le, mirrored⟩ := same work work' shifted shifted h
  refine ⟨le, fun keeps => ?_⟩
  obtain ⟨after', h', shifted'⟩ := mirrored keeps
  exact ⟨after', bind_eq_ok.mpr ⟨work', work', get_eq_ok.mpr ⟨rfl, rfl⟩, h'⟩, shifted'⟩

end Steps

/-! ## Arguments and operands -/

section Operands

variable {head : BinderId} {pc : Nat}

/-- An argument that is looked up and found. -/
theorem mirrors_found {α : Type} {f : α → α} {id : ClosureId} {arg : Argument}
    {look look' : CompileM (Except BindError α)}
    (looks : ∀ ⦃work work' after : Work⦄ ⦃answer : Except BindError α⦄, Shifted r k work work' →
      look work = .ok answer after → work = after ∧
        ∀ a, answer = .ok a → look' work' = .ok (.ok (f a)) work') :
    Mirrors r k f (look >>= found id arg) (look' >>= found id arg) := by
  intro work work' after a shifted h
  simp only [bind_eq_ok, found_eq_ok] at h
  obtain ⟨_, _, looked, rfl, rfl⟩ := h
  obtain ⟨rfl, known⟩ := looks shifted looked
  refine ⟨Nat.le_refl _, fun _ => ⟨work', ?_, shifted⟩⟩
  simp only [bind_eq_ok, found_eq_ok]
  exact ⟨_, _, known a rfl, rfl, rfl⟩

theorem mirrors_value {id : ClosureId} (arg : Argument) (expected : ValueType) :
    Mirrors r k (Expr.relabel r) ((Lookup.alongChain head).value arg expected >>= found id arg)
      ((Lookup.alongChain (head + k)).value arg expected >>= found id arg) := by
  refine mirrors_found fun work work' after answer shifted looked => ?_
  obtain ⟨rfl, rfl⟩ := value_alongChain.mp looked
  exact ⟨rfl, fun e known => value_alongChain.mpr ⟨shifted.chain.resolve known, rfl⟩⟩

theorem mirrors_stream {id : ClosureId} {arg : Argument} (index : Nat) :
    Mirrors r k (Query.relabel r) ((Lookup.alongChain head).stream index >>= found id arg)
      ((Lookup.alongChain (head + k)).stream index >>= found id arg) := by
  refine mirrors_found fun work work' after answer shifted looked => ?_
  obtain ⟨rfl, rfl⟩ := stream_alongChain.mp looked
  exact ⟨rfl, fun query known => stream_alongChain.mpr ⟨shifted.chain.resolveStream known, rfl⟩⟩

theorem mirrors_loadParam (index : Nat) : Mirrors r k (Expr.relabel r)
    (loadParam (.alongChain head) body index) (loadParam (.alongChain (head + k)) body index) := by
  unfold loadParam
  cases body.params[index]? with
  | none => exact mirrors_throw
  | some expected =>
      cases expected with
      | streamSource => exact mirrors_pure rfl
      | stream element =>
          simp only [← bind_assoc]
          exact (mirrors_stream index).bind fun query => mirrors_pure (Expr.relabel_embed query)
      | _ => exact mirrors_value _ _

theorem mirrors_loadCapture (slot : Nat) : Mirrors r k (Expr.relabel r)
    (loadCapture (.alongChain head) body slot)
    (loadCapture (.alongChain (head + k)) body slot) := by
  unfold loadCapture
  cases body.captures[slot]? with
  | none => exact mirrors_throw
  | some expected => exact mirrors_value _ _

theorem mirrors_pop (frame : Frame body.Makes) :
    Mirrors r k (Prod.map (Operand.shift r k) (Frame.shift r k)) (pop body.id pc frame)
      (pop body.id pc (frame.shift r k)) := by
  obtain ⟨stack, locals⟩ := frame
  cases stack with
  | nil => exact mirrors_obstruct
  | cons top rest => exact mirrors_pure rfl

theorem mirrors_popValue (frame : Frame body.Makes) :
    Mirrors r k (Prod.map (Expr.relabel r) (Frame.shift r k))
      (popValue body.id pc frame) (popValue body.id pc (frame.shift r k)) := by
  refine (mirrors_pop frame).bind fun (operand, rest) => ?_
  cases operand with
  | value e => exact mirrors_pure rfl
  | closure pending => exact mirrors_obstruct

theorem mirrors_popTwo (frame : Frame body.Makes) :
    Mirrors r k (Prod.map (Expr.relabel r) (Prod.map (Expr.relabel r) (Frame.shift r k)))
      (popTwo body.id pc frame) (popTwo body.id pc (frame.shift r k)) :=
  (mirrors_popValue frame).bind fun (_, rest) =>
    (mirrors_popValue rest).bind fun _ => mirrors_pure rfl

theorem mirrors_popMany (count : Nat) (frame : Frame body.Makes) :
    Mirrors r k (Prod.map (List.map (Operand.shift r k)) (Frame.shift r k))
      (popMany body.id pc count frame) (popMany body.id pc count (frame.shift r k)) := by
  intro work work' after popped shifted h
  obtain ⟨operands, rest⟩ := popped
  obtain ⟨enough, rfl, rfl, rfl⟩ := popMany_eq_ok.mp h
  refine ⟨Nat.le_refl _, fun _ => ⟨work', popMany_eq_ok.mpr ⟨?_, ?_, ?_, rfl⟩, shifted⟩⟩
  · simpa [Frame.shift] using enough
  · simp [Frame.shift]
  · simp [Frame.shift]

theorem valuesOf_shift {operands : List (Operand body.Makes)} {values : List Expr}
    (h : valuesOf operands = .ok values) :
    valuesOf (operands.map (Operand.shift r k)) = .ok (values.map (Expr.relabel r)) := by
  rw [valuesOf_eq_ok] at h ⊢
  simp [h, Operand.shift, Function.comp_def]

theorem mirrors_checkLocal (env : Environment) (slot : Nat) :
    Mirrors r k id (checkLocal env body.id pc slot) (checkLocal env body.id pc slot) := by
  unfold checkLocal
  split
  · exact mirrors_pure rfl
  · exact mirrors_obstruct

/-! ## Calls -/

def NestedMirrors (r : Relabel) (k : Nat) (nested : Nested body) : Prop :=
  ∀ (pending : Pending body.Makes) (head : BinderId), Mirrors r k (Expr.relabel r)
    (nested pending head) (nested (pending.shift k) (head + k))

variable {nested : Nested body}

theorem mirrors_overRows (moves : r.Moves k) (nests : NestedMirrors r k nested)
    (pending : Pending body.Makes) (query : Query) :
    Mirrors r k (Expr.relabel r) (overRows body.id pc nested pending query)
      (overRows body.id pc nested (pending.shift k) (query.relabel r)) := by
  unfold overRows
  by_cases several : pending.body.params.length ≠ 1
  · rw [if_pos several]
    exact mirrors_obstruct
  · rw [if_neg several, if_neg (show ¬(pending.shift k).body.params.length ≠ 1 from several),
      Query.rowType_relabel, Query.currentRow_relabel]
    refine (mirrors_pushBinder _ (some pending.creator)).bind fun outer => ?_
    refine (mirrors_pushElement moves query.rowType (some outer)).bind fun head => ?_
    refine (nests pending head).bind fun e => mirrors_build (fun m => ?_) fun m keeps => ?_
    · exact Expr.le_markEnd _ _ m
    · have renamed := e.inlined_relabel moves.renames query.currentRow head keeps
      rwa [moves.element] at renamed

theorem receiver_relabel {stream : Expr} {query : Query} (h : receiver stream = .ok query) :
    receiver (stream.relabel r) = .ok (query.relabel r) := by
  obtain ⟨t, rfl⟩ := receiver_eq_ok h
  rfl

theorem mirrors_overStream (moves : r.Moves k) (nests : NestedMirrors r k nested)
    {use use' : Query → Expr → CompileM Expr}
    (uses : ∀ query e,
      Mirrors r k (Expr.relabel r) (use query e) (use' (query.relabel r) (e.relabel r)))
    (stream : Expr) (pending : Pending body.Makes) :
    Mirrors r k (Expr.relabel r) (overStream body.id pc nested stream pending use)
      (overStream body.id pc nested (stream.relabel r) (pending.shift k) use') := by
  refine (mirrors_liftObstacle fun _ => receiver_relabel).bind fun query => ?_
  exact (mirrors_overRows moves nests pending query).bind fun e => uses query e

theorem mirrors_derived {make make' : SourceId → Except Refusal Query}
    (commutes : ∀ next query, make next = .ok query → make' next = .ok (query.relabel r)) :
    Mirrors r k (Expr.relabel r) (derived body.id pc make) (derived body.id pc make') := by
  refine mirrors_get fun work work' shifted => ?_
  rw [shifted.supply]
  refine Mirrors.bind (f := Query.relabel r) (mirrors_liftObstacle fun query found => ?_)
    fun query => ?_
  · exact mapError_eq_ok.mpr (commutes _ _ (mapError_eq_ok.mp found))
  · refine (mirrors_build query.le_separate fun m => query.separate_relabel).bind
      fun separated => ?_
    exact mirrors_pure (Expr.relabel_embed separated)

theorem mirrors_aggregated (fn : AggregateFn) (query : Query) (arg : Expr) :
    Mirrors r k (Expr.relabel r) (aggregated body.id pc fn query arg)
      (aggregated body.id pc fn (query.relabel r) (arg.relabel r)) := by
  unfold aggregated
  rw [Expr.type_relabel]
  split
  · exact mirrors_obstruct
  · exact mirrors_pure (Expr.relabel_summarize fn (some arg) query)

theorem mirrors_streamCall (moves : r.Moves k) (nests : NestedMirrors r k nested) (method : Method)
    (args : List (Operand body.Makes)) : Mirrors r k (Expr.relabel r)
      (streamCall body.id pc nested method args)
      (streamCall body.id pc nested method (args.map (Operand.shift r k))) := by
  obtain ⟨action, chosen⟩ : ∃ action, action = streamCall body.id pc nested method args := ⟨_, rfl⟩
  rw [← chosen]
  unfold streamCall at chosen
  split at chosen
  case h_6 =>
    subst chosen
    exact mirrors_obstruct
  all_goals simp only [streamCall, List.map, Operand.shift, *]
  case h_1 path _ _ =>
    rw [Expr.type_relabel]
    split
    · refine mirrors_openSource.bind fun id => mirrors_pure ?_
      rw [Expr.relabel_embed, Query.relabel_along moves.opened, id_eq]
    · exact mirrors_obstruct
  case h_2 stream _ _ =>
    refine (mirrors_liftObstacle fun _ => receiver_relabel).bind fun query => ?_
    exact mirrors_pure (Expr.relabel_summarize .count none query)
  case h_3 stream pending _ _ =>
    exact mirrors_overStream moves nests (fun query e => mirrors_derived fun _ _ =>
      Query.filtered_relabel moves.within) stream pending
  case h_4 stream pending _ _ =>
    exact mirrors_overStream moves nests (fun query e => mirrors_derived fun _ _ =>
      Query.projected_relabel moves.within) stream pending
  case h_5 stream pending _ _ _ =>
    split
    · exact mirrors_overStream moves nests (mirrors_aggregated _) stream pending
    · exact mirrors_obstruct

theorem mirrors_invoke (env : Environment) (moves : r.Moves k) (nests : NestedMirrors r k nested)
    (method : Method) (args : List (Operand body.Makes)) : Mirrors r k (Expr.relabel r)
      (invoke body.id pc env.schema nested method args)
      (invoke body.id pc env.schema nested method (args.map (Operand.shift r k))) := by
  unfold invoke
  by_cases owner : method.owner = "JinqStream"
  · rw [if_pos owner, if_pos owner]
    exact mirrors_streamCall moves nests method args
  · rw [if_neg owner, if_neg owner]
    refine (mirrors_liftObstacle fun _ => valuesOf_shift).bind fun values => ?_
    cases called : valueCall env.schema method values with
    | error fault => cases fault <;> exact mirrors_throw
    | ok result =>
        rw [valueCall_relabel called]
        cases result with
        | value e => exact mirrors_pure rfl
        | rows entity =>
            refine mirrors_openSource.bind fun id => mirrors_pure ?_
            rw [Expr.relabel_embed, Query.relabel_entity moves.opened, id_eq]

theorem mirrors_newTuple (arity : Nat) (frame : Frame body.Makes) :
    Mirrors r k (Frame.shift r k) (newTuple body.id pc arity frame)
      (newTuple body.id pc arity (frame.shift r k)) := by
  unfold newTuple
  split
  · exact mirrors_obstruct
  · refine (mirrors_popMany arity frame).bind fun (operands, rest) => ?_
    refine (mirrors_liftObstacle fun _ => valuesOf_shift).bind fun items => mirrors_pure ?_
    have packed : (Expr.pack items).relabel r = _ := Expr.relabel_pack items
    simp [Frame.shift, Frame.pushValue, Frame.push, Operand.shift, packed]

/-! ## Instructions -/

theorem mirrors_step (env : Environment) (moves : r.Moves k) (nests : NestedMirrors r k nested)
    (instruction : Instruction) (written : instruction ∈ body.code) (frame : Frame body.Makes) :
    Mirrors r k (Flow.shift r k) (step env (nested.handles head) pc instruction written frame)
      (step env (nested.handles (head + k)) pc instruction written (frame.shift r k)) := by
  have lift {result result' : Except Obstacle Expr}
      (same : result' = result.map (Expr.relabel r)) :
      Mirrors r k (Expr.relabel r) (liftObstacle body.id pc result)
        (liftObstacle body.id pc result') :=
    mirrors_liftObstacle fun e found => by rw [same, found]; rfl
  cases instruction with
  | const value => exact mirrors_pure rfl
  | loadParam index => exact (mirrors_loadParam index).bind fun _ => mirrors_pure rfl
  | loadCapture slot => exact (mirrors_loadCapture slot).bind fun _ => mirrors_pure rfl
  | load slot =>
      refine (mirrors_checkLocal env slot).bind fun _ => ?_
      rw [Frame.load?_shift]
      cases frame.load? slot with
      | none => exact mirrors_obstruct
      | some operand => exact mirrors_pure rfl
  | store slot =>
      refine (mirrors_checkLocal env slot).bind fun _ => ?_
      exact (mirrors_pop frame).bind fun _ => mirrors_pure rfl
  | dup => exact (mirrors_pop frame).bind fun _ => mirrors_pure rfl
  | pop => exact (mirrors_pop frame).bind fun _ => mirrors_pure rfl
  | invoke method =>
      refine (mirrors_popMany method.arity frame).bind fun (args, rest) => ?_
      exact (mirrors_invoke env moves nests method args).bind fun _ => mirrors_pure rfl
  | newTuple arity => exact (mirrors_newTuple arity frame).bind fun _ => mirrors_pure rfl
  | makeClosure inner captures => exact mirrors_pure rfl
  | arith op =>
      refine (mirrors_popTwo frame).bind fun (left, right, rest) => ?_
      exact (lift (arith_relabel op left right)).bind fun _ => mirrors_pure rfl
  | neg =>
      refine (mirrors_popValue frame).bind fun (operand, rest) => ?_
      exact (lift (negation_relabel operand)).bind fun _ => mirrors_pure rfl
  | compare op =>
      refine (mirrors_popTwo frame).bind fun (left, right, rest) => ?_
      exact (lift (comparison_relabel op left right)).bind fun _ => mirrors_pure rfl
  | convert t =>
      refine (mirrors_popValue frame).bind fun (operand, rest) => ?_
      exact (lift (convert_relabel operand t)).bind fun _ => mirrors_pure rfl
  | ifZero op target =>
      refine (mirrors_popValue frame).bind fun (operand, rest) => ?_
      exact (lift (zeroTest_relabel op operand)).bind fun _ => mirrors_pure rfl
  | ifCompare op target =>
      refine (mirrors_popTwo frame).bind fun (left, right, rest) => ?_
      exact (lift (comparison_relabel op left right)).bind fun _ => mirrors_pure rfl
  | goto target => exact mirrors_pure rfl
  | ret =>
      refine (mirrors_popValue frame).bind fun (value, rest) => ?_
      exact (lift (coerceReturn_relabel body.returns value)).bind fun _ => mirrors_pure rfl

theorem mirrors_count (counter : Counter) (env : Environment) (closure : ClosureId) :
    Mirrors r k id (count counter env closure pc) (count counter env closure pc) := by
  refine Mirrors.bind (f := id) (mirrors_modifyGet fun work work' shifted => ?_) fun _ => ?_
  · refine ⟨?_, fun _ => ⟨rfl, ?_⟩⟩
    · cases counter <;> exact Nat.le_refl _
    · exact shifted.raise counter
  · refine mirrors_get fun work work' shifted => ?_
    rw [shifted.count counter]
    split
    · exact mirrors_throw
    · exact mirrors_pure rfl

end Operands

/-! ## Runs -/

section Run

variable {env : Environment} {head : BinderId} {nested : Nested body} {pc : Nat}

theorem mirrors_run (moves : r.Moves k) (nests : NestedMirrors r k nested) (frame : Frame body.Makes) :
    Mirrors r k (Expr.relabel r) (run env (nested.handles head) pc frame)
      (run env (nested.handles (head + k)) pc (frame.shift r k)) := by
  -- Jumps go forward, so what is left of the code shrinks.
  induction left : body.code.length - pc using Nat.strongRecOn generalizing pc frame with
  | _ left ih =>
      subst left
      cases fetched : body.code[pc]? with
      | none =>
          intro work work' after e shifted h
          obtain ⟨instruction, found, -⟩ := run_eq_ok h
          simp [fetched] at found
      | some instruction =>
          have inside := (List.getElem?_eq_some_iff.mp fetched).1
          have later {target : Nat} (forward : pc < target) (frame : Frame body.Makes) :
              Mirrors r k (Expr.relabel r) (run env (nested.handles head) target frame)
                (run env (nested.handles (head + k)) target (frame.shift r k)) :=
            ih _ (by omega) frame rfl
          rw [run_of_fetched fetched, run_of_fetched fetched]
          refine (mirrors_count .steps env body.id).bind fun _ => ?_
          refine (mirrors_step env moves nests instruction _ frame).bind fun flow => ?_
          cases flow with
          | done result => exact mirrors_pure rfl
          | next frame => exact later (Nat.lt_succ_self pc) frame
          | jump target frame =>
              simp only [Compile.goOn, resume, Flow.shift]
              split
              · next forward => exact later forward frame
              · exact mirrors_throw
          | branch test target frame =>
              simp only [Compile.goOn, resume, Flow.shift]
              split
              · next forward =>
                  refine (mirrors_count .forks env body.id).bind fun _ => ?_
                  rw [← Expr.relabel_simplify moves.renames, Expr.asBool_relabel]
                  split
                  · exact later forward frame
                  · exact later (Nat.lt_succ_self pc) frame
                  · refine (later forward frame).bind fun taken => ?_
                    refine (later (Nat.lt_succ_self pc) frame).bind fun passed => ?_
                    exact mirrors_pure (Expr.relabel_choose test.simplify taken passed)
              · exact mirrors_throw

/-- A body compiles to the same expression under `k` binders more, its elements numbered
`k` higher. It counts steps and branches of its own, so those counted before do not matter. -/
theorem compileBody_relabel (moves : r.Moves k) {work work' after : Work} {e : Expr}
    (chain : work.chain.ShiftsTo r k work'.chain) (supply : work'.toSupply = work.toSupply)
    (h : compileBody env body head work = .ok e after) :
    work.nextMark ≤ after.nextMark ∧ (r.Keeps after.nextMark →
      ∃ after', compileBody env body (head + k) work' = .ok (e.relabel r) after' ∧
        after.chain.ShiftsTo r k after'.chain ∧ after'.toSupply = after.toSupply ∧
        after'.steps = work'.steps ∧ after'.forks = work'.forks) := by
  induction size : sizeOf body using Nat.strongRecOn generalizing body head work work' after e with
  | _ size ih =>
      subst size
      obtain ⟨result, between, ran, rfl, rfl⟩ := compileBody_eq_ok h
      -- Nested closures have smaller bodies.
      have nests : NestedMirrors r k fun (pending : Pending body.Makes) inner =>
          compileBody env pending.body inner := by
        intro pending inner work work' after e shifted compiled
        obtain ⟨le, mirrored⟩ := ih _ pending.sizeOf_lt shifted.chain shifted.supply compiled rfl
        refine ⟨le, fun keeps => ?_⟩
        obtain ⟨after', compiled', chain, supply, steps, forks⟩ := mirrored keeps
        obtain ⟨_, _, -, -, rfl⟩ := compileBody_eq_ok compiled
        exact ⟨after', compiled', chain, supply, steps.trans shifted.steps,
          forks.trans shifted.forks⟩
      have start : Shifted r k { work with steps := 0, forks := 0 }
          { work' with steps := 0, forks := 0 } := ⟨chain, supply, rfl, rfl⟩
      obtain ⟨le, mirrored⟩ := mirrors_run moves nests .empty start ran
      refine ⟨le, fun keeps => ?_⟩
      obtain ⟨between', ran', shifted⟩ := mirrored keeps
      rw [Expr.relabel_simplify moves.renames]
      exact ⟨_, compileBody_of_run ran', shifted.chain, shifted.supply, rfl, rfl⟩

end Run

end Compile

end StreamQuery
