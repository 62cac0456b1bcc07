import Mathlib
import StreamQuery.Compile.Run

/-! # What compiling does when it succeeds

A compilation that succeeds is taken apart: first its steps in sequence, then the
operands taken from a frame, then one instruction of a run. Everything proved of
compiled closures starts from the last of these.
-/

namespace StreamQuery

namespace Compile

/-! ## Steps in sequence -/

section Steps

variable {α β : Type} {work work' : Work}

@[simp] theorem bind_eq_ok {x : CompileM α} {f : α → CompileM β} {b : β} :
    (x >>= f) work = .ok b work' ↔
      ∃ a between, x work = .ok a between ∧ f a between = .ok b work' := by
  change EStateM.bind x f work = _ ↔ _
  unfold EStateM.bind
  cases x work with
  | error error between => simp
  | ok a between =>
      constructor
      · exact fun h => ⟨a, between, rfl, h⟩
      · rintro ⟨_, _, ⟨⟩, h⟩
        exact h

@[simp] theorem pure_eq_ok {a b : α} :
    (pure a : CompileM α) work = .ok b work' ↔ a = b ∧ work = work' := by
  change EStateM.Result.ok a work = _ ↔ _
  simp

@[simp] theorem throw_ne_ok {error : CompileError} {b : α} :
    (throw error : CompileM α) work ≠ .ok b work' := by
  change EStateM.Result.error error work ≠ _
  simp

@[simp] theorem get_eq_ok {found : Work} :
    (get : CompileM Work) work = .ok found work' ↔ work = found ∧ work = work' := by
  change EStateM.Result.ok work work = _ ↔ _
  simp

@[simp] theorem modifyGet_eq_ok {f : Work → α × Work} {a : α} :
    (modifyGet f : CompileM α) work = .ok a work' ↔ f work = (a, work') := by
  change EStateM.Result.ok (f work).1 (f work).2 = _ ↔ _
  simp [Prod.ext_iff]

@[simp] theorem modify_eq_ok {f : Work → Work} {u : PUnit} :
    (modify f : CompileM PUnit) work = .ok u work' ↔ f work = work' := by
  change EStateM.Result.ok PUnit.unit (f work) = _ ↔ _
  simp

@[simp] theorem liftObstacle_eq_ok {id : ClosureId} {pc : Nat} {result : Except Obstacle α}
    {a : α} : (liftObstacle id pc result : CompileM α) work = .ok a work' ↔
      result = .ok a ∧ work = work' := by
  cases result <;> simp [liftObstacle, obstruct]

@[simp] theorem obstruct_ne_ok {id : ClosureId} {pc : Nat} {obstacle : Obstacle} {a : α} :
    (obstruct id pc obstacle : CompileM α) work ≠ .ok a work' := throw_ne_ok

@[simp] theorem map_eq_ok {ε : Type} {f : α → β} {result : Except ε α} {b : β} :
    result.map f = .ok b ↔ ∃ a, result = .ok a ∧ f a = b := by
  cases result <;> simp [Except.map]

/-- Outcomes of whole runs are decided by running them. -/
instance decidableEqOk {ε : Type} (result : Except ε α) (a : α) [∀ b : α, Decidable (b = a)] :
    Decidable (result = .ok a) :=
  match result with
  | .ok b => decidable_of_iff (b = a) (by simp)
  | .error _ => isFalse nofun

@[simp] theorem mapError_eq_ok {ε ε' : Type} {f : ε → ε'} {result : Except ε α} {a : α} :
    result.mapError f = .ok a ↔ result = .ok a := by
  cases result <;> simp [Except.mapError]

end Steps

/-! ## Arguments -/

/-- The chain of a closure over the elements of a stream. -/
def elementChain (closure : Closure) (type : ValueType) : Chain :=
  (Chain.empty.push (.ofClosure closure) none).pushElement type (some 0)

theorem resolve_elementChain (closure : Closure) (type expected : ValueType) (arg : Argument) :
    (elementChain closure type).resolve 1 arg expected =
      (elementChain closure type).resolveWithin expected 3 (some 1) arg := rfl

theorem links_elementChain (closure : Closure) (type : ValueType) :
    (elementChain closure type).links =
      #[⟨.ofClosure closure, none⟩, ⟨.element (.element 1 type), some 0⟩] := rfl

theorem resolveStream_elementChain (closure : Closure) (type : ValueType) (index : Nat)
    (query : Query) : (elementChain closure type).resolveStream 1 index ≠ .ok query := by
  rintro ⟨⟩

theorem resolve_param {closure : Closure} {type expected : ValueType} {index : Nat} {e : Expr}
    (h : (elementChain closure type).resolve 1 (.param index) expected = .ok e) :
    index = 0 ∧ e = .element 1 type := by
  rw [resolve_elementChain] at h
  cases index with
  | zero =>
      simp only [Chain.resolveWithin, links_elementChain, List.getElem?_toArray,
        List.getElem?_cons_succ, List.getElem?_cons_zero, Binder.offer] at h
      split at h
      · exact ⟨rfl, by cases h; rfl⟩
      · cases h
  | succ index =>
      cases h

theorem capture_ofClosure {closure : Closure} {slot : Nat} {e : Expr}
    (h : Binder.capture closure.body.id
      (closure.body.captures.zipIdx.map fun (type, slot) => (type, closure.captured[slot]?)) slot =
        .ok e) :
    ∃ declared cell, closure.body.captures[slot]? = some declared ∧
      closure.captured[slot]? = some cell ∧
      e = .ofCapture ⟨closure.body.id, slot, declared, cell⟩ := by
  unfold Binder.capture at h
  cases hd : closure.body.captures[slot]? with
  | none => simp [hd] at h
  | some declared =>
      simp only [List.getElem?_map, List.getElem?_zipIdx, hd, Option.map_some, Nat.zero_add] at h
      split at h
      · cases h
      · cases hc : closure.captured[slot]? with
        | none => simp [hc] at h
        | some cell =>
            rw [hc] at h
            cases h
            exact ⟨declared, cell, rfl, rfl, rfl⟩

theorem resolve_capture {closure : Closure} {type expected : ValueType} {slot : Nat} {e : Expr}
    (h : (elementChain closure type).resolve 1 (.capture slot) expected = .ok e) :
    ∃ declared cell, closure.body.captures[slot]? = some declared ∧
      closure.captured[slot]? = some cell ∧
      e = .ofCapture ⟨closure.body.id, slot, declared, cell⟩ := by
  rw [resolve_elementChain] at h
  simp only [Chain.resolveWithin, links_elementChain, List.getElem?_toArray,
    List.getElem?_cons_succ, List.getElem?_cons_zero, Binder.offer, Binder.ofClosure] at h
  -- The element binder passes a captured slot on to the closure's own.
  cases hc : Binder.capture closure.body.id
      (closure.body.captures.zipIdx.map fun (type, slot) => (type, closure.captured[slot]?))
      slot with
  | error cause =>
      rw [hc] at h
      cases h
  | ok found =>
      rw [hc] at h
      cases h
      exact capture_ofClosure hc

section Arguments

variable {body : Body} {head : BinderId} {work work' : Work} {e : Expr}

theorem found_eq_ok {α : Type} {id : ClosureId} {arg : Argument} {answer : Except BindError α}
    {a : α} : (found id arg answer : CompileM α) work = .ok a work' ↔
      answer = .ok a ∧ work = work' := by
  cases answer <;> simp [found]

theorem value_alongChain {arg : Argument} {expected : ValueType} {answer : Except BindError Expr} :
    (Lookup.alongChain head).value arg expected work = .ok answer work' ↔
      work.chain.resolve head arg expected = answer ∧ work = work' := by
  change EStateM.Result.ok (work.chain.resolve head arg expected) work = _ ↔ _
  simp

theorem stream_alongChain {index : Nat} {answer : Except BindError Query} :
    (Lookup.alongChain head).stream index work = .ok answer work' ↔
      work.chain.resolveStream head index = answer ∧ work = work' := by
  change EStateM.Result.ok (work.chain.resolveStream head index) work = _ ↔ _
  simp

theorem loadParam_eq_ok {index : Nat}
    (h : loadParam (.alongChain head) body index work = .ok e work') :
    work = work' ∧
      ((body.params[index]? = some .streamSource ∧ e = .constant .null .streamSource) ∨
        (∃ query, work.chain.resolveStream head index = .ok query ∧ e = .embed query) ∨
        ∃ expected, body.params[index]? = some expected ∧ expected ≠ .streamSource ∧
          work.chain.resolve head (.param index) expected = .ok e) := by
  unfold loadParam at h
  cases declared : body.params[index]? with
  | none => simp [declared] at h
  | some expected =>
      cases expected with
      | streamSource =>
          simp only [declared, pure_eq_ok] at h
          exact ⟨h.2, .inl ⟨rfl, h.1.symm⟩⟩
      | stream element =>
          simp only [declared, bind_eq_ok, stream_alongChain, found_eq_ok, pure_eq_ok] at h
          obtain ⟨_, _, ⟨rfl, rfl⟩, query, _, ⟨resolved, rfl⟩, rfl, rfl⟩ := h
          exact ⟨rfl, .inr (.inl ⟨query, resolved, rfl⟩)⟩
      | _ =>
          simp only [declared, bind_eq_ok, value_alongChain, found_eq_ok] at h
          obtain ⟨_, _, ⟨rfl, rfl⟩, resolved, rfl⟩ := h
          exact ⟨rfl, .inr (.inr ⟨_, rfl, by simp, resolved⟩)⟩

theorem loadCapture_eq_ok {slot : Nat}
    (h : loadCapture (.alongChain head) body slot work = .ok e work') :
    work = work' ∧ ∃ expected, body.captures[slot]? = some expected ∧
      work.chain.resolve head (.capture slot) expected = .ok e := by
  unfold loadCapture at h
  cases declared : body.captures[slot]? with
  | none => simp [declared] at h
  | some expected =>
      simp only [declared, bind_eq_ok, value_alongChain, found_eq_ok] at h
      obtain ⟨_, _, ⟨rfl, rfl⟩, resolved, rfl⟩ := h
      exact ⟨rfl, expected, rfl, resolved⟩

end Arguments

/-! ## Operands -/

section Operands

variable {possible : Made → Prop} {id : ClosureId} {pc : Nat} {frame frame' : Frame possible}
  {work work' : Work}

@[simp] theorem pop_eq_ok {operand : Operand possible} :
    (pop id pc frame : CompileM _) work = .ok (operand, frame') work' ↔
      frame.stack = operand :: frame'.stack ∧ frame.locals = frame'.locals ∧ work = work' := by
  obtain ⟨stack, locals⟩ := frame
  obtain ⟨stack', locals'⟩ := frame'
  cases stack <;> simp [pop, Frame.pop?, and_assoc]

@[simp] theorem popValue_eq_ok {e : Expr} :
    (popValue id pc frame : CompileM _) work = .ok (e, frame') work' ↔
      frame.stack = .value e :: frame'.stack ∧ frame.locals = frame'.locals ∧ work = work' := by
  simp only [popValue, bind_eq_ok, Prod.exists]
  constructor
  · rintro ⟨operand, rest, between, popped, h⟩
    cases operand with
    | value x =>
        simp only [pure_eq_ok, Prod.mk.injEq] at h
        obtain ⟨⟨rfl, rfl⟩, rfl⟩ := h
        exact pop_eq_ok.mp popped
    | closure pending => simp at h
  · intro h
    exact ⟨.value e, frame', work', pop_eq_ok.mpr h, by simp⟩

@[simp] theorem popTwo_eq_ok {left right : Expr} :
    (popTwo id pc frame : CompileM _) work = .ok (left, right, frame') work' ↔
      frame.stack = .value right :: .value left :: frame'.stack ∧
        frame.locals = frame'.locals ∧ work = work' := by
  simp only [popTwo, bind_eq_ok, Prod.exists, popValue_eq_ok, pure_eq_ok, Prod.mk.injEq]
  constructor
  · rintro ⟨r, f, w, ⟨top, sameLocals, rfl⟩, l, f', w', ⟨second, sameLocals', rfl⟩,
      ⟨rfl, rfl, rfl⟩, rfl⟩
    exact ⟨by rw [top, second], sameLocals.trans sameLocals', rfl⟩
  · rintro ⟨two, sameLocals, rfl⟩
    exact ⟨right, ⟨.value left :: frame'.stack, frame.locals⟩, work, ⟨two, rfl, rfl⟩, left, frame',
      work, ⟨rfl, sameLocals, rfl⟩, ⟨rfl, rfl, rfl⟩, rfl⟩

@[simp] theorem popMany_eq_ok {count : Nat} {operands : List (Operand possible)} :
    (popMany id pc count frame : CompileM _) work = .ok (operands, frame') work' ↔
      count ≤ frame.stack.length ∧ (frame.stack.take count).reverse = operands ∧
        { frame with stack := frame.stack.drop count } = frame' ∧ work = work' := by
  unfold popMany Frame.popMany?
  by_cases enough : count ≤ frame.stack.length <;> simp [enough, and_assoc]

theorem valuesOf_eq_ok {operands : List (Operand possible)} {values : List Expr} :
    valuesOf operands = .ok values ↔ operands = values.map .value := by
  induction operands generalizing values with
  | nil => cases values <;> simp [valuesOf]
  | cons operand rest ih =>
      cases operand with
      | closure pending => cases values <;> simp [valuesOf]
      | value e =>
          simp only [valuesOf]
          cases h : valuesOf rest with
          | error obstacle =>
              cases values with
              | nil => simp [Except.map]
              | cons v vs =>
                  have : rest ≠ vs.map .value := fun same => by simp [ih.mpr same] at h
                  simp [Except.map, this]
          | ok es =>
              have hes := ih.mp h
              cases values with
              | nil => simp [Except.map]
              | cons v vs =>
                  have injective (a b : Expr) : (.value a : Operand possible) = .value b → a = b :=
                    fun same => by simpa using same
                  simp [Except.map, hes, List.map_inj_right injective]

@[simp] theorem checkLocal_eq_ok {env : Environment} {slot : Nat} {u : Unit} :
    (checkLocal env id pc slot : CompileM Unit) work = .ok u work' ↔
      slot < env.settings.maxLocals ∧ work = work' := by
  unfold checkLocal
  by_cases inside : slot < env.settings.maxLocals <;> simp [inside]

/-! ## Calls -/

theorem openSource_eq_ok {source : SourceId} :
    (openSource : CompileM SourceId) work = .ok source work' ↔
      work.nextSource = source ∧ { work with nextSource := work.nextSource + 1 } = work' := by
  simp [openSource]

theorem peekSource_eq_ok {source : SourceId} :
    (peekSource : CompileM SourceId) work = .ok source work' ↔
      work.nextSource = source ∧ work = work' := by
  change EStateM.Result.ok work.nextSource work = _ ↔ _
  simp

theorem build_eq_ok {α : Type} {make : StateM Nat α} {a : α} :
    (build make : CompileM α) work = .ok a work' ↔
      (make.run work.nextMark).1 = a ∧
        { work with nextMark := (make.run work.nextMark).2 } = work' := by
  rw [build, modifyGet_eq_ok]
  exact Iff.of_eq (Prod.mk.injEq ..)

/-- A nested closure over rows is compiled with two binders more, and then a row takes
the place of its element. -/
theorem overRows_eq_ok {nested : Pending possible → BinderId → CompileM Expr}
    {pending : Pending possible} {query : Query} {e : Expr}
    (h : overRows id pc nested pending query work = .ok e work') :
    ∃ (inner : Expr) (between : Work),
      nested pending (work.chain.size + 1)
          { work with
            chain := (work.chain.push (.outer pending.forwards)
              (some pending.creator)).pushElement query.rowType (some work.chain.size) } =
        .ok inner between ∧
      ((inner.inlined (work.chain.size + 1) query.currentRow).run between.nextMark).1 = e ∧
      work'.nextSource = between.nextSource ∧ work'.chain = between.chain := by
  unfold overRows at h
  split at h
  · exact absurd h obstruct_ne_ok
  · simp only [bind_eq_ok, pushBinder, pushElement, modifyGet_eq_ok, Prod.mk.injEq,
      build_eq_ok] at h
    obtain ⟨_, _, ⟨rfl, rfl⟩, _, _, ⟨rfl, rfl⟩, inner, between, compiled, rfl, rfl⟩ := h
    have size : (work.chain.push (.outer pending.forwards) (some pending.creator)).size =
        work.chain.size + 1 := by simp [Chain.push, Chain.size]
    rw [size] at compiled ⊢
    exact ⟨inner, between, compiled, rfl, rfl, rfl⟩

theorem overRows_of_nested {nested : Pending possible → BinderId → CompileM Expr}
    {pending : Pending possible} {query : Query} {inner : Expr} {between : Work} (one : pending.body.params.length = 1)
    (compiled : nested pending (work.chain.size + 1)
      { work with
        chain := (work.chain.push (.outer pending.forwards)
          (some pending.creator)).pushElement query.rowType (some work.chain.size) } =
      .ok inner between) :
    let inlined := (inner.inlined (work.chain.size + 1) query.currentRow).run between.nextMark
    overRows id pc nested pending query work =
      .ok inlined.1 { between with nextMark := inlined.2 } := by
  have size : (work.chain.push (.outer pending.forwards) (some pending.creator)).size =
      work.chain.size + 1 := by simp [Chain.push, Chain.size]
  rw [← size] at compiled ⊢
  rw [overRows, if_neg (by simp [one])]
  simp only [bind_eq_ok, pushBinder, pushElement, modifyGet_eq_ok, build_eq_ok]
  exact ⟨_, _, rfl, _, _, rfl, _, _, compiled, rfl, rfl⟩

theorem receiver_eq_ok {stream : Expr} {query : Query} (h : receiver stream = .ok query) :
    ∃ t, stream = .subQuery query t := by
  unfold receiver at h
  split at h <;> cases h
  exact ⟨_, rfl⟩

theorem overStream_eq_ok {nested : Pending possible → BinderId → CompileM Expr} {stream e : Expr}
    {pending : Pending possible} {use : Query → Expr → CompileM Expr}
    (h : overStream id pc nested stream pending use work = .ok e work') :
    ∃ query t values between, stream = .subQuery query t ∧
      overRows id pc nested pending query work = .ok values between ∧
      use query values between = .ok e work' := by
  simp only [overStream, bind_eq_ok, liftObstacle_eq_ok] at h
  obtain ⟨query, _, ⟨received, rfl⟩, values, between, valued, used⟩ := h
  obtain ⟨t, rfl⟩ := receiver_eq_ok received
  exact ⟨query, t, values, between, rfl, valued, used⟩

theorem derived_eq_ok {make : SourceId → Except Refusal Query} {e : Expr} :
    (derived id pc make : CompileM Expr) work = .ok e work' ↔
      ∃ query, make work.nextSource = .ok query ∧
        .embed (query.separate.run work.nextMark).1 = e ∧
        { work with nextMark := (query.separate.run work.nextMark).2 } = work' := by
  simp only [derived, bind_eq_ok, peekSource_eq_ok, liftObstacle_eq_ok, mapError_eq_ok,
    build_eq_ok, pure_eq_ok]
  constructor
  · rintro ⟨_, _, ⟨rfl, rfl⟩, query, _, ⟨made, rfl⟩, _, _, ⟨rfl, rfl⟩, rfl, rfl⟩
    exact ⟨query, made, rfl, rfl⟩
  · rintro ⟨query, made, rfl, rfl⟩
    exact ⟨_, _, ⟨rfl, rfl⟩, query, _, ⟨made, rfl⟩, _, _, ⟨rfl, rfl⟩, rfl, rfl⟩

theorem aggregated_eq_ok {fn : AggregateFn} {query : Query} {arg e : Expr} :
    (aggregated id pc fn query arg : CompileM Expr) work = .ok e work' ↔
      (fn.needsNumber → arg.type.isNumeric) ∧ .summarize fn (some arg) query = e ∧
        work = work' := by
  unfold aggregated
  cases fn.needsNumber <;> cases arg.type.isNumeric <;> simp

/-- A call that is not on a stream gives a value, or opens a source of rows. -/
theorem invoke_eq_ok {schema : Schema} {nested : Pending possible → BinderId → CompileM Expr}
    {method : Method} {args : List (Operand possible)} {e : Expr}
    (owner : method.owner ≠ "JinqStream")
    (h : invoke id pc schema nested method args work = .ok e work') :
    ∃ values, args = values.map .value ∧
      ((valueCall schema method values = .ok (.value e) ∧ work = work') ∨
        ∃ entity, valueCall schema method values = .ok (.rows entity) ∧
          .embed (.ofSource (.entity work.nextSource entity)) = e ∧
          { work with nextSource := work.nextSource + 1 } = work') := by
  simp only [invoke, owner, if_false, bind_eq_ok, liftObstacle_eq_ok] at h
  obtain ⟨values, _, ⟨hvalues, rfl⟩, h⟩ := h
  refine ⟨values, valuesOf_eq_ok.mp hvalues, ?_⟩
  cases called : valueCall schema method values with
  | error fault => cases fault <;> simp [called] at h
  | ok result =>
      cases result with
      | value x =>
          simp only [called, pure_eq_ok] at h
          obtain ⟨rfl, rfl⟩ := h
          exact .inl ⟨rfl, rfl⟩
      | rows entity =>
          simp only [called, bind_eq_ok, openSource_eq_ok, pure_eq_ok] at h
          obtain ⟨_, _, ⟨rfl, rfl⟩, rfl, rfl⟩ := h
          exact .inr ⟨entity, rfl, rfl, rfl⟩

@[simp] theorem newTuple_eq_ok {arity : Nat} :
    (newTuple id pc arity frame : CompileM _) work = .ok frame' work' ↔
      2 ≤ arity ∧ arity ≤ 5 ∧ arity ≤ frame.stack.length ∧
        ∃ items, (frame.stack.take arity).reverse = items.map .value ∧
          Frame.pushValue { frame with stack := frame.stack.drop arity } (.pack items) = frame' ∧
          work = work' := by
  unfold newTuple
  by_cases bad : arity < 2 ∨ 5 < arity
  · simp only [bad, if_true, obstruct_ne_ok, false_iff]
    omega
  · simp only [bad, if_false, bind_eq_ok, Prod.exists, popMany_eq_ok, liftObstacle_eq_ok,
      valuesOf_eq_ok, pure_eq_ok]
    constructor
    · rintro ⟨_, _, _, ⟨enough, rfl, rfl, rfl⟩, items, _, ⟨hitems, rfl⟩, rfl, rfl⟩
      exact ⟨by omega, by omega, enough, items, hitems, rfl, rfl⟩
    · rintro ⟨_, _, enough, items, hitems, rfl, rfl⟩
      exact ⟨_, _, _, ⟨enough, rfl, rfl, rfl⟩, items, _, ⟨hitems, rfl⟩, rfl, rfl⟩

end Operands

/-! ## One instruction -/

section Instruction

variable {env : Environment} {possible : Made → Prop} {body : Body} {head : BinderId}
  {handles : Handles CompileM possible body head} {pc : Nat} {frame : Frame possible}
  {work work' : Work}

/-- What an instruction leads to when it goes through, with one rule for each instruction. -/
inductive StepsTo (env : Environment) (handles : Handles CompileM possible body head) (pc : Nat)
    (frame : Frame possible) (work : Work) : Instruction → Flow possible → Work → Prop where
  | const (value : Value) : StepsTo env handles pc frame work (.const value)
      (.next (frame.pushValue (.literal value))) work
  | loadParam {index : Nat} {e : Expr} {after : Work} :
      loadParam handles.toLookup body index work = .ok e after →
      StepsTo env handles pc frame work (.loadParam index) (.next (frame.pushValue e)) after
  | loadCapture {slot : Nat} {e : Expr} {after : Work} :
      loadCapture handles.toLookup body slot work = .ok e after →
      StepsTo env handles pc frame work (.loadCapture slot) (.next (frame.pushValue e)) after
  | load {slot : Nat} {operand : Operand possible} : slot < env.settings.maxLocals →
      frame.load? slot = some operand →
      StepsTo env handles pc frame work (.load slot) (.next (frame.push operand)) work
  | store {slot : Nat} {operand : Operand possible} {rest : Frame possible} :
      slot < env.settings.maxLocals → frame.stack = operand :: rest.stack →
      frame.locals = rest.locals →
      StepsTo env handles pc frame work (.store slot) (.next (rest.store slot operand)) work
  | dup {operand : Operand possible} {rest : Frame possible} : frame.stack = operand :: rest.stack →
      frame.locals = rest.locals →
      StepsTo env handles pc frame work .dup (.next (frame.push operand)) work
  | pop {operand : Operand possible} {rest : Frame possible} : frame.stack = operand :: rest.stack →
      frame.locals = rest.locals → StepsTo env handles pc frame work .pop (.next rest) work
  | invoke {method : Method} {e : Expr} {after : Work} : method.arity ≤ frame.stack.length →
      invoke body.id pc env.schema handles.nested method (frame.stack.take method.arity).reverse work =
        .ok e after →
      StepsTo env handles pc frame work (.invoke method)
        (.next (Frame.pushValue { frame with stack := frame.stack.drop method.arity } e)) after
  | newTuple {arity : Nat} {items : List Expr} : 2 ≤ arity → arity ≤ 5 →
      arity ≤ frame.stack.length → (frame.stack.take arity).reverse = items.map .value →
      StepsTo env handles pc frame work (.newTuple arity)
        (.next (Frame.pushValue { frame with stack := frame.stack.drop arity } (.pack items))) work
  | makeClosure {inner : Body} {forwards : List Argument}
      (written : .makeClosure inner forwards ∈ body.code) :
      StepsTo env handles pc frame work (.makeClosure inner forwards)
        (.next (frame.push
          (.closure ⟨⟨inner, forwards, head⟩, handles.makes inner forwards written⟩))) work
  | arith {op : ArithOp} {left right e : Expr} {rest : Frame possible} :
      frame.stack = .value right :: .value left :: rest.stack → frame.locals = rest.locals →
      arith op left right = .ok e →
      StepsTo env handles pc frame work (.arith op) (.next (rest.pushValue e)) work
  | neg {operand e : Expr} {rest : Frame possible} : frame.stack = .value operand :: rest.stack →
      frame.locals = rest.locals → negation operand = .ok e →
      StepsTo env handles pc frame work .neg (.next (rest.pushValue e)) work
  | compare {op : CompareOp} {left right e : Expr} {rest : Frame possible} :
      frame.stack = .value right :: .value left :: rest.stack → frame.locals = rest.locals →
      comparison op left right = .ok e →
      StepsTo env handles pc frame work (.compare op) (.next (rest.pushValue e)) work
  | convert {type : ValueType} {operand e : Expr} {rest : Frame possible} :
      frame.stack = .value operand :: rest.stack → frame.locals = rest.locals →
      convert operand type = .ok e →
      StepsTo env handles pc frame work (.convert type) (.next (rest.pushValue e)) work
  | ifZero {op : CompareOp} {target : Nat} {operand test : Expr} {rest : Frame possible} :
      frame.stack = .value operand :: rest.stack → frame.locals = rest.locals →
      zeroTest op operand = .ok test →
      StepsTo env handles pc frame work (.ifZero op target) (.branch test target rest) work
  | ifCompare {op : CompareOp} {target : Nat} {left right test : Expr} {rest : Frame possible} :
      frame.stack = .value right :: .value left :: rest.stack → frame.locals = rest.locals →
      comparison op left right = .ok test →
      StepsTo env handles pc frame work (.ifCompare op target) (.branch test target rest) work
  | goto (target : Nat) :
      StepsTo env handles pc frame work (.goto target) (.jump target frame) work
  | ret {value e : Expr} {rest : Frame possible} : frame.stack = .value value :: rest.stack →
      frame.locals = rest.locals → coerceReturn body.returns value = .ok e →
      StepsTo env handles pc frame work .ret (.done e) work

theorem step_eq_ok {instruction : Instruction}
    {written : instruction ∈ body.code} {flow : Flow possible}
    (h : step env handles pc instruction written frame work = .ok flow work') :
    StepsTo env handles pc frame work instruction flow work' := by
  cases instruction with
  | const value =>
      obtain ⟨rfl, rfl⟩ := pure_eq_ok.mp h
      exact .const value
  | loadParam index =>
      simp only [step, bind_eq_ok, pure_eq_ok] at h
      obtain ⟨e, _, loaded, rfl, rfl⟩ := h
      exact .loadParam loaded
  | loadCapture slot =>
      simp only [step, bind_eq_ok, pure_eq_ok] at h
      obtain ⟨e, _, loaded, rfl, rfl⟩ := h
      exact .loadCapture loaded
  | load slot =>
      simp only [step, bind_eq_ok, checkLocal_eq_ok] at h
      obtain ⟨_, _, ⟨inside, rfl⟩, h⟩ := h
      cases found : frame.load? slot with
      | none => simp [found] at h
      | some operand =>
          simp only [found, pure_eq_ok] at h
          obtain ⟨rfl, rfl⟩ := h
          exact .load inside found
  | store slot =>
      simp only [step, bind_eq_ok, checkLocal_eq_ok, Prod.exists, pop_eq_ok, pure_eq_ok] at h
      obtain ⟨_, _, ⟨inside, rfl⟩, operand, rest, _, ⟨top, same, rfl⟩, rfl, rfl⟩ := h
      exact .store inside top same
  | dup =>
      simp only [step, bind_eq_ok, Prod.exists, pop_eq_ok, pure_eq_ok] at h
      obtain ⟨operand, rest, _, ⟨top, same, rfl⟩, rfl, rfl⟩ := h
      exact .dup top same
  | pop =>
      simp only [step, bind_eq_ok, Prod.exists, pop_eq_ok, pure_eq_ok] at h
      obtain ⟨operand, rest, _, ⟨top, same, rfl⟩, rfl, rfl⟩ := h
      exact .pop top same
  | invoke method =>
      simp only [step, bind_eq_ok, Prod.exists, popMany_eq_ok, pure_eq_ok] at h
      obtain ⟨_, _, _, ⟨enough, rfl, rfl, rfl⟩, e, _, invoked, rfl, rfl⟩ := h
      exact .invoke enough invoked
  | newTuple arity =>
      simp only [step, bind_eq_ok, newTuple_eq_ok, pure_eq_ok] at h
      obtain ⟨_, _, ⟨wide, narrow, enough, items, taken, rfl, rfl⟩, rfl, rfl⟩ := h
      exact .newTuple wide narrow enough taken
  | makeClosure inner forwards =>
      obtain ⟨rfl, rfl⟩ := pure_eq_ok.mp h
      exact .makeClosure written
  | arith op =>
      simp only [step, bind_eq_ok, Prod.exists, popTwo_eq_ok, liftObstacle_eq_ok, pure_eq_ok] at h
      obtain ⟨left, right, rest, _, ⟨top, same, rfl⟩, e, _, ⟨made, rfl⟩, rfl, rfl⟩ := h
      exact .arith top same made
  | neg =>
      simp only [step, bind_eq_ok, Prod.exists, popValue_eq_ok, liftObstacle_eq_ok, pure_eq_ok] at h
      obtain ⟨operand, rest, _, ⟨top, same, rfl⟩, e, _, ⟨made, rfl⟩, rfl, rfl⟩ := h
      exact .neg top same made
  | compare op =>
      simp only [step, bind_eq_ok, Prod.exists, popTwo_eq_ok, liftObstacle_eq_ok, pure_eq_ok] at h
      obtain ⟨left, right, rest, _, ⟨top, same, rfl⟩, e, _, ⟨made, rfl⟩, rfl, rfl⟩ := h
      exact .compare top same made
  | convert type =>
      simp only [step, bind_eq_ok, Prod.exists, popValue_eq_ok, liftObstacle_eq_ok, pure_eq_ok] at h
      obtain ⟨operand, rest, _, ⟨top, same, rfl⟩, e, _, ⟨made, rfl⟩, rfl, rfl⟩ := h
      exact .convert top same made
  | ifZero op target =>
      simp only [step, bind_eq_ok, Prod.exists, popValue_eq_ok, liftObstacle_eq_ok, pure_eq_ok] at h
      obtain ⟨operand, rest, _, ⟨top, same, rfl⟩, test, _, ⟨made, rfl⟩, rfl, rfl⟩ := h
      exact .ifZero top same made
  | ifCompare op target =>
      simp only [step, bind_eq_ok, Prod.exists, popTwo_eq_ok, liftObstacle_eq_ok, pure_eq_ok] at h
      obtain ⟨left, right, rest, _, ⟨top, same, rfl⟩, test, _, ⟨made, rfl⟩, rfl, rfl⟩ := h
      exact .ifCompare top same made
  | goto target =>
      obtain ⟨rfl, rfl⟩ := pure_eq_ok.mp h
      exact .goto target
  | ret =>
      simp only [step, bind_eq_ok, Prod.exists, popValue_eq_ok, liftObstacle_eq_ok, pure_eq_ok] at h
      obtain ⟨value, rest, _, ⟨top, same, rfl⟩, e, _, ⟨made, rfl⟩, rfl, rfl⟩ := h
      exact .ret top same made

theorem StepsTo.step_eq {instruction : Instruction} {flow : Flow possible}
    (h : StepsTo env handles pc frame work instruction flow work')
    (written : instruction ∈ body.code) :
    step env handles pc instruction written frame work = .ok flow work' := by
  cases h with
  | const | makeClosure | goto => rfl
  | loadParam loaded | loadCapture loaded =>
      simp only [step, bind_eq_ok, pure_eq_ok]
      exact ⟨_, _, loaded, rfl, rfl⟩
  | load inside found =>
      simp only [step, bind_eq_ok, checkLocal_eq_ok, found]
      exact ⟨⟨⟩, _, ⟨inside, rfl⟩, rfl⟩
  | store inside top same =>
      simp only [step, bind_eq_ok, checkLocal_eq_ok, Prod.exists, pop_eq_ok, pure_eq_ok]
      exact ⟨⟨⟩, _, ⟨inside, rfl⟩, _, _, _, ⟨top, same, rfl⟩, rfl, rfl⟩
  | dup top same | pop top same =>
      simp only [step, bind_eq_ok, Prod.exists, pop_eq_ok, pure_eq_ok]
      exact ⟨_, _, _, ⟨top, same, rfl⟩, rfl, rfl⟩
  | invoke enough invoked =>
      simp only [step, bind_eq_ok, Prod.exists, popMany_eq_ok, pure_eq_ok]
      exact ⟨_, _, _, ⟨enough, rfl, rfl, rfl⟩, _, _, invoked, rfl, rfl⟩
  | newTuple wide narrow enough taken =>
      simp only [step, bind_eq_ok, newTuple_eq_ok, pure_eq_ok]
      exact ⟨_, _, ⟨wide, narrow, enough, _, taken, rfl, rfl⟩, rfl, rfl⟩
  | arith top same made | compare top same made | ifCompare top same made =>
      simp only [step, bind_eq_ok, Prod.exists, popTwo_eq_ok, liftObstacle_eq_ok, pure_eq_ok]
      exact ⟨_, _, _, _, ⟨top, same, rfl⟩, _, _, ⟨made, rfl⟩, rfl, rfl⟩
  | neg top same made | convert top same made | ifZero top same made | ret top same made =>
      simp only [step, bind_eq_ok, Prod.exists, popValue_eq_ok, liftObstacle_eq_ok, pure_eq_ok]
      exact ⟨_, _, _, ⟨top, same, rfl⟩, _, _, ⟨made, rfl⟩, rfl, rfl⟩

end Instruction

/-! ## One instruction of a run -/

section Run

variable {env : Environment} {possible : Made → Prop} {body : Body} {head : BinderId}
  {handles : Handles CompileM possible body head} {work work' : Work}

theorem count_eq_ok {counter : Counter} {id : ClosureId} {pc : Nat} {u : Unit}
    (h : (count counter env id pc : CompileM Unit) work = .ok u work') :
    work' = counter.raise work := by
  simp only [count, bind_eq_ok, modify_eq_ok, get_eq_ok] at h
  obtain ⟨-, -, rfl, -, -, ⟨rfl, rfl⟩, h⟩ := h
  split at h
  · exact absurd h throw_ne_ok
  · exact (pure_eq_ok.mp h).2.symm

section Advance

variable {M : Type → Type} [Monad M] [MonadExceptOf CompileError M] [MonadStateOf Work M]
  {handles : Handles M possible body head} {pc : Nat}
  {later : pc < body.code.length → (target : Nat) → pc < target → Frame possible → M Expr}

theorem advance_of_fetched {instruction : Instruction}
    (fetched : body.code[pc]? = some instruction) (frame : Frame possible) :
    advance env handles pc later frame = (do
      count .steps env body.id pc
      let flow ← step env handles pc instruction (List.mem_of_getElem? fetched) frame
      resume env body.id pc (later (List.getElem?_eq_some_iff.mp fetched).1) flow) := by
  unfold advance
  refine bind_congr fun _ => ?_
  split
  · next missing => simp [fetched] at missing
  · next found same =>
      obtain rfl : instruction = found := by simpa [fetched] using same
      rfl

theorem advance_of_end (missing : body.code[pc]? = none) (frame : Frame possible) :
    advance env handles pc later frame = (do
      count .steps env body.id pc
      throw (.control body.id pc .endOfBody)) := by
  unfold advance
  refine bind_congr fun _ => ?_
  split
  · rfl
  · next found => simp [missing] at found

end Advance

def goOn (env : Environment) (handles : Handles CompileM possible body head) (pc : Nat)
    (flow : Flow possible) : CompileM Expr :=
  resume env body.id pc (fun target _ frame => run env handles target frame) flow

theorem run_of_fetched {pc : Nat} {instruction : Instruction}
    (fetched : body.code[pc]? = some instruction) (frame : Frame possible) :
    run env handles pc frame = (do
      count .steps env body.id pc
      let flow ← step env handles pc instruction (List.mem_of_getElem? fetched) frame
      goOn env handles pc flow) := by
  rw [run, advance_of_fetched fetched]
  rfl

theorem run_of_end {pc : Nat} (missing : body.code[pc]? = none) (frame : Frame possible) :
    run env handles pc frame = (do
      count .steps env body.id pc
      throw (.control body.id pc .endOfBody)) := by
  rw [run, advance_of_end missing]

/-- How a run goes on from where an instruction led. -/
def Continues (env : Environment) (handles : Handles CompileM possible body head) (pc : Nat)
    (e : Expr) (work work' : Work) : Flow possible → Prop
  | .done result => result = e ∧ work = work'
  | .next frame => run env handles (pc + 1) frame work = .ok e work'
  | .jump target frame => pc < target ∧ run env handles target frame work = .ok e work'
  | .branch test target frame => pc < target ∧
      let work := { work with forks := work.forks + 1 }
      match test.simplify.asBool with
      | some true => run env handles target frame work = .ok e work'
      | some false => run env handles (pc + 1) frame work = .ok e work'
      | none => ∃ taken passed between,
          run env handles target frame work = .ok taken between ∧
            run env handles (pc + 1) frame between = .ok passed work' ∧
            .choose test.simplify taken passed = e

theorem continues_of_resume {pc : Nat} {flow : Flow possible} {e : Expr}
    (h : goOn env handles pc flow work = .ok e work') :
    Continues env handles pc e work work' flow := by
  cases flow with
  | done result => exact pure_eq_ok.mp h
  | next frame => exact h
  | jump target frame =>
      simp only [goOn, resume] at h
      split at h
      · next forward => exact ⟨forward, h⟩
      · exact absurd h throw_ne_ok
  | branch test target frame =>
      simp only [goOn, resume] at h
      split at h
      · next forward =>
          refine ⟨forward, ?_⟩
          obtain ⟨_, forked, hfork, h⟩ := bind_eq_ok.mp h
          obtain rfl := count_eq_ok hfork
          simp only
          cases constant : test.simplify.asBool with
          | none =>
              simp only [constant, bind_eq_ok, pure_eq_ok] at h
              obtain ⟨taken, between, htaken, passed, last, hpassed, he, rfl⟩ := h
              exact ⟨taken, passed, between, htaken, hpassed, he⟩
          | some b => cases b <;> simpa [constant, Counter.raise] using h
      · exact absurd h throw_ne_ok

/-- A run that succeeds is an instruction that succeeds and the runs that go on
from it. -/
theorem run_eq_ok {pc : Nat} {frame : Frame possible} {e : Expr}
    (h : run env handles pc frame work = .ok e work') :
    ∃ (instruction : Instruction) (fetched : body.code[pc]? = some instruction) (flow : Flow possible)
      (between : Work),
      step env handles pc instruction (List.mem_of_getElem? fetched) frame
          { work with steps := work.steps + 1 } = .ok flow between ∧
        Continues env handles pc e between work' flow := by
  rcases Option.eq_none_or_eq_some body.code[pc]? with missing | ⟨instruction, fetched⟩
  · rw [run_of_end missing] at h
    obtain ⟨_, _, -, h⟩ := bind_eq_ok.mp h
    exact absurd h throw_ne_ok
  · rw [run_of_fetched fetched] at h
    obtain ⟨_, _, counted, h⟩ := bind_eq_ok.mp h
    obtain rfl := count_eq_ok counted
    obtain ⟨flow, between, stepped, resumed⟩ := bind_eq_ok.mp h
    exact ⟨instruction, fetched, flow, between, stepped, continues_of_resume resumed⟩

/-- An instruction within the limit on steps, and then the rest of the run. -/
theorem run_of_step {pc : Nat} {instruction : Instruction} {frame : Frame possible} {flow : Flow possible}
    {between : Work} {e : Expr} (fetched : body.code[pc]? = some instruction)
    (few : work.steps < env.settings.maxSteps)
    (stepped : step env handles pc instruction (List.mem_of_getElem? fetched) frame
      { work with steps := work.steps + 1 } = .ok flow between)
    (resumed : goOn env handles pc flow between = .ok e work') :
    run env handles pc frame work = .ok e work' := by
  have counted : (count .steps env body.id pc : CompileM Unit) work =
      .ok () { work with steps := work.steps + 1 } := by
    simp only [count, bind_eq_ok, modify_eq_ok, get_eq_ok]
    refine ⟨⟨⟩, _, rfl, _, _, ⟨rfl, rfl⟩, ?_⟩
    rw [if_neg (by simp [Counter.limit, Counter.count, Counter.raise]; omega)]
    rfl
  rw [run_of_fetched fetched]
  exact bind_eq_ok.mpr ⟨_, _, counted, bind_eq_ok.mpr ⟨_, _, stepped, resumed⟩⟩

end Run

section Closures

variable {env : Environment} {body : Body} {head : BinderId} {work work' : Work}

/-- How nested closures are compiled: with the innermost binder of their own. -/
abbrev Nested (outer : Body) := Pending outer.Makes → BinderId → CompileM Expr

abbrev Nested.handles (nested : Nested body) (head : BinderId) :
    Handles CompileM body.Makes body head :=
  (Lookup.alongChain head).handles nested head

def handlesOf (env : Environment) (body : Body) (head : BinderId) :
    Handles CompileM body.Makes body head :=
  Nested.handles (fun pending inner => compileBody env pending.body inner) head

theorem compileBody_eq (env : Environment) (body : Body) (head : BinderId) :
    compileBody env body head = inNormalForm (run env (handlesOf env body head) 0 .empty) := by
  rw [compileBody, compileWith]
  rfl

/-- A body is compiled by a run with limits of its own, and then put in normal
form. -/
theorem compileBody_eq_ok {e : Expr} (h : compileBody env body head work = .ok e work') :
    ∃ (result : Expr) (between : Work),
      run env (handlesOf env body head) 0 .empty { work with steps := 0, forks := 0 } =
          .ok result between ∧
        result.simplify = e ∧
        { between with steps := work.steps, forks := work.forks } = work' := by
  rw [compileBody_eq] at h
  simp only [inNormalForm, withOwnLimits, bind_eq_ok, modifyGet_eq_ok, modify_eq_ok,
    pure_eq_ok] at h
  obtain ⟨_, _, ⟨⟩, _, between, ⟨result, _, ran, rfl, rfl⟩, _, _, rfl, rfl, rfl⟩ := h
  exact ⟨result, _, ran, rfl, rfl⟩

theorem compileBody_of_run {between : Work} {result : Expr}
    (ran : run env (handlesOf env body head) 0 .empty { work with steps := 0, forks := 0 } =
      .ok result between) :
    compileBody env body head work =
      .ok result.simplify { between with steps := work.steps, forks := work.forks } := by
  rw [compileBody_eq]
  simp only [inNormalForm, withOwnLimits, bind_eq_ok, modifyGet_eq_ok, modify_eq_ok, pure_eq_ok]
  exact ⟨_, _, rfl, _, _, ⟨_, _, ran, rfl, rfl⟩, ⟨⟩, _, rfl, rfl, rfl⟩

end Closures

end Compile

theorem Closure.compile_eq_ok {closure : Closure} {env : Compile.Environment} {chain : Chain}
    {head : BinderId} {supply supply' : Compile.Supply} {e : Expr} :
    ((closure.compile env chain head supply).outcome = .ok e ∧
        (closure.compile env chain head supply).supply = supply') ↔
      ∃ after, Compile.compileBody env closure.body head { toSupply := supply, chain } =
        .ok e after ∧ after.toSupply = supply' := by
  have run : (Compile.compileBody env closure.body head).run { toSupply := supply, chain } =
      Compile.compileBody env closure.body head { toSupply := supply, chain } := rfl
  rw [Closure.compile, run]
  cases Compile.compileBody env closure.body head { toSupply := supply, chain } with
  | error error after => simp
  | ok found after => simp

end StreamQuery
