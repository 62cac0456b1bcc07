import StreamQuery.Proofs.Built

/-! # Nested closures

A closure that another one makes has two binders of its own: one that forwards its captured
slots to the closure that made it, and one for its element. So captured slots are looked up
level by level, and what is found is what the last of them names.
-/

namespace StreamQuery

/-- The element of a closure, as its first parameter. -/
def BinderId.element (head : BinderId) (type expected : ValueType) : Except BindError Expr :=
  if type.flowsTo expected then .ok (.element head.scope type)
  else .error (.typeMismatch (.param 0) expected type)

namespace Chain

variable {chain chain' : Chain} {start : Option BinderId} {id : BinderId} {link : Link}
  {arg : Argument} {expected : ValueType}

/-! ## Walks -/

/-- A walk outward finds a binder at each step, and goes on to one that was added before it. -/
inductive Descends (chain : Chain) : Option BinderId → Prop where
  | done : Descends chain none
  | step {id : BinderId} {link : Link} (found : chain.links[id]? = some link)
      (smaller : ∀ parent ∈ link.parent, parent < id) (outward : Descends chain link.parent) :
      Descends chain (some id)

theorem Descends.grow (h : chain.Descends start) (grows : chain.GrowsTo chain') :
    chain'.Descends start := by
  induction h with
  | done => exact .done
  | step found smaller _ ih => exact .step (grows.keeps _ _ found) smaller ih

theorem Descends.push (h : chain.Descends start) (binder : Binder) :
    (chain.push binder start).Descends (some chain.size) := by
  refine .step (links_push chain binder start) ?_ (h.grow (growsTo_push chain binder start))
  intro parent hparent
  obtain rfl := hparent
  cases h with
  | step found => exact (Array.getElem?_eq_some_iff.mp found).1

/-- What is enough for a binder is, after one step, enough for an earlier one. -/
theorem exists_fuel_left {parent? : Option BinderId} {fuel : Nat}
    (smaller : ∀ parent ∈ parent?, parent < id) (enough : id < fuel) :
    ∃ left, fuel = left + 1 ∧ ∀ parent ∈ parent?, parent < left := by
  obtain ⟨left, rfl⟩ := Nat.exists_eq_add_one_of_ne_zero (Nat.ne_zero_of_lt enough)
  refine ⟨left, rfl, fun parent h => ?_⟩
  exact Nat.lt_of_lt_of_le (smaller parent h) (Nat.le_of_lt_succ enough)

/-- A walk has no more steps than there are binders below its start. -/
theorem Descends.resolveWithin (h : chain.Descends start) {fuel fuel' : Nat}
    (enough : ∀ id ∈ start, id < fuel) (enough' : ∀ id ∈ start, id < fuel') (arg : Argument)
    (expected : ValueType) : chain.resolveWithin expected fuel start arg =
      chain.resolveWithin expected fuel' start arg := by
  induction h generalizing fuel fuel' arg with
  | done => cases fuel <;> cases fuel' <;> rfl
  | @step id link found smaller outward ih =>
      obtain ⟨fuel, rfl, below⟩ := exists_fuel_left smaller (enough id rfl)
      obtain ⟨fuel', rfl, below'⟩ := exists_fuel_left smaller (enough' id rfl)
      simp only [Chain.resolveWithin, found]
      cases link.binder.offer arg expected with
      | error cause => rfl
      | ok answer =>
          cases answer with
          | resolved e => rfl
          | forward arg => exact ih below below' arg
          | pass => exact ih below below' arg

theorem lt_longestWalk (h : chain.links[id]? = some link) : id < chain.longestWalk :=
  calc id
    _ < chain.size := (Array.getElem?_eq_some_iff.mp h).1
    _ ≤ chain.size * (1 + _) := Nat.le_mul_of_pos_right _ (by omega)
    _ < chain.longestWalk := Nat.lt_succ_self _

/-- The bound on a walk is never what ends it. -/
theorem Descends.resolve (h : chain.Descends (some id)) {fuel : Nat} (enough : id < fuel)
    (arg : Argument) (expected : ValueType) :
    chain.resolveWithin expected fuel (some id) arg = chain.resolve id arg expected := by
  refine h.resolveWithin (by simpa using enough) ?_ arg expected
  cases h with
  | step found => simpa using lt_longestWalk found

def outward (chain : Chain) (expected : ValueType) (parent : Option BinderId) (arg : Argument) :
    Except BindError Expr :=
  match parent with
  | none => .error (.exhausted arg)
  | some id => chain.resolve id arg expected

/-- One step of a walk. -/
theorem Descends.resolve_eq (h : chain.Descends (some id)) (found : chain.links[id]? = some link)
    (arg : Argument) (expected : ValueType) : chain.resolve id arg expected =
      match link.binder.offer arg expected with
      | .error cause => .error cause
      | .ok (.resolved e) => .ok e
      | .ok (.forward arg) | .ok .pass => chain.outward expected link.parent arg := by
  cases h with
  | @step _ link' found' smaller next =>
      obtain rfl : link = link' := Option.some.inj (found.symm.trans found')
      have on (arg : Argument) : chain.resolveWithin expected id link.parent arg =
          chain.outward expected link.parent arg := by
        cases parent : link.parent with
        | none => cases id <;> rfl
        | some id' =>
            rw [parent] at next
            exact next.resolve (smaller id' parent) arg expected
      rw [← Descends.resolve (.step found smaller next) (Nat.lt_succ_self id), Chain.resolveWithin,
        found]
      simp only [on]
      cases link.binder.offer arg expected with
      | error cause => rfl
      | ok answer => cases answer <;> rfl

/-! ## What each binder does on a walk -/

theorem Descends.resolve_parameters (h : chain.Descends (some id)) {closure : ClosureId}
    {slots : List (ValueType × Option Cell)}
    (found : chain.links[id]? = some ⟨.parameters closure slots, none⟩) (arg : Argument)
    (expected : ValueType) : chain.resolve id arg expected =
      match arg with
      | .param index => .error (.exhausted (.param index))
      | .capture slot => Binder.capture closure slots slot := by
  rw [h.resolve_eq found]
  cases arg with
  | param index => cases index <;> rfl
  | capture slot =>
      simp only [Binder.offer]
      cases Binder.capture closure slots slot <;> rfl

theorem Descends.resolve_stream (h : chain.Descends (some id)) {query : Query} {parent : BinderId}
    (found : chain.links[id]? = some ⟨.stream query, some parent⟩) (arg : Argument)
    (expected : ValueType) : chain.resolve id arg expected = chain.resolve parent arg expected := by
  rw [h.resolve_eq found]
  cases arg with
  | param index => cases index <;> rfl
  | capture slot => rfl

theorem Descends.resolve_element (h : chain.Descends (some id)) {type : ValueType}
    {parent : BinderId}
    (found : chain.links[id]? = some ⟨.element (.element id.scope type), some parent⟩)
    (arg : Argument) (expected : ValueType) : chain.resolve id arg expected =
      match arg with
      | .param 0 => id.element type expected
      | arg => chain.resolve parent arg expected := by
  rw [h.resolve_eq found]
  cases arg with
  | capture slot => rfl
  | param index =>
      cases index with
      | succ index => rfl
      | zero =>
          simp only [Binder.offer, BinderId.element, Expr.type]
          by_cases flows : type.flowsTo expected = true <;> simp [flows]

theorem Descends.resolve_outer (h : chain.Descends (some id)) {forwards : List Argument}
    {creator : BinderId} (found : chain.links[id]? = some ⟨.outer forwards, some creator⟩)
    (arg : Argument) (expected : ValueType) : chain.resolve id arg expected =
      match arg with
      | .param index => .error (.paramEscaped index)
      | .capture slot =>
        match forwards[slot]? with
        | some arg => chain.resolve creator arg expected
        | none => .error (.captureMissing slot) := by
  rw [h.resolve_eq found]
  cases arg with
  | param index => cases index <;> rfl
  | capture slot =>
      simp only [Binder.offer]
      cases forwards[slot]? <;> rfl

end Chain

/-! ## Levels -/

/-- What an outermost closure is given: its captured slots, and a stream or an element, or
both. -/
structure Origin where
  closure : ClosureId
  slots : List (ValueType × Option Cell)
  stream? : Option Query := none
  element? : Option ValueType := none

/-- A closure that another one made: what its captured slots are there, and its element. -/
structure Level where
  forwards : List Argument
  head : BinderId
  type : ValueType

namespace Origin

open Chain

def base (o : Origin) : Chain :=
  let own := Chain.empty.push (.parameters o.closure o.slots) none
  match o.stream? with
  | none => own
  | some query => own.push (.stream query) (some 0)

def chain (o : Origin) : Chain :=
  match o.element? with
  | none => o.base
  | some type => o.base.pushElement type (some (o.base.size - 1))

def head (o : Origin) : BinderId := o.chain.size - 1

def innermost (o : Origin) : List Level → BinderId
  | [] => o.head
  | level :: _ => level.head

/-- A chain in which levels were opened one in another. Between and after them other binders
may have been added. -/
inductive Opens (o : Origin) : Chain → List Level → Prop where
  | outermost : o.Opens o.chain []
  | nested {chain : Chain} {levels : List Level} (h : o.Opens chain levels)
      (forwards : List Argument) (type : ValueType) :
      o.Opens ((chain.push (.outer forwards) (some (o.innermost levels))).pushElement type
        (some chain.size)) (⟨forwards, chain.size + 1, type⟩ :: levels)
  | later {chain chain' : Chain} {levels : List Level} (h : o.Opens chain levels)
      (grows : chain.GrowsTo chain') : o.Opens chain' levels

/-- What an argument of a closure names in the end: the element of a closure, a captured
slot of the outermost one, or nothing. -/
inductive Named where
  | element (head : BinderId) (type : ValueType)
  | slot (slot : Nat)
  | nothing (error : BindError)

/-- Follows captured slots from level to level. -/
def named (o : Origin) : List Level → Argument → Named
  | [], .capture slot => .slot slot
  | [], .param 0 =>
    match o.element? with
    | some type => .element o.head type
    | none => .nothing (.exhausted (.param 0))
  | [], .param index => .nothing (.exhausted (.param index))
  | level :: _, .param 0 => .element level.head level.type
  | _ :: _, .param index => .nothing (.paramEscaped index)
  | level :: levels, .capture slot =>
    match level.forwards[slot]? with
    | some arg => o.named levels arg
    | none => .nothing (.captureMissing slot)

def find (o : Origin) (expected : ValueType) : Named → Except BindError Expr
  | .element head type => head.element type expected
  | .slot slot => Binder.capture o.closure o.slots slot
  | .nothing error => .error error

/-! ## Where the binders of levels lie -/

/-- Each level has a binder that forwards to the level around it, and above that the binder
of its element. -/
def Lies (o : Origin) (chain : Chain) : List Level → Prop
  | [] => o.chain.GrowsTo chain
  | level :: levels => (∃ outer : BinderId, o.innermost levels < outer ∧ outer < level.head ∧
      chain.links[outer]? = some ⟨.outer level.forwards, some (o.innermost levels)⟩ ∧
      chain.links[level.head]? =
        some ⟨.element (.element level.head.scope level.type), some outer⟩) ∧ o.Lies chain levels

variable {o : Origin} {chain chain' : Chain} {level : Level} {levels : List Level}

theorem Lies.grow (h : o.Lies chain levels) (grows : chain.GrowsTo chain') :
    o.Lies chain' levels := by
  induction levels with
  | nil => exact h.trans grows
  | cons level levels ih =>
      obtain ⟨⟨outer, below, above, forwards, element⟩, rest⟩ := h
      exact ⟨⟨outer, below, above, grows.keeps _ _ forwards, grows.keeps _ _ element⟩, ih rest⟩

theorem descends_base (o : Origin) : o.base.Descends (some (o.base.size - 1)) := by
  have own : (empty.push (.parameters o.closure o.slots) none).Descends (some 0) :=
    Descends.done.push _
  unfold base
  cases o.stream? with
  | none => exact own
  | some query => exact own.push _

theorem chain_of_none (h : o.element? = none) :
    o.chain = o.base ∧ o.head = o.base.size - 1 := by
  simp [head, Origin.chain, h]

theorem chain_of_some {type : ValueType} (h : o.element? = some type) :
    o.chain = o.base.pushElement type (some (o.base.size - 1)) ∧ o.head = o.base.size := by
  simp [head, Origin.chain, h, pushElement, push, Chain.size]

theorem descends_chain (o : Origin) : o.chain.Descends (some o.head) := by
  cases given : o.element? with
  | none =>
      obtain ⟨chain, head⟩ := chain_of_none given
      rw [chain, head]
      exact o.descends_base
  | some type =>
      obtain ⟨chain, head⟩ := chain_of_some given
      rw [chain, head]
      exact o.descends_base.push _

theorem Lies.descends (h : o.Lies chain levels) : chain.Descends (some (o.innermost levels)) := by
  induction levels with
  | nil => exact o.descends_chain.grow h
  | cons level levels ih =>
      obtain ⟨⟨outer, below, above, forwards, element⟩, rest⟩ := h
      refine .step element ?_ (.step forwards ?_ (ih rest))
      · rintro parent ⟨⟩
        exact above
      · rintro parent ⟨⟩
        exact below

/-- The two binders of a level, with the walks from them. -/
theorem Lies.binders (h : o.Lies chain (level :: levels)) : ∃ outer : BinderId,
    chain.links[outer]? = some ⟨.outer level.forwards, some (o.innermost levels)⟩ ∧
      chain.links[level.head]? =
        some ⟨.element (.element level.head.scope level.type), some outer⟩ ∧
      chain.Descends (some outer) ∧ chain.Descends (some level.head) := by
  have walk : chain.Descends (some level.head) := h.descends
  obtain ⟨⟨outer, -, -, forwards, element⟩, -⟩ := h
  refine ⟨outer, forwards, element, ?_, walk⟩
  cases walk with
  | step found _ outward =>
      obtain rfl := Option.some.inj (element.symm.trans found)
      exact outward

theorem Lies.innermost_lt (h : o.Lies chain levels) : o.innermost levels < chain.size := by
  cases h.descends with
  | step found => exact (Array.getElem?_eq_some_iff.mp found).1

theorem Lies.nested (h : o.Lies chain levels) (forwards : List Argument) (type : ValueType) :
    o.Lies ((chain.push (.outer forwards) (some (o.innermost levels))).pushElement type
      (some chain.size)) (⟨forwards, chain.size + 1, type⟩ :: levels) := by
  have size : (chain.push (.outer forwards) (some (o.innermost levels))).size = chain.size + 1 :=
    Array.size_push _
  have outer := links_push chain (.outer forwards) (some (o.innermost levels))
  have grows := growsTo_push chain (.outer forwards) (some (o.innermost levels))
  refine ⟨⟨chain.size, h.innermost_lt, Nat.lt_succ_self _, ?_, ?_⟩, ?_⟩
  · exact (growsTo_push _ _ _).keeps _ _ outer
  · rw [← size]
    exact links_push _ _ _
  · exact h.grow (grows.trans (growsTo_push _ _ _))

theorem Opens.lies (h : o.Opens chain levels) : o.Lies chain levels := by
  induction h with
  | outermost => exact .refl
  | nested _ forwards type ih => exact ih.nested forwards type
  | later _ grows ih => exact ih.grow grows

/-! ## Looking up -/

theorem resolve_base (h : o.base.GrowsTo chain) (arg : Argument) (expected : ValueType) :
    chain.resolve (o.base.size - 1) arg expected =
      match arg with
      | .param index => .error (.exhausted (.param index))
      | .capture slot => Binder.capture o.closure o.slots slot := by
  have walk := o.descends_base.grow h
  have own : chain.links[0]? = some ⟨.parameters o.closure o.slots, none⟩ := by
    refine h.keeps _ _ ?_
    unfold base
    cases o.stream? <;> rfl
  have outermost := Descends.resolve_parameters (.step own (by simp) .done) own arg expected
  unfold base at h walk ⊢
  cases stream : o.stream? with
  | none => exact outermost
  | some query =>
      rw [stream] at h walk
      exact (walk.resolve_stream (h.keeps _ _ rfl) arg expected).trans outermost

theorem Lies.resolve_outermost (h : o.Lies chain []) (arg : Argument) (expected : ValueType) :
    chain.resolve o.head arg expected = o.find expected (o.named [] arg) := by
  have walk := o.descends_chain.grow h
  replace h : o.chain.GrowsTo chain := h
  cases given : o.element? with
  | none =>
      obtain ⟨same, head⟩ := chain_of_none given
      rw [head, resolve_base (same ▸ h)]
      cases arg with
      | param index => cases index <;> simp [find, named, given]
      | capture slot => rfl
  | some type =>
      obtain ⟨same, head⟩ := chain_of_some given
      rw [same] at h
      have element : chain.links[o.head]? =
          some ⟨.element (.element o.head.scope type), some (o.base.size - 1)⟩ := by
        rw [head]
        exact h.keeps _ _ (links_push _ _ _)
      have base := resolve_base ((growsTo_push _ _ _).trans h) arg expected
      rw [walk.resolve_element element]
      cases arg with
      | param index =>
          cases index with
          | zero => simp [find, named, given]
          | succ index => exact base
      | capture slot => exact base

/-- A captured slot stands for what it is forwarded to, looked up where the closure was made. -/
theorem Lies.resolve_capture (h : o.Lies chain (level :: levels)) (slot : Nat)
    (expected : ValueType) : chain.resolve level.head (.capture slot) expected =
      match level.forwards[slot]? with
      | some arg => chain.resolve (o.innermost levels) arg expected
      | none => .error (.captureMissing slot) := by
  obtain ⟨outer, forwards, element, outerWalk, walk⟩ := h.binders
  exact (walk.resolve_element element (.capture slot) expected).trans
    (outerWalk.resolve_outer forwards (.capture slot) expected)

theorem Lies.resolve_param (h : o.Lies chain (level :: levels)) (index : Nat)
    (expected : ValueType) : chain.resolve level.head (.param index) expected =
      match index with
      | 0 => level.head.element level.type expected
      | index + 1 => .error (.paramEscaped (index + 1)) := by
  obtain ⟨outer, forwards, element, outerWalk, walk⟩ := h.binders
  rw [walk.resolve_element element]
  cases index with
  | zero => rfl
  | succ index => exact outerWalk.resolve_outer forwards _ _

theorem Lies.resolve (h : o.Lies chain levels) (arg : Argument) (expected : ValueType) :
    chain.resolve (o.innermost levels) arg expected = o.find expected (o.named levels arg) := by
  -- A parameter is answered at the first level, a captured slot goes on to the next.
  induction levels generalizing arg with
  | nil => exact h.resolve_outermost arg expected
  | cons level levels ih =>
      cases arg with
      | param index =>
          refine (h.resolve_param index expected).trans ?_
          cases index <;> rfl
      | capture slot =>
          refine (h.resolve_capture slot expected).trans ?_
          simp only [named]
          cases level.forwards[slot]? with
          | none => rfl
          | some arg => exact ih h.2 arg

/-- Captured slots are lexically scoped at any depth: one of a nested closure stands for what
it is forwarded to in the closure around it, and so for the element or the outermost captured
slot that is named in the end. The walk to it goes down the chain. -/
theorem capture_lexical (h : o.Opens chain (level :: levels)) (slot : Nat)
    (expected : ValueType) :
    (chain.resolve level.head (.capture slot) expected =
      match level.forwards[slot]? with
      | some arg => chain.resolve (o.innermost levels) arg expected
      | none => .error (.captureMissing slot)) ∧
    chain.resolve level.head (.capture slot) expected =
      o.find expected (o.named (level :: levels) (.capture slot)) ∧
    chain.Descends (some level.head) ∧
    ∀ fuel, level.head < fuel →
      chain.resolveWithin expected fuel (some level.head) (.capture slot) =
        chain.resolve level.head (.capture slot) expected := by
  have lies := h.lies
  have walk : chain.Descends (some level.head) := lies.descends
  exact ⟨lies.resolve_capture slot expected, lies.resolve (.capture slot) expected, walk,
    fun fuel enough => walk.resolve enough _ _⟩

/-- The value of a group of customers, which has a key and one captured country. -/
def ofGroup : Origin where
  closure := 1
  slots := [(.text, some ⟨7⟩)]
  stream? := some (.ofEntity "Customer")
  element? := some .text

def overCustomers : Level := ⟨[.capture 0, .param 0], 4, .entity "Customer"⟩

def overAccounts : Level := ⟨[.capture 0, .capture 1, .param 0, .param 1], 6, .entity "Account"⟩

/-- Through two levels, the slots of the inner closure are the captured country, the key and
the customer; a second parameter there is none. -/
theorem capture_lexical_overAccounts : ∃ chain,
    ofGroup.Opens chain [overAccounts, overCustomers] ∧
      chain.resolve 6 (.capture 0) .text = .ok (.ofCapture ⟨1, 0, .text, ⟨7⟩⟩) ∧
      chain.resolve 6 (.capture 1) .text = .ok (.element 2 .text) ∧
      chain.resolve 6 (.capture 2) (.entity "Customer") = .ok (.element 4 (.entity "Customer")) ∧
      chain.resolve 6 (.capture 3) .text = .error (.paramEscaped 1) := by
  have opens := (Opens.outermost (o := ofGroup)).nested overCustomers.forwards overCustomers.type
    |>.nested overAccounts.forwards overAccounts.type
  have found (slot : Nat) (expected : ValueType) := (capture_lexical opens slot expected).2.1
  exact ⟨_, opens, found 0 _, found 1 _, found 2 _, found 3 _⟩

end Origin

end StreamQuery
