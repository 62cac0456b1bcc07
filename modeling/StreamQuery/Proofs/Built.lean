import StreamQuery.Proofs.CompileRun

/-! # How compiling builds expressions

`BuiltFrom` lists the ways in which an expression can come about while a closure is
compiled: leaves that a chain of binders offers, compound nodes, sources opened
with the next number, and queries derived with a nested closure. Whatever is
compiled was built so, from what the chain was given. What holds of all compiled
expressions is shown by induction on how they were built.
-/

namespace StreamQuery

/-! ## Types of nodes -/

def ValueType.isTuple : ValueType → Bool
  | tuple _ => true
  | _ => false

/-- A tuple has the type of its components. Of the other nodes that compute something, only
choices, least and greatest values can have the type of a tuple. -/
def Expr.FitsKind : Expr → Prop
  | tuple items t => t = .tuple (items.map type)
  | aggregate fn _ _ t => t.isTuple = true → fn = .min ∨ fn = .max
  | row .. | element .. | path .. | component .. | conditional .. => True
  | constant _ t | param _ t | unary _ _ t | binary _ _ _ t | call _ _ t | subQuery _ t =>
    t.isTuple = false

theorem ValueType.isTuple_of_isNumeric {t : ValueType} (h : t.isNumeric = true) :
    t.isTuple = false := by
  cases t <;> simp_all [isNumeric, isTuple]

theorem ValueType.isTuple_of_isScalar {t : ValueType} (h : t.isScalar = true) :
    t.isTuple = false := by
  cases t <;> simp_all [isScalar, isTuple]

theorem Value.isTuple_type (v : Value) : v.type.isTuple = false := by
  cases v <;> rfl

/-! ## What a chain offers -/

/-- What a binder can offer: rows and streams from outside, elements of some scopes, captured
slots. -/
def Binder.Suits (given : Expr → Prop) (scopes : List ElementScope) : Binder → Prop
  | element row => given row ∨ ∃ scope ∈ scopes, ∃ t, row = .element scope t
  | stream query => given (.embed query)
  | parameters .. | outer _ => True

def Expr.Streamed (stream? : Option Query) (e : Expr) : Prop :=
  ∃ query, stream? = some query ∧ e = .embed query

inductive Expr.Offered (given : Expr → Prop) (scopes : List ElementScope) : Expr → Prop where
  | given {e : Expr} (h : given e) : Offered given scopes e
  | element {scope : ElementScope} (known : scope ∈ scopes) (t : ValueType) :
      Offered given scopes (.element scope t)
  | capture (capture : Capture) (scalar : capture.type.isScalar = true) :
      Offered given scopes (.ofCapture capture)

theorem Binder.Suits.offer {given : Expr → Prop} {scopes : List ElementScope} {binder : Binder}
    {arg : Argument} {expected : ValueType} {e : Expr} (h : binder.Suits given scopes)
    (offered : binder.offer arg expected = .ok (.resolved e)) : e.Offered given scopes := by
  unfold Binder.offer at offered
  split at offered
  · split at offered <;> cases offered
    obtain given | ⟨scope, known, t, rfl⟩ := h
    · exact .given given
    · exact .element known t
  · obtain ⟨x, captured, ⟨⟩⟩ := Compile.map_eq_ok.mp offered
    unfold Binder.capture at captured
    split at captured
    · cases captured
    split at captured
    · cases captured
    next scalar =>
      split at captured <;> cases captured
      exact .capture _ (by simpa using scalar)
  · split at offered <;> cases offered
  · cases offered
  · cases offered

namespace Chain

/-- All that can be looked up from a binder outward. -/
inductive OffersFrom (chain : Chain) (given : Expr → Prop) (scopes : List ElementScope) :
    Option BinderId → Prop where
  | outermost : OffersFrom chain given scopes none
  | binder {id : BinderId} {link : Link} (found : chain.links[id]? = some link)
      (suits : link.binder.Suits given scopes)
      (outward : OffersFrom chain given scopes link.parent) :
      OffersFrom chain given scopes (some id)

abbrev Offers (chain : Chain) (stream? : Option Query) := chain.OffersFrom (Expr.Streamed stream?)

structure GrowsTo (chain chain' : Chain) : Prop where
  keeps : ∀ (id : BinderId) (link : Link), chain.links[id]? = some link →
    chain'.links[id]? = some link

variable {chain chain' : Chain} {given : Expr → Prop} {scopes scopes' : List ElementScope}
  {start : Option BinderId} {e : Expr}

theorem GrowsTo.refl : chain.GrowsTo chain := ⟨fun _ _ found => found⟩

theorem GrowsTo.trans {chain'' : Chain} (h : chain.GrowsTo chain') (h' : chain'.GrowsTo chain'') :
    chain.GrowsTo chain'' :=
  ⟨fun id link found => h'.keeps id link (h.keeps id link found)⟩

theorem growsTo_push (chain : Chain) (binder : Binder) (parent : Option BinderId) :
    chain.GrowsTo (chain.push binder parent) := by
  refine ⟨fun id link found => ?_⟩
  have inside := (Array.getElem?_eq_some_iff.mp found).1
  rwa [push, Array.getElem?_push, if_neg (by omega)]

theorem links_push (chain : Chain) (binder : Binder) (parent : Option BinderId) :
    (chain.push binder parent).links[chain.size]? = some ⟨binder, parent⟩ := by
  rw [push, size, Array.getElem?_push, if_pos rfl]

theorem OffersFrom.grow (h : chain.OffersFrom given scopes start) (grows : chain.GrowsTo chain') :
    chain'.OffersFrom given scopes start := by
  induction h with
  | outermost => exact .outermost
  | binder found suits _ ih => exact .binder (grows.keeps _ _ found) suits ih

theorem OffersFrom.mono (h : chain.OffersFrom given scopes start) (sub : scopes ⊆ scopes') :
    chain.OffersFrom given scopes' start := by
  induction h with
  | outermost => exact .outermost
  | @binder id link found suits _ ih =>
      refine .binder found ?_ ih
      cases hb : link.binder with
      | element row =>
          rw [hb] at suits
          exact suits.imp_right fun ⟨scope, known, t, same⟩ => ⟨scope, sub known, t, same⟩
      | stream query => rwa [hb] at suits
      | parameters | outer => trivial

theorem OffersFrom.push (h : chain.OffersFrom given scopes start) {binder : Binder}
    (suits : binder.Suits given scopes) :
    (chain.push binder start).OffersFrom given scopes (some chain.size) :=
  .binder (links_push ..) suits (h.grow (growsTo_push ..))

/-- Chains of a nested closure: its slots belong to the closure that made it, its
parameter is an element of its own. -/
theorem OffersFrom.nested {creator : BinderId} (h : chain.OffersFrom given scopes (some creator))
    (forwards : List Argument) (type : ValueType) :
    ((chain.push (.outer forwards) (some creator)).pushElement type
      (some chain.size)).OffersFrom given ((chain.size + 1) :: scopes) (some (chain.size + 1)) := by
  have size : (chain.push (.outer forwards) (some creator)).size = chain.size + 1 := by
    simp [Chain.push, Chain.size]
  have outer : (chain.push (.outer forwards) (some creator)).OffersFrom given
      ((chain.size + 1) :: scopes) (some chain.size) :=
    (h.mono (List.subset_cons_self _ _)).push trivial
  rw [← size] at outer ⊢
  exact outer.push (.inr ⟨_, List.mem_cons_self, type, rfl⟩)

theorem OffersFrom.resolveWithin (h : chain.OffersFrom given scopes start) {expected : ValueType}
    {fuel : Nat} {arg : Argument} (found : chain.resolveWithin expected fuel start arg = .ok e) :
    e.Offered given scopes := by
  induction fuel generalizing start arg with
  | zero => cases found
  | succ fuel ih =>
      cases h with
      | outermost => cases found
      | @binder id link known suits outward =>
          simp only [Chain.resolveWithin, known, bind, Except.bind] at found
          cases offered : link.binder.offer arg expected with
          | error cause => simp [offered] at found
          | ok answer =>
              rw [offered] at found
              cases answer with
              | resolved x =>
                  cases found
                  exact suits.offer offered
              | forward | pass => exact ih outward found

theorem OffersFrom.streamWithin (h : chain.OffersFrom given scopes start) {fuel : Nat}
    {query : Query} (found : chain.streamWithin fuel start = some query) :
    given (.embed query) := by
  induction fuel generalizing start with
  | zero => cases found
  | succ fuel ih =>
      cases h with
      | outermost => cases found
      | @binder id link known suits outward =>
          simp only [Chain.streamWithin, known] at found
          split at found
          · cases found
          · next query' parent same =>
              cases found
              cases same
              exact suits
          · next link' _ same =>
              cases same
              exact ih outward found

end Chain

namespace Compile

/-! ## The ways of building -/

/-- An expression built while sources are numbered from `start` on, of which `next`
is the first that was not opened. -/
inductive BuiltFrom (given : Expr → Prop) :
    (start : SourceId) → List ElementScope → (next : SourceId) → Expr → Prop where
  | constant {start next : SourceId} {scopes : List ElementScope} (v : Value) {t : ValueType}
      (single : t.isTuple = false) : BuiltFrom given start scopes next (.constant v t)
  | param {start next : SourceId} {scopes : List ElementScope} (capture : Capture)
      {t : ValueType} (single : t.isTuple = false) :
      BuiltFrom given start scopes next (.param capture t)
  | element {start next : SourceId} {scopes : List ElementScope} {scope : ElementScope}
      (known : scope ∈ scopes) (t : ValueType) :
      BuiltFrom given start scopes next (.element scope t)
  /-- A row or a stream that the closure was given. -/
  | given {start next : SourceId} {scopes : List ElementScope} {e : Expr} (h : given e) :
      BuiltFrom given start scopes next e
  | compound {start next : SourceId} {scopes : List ElementScope} {e : Expr}
      (holdsNone : e.query? = none) (nonempty : e.children ≠ []) (fits : e.FitsKind)
      (children : ∀ c ∈ e.children, BuiltFrom given start scopes next c) :
      BuiltFrom given start scopes next e
  | retyped {start next : SourceId} {scopes : List ElementScope} {e : Expr}
      (h : BuiltFrom given start scopes next e) {t : ValueType}
      (keeps : t = e.type ∨ e.type.isTuple = false ∧ t.isTuple = false) :
      BuiltFrom given start scopes next (e.withType t)
  | simplified {start next : SourceId} {scopes : List ElementScope} {e : Expr}
      (h : BuiltFrom given start scopes next e) : BuiltFrom given start scopes next e.simplify
  | navigation {start next : SourceId} {scopes : List ElementScope} {path : Expr}
      (h : BuiltFrom given start scopes next path) (later : start ≤ next) :
      BuiltFrom given start scopes (next + 1) (.embed (.ofSource (.along next path)))
  | entity {start next : SourceId} {scopes : List ElementScope} (name : String)
      (later : start ≤ next) :
      BuiltFrom given start scopes (next + 1) (.embed (.ofSource (.entity next name)))
  | counted {start next : SourceId} {scopes : List ElementScope} {query : Query} {t : ValueType}
      (h : BuiltFrom given start scopes next (.subQuery query t)) :
      BuiltFrom given start scopes next (.summarize .count none query)
  /-- An aggregate of the values of a nested closure, which may open sources. -/
  | summarized {start opened next : SourceId} {scopes : List ElementScope} {query : Query}
      {t : ValueType} {inner : Expr} {scope : ElementScope}
      (h : BuiltFrom given start scopes opened (.subQuery query t))
      (nested : BuiltFrom given opened (scope :: scopes) next inner) (later : start ≤ opened)
      (le : opened ≤ next) (fn : AggregateFn) (mark : Nat) :
      BuiltFrom given start scopes next
        (.summarize fn (some ((inner.inlined scope query.currentRow).run mark).1) query)
  /-- A query filtered or projected by a nested closure. -/
  | derived {start opened next : SourceId} {scopes : List ElementScope} {query query' : Query}
      {t : ValueType} {inner : Expr} {scope : ElementScope} {mark : Nat}
      (h : BuiltFrom given start scopes opened (.subQuery query t))
      (nested : BuiltFrom given opened (scope :: scopes) next inner) (later : start ≤ opened)
      (le : opened ≤ next)
      (derives :
        query.filtered ((inner.inlined scope query.currentRow).run mark).1 next = .ok query' ∨
          query.projected ((inner.inlined scope query.currentRow).run mark).1 next = .ok query')
      (mark' : Nat) : BuiltFrom given start scopes next (.embed (query'.separate.run mark').1)
  /-- Sources that are opened later make no difference. -/
  | later {start next next' : SourceId} {scopes : List ElementScope} {e : Expr}
      (h : BuiltFrom given start scopes next e) (le : next ≤ next') :
      BuiltFrom given start scopes next' e

abbrev Built (stream? : Option Query) := BuiltFrom (Expr.Streamed stream?)

section

variable {given : Expr → Prop} {start next : SourceId} {scopes : List ElementScope}
  {e left right operand : Expr}

theorem built_literal (v : Value) : BuiltFrom given start scopes next (.literal v) :=
  .constant v v.isTuple_type

theorem built_unary (h : BuiltFrom given start scopes next operand) (op : UnaryOp) {t : ValueType}
    (single : t.isTuple = false) : BuiltFrom given start scopes next (.unary op operand t) :=
  .compound rfl (by simp [Expr.children]) single (by simpa [Expr.children] using h)

theorem built_binary (hl : BuiltFrom given start scopes next left)
    (hr : BuiltFrom given start scopes next right) (op : BinaryOp) {t : ValueType}
    (single : t.isTuple = false) : BuiltFrom given start scopes next (.binary op left right t) :=
  .compound rfl (by simp [Expr.children]) single (by simp [Expr.children, hl, hr])

theorem built_call {args : List Expr} (nonempty : args ≠ [])
    (h : ∀ c ∈ args, BuiltFrom given start scopes next c) (fn : ScalarFn) {t : ValueType}
    (single : t.isTuple = false) : BuiltFrom given start scopes next (.call fn args t) :=
  .compound rfl nonempty single h

/-! ## Operators and calls -/

theorem built_comparison {op : CompareOp} (hl : BuiltFrom given start scopes next left)
    (hr : BuiltFrom given start scopes next right) (h : comparison op left right = .ok e) :
    BuiltFrom given start scopes next e := by
  unfold comparison at h
  split at h <;> cases h
  exact built_binary hl hr _ rfl

theorem built_arith {op : ArithOp} (hl : BuiltFrom given start scopes next left)
    (hr : BuiltFrom given start scopes next right) (h : arith op left right = .ok e) :
    BuiltFrom given start scopes next e := by
  unfold arith at h
  split at h <;> cases h
  next numeric =>
    have numeric : left.type.isNumeric = true := (Bool.and_eq_true_iff.mp numeric).1
    exact built_binary hl hr _ (ValueType.isTuple_of_isNumeric (ValueType.isNumeric_widen numeric))

theorem built_negation (ho : BuiltFrom given start scopes next operand)
    (h : negation operand = .ok e) : BuiltFrom given start scopes next e := by
  unfold negation at h
  split at h <;> cases h
  next numeric => exact built_unary ho _ (ValueType.isTuple_of_isNumeric numeric)

theorem built_convert {t : ValueType} (ho : BuiltFrom given start scopes next operand)
    (h : convert operand t = .ok e) : BuiltFrom given start scopes next e := by
  unfold convert at h
  split at h <;> cases h
  next allowed =>
    refine ho.retyped (allowed.imp Eq.symm fun numeric => ?_)
    rw [Bool.and_eq_true] at numeric
    exact numeric.imp ValueType.isTuple_of_isNumeric ValueType.isTuple_of_isNumeric

theorem built_zeroTest {op : CompareOp} (ho : BuiltFrom given start scopes next operand)
    (h : zeroTest op operand = .ok e) : BuiltFrom given start scopes next e := by
  unfold zeroTest at h
  split at h
  · cases h
    exact built_unary ho _ rfl
  · cases h
    exact ho
  · split at h <;> cases h
    exact built_binary ho (built_literal _) _ rfl

theorem built_coerceReturn {returns : ValueType} (ho : BuiltFrom given start scopes next operand)
    (h : coerceReturn returns operand = .ok e) : BuiltFrom given start scopes next e := by
  unfold coerceReturn at h
  split at h
  · cases h
    exact ho
  split at h
  · cases h
    exact built_literal _
  split at h
  · cases h
    exact built_literal _
  split at h
  · cases h
    exact built_binary ho (built_literal _) _ rfl
  split at h <;> cases h
  next erased => exact ho.retyped (.inr ⟨by rw [erased]; rfl, rfl⟩)

theorem built_tupleComponent {index : Nat} (ho : BuiltFrom given start scopes next operand)
    (h : tupleComponent operand index = .ok e) : BuiltFrom given start scopes next e := by
  have picked : e = .pick operand index := by
    unfold tupleComponent at h
    split at h
    · split at h <;> cases h
      rfl
    · cases h
      rfl
  rw [picked]
  exact .compound rfl (by simp [Expr.pick, Expr.children]) trivial
    (by simpa [Expr.pick, Expr.children] using ho)

theorem built_entityCall {schema : Schema} {method : Method} {values : List Expr}
    (hv : ∀ c ∈ values, BuiltFrom given start scopes next c)
    (h : entityCall schema method values = .ok e) : BuiltFrom given start scopes next e := by
  unfold entityCall at h
  split at h
  · next left right _ =>
      have compared := mapError_eq_ok.mp h
      exact built_comparison (hv left (by simp)) (hv right (by simp)) compared
  · next receiver =>
      split at h <;> cases h
      refine .compound rfl (by simp [Expr.access, Expr.children]) trivial ?_
      simpa [Expr.access, Expr.children] using hv receiver (by simp)
  · cases h

theorem built_like {method : String} {text searched : Expr}
    (ht : BuiltFrom given start scopes next text) (h : like method text searched = .ok e) :
    BuiltFrom given start scopes next e := by
  unfold like at h
  split at h
  · cases h
  · split at h <;> cases h
    exact built_binary ht (built_literal _) _ rfl

theorem built_concatenation (hl : BuiltFrom given start scopes next left)
    (hr : BuiltFrom given start scopes next right) (h : concatenation left right = .ok e) :
    BuiltFrom given start scopes next e := by
  unfold concatenation at h
  split at h <;> cases h
  exact built_binary hl hr _ rfl

theorem built_libraryCall {schema : Schema} {method : Method} {values : List Expr}
    (hv : ∀ c ∈ values, BuiltFrom given start scopes next c)
    (h : libraryCall schema method values = .ok (.value e)) :
    BuiltFrom given start scopes next e := by
  have only {x : Expr} (fn : ScalarFn) (hx : BuiltFrom given start scopes next x)
      (single : (Expr.invoke fn [x]).type.isTuple = false) :
      BuiltFrom given start scopes next (.invoke fn [x]) :=
    built_call (by simp) (by simpa using hx) _ single
  unfold libraryCall at h
  split at h
  case h_1 => simp at h
  case h_2 left right _ _ _ =>
    simp only [map_eq_ok, Called.value.injEq, exists_eq_right] at h
    exact built_concatenation (hv left (by simp)) (hv right (by simp)) h
  case h_7 text searched _ _ _ | h_8 text searched _ _ _ | h_9 text searched _ _ _ =>
    simp only [map_eq_ok, Called.value.injEq, exists_eq_right] at h
    exact built_like (hv text (by simp)) h
  case h_10 value _ _ _ =>
    split at h <;> cases h
    next numeric => exact only _ (hv value (by simp)) (ValueType.isTuple_of_isNumeric numeric)
  case h_11 value _ _ _ =>
    split at h <;> cases h
    exact only _ (hv value (by simp)) rfl
  case h_12 owner left right _ _ =>
    split at h
    · simp only [map_eq_ok, Called.value.injEq, exists_eq_right] at h
      exact built_comparison (hv left (by simp)) (hv right (by simp)) h
    · cases h
  case h_13 => cases h
  all_goals
    cases h
    exact only _ (hv _ (by simp)) rfl

theorem built_valueCall {schema : Schema} {method : Method} {values : List Expr}
    (hv : ∀ c ∈ values, BuiltFrom given start scopes next c)
    (h : valueCall schema method values = .ok (.value e)) :
    BuiltFrom given start scopes next e := by
  unfold valueCall at h
  split at h
  · next index _ tuple _ =>
      simp only [mapError_eq_ok, map_eq_ok, Called.value.injEq, exists_eq_right] at h
      exact built_tupleComponent (hv tuple (by simp)) h
  · cases h
  · next type value _ _ =>
      simp only [mapError_eq_ok, map_eq_ok, Called.value.injEq, exists_eq_right] at h
      exact built_convert (hv value (by simp)) h
  · split at h
    · simp only [map_eq_ok, Called.value.injEq, exists_eq_right] at h
      exact built_entityCall hv h
    · exact built_libraryCall hv (mapError_eq_ok.mp h)

end

/-! ## Stream calls -/

structure Advances (work work' : Work) : Prop where
  nextSource_le : work.nextSource ≤ work'.nextSource
  chain : work.chain.GrowsTo work'.chain

theorem Advances.refl (work : Work) : Advances work work := ⟨Nat.le_refl _, .refl⟩

theorem Advances.trans {work between work' : Work} (h : Advances work between)
    (h' : Advances between work') : Advances work work' :=
  ⟨Nat.le_trans h.nextSource_le h'.nextSource_le, h.chain.trans h'.chain⟩

/-- What is asked of the way in which nested closures are compiled. -/
def NestedBuilds (given : Expr → Prop) {body : Body} (nested : Nested body) : Prop :=
  ∀ (pending : Pending body.Makes) (head : BinderId) (start : SourceId) (scopes : List ElementScope)
    (e : Expr) (work work' : Work), nested pending head work = .ok e work' →
    work.chain.OffersFrom given scopes (some head) → start ≤ work.nextSource →
    BuiltFrom given start scopes work'.nextSource e ∧ Advances work work'

section

variable {given : Expr → Prop} {start : SourceId} {scopes : List ElementScope} {body : Body}
  {head : BinderId} {nested : Nested body} {pc : Nat} {e : Expr} {work work' : Work}

theorem built_overRows (builds : NestedBuilds given nested) {pending : Pending body.Makes}
    {query : Query} (offers : work.chain.OffersFrom given scopes (some pending.creator))
    (h : overRows body.id pc nested pending query work = .ok e work') :
    ∃ (inner : Expr) (scope : ElementScope) (mark : Nat),
      BuiltFrom given work.nextSource (scope :: scopes) work'.nextSource inner ∧
        ((inner.inlined scope query.currentRow).run mark).1 = e ∧ Advances work work' := by
  obtain ⟨inner, between, compiled, rfl, source, chain⟩ := overRows_eq_ok h
  obtain ⟨built, advances⟩ := builds _ _ work.nextSource _ _ _ _ compiled
    (offers.nested pending.forwards query.rowType) (Nat.le_refl _)
  refine ⟨inner, _, between.nextMark, source ▸ built, rfl, source ▸ advances.nextSource_le, ?_⟩
  rw [chain]
  exact (Chain.growsTo_push ..).trans ((Chain.growsTo_push ..).trans advances.chain)

/-- What is asked of an operand: a value was built, a closure was made here. -/
def Operand.Fine (given : Expr → Prop) (start : SourceId) (scopes : List ElementScope)
    (head : BinderId) (next : SourceId) : Operand body.Makes → Prop
  | .value e => BuiltFrom given start scopes next e
  | .closure pending => pending.creator = head

theorem built_derived (builds : NestedBuilds given nested) {pending : Pending body.Makes}
    {stream : Expr} {make : Query → Expr → SourceId → Except Refusal Query}
    (derives : ∀ query x next, make query x next = query.filtered x next ∨
      make query x next = query.projected x next)
    (offers : work.chain.OffersFrom given scopes (some pending.creator))
    (later : start ≤ work.nextSource) (hstream : BuiltFrom given start scopes work.nextSource stream)
    (h : overStream body.id pc nested stream pending
      (fun query x => derived body.id pc (make query x)) work = .ok e work') :
    BuiltFrom given start scopes work'.nextSource e ∧ Advances work work' := by
  obtain ⟨query, t, x, between, rfl, valued, h⟩ := overStream_eq_ok h
  obtain ⟨query', made, rfl, rfl⟩ := derived_eq_ok.mp h
  obtain ⟨inner, scope, mark, built, rfl, advances⟩ := built_overRows builds offers valued
  have done := (derives query _ _).imp (fun same => same ▸ made) (fun same => same ▸ made)
  exact ⟨.derived hstream built later advances.nextSource_le done between.nextMark,
    advances.nextSource_le, advances.chain⟩

theorem built_aggregated (builds : NestedBuilds given nested) {pending : Pending body.Makes}
    {stream : Expr} {fn : AggregateFn}
    (offers : work.chain.OffersFrom given scopes (some pending.creator))
    (later : start ≤ work.nextSource) (hstream : BuiltFrom given start scopes work.nextSource stream)
    (h : overStream body.id pc nested stream pending (aggregated body.id pc fn) work =
      .ok e work') :
    BuiltFrom given start scopes work'.nextSource e ∧ Advances work work' := by
  obtain ⟨query, t, arg, between, rfl, valued, h⟩ := overStream_eq_ok h
  obtain ⟨-, rfl, rfl⟩ := aggregated_eq_ok.mp h
  obtain ⟨inner, scope, mark, built, rfl, advances⟩ := built_overRows builds offers valued
  exact ⟨.summarized hstream built later advances.nextSource_le fn mark, advances⟩

theorem built_streamCall (builds : NestedBuilds given nested) {method : Method}
    {args : List (Operand body.Makes)} (offers : work.chain.OffersFrom given scopes (some head))
    (later : start ≤ work.nextSource)
    (fine : ∀ operand ∈ args, Operand.Fine given start scopes head work.nextSource operand)
    (h : streamCall body.id pc nested method args work = .ok e work') :
    BuiltFrom given start scopes work'.nextSource e ∧ Advances work work' := by
  -- The choice of the action is taken out of its application to the work.
  obtain ⟨action, chosen, ran⟩ : ∃ action : CompileM Expr,
      action = streamCall body.id pc nested method args ∧ action work = .ok e work' := ⟨_, rfl, h⟩
  clear h
  unfold streamCall at chosen
  split at chosen
  case h_1 path _ _ =>
    have hpath : BuiltFrom given start scopes work.nextSource path := fine (.value path) (by simp)
    split at chosen <;> subst chosen
    · simp only [bind_eq_ok, openSource_eq_ok, pure_eq_ok] at ran
      obtain ⟨_, _, ⟨rfl, rfl⟩, rfl, rfl⟩ := ran
      exact ⟨.navigation hpath later, Nat.le_succ _, .refl⟩
    · exact absurd ran obstruct_ne_ok
  case h_2 stream _ _ =>
    have hstream : BuiltFrom given start scopes work.nextSource stream :=
      fine (.value stream) (by simp)
    subst chosen
    simp only [bind_eq_ok, liftObstacle_eq_ok, pure_eq_ok] at ran
    obtain ⟨query, _, ⟨received, rfl⟩, rfl, rfl⟩ := ran
    obtain ⟨t, rfl⟩ := receiver_eq_ok received
    exact ⟨.counted hstream, .refl work⟩
  case h_3 stream pending _ _ =>
    have creator : pending.creator = head := fine (.closure pending) (by simp)
    subst chosen
    exact built_derived builds (fun _ _ _ => .inl rfl) (creator ▸ offers) later
      (fine (.value stream) (by simp)) ran
  case h_4 stream pending _ _ =>
    have creator : pending.creator = head := fine (.closure pending) (by simp)
    subst chosen
    exact built_derived builds (fun _ _ _ => .inr rfl) (creator ▸ offers) later
      (fine (.value stream) (by simp)) ran
  case h_5 stream pending _ _ _ =>
    have creator : pending.creator = head := fine (.closure pending) (by simp)
    split at chosen <;> subst chosen
    · exact built_aggregated builds (creator ▸ offers) later (fine (.value stream) (by simp)) ran
    · exact absurd ran obstruct_ne_ok
  case h_6 =>
    subst chosen
    exact absurd ran obstruct_ne_ok

theorem built_invoke {env : Environment} (builds : NestedBuilds given nested) {method : Method}
    {args : List (Operand body.Makes)} (offers : work.chain.OffersFrom given scopes (some head))
    (later : start ≤ work.nextSource)
    (fine : ∀ operand ∈ args, Operand.Fine given start scopes head work.nextSource operand)
    (h : invoke body.id pc env.schema nested method args work = .ok e work') :
    BuiltFrom given start scopes work'.nextSource e ∧ Advances work work' := by
  by_cases owner : method.owner = "JinqStream"
  · rw [invoke, if_pos owner] at h
    exact built_streamCall builds offers later fine h
  · obtain ⟨values, rfl, ⟨called, rfl⟩ | ⟨entity, -, rfl, rfl⟩⟩ := invoke_eq_ok owner h
    · refine ⟨built_valueCall (fun c hc => ?_) called, .refl work⟩
      exact fine (.value c) (List.mem_map_of_mem hc)
    · exact ⟨.entity entity later, Nat.le_succ _, .refl⟩

/-! ## Instructions -/

structure Frame.Fine (given : Expr → Prop) (start : SourceId) (scopes : List ElementScope)
    (head : BinderId) (next : SourceId) (frame : Frame body.Makes) : Prop where
  stack : ∀ operand ∈ frame.stack, Operand.Fine given start scopes head next operand
  locals : ∀ entry ∈ frame.locals, Operand.Fine given start scopes head next entry.2

variable {next next' : SourceId} {frame frame' : Frame body.Makes} {operand : Operand body.Makes}

theorem Operand.Fine.later (h : Operand.Fine given start scopes head next operand)
    (le : next ≤ next') : Operand.Fine given start scopes head next' operand := by
  cases operand with
  | value e => exact BuiltFrom.later h le
  | closure pending => exact h

namespace Frame.Fine

theorem later (h : Frame.Fine given start scopes head next frame) (le : next ≤ next') :
    Frame.Fine given start scopes head next' frame :=
  ⟨fun operand ho => (h.stack operand ho).later le, fun entry he => (h.locals entry he).later le⟩

theorem push (h : Frame.Fine given start scopes head next frame)
    (ho : Operand.Fine given start scopes head next operand) :
    Frame.Fine given start scopes head next (frame.push operand) :=
  ⟨List.forall_mem_cons.mpr ⟨ho, h.stack⟩, h.locals⟩

theorem pop (h : Frame.Fine given start scopes head next frame)
    (top : frame.stack = operand :: frame'.stack) (same : frame.locals = frame'.locals) :
    Operand.Fine given start scopes head next operand ∧
      Frame.Fine given start scopes head next frame' := by
  obtain ⟨first, rest⟩ := List.forall_mem_cons.mp (top ▸ h.stack)
  exact ⟨first, rest, same ▸ h.locals⟩

theorem popTwo {left right : Expr} (h : Frame.Fine given start scopes head next frame)
    (top : frame.stack = .value right :: .value left :: frame'.stack)
    (same : frame.locals = frame'.locals) :
    BuiltFrom given start scopes next left ∧ BuiltFrom given start scopes next right ∧
      Frame.Fine given start scopes head next frame' := by
  obtain ⟨hr, rest⟩ := List.forall_mem_cons.mp (top ▸ h.stack)
  obtain ⟨hl, rest⟩ := List.forall_mem_cons.mp rest
  exact ⟨hl, hr, rest, same ▸ h.locals⟩

theorem take (h : Frame.Fine given start scopes head next frame) (count : Nat) :
    ∀ operand ∈ (frame.stack.take count).reverse,
      Operand.Fine given start scopes head next operand :=
  fun operand ho => h.stack operand (List.mem_of_mem_take (List.mem_reverse.mp ho))

theorem drop (h : Frame.Fine given start scopes head next frame) (count : Nat) :
    Frame.Fine given start scopes head next { frame with stack := frame.stack.drop count } :=
  ⟨fun operand ho => h.stack operand (List.mem_of_mem_drop ho), h.locals⟩

theorem store (h : Frame.Fine given start scopes head next frame)
    (ho : Operand.Fine given start scopes head next operand) (slot : Nat) :
    Frame.Fine given start scopes head next (frame.store slot operand) :=
  ⟨h.stack, List.forall_mem_cons.mpr ⟨ho, h.locals⟩⟩

theorem load (h : Frame.Fine given start scopes head next frame) {slot : Nat}
    (found : frame.load? slot = some operand) :
    Operand.Fine given start scopes head next operand := by
  obtain ⟨before, after, split, -⟩ := List.lookup_eq_some_iff.mp found
  exact h.locals (slot, operand) (by simp [split])

end Frame.Fine

def Flow.Fine (given : Expr → Prop) (start : SourceId) (scopes : List ElementScope)
    (head : BinderId) (next : SourceId) : Flow body.Makes → Prop
  | .next frame | .jump _ frame => Frame.Fine given start scopes head next frame
  | .branch test _ frame =>
    BuiltFrom given start scopes next test ∧ Frame.Fine given start scopes head next frame
  | .done result => BuiltFrom given start scopes next result

theorem built_resolve {arg : Argument} {expected : ValueType}
    (offers : work.chain.OffersFrom given scopes (some head))
    (found : work.chain.resolve head arg expected = .ok e) :
    BuiltFrom given start scopes next e := by
  cases offers.resolveWithin found with
  | given h => exact .given h
  | element known t => exact .element known t
  | capture capture scalar => exact .param capture (ValueType.isTuple_of_isScalar scalar)

theorem built_loadParam {index : Nat} (offers : work.chain.OffersFrom given scopes (some head))
    (h : loadParam (.alongChain head) body index work = .ok e work') :
    BuiltFrom given start scopes next e := by
  obtain ⟨-, ⟨-, rfl⟩ | ⟨query, found, rfl⟩ | ⟨expected, -, -, found⟩⟩ := loadParam_eq_ok h
  · exact .constant _ rfl
  · refine .given ?_
    unfold Chain.resolveStream at found
    split at found <;> cases found
    next known => exact offers.streamWithin known
  · exact built_resolve offers found

theorem fine_step {env : Environment} (builds : NestedBuilds given nested)
    {instruction : Instruction} {written : instruction ∈ body.code} {flow : Flow body.Makes}
    (h : step env (nested.handles head) pc instruction written frame work = .ok flow work')
    (offers : work.chain.OffersFrom given scopes (some head)) (later : start ≤ work.nextSource)
    (fine : Frame.Fine given start scopes head work.nextSource frame) :
    Flow.Fine given start scopes head work'.nextSource flow ∧ Advances work work' := by
  cases step_eq_ok h with
  | const value => exact ⟨fine.push (built_literal _), .refl work⟩
  | loadParam loaded =>
      obtain rfl := (loadParam_eq_ok loaded).1
      exact ⟨fine.push (built_loadParam offers loaded), .refl work⟩
  | loadCapture loaded =>
      obtain ⟨rfl, expected, -, found⟩ := loadCapture_eq_ok loaded
      exact ⟨fine.push (built_resolve offers found), .refl work⟩
  | load _ found => exact ⟨fine.push (fine.load found), .refl work⟩
  | @store slot _ _ _ top same =>
      obtain ⟨first, rest⟩ := fine.pop top same
      exact ⟨rest.store first slot, .refl work⟩
  | dup top same => exact ⟨fine.push (fine.pop top same).1, .refl work⟩
  | pop top same => exact ⟨(fine.pop top same).2, .refl work⟩
  | invoke _ invoked =>
      obtain ⟨built, advances⟩ := built_invoke builds offers later (fine.take _) invoked
      exact ⟨((fine.drop _).later advances.nextSource_le).push built, advances⟩
  | @newTuple arity items wide _ enough taken =>
      have length : items.length = arity := by
        simpa [enough] using (congrArg List.length taken).symm
      have nonempty : items ≠ [] := List.ne_nil_of_length_pos (by omega)
      have built : ∀ c ∈ items, BuiltFrom given start scopes work.nextSource c := fun c hc =>
        fine.take arity (.value c) (taken ▸ List.mem_map_of_mem hc)
      exact ⟨(fine.drop arity).push (.compound rfl nonempty rfl built), .refl work⟩
  | makeClosure => exact ⟨fine.push rfl, .refl work⟩
  | arith top same made =>
      obtain ⟨hl, hr, rest⟩ := fine.popTwo top same
      exact ⟨rest.push (built_arith hl hr made), .refl work⟩
  | neg top same made =>
      obtain ⟨first, rest⟩ := fine.pop top same
      exact ⟨rest.push (built_negation first made), .refl work⟩
  | compare top same made =>
      obtain ⟨hl, hr, rest⟩ := fine.popTwo top same
      exact ⟨rest.push (built_comparison hl hr made), .refl work⟩
  | convert top same made =>
      obtain ⟨first, rest⟩ := fine.pop top same
      exact ⟨rest.push (built_convert first made), .refl work⟩
  | ifZero top same made =>
      obtain ⟨first, rest⟩ := fine.pop top same
      exact ⟨⟨built_zeroTest first made, rest⟩, .refl work⟩
  | ifCompare top same made =>
      obtain ⟨hl, hr, rest⟩ := fine.popTwo top same
      exact ⟨⟨built_comparison hl hr made, rest⟩, .refl work⟩
  | goto => exact ⟨fine, .refl work⟩
  | ret top same made => exact ⟨built_coerceReturn (fine.pop top same).1 made, .refl work⟩

/-! ## Runs -/

theorem built_run {env : Environment} (builds : NestedBuilds given nested)
    (h : run env (nested.handles head) pc frame work = .ok e work')
    (offers : work.chain.OffersFrom given scopes (some head)) (later : start ≤ work.nextSource)
    (fine : Frame.Fine given start scopes head work.nextSource frame) :
    BuiltFrom given start scopes work'.nextSource e ∧ Advances work work' := by
  -- Jumps go forward, so what is left of the code shrinks.
  induction left : body.code.length - pc using Nat.strongRecOn
    generalizing pc frame work work' e with
  | _ left ih =>
      subst left
      obtain ⟨instruction, fetched, flow, between, stepped, continues⟩ := run_eq_ok h
      have inside := (List.getElem?_eq_some_iff.mp fetched).1
      obtain ⟨flowFine, advances⟩ := fine_step builds stepped offers later fine
      have advances : Advances work between := ⟨advances.nextSource_le, advances.chain⟩
      have goOn {target : Nat} {frame : Frame body.Makes} {last last' : Work} {x : Expr}
          (forward : pc < target) (reached : Advances work last)
          (frameFine : Frame.Fine given start scopes head last.nextSource frame)
          (ran : run env (nested.handles head) target frame last = .ok x last') :
          BuiltFrom given start scopes last'.nextSource x ∧ Advances last last' :=
        ih _ (by omega) ran (offers.grow reached.chain) (Nat.le_trans later reached.nextSource_le)
          frameFine rfl
      cases flow with
      | done result =>
          obtain ⟨rfl, rfl⟩ := continues
          exact ⟨flowFine, advances⟩
      | next frame =>
          obtain ⟨built, rest⟩ := goOn (Nat.lt_succ_self pc) advances flowFine continues
          exact ⟨built, advances.trans rest⟩
      | jump target frame =>
          obtain ⟨forward, ran⟩ := continues
          obtain ⟨built, rest⟩ := goOn forward advances flowFine ran
          exact ⟨built, advances.trans rest⟩
      | branch test target frame =>
          obtain ⟨hTest, frameFine⟩ := flowFine
          obtain ⟨forward, ran⟩ := continues
          let forked : Work := { between with forks := between.forks + 1 }
          have forks : Advances work forked := ⟨advances.nextSource_le, advances.chain⟩
          cases constant : test.simplify.asBool with
          | some b =>
              simp only [constant] at ran
              cases b with
              | true =>
                  obtain ⟨built, rest⟩ := goOn forward forks frameFine ran
                  exact ⟨built, forks.trans rest⟩
              | false =>
                  obtain ⟨built, rest⟩ := goOn (Nat.lt_succ_self pc) forks frameFine ran
                  exact ⟨built, forks.trans rest⟩
          | none =>
              simp only [constant] at ran
              obtain ⟨taken, passed, middle, ranTaken, ranPassed, rfl⟩ := ran
              obtain ⟨hTaken, first⟩ := goOn forward forks frameFine ranTaken
              obtain ⟨hPassed, second⟩ := goOn (Nat.lt_succ_self pc) (forks.trans first)
                (frameFine.later first.nextSource_le) ranPassed
              refine ⟨?_, forks.trans (first.trans second)⟩
              have later := second.nextSource_le
              have hTest := hTest.simplified.later (Nat.le_trans first.nextSource_le later)
              refine .compound rfl (by simp [Expr.choose, Expr.children]) trivial ?_
              simp [Expr.choose, Expr.children, hTest, hTaken.later later, hPassed]

/-- Whatever is compiled was built. -/
theorem built_compileBody {env : Environment} {body : Body} {head : BinderId}
    (offers : work.chain.OffersFrom given scopes (some head)) (later : start ≤ work.nextSource)
    (h : compileBody env body head work = .ok e work') :
    BuiltFrom given start scopes work'.nextSource e ∧ Advances work work' := by
  induction size : sizeOf body using Nat.strongRecOn
    generalizing body head start scopes work work' e with
  | _ size ih =>
      subst size
      obtain ⟨result, between, ran, rfl, rfl⟩ := compileBody_eq_ok h
      -- Nested closures have smaller bodies.
      have builds : NestedBuilds given fun (pending : Pending body.Makes) inner =>
          compileBody env pending.body inner :=
        fun pending inner start scopes e work work' compiled offers later =>
          ih _ pending.sizeOf_lt offers later compiled rfl
      obtain ⟨built, advances⟩ := built_run builds ran offers later
        ⟨by simp [Frame.empty], by simp [Frame.empty]⟩
      exact ⟨built.simplified, advances.nextSource_le, advances.chain⟩

end

end Compile

/-- A compiled closure was built with numbers of the supply. -/
theorem Closure.built_compile {closure : Closure} {env : Compile.Environment} {chain : Chain}
    {head : BinderId} {supply : Compile.Supply} {given : Expr → Prop}
    {scopes : List ElementScope} {e : Expr} (offers : chain.OffersFrom given scopes (some head))
    (h : (closure.compile env chain head supply).outcome = .ok e) :
    let next := (closure.compile env chain head supply).supply.nextSource
    Compile.BuiltFrom given supply.nextSource scopes next e ∧ supply.nextSource ≤ next := by
  unfold Closure.compile at h ⊢
  cases ran : (Compile.compileBody env closure.body head).run { toSupply := supply, chain } with
  | error error work => simp [ran] at h
  | ok found work =>
      simp only [ran, Except.ok.injEq] at h
      subst h
      obtain ⟨built, advances⟩ := Compile.built_compileBody offers (Nat.le_refl _) ran
      exact ⟨built, advances.nextSource_le⟩

end StreamQuery
