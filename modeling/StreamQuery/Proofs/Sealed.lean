import StreamQuery.Proofs.Following
import StreamQuery.Proofs.Nesting
import StreamQuery.Proofs.Subselects

/-! # Parameters of nested closures

A nested closure answers its parameters itself: what is loaded for one is its own element or
the marker of a stream source, and no element, captured slot or other value of a closure
around it. Only a parameter that is declared as a stream is answered further out, by the
stream that was given to the outermost closure.
-/

namespace StreamQuery

/-! ## Looking for a stream -/

namespace Chain

variable {chain : Chain} {start : Option BinderId} {id : BinderId} {link : Link}

theorem Descends.streamWithin (h : chain.Descends start) {fuel fuel' : Nat}
    (enough : ∀ id ∈ start, id < fuel) (enough' : ∀ id ∈ start, id < fuel') :
    chain.streamWithin fuel start = chain.streamWithin fuel' start := by
  induction h generalizing fuel fuel' with
  | done => cases fuel <;> cases fuel' <;> rfl
  | @step id link found smaller outward ih =>
      obtain ⟨fuel, rfl, below⟩ := exists_fuel_left smaller (enough id rfl)
      obtain ⟨fuel', rfl, below'⟩ := exists_fuel_left smaller (enough' id rfl)
      obtain ⟨binder, parent⟩ := link
      simp only [Chain.streamWithin, found]
      cases binder with
      | stream query => rfl
      | element | parameters | outer => exact ih below below'

def stream? (chain : Chain) (start : Option BinderId) : Option Query :=
  chain.streamWithin (chain.size + 1) start

def streamAnswer (stream? : Option Query) (index : Nat) : Except BindError Query :=
  match stream? with
  | some query => .ok query
  | none => .error (.streamUnbound index)

theorem resolveStream_eq (chain : Chain) (head : BinderId) (index : Nat) :
    chain.resolveStream head index = streamAnswer (chain.stream? (some head)) index := rfl

theorem Descends.stream?_eq (h : chain.Descends (some id))
    (found : chain.links[id]? = some link) : chain.stream? (some id) =
      match link.binder with
      | .stream query => some query
      | _ => chain.stream? link.parent := by
  have inside : id < chain.size := (Array.getElem?_eq_some_iff.mp found).1
  cases h with
  | @step _ link' found' smaller outward =>
      obtain rfl : link = link' := Option.some.inj (found.symm.trans found')
      have on : chain.streamWithin chain.size link.parent = chain.stream? link.parent :=
        outward.streamWithin (fun parent h => Nat.lt_trans (smaller parent h) inside)
          fun parent h => Nat.lt_succ_of_lt (Nat.lt_trans (smaller parent h) inside)
      obtain ⟨binder, parent⟩ := link
      rw [stream?, Chain.streamWithin, found]
      cases binder with
      | stream query => rfl
      | element | parameters | outer => exact on

end Chain

namespace Origin

open Chain

variable {o : Origin} {chain : Chain} {level : Level} {levels : List Level}

theorem stream?_base (h : o.base.GrowsTo chain) :
    chain.stream? (some (o.base.size - 1)) = o.stream? := by
  have walk := o.descends_base.grow h
  unfold base at h walk ⊢
  cases stream : o.stream? with
  | none =>
      rw [stream] at h walk
      exact walk.stream?_eq (h.keeps _ _ rfl)
  | some query =>
      rw [stream] at h walk
      exact walk.stream?_eq (h.keeps _ _ rfl)

theorem Lies.stream? (h : o.Lies chain levels) :
    chain.stream? (some (o.innermost levels)) = o.stream? := by
  induction levels with
  | nil =>
      have walk := o.descends_chain.grow h
      replace h : o.chain.GrowsTo chain := h
      cases given : o.element? with
      | none =>
          obtain ⟨same, head⟩ := chain_of_none given
          rw [innermost, head]
          exact stream?_base (same ▸ h)
      | some type =>
          obtain ⟨same, head⟩ := chain_of_some given
          rw [same] at h
          have found := h.keeps _ _ (links_push _ _ _)
          rw [innermost]
          rw [head] at walk ⊢
          exact (walk.stream?_eq found).trans (stream?_base ((growsTo_push _ _ _).trans h))
  | cons level levels ih =>
      obtain ⟨outer, forwards, element, outerWalk, walk⟩ := h.binders
      exact (walk.stream?_eq element).trans ((outerWalk.stream?_eq forwards).trans (ih h.2))

theorem Lies.resolveStream (h : o.Lies chain levels) (index : Nat) :
    chain.resolveStream (o.innermost levels) index = streamAnswer o.stream? index := by
  rw [resolveStream_eq, h.stream?]

end Origin

namespace Compile

/-! ## Parameters answered by the closure itself -/

def ownValue (chain : Chain) (head : BinderId) (index : Nat) (expected : ValueType) :
    Except BindError Expr :=
  match index, chain.links[head]? with
  | 0, some ⟨.element (.element _ type), _⟩ => head.element type expected
  | _, _ => .error (.paramEscaped index)

/-- Looks parameters of a nested closure up in no binder but its own. A stream is the one that
is given. -/
def Lookup.own (stream? : Option Query) (head : BinderId) : Lookup CompileM where
  value
    | .param index, expected => do pure (ownValue (← get).chain head index expected)
    | .capture slot, expected => (Lookup.alongChain head).value (.capture slot) expected
  stream index := pure (Chain.streamAnswer stream? index)

def ownParam (stream? : Option Query) (body : Body) (head : BinderId) (index : Nat) :
    CompileM Expr :=
  loadParam (.own stream? head) body index

variable {o : Origin} {level : Level} {levels : List Level}

theorem resolve_eq_ownValue {chain : Chain} (h : o.Lies chain (level :: levels)) (index : Nat)
    (expected : ValueType) : chain.resolve level.head (.param index) expected =
      ownValue chain level.head index expected := by
  obtain ⟨outer, -, element, -, -⟩ := h.binders
  rw [h.resolve_param]
  cases index with
  | zero => simp [ownValue, element]
  | succ index => rfl

/-! ## Sealed compilation -/

/-- Compiles a body as `compileBody` does, with nested closures that answer their parameters
themselves. -/
def compileSealed (stream? : Option Query) (env : Environment) (body : Body) (head : BinderId) :
    CompileM Expr :=
  let nested (pending : Pending body.Makes) (inner : BinderId) : CompileM Expr :=
    compileWith (.own stream?) env pending.body inner
  inNormalForm (run env ((Lookup.alongChain head).handles nested head) 0 .empty)

def Comparison.inLevels (o : Origin) (env : Environment) : Comparison env env where
  limits := .refl env
  Place := List Level
  head := o.innermost
  Inner levels := levels ≠ []
  MadeAt levels made := made.creator = o.innermost levels
  Stands levels work := o.Lies work.chain levels
  Keeps work after := work.chain.GrowsTo after.chain
  keeps_of_chain chain _ := chain ▸ .refl
  keeps_trans := .trans
  stands lies kept := lies.grow kept
  makes _ _ _ := rfl
  nested lies madeAt type :=
    ⟨(Chain.growsTo_push ..).trans (Chain.growsTo_push ..), _, List.cons_ne_nil _ _, rfl,
      madeAt ▸ lies.nested _ type⟩

theorem lookupFollows_own (env : Environment) (level : Level) (levels : List Level) :
    LookupFollows (.inLevels o env) (level :: levels) (.alongChain level.head)
      (.own o.stream? level.head) where
  value arg expected := by
    cases arg with
    | param index => exact follows_read fun work lies => resolve_eq_ownValue lies index expected
    | capture slot => exact follows_read fun _ _ => rfl
  stream index := by
    change Follows _ _ Eq _ (do let _ ← get; pure (Chain.streamAnswer o.stream? index) : CompileM _)
    exact follows_read fun work lies => lies.resolveStream index

/-- Compiling agrees with compiling in which nested closures answer their parameters
themselves. -/
theorem compileBody_eq_sealed (env : Environment) (body : Body) {work : Work}
    (lies : o.Lies work.chain []) :
    compileBody env body o.head work = compileSealed o.stream? env body o.head work := by
  let S := Comparison.inLevels o env
  have looks (levels : List Level) (inner : S.Inner levels) :
      LookupFollows S levels (.alongChain (S.head levels)) (.own o.stream? (S.head levels)) := by
    obtain ⟨level, levels, rfl⟩ := List.exists_cons_of_ne_nil inner
    exact lookupFollows_own env level levels
  have nests : NestedFollows S (S.MadeAt [])
      (fun (pending : Pending body.Makes) inner => compileBody env pending.body inner)
      (fun (pending : Pending body.Makes) inner =>
        compileWith (.own o.stream?) env pending.body inner) := by
    intro pending pending' same _ levels inner
    simp only [same]
    exact follows_compileWith looks pending.body inner
  have follows : Follows S [] Eq (compileBody env body o.head)
      (compileSealed o.stream? env body o.head) := by
    rw [compileBody_eq]
    exact (HandlesFollow.run ⟨lookupFollows_alongChain o.head, nests⟩ .empty).inNormalForm
  exact follows.apply_eq lies

/-- What can come of loading a parameter of a nested closure: its own element, the marker of
a stream source, for a declared stream the one that was given, or that the argument is not
resolved. -/
def Answers (stream? : Option Query) (body : Body) (head : BinderId) (index : Nat) (work : Work) :
    EStateM.Result CompileError Work Expr → Prop
  | .ok e work' => work' = work ∧
      ((index = 0 ∧ ∃ scope type parent,
          work.chain.links[head]? = some ⟨.element (.element scope type), parent⟩ ∧
            e = .element head.scope type) ∨
        (body.params[index]? = some .streamSource ∧ e = .constant .null .streamSource) ∨
        ∃ query type, stream? = some query ∧ body.params[index]? = some (.stream type) ∧
          e = .embed query)
  | .error error _ => ∃ fault, error = .argument body.id (.param index) fault

theorem answers_ownParam (stream? : Option Query) (body : Body) (head : BinderId) (index : Nat)
    (work : Work) : Answers stream? body head index work
      (ownParam stream? body head index work) := by
  have value (expected : ValueType) : Answers stream? body head index work
      ((found body.id (.param index) (ownValue work.chain head index expected) : CompileM Expr)
        work) := by
    unfold ownValue
    split
    · next scope type parent found =>
        unfold BinderId.element
        split
        · exact ⟨rfl, .inl ⟨rfl, scope, type, parent, found, rfl⟩⟩
        · exact ⟨_, rfl⟩
    · exact ⟨_, rfl⟩
  unfold ownParam loadParam
  cases declared : body.params[index]? with
  | none => exact ⟨_, rfl⟩
  | some expected =>
      cases expected with
      | streamSource => exact ⟨rfl, .inr (.inl ⟨declared, rfl⟩)⟩
      | stream type =>
          cases stream? with
          | none => exact ⟨_, rfl⟩
          | some query => exact ⟨rfl, .inr (.inr ⟨query, type, rfl, declared, rfl⟩)⟩
      | _ => exact value _

end Compile

def Closure.compileSealed (closure : Closure) (env : Compile.Environment) (o : Origin)
    (supply : Compile.Supply) : Compile.Compilation :=
  match (Compile.compileSealed o.stream? env closure.body o.head).run
    { toSupply := supply, chain := o.chain } with
  | .ok e work => ⟨.ok e, work.chain, work.toSupply⟩
  | .error error work => ⟨.error error, work.chain, work.toSupply⟩

/-- What an outermost closure is given with its captured slots. -/
def Origin.of (closure : Closure) (stream? : Option Query) (element? : Option ValueType) :
    Origin where
  closure := closure.body.id
  slots := closure.body.captures.zipIdx.map fun (type, slot) => (type, closure.captured[slot]?)
  stream? := stream?
  element? := element?

theorem Closure.compile_eq_compileSealed (closure : Closure) (env : Compile.Environment)
    (o : Origin) : closure.compile env o.chain o.head = closure.compileSealed env o := by
  funext supply
  have same : Compile.compileBody env closure.body o.head
      { toSupply := supply, chain := o.chain } = _ :=
    Compile.compileBody_eq_sealed env closure.body .refl
  unfold Closure.compile Closure.compileSealed EStateM.run
  cases result : Compile.compileSealed o.stream? env closure.body o.head
      { toSupply := supply, chain := o.chain } with
  | ok e work => rw [same.trans result]
  | error error work => rw [same.trans result]

namespace Query

def taking (compile : Compile.Supply → Compile.Compilation) : FoldM Expr := do
  let compilation := compile (← get)
  set compilation.supply
  match compilation.outcome with
  | .ok e => pure e
  | .error error => throw (.compile error)

theorem compileIn_eq_taking (env : Compile.Environment) (closure : Closure) (o : Origin) :
    compileIn env closure o.chain o.head = taking (closure.compileSealed env o) := by
  rw [← Closure.compile_eq_compileSealed]
  rfl

/-- In every fold, a closure that is nested to any depth answers its parameters itself. -/
theorem nested_params_sealed (q : Query) (env : Compile.Environment) (closure : Closure)
    (key : Expr) :
    q.overRow env closure = (do
      let e ← taking (closure.compileSealed env (.of closure none (some q.rowType)))
      inlineIn e (BinderId.scope 1) q.currentRow) ∧
    q.overGroup env closure key = (do
      let e ← taking (closure.compileSealed env (.of closure (some q) (some key.type)))
      inlineIn e (BinderId.scope 2) key) ∧
    q.overStream env closure = (match closure.body.params.head? with
      | some (.stream _) => do
        let e ← taking (closure.compileSealed env (.of closure (some q) none))
        pure e.simplify
      | _ => throw (.refused ⟨.aggregate, .paramNotStream⟩)) ∧
    ∀ stream? body head index work, Compile.Answers stream? body head index work
      (Compile.ownParam stream? body head index work) := by
  refine ⟨?_, ?_, ?_, Compile.answers_ownParam⟩
  · rw [← compileIn_eq_taking]
    rfl
  · rw [← compileIn_eq_taking]
    rfl
  · rw [← compileIn_eq_taking]
    rfl

/-- A sum over a stream of customers, by a nested closure that takes its element for a
stream. -/
def elementAsStream : Closure where
  body := ⟨2, [.stream (.entity "Customer")], [], .long,
    [.loadParam 0,
      .makeClosure ⟨3, [.stream (.entity "Customer")], [], .long,
        [.loadParam 0, .invoke ⟨"JinqStream", "count", 0, false⟩, .ret]⟩ [],
      .invoke ⟨"JinqStream", "sumLong", 1, false⟩, .ret]⟩
  captured := []

/-- A parameter of a nested closure that is declared as a stream escapes: it stands for the
stream of the closure around it. -/
theorem text_elementAsStream :
    (Reached.customers.chain "Customer" [.aggregate elementAsStream]).map
      Reached.customers.queryText = .ok (.ok "SELECT SUM(COUNT(A)) FROM Customer A") := by
  decide +kernel

end Query

end StreamQuery
