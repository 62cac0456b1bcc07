import StreamQuery.Proofs.InlineAggregates
import StreamQuery.Proofs.Parameters
import StreamQuery.Proofs.Following

/-! # Expanding aggregates

Writing a query as plain recursion, with nothing that says that it ends. An aggregate over other
rows than those of the selection around it is written as a selection of its own, whose only
column is that same aggregate: so the recursion comes back to the node where it is. It ends
since the rows of the new selection are those of the aggregate, which are the same as
themselves where all constants are numbers. Then the column is a function of them, and the
aggregate was expanded once.
-/

namespace StreamQuery

/-! ## Numbers in normal form -/

namespace Expr

theorem hereditary_noNaN : Hereditary NoNaN where
  toCompositional := compositional_noNaN
  double x y s t nan h := by
    refine everywhere_constant.mpr ?_
    rintro _ _ ⟨⟩
    have number : x.isNaN = false := everywhere_constant.mp h x s rfl
    cases isNaN : y.isNaN with
    | false => rfl
    | true => simp [nan isNaN] at number

/-- Normal form computes numbers from numbers. -/
theorem NoNaN.rules {e : Expr} (h : e.NoNaN) (l : Likeness) (deep : Bool) :
    ((rules l deep).result e).NoNaN := by
  refine Pass.everywhere_result nofun (fun e e' finished he => ?_) (fun e here => ?_) h
  · exact hereditary_noNaN.foldable.of_reduces (reduces_of_reduce? finished) he
  · cases e with
    | constant v t => exact here
    | _ => simp

end Expr

theorem Query.noNaN_normalize {q : Query} (numbers : ∀ c ∈ q.current.clauses, c.NoNaN) :
    ∀ c ∈ q.normalize.current.clauses, c.NoNaN := by
  intro c hc
  obtain ⟨clause, hclause, rfl | ⟨m, rfl⟩⟩ := q.normalize_spec.2 c hc
  · exact numbers c hclause
  · exact (Expr.marking_marked _ m _).noNaN ((numbers clause hclause).rules (.kept q.holds) true)

namespace Select

theorem scope_subset_clauses (s : Select) : s.scope ⊆ s.clauses := by
  intro c hc
  simp only [scope, List.mem_append] at hc
  simp only [clauses, List.mem_append]
  tauto

theorem predicates_subset_clauses (s : Select) :
    s.filters ++ s.groupBy ++ s.having ⊆ s.clauses := by
  intro c hc
  simp only [List.mem_append] at hc
  simp only [clauses, List.mem_append]
  tauto

end Select

/-! ## Writing without a bound -/

/-- The rows of a query with a single value of them as the only column. -/
def Query.scalar (q : Query) (value : Expr) : Query :=
  ⟨{ q.current with projection := some value, shape := .aggregated, orderBy := [] }, q.past⟩

namespace Rendering

open Scribe Wording

/-- What is kept while writing: names and parameters, and the queries that were entered, in their
order. -/
structure Trace where
  ledger : Ledger
  entered : List Query

abbrev UnboundedM := Endless RenderError Trace

def ofBounded {α : Type} (x : RenderM α) : UnboundedM α := fun trace =>
  match x.run trace.ledger with
  | .ok (a, ledger) => some (.ok a, { trace with ledger })
  | .error error => some (.error error, trace)

instance : Scribe UnboundedM String where
  enter sources := ofBounded (enter sources)
  aliasOf id := ofBounded (aliasOf id)
  placeholder capture := ofBounded (placeholder capture)

/-- A selection names its sources when it is entered. -/
def enterQuery (query : Query) : UnboundedM Unit := do
  modify fun trace => { trace with entered := trace.entered ++ [query] }
  enter query.current.sources

/-- Where an expression stands: within some selections, the innermost first. -/
structure Surroundings where
  likeness : Likeness
  selections : List Select

namespace Surroundings

def within (around : Surroundings) (s : Select) : Surroundings :=
  { around with selections := s :: around.selections }

def inScope (around : Surroundings) (query : Query) : Bool :=
  around.selections.head?.any (·.sameScope around.likeness query.current)

mutual

def expr (around : Surroundings) (e : Expr) : UnboundedM String := do
  match e with
  | .constant value _ => pure (ofValue value)
  | .param capture _ => placeholder capture
  | .row id _ => aliasOf id
  | .element s _ => throw (.elementLeft s)
  | .path base field t => pure (parenthesized (← path (.path base field t)))
  | .component _ index _ => throw (.tupleComponent index)
  | .tuple .. => throw .tupleOutsideProjection
  | .unary op operand _ => pure (unary op (← around |>.expr operand))
  | .binary op left right _ =>
    pure (binary op (← around |>.expr left) (← around |>.expr right))
  | .conditional test yes no _ =>
    pure (choice (← around |>.expr test) (← around |>.expr yes) (← around |>.expr no))
  | .call fn args _ => pure (call fn.name (← args.mapM fun e => around |>.expr e))
  | .aggregate fn arg query t =>
    if around.inScope query then pure (call fn.name [← around |>.argument arg query.current])
    else pure (parenthesized (← around |>.select (query.scalar (.aggregate fn arg query t))))
  | .subQuery query _ => pure (parenthesized (← around |>.select query))
partial_fixpoint

def argument (around : Surroundings) (arg : Option Expr) (s : Select) : UnboundedM String :=
  match arg with
  | some e => around |>.expr e
  | none => rootAlias s .aggregateOverNoSource
partial_fixpoint

def items (around : Surroundings) (s : Select) : UnboundedM (List String) :=
  match s.projection with
  | some e => e.columns.mapM fun e => around |>.expr e
  | none => do pure [← rootAlias s .noSource]
partial_fixpoint

def select (around : Surroundings) (query : Query) : UnboundedM String := do
  enterQuery query
  let s := query.current
  let inside := around.within s
  let items ← inside |>.items s
  let froms ← sources true s.sources
  let filters ← s.filters.mapM fun e => inside |>.expr e
  let groups ← s.groupBy.mapM fun e => inside |>.expr e
  let having ← s.having.mapM fun e => inside |>.expr e
  let keys ← s.orderBy.mapM fun key => do
    pure ((← inside |>.expr key.key) ++ ofText (" " ++ key.direction.keyword))
  pure (selection s.distinct items froms filters groups having keys)
partial_fixpoint

end

end Surroundings

/-! ## Agreement, step by step -/

section Steps

variable {α β γ δ : Type} {n m : Nat} {R : α → β → Prop} {S : γ → δ → Prop} {x : UnboundedM α}
  {y : RenderM β}

/-- Queries that project nothing larger than a bound. -/
def Small (n : Nat) (queries : List Query) : Prop :=
  ∀ q ∈ queries, ∀ e ∈ q.current.projection, sizeOf e ≤ n

/-- An answer stands for a bounded one that leaves the same names and parameters. No aggregate is
given up. -/
inductive Answers (R : α → β → Prop) (ledger : Ledger) :
    Except RenderError α → Except RenderError (β × Ledger) → Prop where
  | ok {a : α} {b : β} (h : R a b) : Answers R ledger (.ok a) (.ok (b, ledger))
  | error {error : RenderError} (settled : error ≠ .unsettledAggregate) :
    Answers R ledger (.error error) (.error error)

/-- Steps without a bound end as bounded ones do, and the queries that they enter on the way
are small. -/
def Agrees (n : Nat) (R : α → β → Prop) (x : UnboundedM α) (y : RenderM β) : Prop :=
  ∀ trace, ∃ result ledger entered,
    x trace = some (result, ⟨ledger, trace.entered ++ entered⟩) ∧ Small n entered ∧
      Answers R ledger result (y.run trace.ledger)

/-- The same, for steps that enter one query before all others. -/
def Enters (q : Query) (n : Nat) (R : α → β → Prop) (x : UnboundedM α) (y : RenderM β) : Prop :=
  ∀ trace, ∃ result ledger entered,
    x trace = some (result, ⟨ledger, trace.entered ++ q :: entered⟩) ∧ Small n entered ∧
      Answers R ledger result (y.run trace.ledger)

theorem Small.mono {queries : List Query} (h : Small n queries) (le : n ≤ m) : Small m queries :=
  fun q hq e he => Nat.le_trans (h q hq e he) le

theorem Agrees.mono (h : Agrees n R x y) (le : n ≤ m) : Agrees m R x y := fun trace =>
  let ⟨result, ledger, entered, ran, small, answers⟩ := h trace
  ⟨result, ledger, entered, ran, small.mono le, answers⟩

theorem Enters.agrees {q : Query} (h : Enters q n R x y) (le : n ≤ m)
    (small : ∀ e ∈ q.current.projection, sizeOf e ≤ m) : Agrees m R x y := by
  intro trace
  obtain ⟨result, ledger, entered, ran, rest, answers⟩ := h trace
  refine ⟨result, ledger, q :: entered, ran, fun r hr => ?_, answers⟩
  rcases List.mem_cons.mp hr with rfl | hr
  · exact small
  · exact rest.mono le r hr

theorem agrees_pure {a : α} {b : β} (h : R a b) : Agrees n R (pure a) (pure b) := fun trace =>
  ⟨.ok a, trace.ledger, [], by simp [pure, ExceptT.pure, ExceptT.mk, StateT.pure], nofun, .ok h⟩

theorem agrees_throw {error : RenderError} (settled : error ≠ .unsettledAggregate) :
    Agrees n R (throw error) (throw error) := fun trace =>
  ⟨.error error, trace.ledger, [], by
    rw [List.append_nil]
    rfl, nofun, .error settled⟩

theorem Agrees.bind {f : α → UnboundedM γ} {g : β → RenderM δ} (first : Agrees n R x y)
    (rest : ∀ a b, R a b → Agrees n S (f a) (g b)) : Agrees n S (x >>= f) (y >>= g) := by
  intro trace
  obtain ⟨result, ledger, entered, ran, small, answers⟩ := first trace
  rw [Endless.bind_apply, ran, StateT.run_bind]
  generalize y.run trace.ledger = answer at answers ⊢
  cases answers with
  | error settled => exact ⟨.error _, ledger, entered, rfl, small, .error settled⟩
  | @ok a b related =>
      obtain ⟨result, ledger', entered', ran', small', answers⟩ :=
        rest a b related ⟨ledger, trace.entered ++ entered⟩
      refine ⟨result, ledger', entered ++ entered', ?_, fun q hq => ?_, answers⟩
      · rw [← List.append_assoc]
        exact ran'
      · exact (List.mem_append.mp hq).elim (small q) (small' q)

theorem Enters.map {q : Query} {f : α → γ} {g : β → δ} (h : Enters q n R x y)
    (maps : ∀ a b, R a b → S (f a) (g b)) :
    Enters q n S (do pure (f (← x))) (do pure (g (← y))) := by
  intro trace
  obtain ⟨result, ledger, entered, ran, small, answers⟩ := h trace
  rw [Endless.bind_apply, ran, StateT.run_bind]
  generalize y.run trace.ledger = answer at answers ⊢
  cases answers with
  | error settled => exact ⟨.error _, ledger, entered, rfl, small, .error settled⟩
  | @ok a b related => exact ⟨.ok (f a), ledger, entered, rfl, small, .ok (maps a b related)⟩

/-- A query is entered, and its sources have names then. -/
theorem enters (q : Query) (rest : Agrees n R x y) :
    Enters q n R (enterQuery q >>= fun _ => x) (enter q.current.sources >>= fun _ => y) := by
  intro trace
  obtain ⟨result, ledger, entered, ran, small, answers⟩ := rest
    ⟨{ trace.ledger with aliases := trace.ledger.aliases.addAll q.current.sources },
      trace.entered ++ [q]⟩
  refine ⟨result, ledger, entered, ?_, small, answers⟩
  rw [List.append_assoc] at ran
  exact ran

end Steps

/-! ## Agreement on names -/

section Names

variable {n : Nat}

theorem agrees_placeholder (capture : Capture) :
    Agrees n Eq (placeholder capture) (placeholder capture) := fun trace =>
  ⟨.ok _, _, [], by
    rw [List.append_nil]
    rfl, nofun, .ok rfl⟩

theorem agrees_aliasOf (id : SourceId) : Agrees n Eq (aliasOf id) (aliasOf id) := by
  intro trace
  change ∃ result ledger entered, ofBounded (aliasOf id) trace = _ ∧ _
  unfold ofBounded
  cases named : trace.ledger.aliases.alias? id with
  | some name =>
      rw [run_aliasOf named]
      exact ⟨.ok name, trace.ledger, [], by simp, nofun, .ok rfl⟩
  | none =>
      rw [run_aliasOf_none named]
      exact ⟨.error _, trace.ledger, [], by simp, nofun, .error (by simp)⟩

theorem agrees_path (e : Expr) : Agrees n Eq (path e) (path e) := by
  induction e using path.induct with
  | case1 id t =>
      rw [path, path]
      exact agrees_aliasOf id
  | case2 base field t ih =>
      rw [path, path]
      refine ih.bind ?_
      rintro base _ rfl
      exact agrees_pure rfl
  | case3 other noRow noPath =>
      rw [path.eq_3 other noRow noPath, path.eq_3 other noRow noPath]
      exact agrees_throw (by simp)

theorem agrees_rootAlias (s : Select) {error : RenderError} (settled : error ≠ .unsettledAggregate) :
    Agrees n Eq (rootAlias s error) (rootAlias s error) := by
  unfold rootAlias
  split
  · exact agrees_aliasOf _
  · exact agrees_throw settled

theorem agrees_origin (s : Source) : Agrees n Eq (origin s) (origin s) := by
  cases s with
  | entity id name => exact agrees_pure rfl
  | navigation id path t => exact agrees_path path

theorem agrees_sources (isFirst : Bool) (ss : List Source) :
    Agrees n Eq (sources isFirst ss) (sources isFirst ss) := by
  induction ss generalizing isFirst with
  | nil => exact agrees_pure rfl
  | cons s ss ih =>
      rw [sources, sources]
      refine (agrees_aliasOf s.id).bind ?_
      rintro short _ rfl
      refine (agrees_origin s).bind ?_
      rintro name _ rfl
      refine (ih false).bind ?_
      rintro rest _ rfl
      exact agrees_pure rfl

end Names

/-! ## Agreement of expressions -/

section Expressions

variable {l : Likeness} {around : Surroundings} {scope : Select} {n : Nat}

/-- Queries are compared by a likeness, and with the innermost selection as on the other side. -/
structure Surroundings.Matches (around : Surroundings) (l : Likeness) (scope : Select) : Prop where
  likeness : around.likeness = l
  rows : ∀ q : Query, around.inScope q = scope.sameScope rowsAlike q.current

/-- An expression is written alike as one text and as columns. -/
structure Faithful (l : Likeness) (e : Expr) : Prop where
  whole : ∀ {around : Surroundings} {scope : Select}, around.Matches l scope →
    Agrees (sizeOf e) Eq (around.expr e) (whole e (columns rowsAlike scope e))
  columns : ∀ {around : Surroundings} {scope : Select}, around.Matches l scope →
    Agrees (sizeOf e) Eq (e.columns.mapM around.expr) (columns rowsAlike scope e)

theorem faithful_of_single {e : Expr} (single : ∀ items t, e ≠ .tuple items t)
    (h : ∀ {around : Surroundings} {scope : Select}, around.Matches l scope →
      Agrees (sizeOf e) (fun text texts => texts = [text]) (around.expr e)
        (columns rowsAlike scope e)) : Faithful l e where
  whole {around scope} matching := by
    have joint : (whole e (columns rowsAlike scope e) : RenderM String) = (do
        let texts ← columns rowsAlike scope e
        pure (joined "" texts)) := by
      cases e with
      | tuple items t => exact absurd rfl (single items t)
      | _ => rfl
    rw [joint, ← bind_pure (around.expr e)]
    refine (h matching).bind ?_
    rintro text _ rfl
    exact agrees_pure rfl
  columns {around scope} matching := by
    rw [Expr.columns_of_single single, List.mapM_cons, List.mapM_nil,
      ← bind_pure (columns rowsAlike scope e)]
    refine (h matching).bind ?_
    rintro text _ rfl
    exact agrees_pure rfl

theorem agrees_list {es : List Expr} (h : ∀ e ∈ es, Faithful l e ∧ sizeOf e ≤ n)
    (matching : around.Matches l scope) :
    Agrees n Eq (es.mapM around.expr) (list rowsAlike scope es) := by
  induction es with
  | nil =>
      rw [List.mapM_nil, list]
      exact agrees_pure rfl
  | cons e es ih =>
      obtain ⟨⟨faithful, small⟩, others⟩ := List.forall_mem_cons.mp h
      rw [List.mapM_cons, list]
      refine ((faithful.whole matching).mono small).bind ?_
      rintro first _ rfl
      refine (ih others).bind ?_
      rintro rest _ rfl
      exact agrees_pure rfl

theorem agrees_sortKeys {keys : List SortKey}
    (h : ∀ e ∈ keys.map SortKey.key, Faithful l e ∧ sizeOf e ≤ n)
    (matching : around.Matches l scope) :
    Agrees n Eq (keys.mapM fun key => do
        pure ((← around.expr key.key) ++ ofText (" " ++ key.direction.keyword)))
      (sortKeys rowsAlike scope keys) := by
  induction keys with
  | nil =>
      rw [List.mapM_nil, sortKeys]
      exact agrees_pure rfl
  | cons key keys ih =>
      obtain ⟨key, direction⟩ := key
      obtain ⟨⟨faithful, small⟩, others⟩ := List.forall_mem_cons.mp h
      rw [List.mapM_cons, sortKeys, bind_assoc]
      refine ((faithful.whole matching).mono small).bind ?_
      rintro first _ rfl
      rw [pure_bind]
      refine (ih others).bind ?_
      rintro rest _ rfl
      exact agrees_pure rfl

theorem agrees_argument {arg : Option Expr} (h : ∀ e ∈ arg, Faithful l e ∧ sizeOf e ≤ n)
    (matching : around.Matches l scope) (s : Select) :
    Agrees n Eq (around.argument arg s) (argument rowsAlike scope arg s) := by
  cases arg with
  | none =>
      rw [Surroundings.argument, argument]
      exact agrees_rootAlias s (by simp)
  | some e =>
      rw [Surroundings.argument, argument]
      obtain ⟨faithful, small⟩ := h e rfl
      exact (faithful.whole matching).mono small

theorem faithful_tuple {items : List Expr} (h : ∀ e ∈ items, Faithful l e) (t : ValueType) :
    Faithful l (.tuple items t) where
  whole matching := by
    rw [Surroundings.expr]
    exact agrees_throw nofun
  columns {around scope} matching := by
    rw [Expr.columns, Rendering.columns]
    have small : ∀ e ∈ items, sizeOf e ≤ sizeOf (Expr.tuple items t) := fun e he =>
      Nat.le_of_lt (Expr.sizeOf_lt_of_mem_parts (Expr.mem_parts_true.mpr (.inl he)))
    generalize sizeOf (Expr.tuple items t) = n at small
    induction items with
    | nil =>
        rw [Expr.columnsOf, List.mapM_nil, columnsOf]
        exact agrees_pure rfl
    | cons e items ih =>
        obtain ⟨faithful, others⟩ := List.forall_mem_cons.mp h
        obtain ⟨least, smaller⟩ := List.forall_mem_cons.mp small
        rw [Expr.columnsOf, List.mapM_append, columnsOf]
        refine ((faithful.columns matching).mono least).bind ?_
        rintro first _ rfl
        refine (ih others smaller).bind ?_
        rintro rest _ rfl
        exact agrees_pure rfl

end Expressions

/-! ## Agreement of selections -/

section Selections

variable {l : Likeness} {around : Surroundings} {n : Nat}

/-- A selection that differs from another one in its columns and their order only. -/
structure SameRows (s t : Select) : Prop where
  sources : s.sources = t.sources
  filters : s.filters = t.filters
  groupBy : s.groupBy = t.groupBy
  having : s.having = t.having
  distinct : s.distinct = t.distinct

theorem SameRows.refl (s : Select) : SameRows s s := ⟨rfl, rfl, rfl, rfl, rfl⟩

theorem sameRows_scalar (q : Query) (e : Expr) : SameRows (q.scalar e).current q.current :=
  ⟨rfl, rfl, rfl, rfl, rfl⟩

/-- Rows that hold numbers only are compared alike whatever is alike at sight. -/
theorem sameScope_eq {l l' : Likeness} (sight : l.AtSight) (sight' : l'.AtSight) {s : Select}
    (numbers : ∀ c ∈ s.scope, c.NoNaN) (t : Select) : s.sameScope l t = s.sameScope l' t := by
  have alike (es : List Expr) (part : es ⊆ s.scope) (es' : List Expr) :
      Expr.likeAll l es es' = Expr.likeAll l' es es' := by
    refine Expr.likeAll_congr (fun c hc b => ?_) es'
    have number := numbers c (part hc)
    rw [Expr.like_eq_plain sight number, Expr.like_eq_plain sight' number]
  have paths := alike (s.sources.filterMap Source.path?) (List.subset_append_left ..)
  have filters := alike s.filters (List.subset_append_right ..)
  rw [Bool.eq_iff_iff]
  simp only [Select.sameScope, Bool.and_eq_true, Source.likeAll_iff, paths, filters]

/-- Rows that hold numbers only are the same as themselves. -/
theorem sameScope_self {l : Likeness} (sight : l.AtSight) {s : Select}
    (numbers : ∀ c ∈ s.scope, c.NoNaN) : s.sameScope l s = true :=
  Select.sameScope_of_marking sight numbers rfl rfl

theorem matches_within (sight : l.AtSight) {s t : Select} (likeness : around.likeness = l)
    (same : SameRows s t) (numbers : ∀ c ∈ t.scope, c.NoNaN) :
    (around.within s).Matches l t where
  likeness := likeness
  rows q := by
    have rows : s.sameScope l q.current = t.sameScope l q.current := by
      rw [Select.sameScope, Select.sameScope, same.sources, same.filters]
    have other := sameScope_eq sight (.kept fun _ => true) numbers q.current
    simp [Surroundings.inScope, Surroundings.within, likeness, rows, other]

theorem enters_select {q r : Query} {column? : Option (RenderM String)}
    (same : SameRows r.current q.current) (matching : (around.within r.current).Matches l q.current)
    (clauses : ∀ c ∈ q.current.filters ++ q.current.groupBy ++ q.current.having,
      Faithful l c ∧ sizeOf c ≤ n)
    (columns : Agrees n Eq ((around.within r.current).items r.current)
      (items rowsAlike q.current column?))
    (keys : Agrees n Eq (r.current.orderBy.mapM fun key => do
        pure ((← (around.within r.current).expr key.key) ++
          ofText (" " ++ key.direction.keyword)))
      (order rowsAlike q.current column?)) :
    Enters r n Eq (around.select r) (select rowsAlike q column?) := by
  have inner (es : List Expr)
      (part : es ⊆ q.current.filters ++ q.current.groupBy ++ q.current.having) :
      Agrees n Eq (es.mapM (around.within r.current).expr) (list rowsAlike q.current es) :=
    agrees_list (fun c hc => clauses c (part hc)) matching
  rw [Surroundings.select, select_eq]
  dsimp only
  rw [← same.sources, same.filters, same.groupBy, same.having, same.distinct]
  refine enters r (columns.bind ?_)
  rintro items _ rfl
  refine (agrees_sources true _).bind ?_
  rintro froms _ rfl
  refine (inner q.current.filters (by simp)).bind ?_
  rintro filters _ rfl
  refine (inner q.current.groupBy (by simp)).bind ?_
  rintro groups _ rfl
  refine (inner q.current.having (by simp)).bind ?_
  rintro having _ rfl
  refine keys.bind ?_
  rintro keys _ rfl
  exact agrees_pure rfl

/-- A query that is written as it is. -/
theorem enters_query {q : Query} (matching : (around.within q.current).Matches l q.current)
    (clauses : ∀ c ∈ q.current.clauses, Faithful l c ∧ sizeOf c ≤ n) :
    Enters q n Eq (around.select q) (select rowsAlike q none) := by
  have part (es : List Expr) (inside : es ⊆ q.current.clauses) :
      ∀ c ∈ es, Faithful l c ∧ sizeOf c ≤ n := fun c hc => clauses c (inside hc)
  refine enters_select (.refl _) matching (part _ q.current.predicates_subset_clauses) ?_ ?_
  · rw [Surroundings.items, items]
    cases projection : q.current.projection with
    | none =>
        refine (agrees_rootAlias q.current (by simp)).bind ?_
        rintro root _ rfl
        exact agrees_pure rfl
    | some e =>
        obtain ⟨faithful, small⟩ := clauses e (by simp [Select.clauses, projection])
        exact (faithful.columns matching).mono small
  · exact agrees_sortKeys (part _ (List.subset_append_right ..)) matching

/-- Within its own rows, an aggregate is a function of them. -/
theorem expr_inline {fn : AggregateFn} {arg : Option Expr} {q : Query} {t : ValueType}
    (inside : around.inScope q = true) : around.expr (.aggregate fn arg q t) = (do
      pure (call fn.name [← around.argument arg q.current])) := by
  rw [Surroundings.expr, if_pos inside]

theorem expr_foreign {fn : AggregateFn} {arg : Option Expr} {q : Query} {t : ValueType}
    (outside : around.inScope q = false) : around.expr (.aggregate fn arg q t) = (do
      pure (parenthesized (← around.select (q.scalar (.aggregate fn arg q t))))) := by
  rw [Surroundings.expr, outside]
  rfl

theorem inScope_scalar (sight : around.likeness.AtSight) {q : Query}
    (numbers : ∀ c ∈ q.current.scope, c.NoNaN) (e : Expr) :
    (around.within (q.scalar e).current).inScope q = true := by
  rw [(matches_within sight rfl (sameRows_scalar q e) numbers).rows q]
  exact sameScope_self (.kept fun _ => true) numbers

def PartsFaithful (l : Likeness) (e : Expr) : Prop :=
  ∀ c ∈ e.parts true, Faithful l c ∧ sizeOf c ≤ sizeOf e - 1

theorem NoNaN.scope {e : Expr} {q : Query} (number : e.NoNaN) (query : e.query? = some q) :
    ∀ c ∈ q.current.scope, c.NoNaN := by
  intro c hc
  exact number.part (Expr.mem_parts_true.mpr (.inr ⟨q, query, q.current.scope_subset_clauses hc⟩))

theorem PartsFaithful.args {fn : AggregateFn} {arg : Option Expr} {q : Query} {t : ValueType}
    (parts : PartsFaithful l (.aggregate fn arg q t)) :
    ∀ c ∈ arg, Faithful l c ∧ sizeOf c ≤ sizeOf (Expr.aggregate fn arg q t) - 1 := fun c hc =>
  parts c (Expr.mem_parts_true.mpr (.inl (by simpa [Expr.children] using hc)))

theorem PartsFaithful.clauses {e : Expr} {q : Query} (parts : PartsFaithful l e)
    (query : e.query? = some q) :
    ∀ c ∈ q.current.clauses, Faithful l c ∧ sizeOf c ≤ sizeOf e - 1 := fun c hc =>
  parts c (Expr.mem_parts_true.mpr (.inr ⟨q, query, hc⟩))

/-- An aggregate over other rows than those around it: its rows are entered with the aggregate
as their column, and there it is a function of them. -/
theorem enters_foreign (sight : around.likeness.AtSight) {fn : AggregateFn} {arg : Option Expr}
    {q : Query} {t : ValueType} (number : (Expr.aggregate fn arg q t).NoNaN)
    (parts : PartsFaithful around.likeness (.aggregate fn arg q t))
    (outside : around.inScope q = false) :
    let e : Expr := .aggregate fn arg q t
    Enters (q.scalar e) (sizeOf e - 1) (fun text texts => texts = [text]) (around.expr e) (do
      let column := do
        let inner ← argument rowsAlike q.current arg q.current
        pure (call fn.name [inner])
      let inner ← select rowsAlike q (some column)
      pure [parenthesized inner]) := by
  intro e
  have numbers := NoNaN.scope number rfl
  have same := sameRows_scalar q e
  have matching : (around.within (q.scalar e).current).Matches around.likeness q.current :=
    matches_within sight rfl same numbers
  rw [expr_foreign outside]
  refine (enters_select same matching
    (fun c hc => parts.clauses rfl c (q.current.predicates_subset_clauses hc)) ?_ ?_).map ?_
  · have column : (around.within (q.scalar e).current).items (q.scalar e).current =
        [e].mapM (around.within (q.scalar e).current).expr := by
      rw [Surroundings.items]
      rfl
    rw [column, List.mapM_cons, List.mapM_nil, expr_inline (inScope_scalar sight numbers e)]
    simp only [bind_assoc, pure_bind, items]
    refine (agrees_argument parts.args matching _).bind ?_
    rintro inner _ rfl
    exact agrees_pure rfl
  · exact agrees_pure rfl
  · rintro inner _ rfl
    rfl

end Selections

/-! ## Agreement of trees -/

section Trees

variable {l : Likeness} {around : Surroundings} {scope : Select}

theorem agrees_aggregate (sight : l.AtSight) {fn : AggregateFn} {arg : Option Expr} {q : Query}
    {t : ValueType} (number : (Expr.aggregate fn arg q t).NoNaN)
    (parts : PartsFaithful l (.aggregate fn arg q t)) (matching : around.Matches l scope) :
    let e : Expr := .aggregate fn arg q t
    Agrees (sizeOf e) (fun text texts => texts = [text]) (around.expr e)
      (columns rowsAlike scope e) := by
  intro e
  rw [columns]
  obtain ⟨rfl, rows⟩ := matching
  split
  · next same =>
      rw [expr_inline ((rows q).trans same)]
      refine Agrees.bind ((agrees_argument parts.args ⟨rfl, rows⟩ _).mono (Nat.sub_le ..)) ?_
      rintro inner _ rfl
      exact agrees_pure rfl
  · next other =>
      have outside := (rows q).trans (Bool.eq_false_of_not_eq_true other)
      rw [if_pos (sameScope_self .usual (NoNaN.scope number rfl))]
      refine (enters_foreign sight number parts outside).agrees (Nat.sub_le ..) ?_
      rintro _ ⟨⟩
      exact Nat.le_refl _

theorem agrees_single (sight : l.AtSight) {e : Expr} (number : e.NoNaN)
    (single : ∀ items t, e ≠ .tuple items t) (parts : PartsFaithful l e)
    (matching : around.Matches l scope) :
    Agrees (sizeOf e) (fun text texts => texts = [text]) (around.expr e)
      (columns rowsAlike scope e) := by
  have children : ∀ c ∈ e.children, Faithful l c ∧ sizeOf c ≤ sizeOf e := fun c hc =>
    (parts c (Expr.mem_parts_true.mpr (.inl hc))).imp_right fun le => by omega
  have child {c : Expr} (hc : c ∈ e.children) :
      Agrees (sizeOf e) Eq (around.expr c) (whole c (columns rowsAlike scope c)) :=
    ((children c hc).1.whole matching).mono (children c hc).2
  cases e with
  | tuple items t => exact absurd rfl (single items t)
  | aggregate fn arg q t => exact agrees_aggregate sight number parts matching
  | constant value t =>
      rw [Surroundings.expr, columns]
      exact agrees_pure rfl
  | element | component =>
      rw [Surroundings.expr, columns]
      exact agrees_throw (by simp)
  | param capture t =>
      rw [Surroundings.expr, columns, ← bind_pure (placeholder capture : UnboundedM String)]
      refine (agrees_placeholder capture).bind ?_
      rintro name _ rfl
      exact agrees_pure rfl
  | row id t =>
      rw [Surroundings.expr, columns, ← bind_pure (aliasOf id : UnboundedM String)]
      refine (agrees_aliasOf id).bind ?_
      rintro name _ rfl
      exact agrees_pure rfl
  | path base field t =>
      rw [Surroundings.expr, columns]
      refine (agrees_path _).bind ?_
      rintro inner _ rfl
      exact agrees_pure rfl
  | unary op operand t =>
      rw [Surroundings.expr, columns]
      refine (child (by simp [Expr.children])).bind ?_
      rintro operand _ rfl
      exact agrees_pure rfl
  | binary op left right t =>
      rw [Surroundings.expr, columns]
      refine (child (by simp [Expr.children])).bind ?_
      rintro left _ rfl
      refine (child (by simp [Expr.children])).bind ?_
      rintro right _ rfl
      exact agrees_pure rfl
  | conditional test yes no t =>
      rw [Surroundings.expr, columns]
      refine (child (by simp [Expr.children])).bind ?_
      rintro test _ rfl
      refine (child (by simp [Expr.children])).bind ?_
      rintro yes _ rfl
      refine (child (by simp [Expr.children])).bind ?_
      rintro no _ rfl
      exact agrees_pure rfl
  | call fn args t =>
      rw [Surroundings.expr, columns]
      refine (agrees_list children matching).bind ?_
      rintro args _ rfl
      exact agrees_pure rfl
  | subQuery q t =>
      have rows : (around.within q.current).Matches l q.current :=
        matches_within sight matching.likeness (.refl q.current) (NoNaN.scope number rfl)
      rw [Surroundings.expr, columns]
      refine Enters.agrees ((enters_query rows (parts.clauses rfl)).map ?_) (Nat.sub_le ..) ?_
      · rintro inner _ rfl
        rfl
      · intro projected projection
        have small := (parts.clauses rfl projected (by simp_all [Select.clauses])).2
        omega

/-- What is written of a tree that holds numbers only, without a bound, is what is written with
one. The induction is over all parts of the tree, the clauses of its queries included. -/
theorem faithful (sight : l.AtSight) {e : Expr} (number : e.NoNaN) : Faithful l e := by
  induction e using Expr.partsInduction true with
  | node e ih =>
      have parts : PartsFaithful l e := fun c hc =>
        ⟨ih c hc (number.part hc), Nat.le_sub_one_of_lt (Expr.sizeOf_lt_of_mem_parts hc)⟩
      cases e with
      | tuple items t =>
          exact faithful_tuple (fun c hc => (parts c (Expr.mem_parts_true.mpr (.inl hc))).1) t
      | _ => exact faithful_of_single nofun (agrees_single sight number nofun parts)

/-- An aggregate over other rows than those around it is written by entering its own rows with
that aggregate as their column. No query that is entered on the way projects it again. -/
theorem expands (sight : around.likeness.AtSight) {fn : AggregateFn} {arg : Option Expr} {q : Query}
    {t : ValueType} (number : (Expr.aggregate fn arg q t).NoNaN)
    (outside : around.inScope q = false) (trace : Trace) :
    let e : Expr := .aggregate fn arg q t
    ∃ result ledger entered,
      around.expr e trace = some (result, ⟨ledger, trace.entered ++ q.scalar e :: entered⟩) ∧
        ∀ r ∈ entered, r.current.projection ≠ some e := by
  intro e
  have parts : PartsFaithful around.likeness e := fun c hc =>
    ⟨faithful sight (number.part hc), Nat.le_sub_one_of_lt (Expr.sizeOf_lt_of_mem_parts hc)⟩
  obtain ⟨result, ledger, entered, ran, small, -⟩ :=
    enters_foreign sight number parts outside trace
  refine ⟨result, ledger, entered, ran, fun r hr projected => ?_⟩
  -- What a later query projects is smaller than the aggregate.
  have smaller : sizeOf e ≤ sizeOf e - 1 := small r hr e projected
  have positive : 0 < sizeOf e := by simp [e]
  omega

end Trees

end Rendering

namespace Query

open Rendering

/-- Renders a query as `render` does, without a bound. A likeness tells which queries are the
same at sight. -/
def renderUnbounded (q : Query) (l : Likeness) (settings : Settings) :
    Option (Except RenderError Rendered) :=
  let normal := q.normalize
  let around : Surroundings := ⟨l, []⟩
  (around.select normal ⟨⟨settings.paramStem, .empty, []⟩, []⟩).map fun (result, trace) =>
    result.map fun text =>
      ⟨text, trace.ledger.bindings, normal.current.skip, normal.current.limit⟩

variable {l : Likeness} {q : Query}

/-- Where all constants are numbers, a query is written without a bound as it is with one, and
no aggregate is given up. -/
theorem renderUnbounded_eq (sight : l.AtSight) (numbers : ∀ c ∈ q.current.clauses, c.NoNaN)
    (settings : Settings) : q.renderUnbounded l settings = some (q.render settings) ∧
      q.render settings ≠ .error .unsettledAggregate := by
  have numbers := noNaN_normalize numbers
  have rows : (Surroundings.within ⟨l, []⟩ q.normalize.current).Matches l q.normalize.current :=
    matches_within sight rfl (.refl _) fun c hc => numbers c (Select.scope_subset_clauses _ hc)
  have clauses : ∀ c ∈ q.normalize.current.clauses,
      Faithful l c ∧ sizeOf c ≤ sizeOf q.normalize.current := fun c hc =>
    ⟨faithful sight (numbers c hc), Nat.le_of_lt (Select.sizeOf_lt_of_mem_clauses hc)⟩
  obtain ⟨result, ledger, entered, ran, -, answers⟩ :=
    enters_query rows clauses ⟨⟨settings.paramStem, .empty, []⟩, []⟩
  rw [renderUnbounded, Query.render]
  simp only [ran]
  generalize (select rowsAlike q.normalize none : RenderM String).run _ = answer at answers ⊢
  cases answers with
  | error settled =>
      refine ⟨rfl, ?_⟩
      rintro ⟨⟩
      exact settled rfl
  | ok same =>
      subst same
      refine ⟨rfl, ?_⟩
      rintro ⟨⟩

/-- Where all constants are numbers, rendering ends: it comes to what it comes to without a bound,
and gives no aggregate up. An aggregate over other rows than those around it is written by entering
one query that has that aggregate as its column, and no other one that does. Within that query it
is a function of the rows. -/
theorem render_terminates (sight : l.AtSight) :
    (∀ q : Query, (∀ c ∈ q.current.clauses, c.NoNaN) → ∀ settings,
      q.renderUnbounded l settings = some (q.render settings) ∧
        q.render settings ≠ .error .unsettledAggregate) ∧
    ∀ fn arg q t, let e : Expr := .aggregate fn arg q t
      e.NoNaN → ∀ around : Surroundings, around.likeness = l → around.inScope q = false →
        ∀ trace, ∃ result ledger entered,
          around.expr e trace =
            some (result, ⟨ledger, trace.entered ++ q.scalar e :: entered⟩) ∧
          (q.scalar e).current.projection = some e ∧
          (∀ r ∈ entered, r.current.projection ≠ some e) ∧
          (around.within (q.scalar e).current).inScope q = true ∧
          (around.within (q.scalar e).current).expr e = (do
            let inner ← (around.within (q.scalar e).current).argument arg q.current
            pure (fn.name ++ "(" ++ inner ++ ")")) := by
  refine ⟨fun q numbers => renderUnbounded_eq sight numbers, ?_⟩
  rintro fn arg q t e number around rfl outside trace
  obtain ⟨result, ledger, entered, ran, others⟩ := expands sight number outside trace
  have inside := inScope_scalar sight (NoNaN.scope number rfl) e
  exact ⟨result, ledger, entered, ran, rfl, others, inside, expr_inline inside⟩

end Query

namespace Reached

open Rendering

/-- Whether a column is an aggregate of numbers over other rows than those of a query. -/
def foreignNumbers (q : Query) : Expr → Bool
  | .aggregate fn arg rows t =>
    decide (Expr.aggregate fn arg rows t).NoNaN &&
      !Surroundings.inScope ⟨rowsAlike, [q.current]⟩ rows
  | _ => false

theorem render_terminates_domesticAccounts :
    ∃ q fn arg rows t, customers.chain "Customer" [.select domesticAccounts] = .ok q ∧
      (∀ settings, q.renderUnbounded rowsAlike settings = some (q.render settings)) ∧
      let e : Expr := .aggregate fn arg rows t
      let around : Surroundings := ⟨rowsAlike, [q.normalize.current]⟩
      q.normalize.current.projection = some e ∧ around.inScope rows = false ∧
      ∀ trace, ∃ result ledger entered,
        around.expr e trace =
          some (result, ⟨ledger, trace.entered ++ rows.scalar e :: entered⟩) ∧
        ∀ r ∈ entered, r.current.projection ≠ some e := by
  have ran : (customers.chain "Customer" [.select domesticAccounts]).map (fun q =>
      (q.current.clauses.all fun c => decide c.NoNaN,
        q.normalize.current.projection.any (foreignNumbers q.normalize))) = .ok (true, true) := by
    decide +kernel
  obtain ⟨q, folds, found⟩ := Compile.map_eq_ok.mp ran
  obtain ⟨numbers, column⟩ := Prod.mk.inj found
  obtain ⟨e, projected, foreign⟩ := (Option.any_eq_true _ _).mp column
  cases e with
  | aggregate fn arg rows t =>
      obtain ⟨number, outside⟩ : (Expr.aggregate fn arg rows t).NoNaN ∧
          Surroundings.inScope ⟨rowsAlike, [q.normalize.current]⟩ rows = false := by
        simpa [foreignNumbers] using foreign
      simp only [List.all_eq_true, decide_eq_true_eq] at numbers
      obtain ⟨ends, expands⟩ := Query.render_terminates (l := rowsAlike) (.kept fun _ => true)
      refine ⟨q, fn, arg, rows, t, folds, fun settings => (ends q numbers settings).1, projected,
        outside, fun trace => ?_⟩
      obtain ⟨result, ledger, entered, wrote, -, others, -⟩ :=
        expands fn arg rows t number _ rfl outside trace
      exact ⟨result, ledger, entered, wrote, others⟩
  | _ => cases foreign

end Reached

end StreamQuery
