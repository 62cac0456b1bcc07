import StreamQuery.Proofs.AggregateShortcuts
import StreamQuery.Proofs.InlineAggregates

/-! # Filters in sequence and their conjunction

Filters that are folded one after the other onto a stream of rows make up a list,
which is written as one conjunction. A query with that conjunction as its only
filter is written in the same way: normalizing leaves both alone, and no aggregate
inside ranges over the stream itself, so that none can tell the two apart.
-/

namespace StreamQuery

/-! ## Expressions joined from the left -/

namespace Expr

def conjoin (first : Expr) (rest : List Expr) : Expr := rest.foldl and first

theorem holds_iff_reach {e : Expr} {q : Query} : e.holds q = true ↔
    ∃ node ∈ e.reach fun _ => false, node.query? = some q := by
  simp [holds]

theorem holds_and {left right : Expr} {q : Query} :
    (and left right).holds q = true ↔ left.holds q = true ∨ right.holds q = true := by
  have nodes : (and left right).reach (fun _ => false) = and left right ::
      (left.reach (fun _ => false) ++ right.reach fun _ => false) := by
    rw [reach_eq_parts]
    simp [and, apply, parts, children, query?, reachAll]
  simp only [holds_iff_reach, nodes, List.mem_cons, List.mem_append, or_and_right, exists_or]
  simp [and, apply, query?]

theorem holds_conjoin {first : Expr} {rest : List Expr} {q : Query} :
    (conjoin first rest).holds q = true ↔ ∃ p ∈ first :: rest, p.holds q = true := by
  induction rest generalizing first with
  | nil => simp [conjoin]
  | cons p rest ih =>
      rw [conjoin, List.foldl_cons, ← conjoin, ih]
      simp [holds_and, or_assoc]

theorem normal_conjoin {l : Likeness} {first : Expr} {rest : List Expr}
    (normal : ∀ p ∈ first :: rest, Normal l true p)
    (varies : ∀ p ∈ first :: rest, p.asBool = none) :
    Normal l true (conjoin first rest) := by
  induction rest generalizing first with
  | nil => simpa [conjoin] using normal
  | cons p rest ih =>
      rw [conjoin, List.foldl_cons, ← conjoin]
      simp only [List.forall_mem_cons] at normal varies
      refine ih (List.forall_mem_cons.mpr ⟨?_, normal.2.2⟩)
        (List.forall_mem_cons.mpr ⟨rfl, varies.2.2⟩)
      exact normal.1.binary normal.2.1 (conj?_eq_none_iff.mpr ⟨varies.1, varies.2.1⟩)

end Expr

/-! ## Normal forms that differ in the filters -/

namespace Query

theorem holds_iff_clause {q r : Query} :
    q.holds r = true ↔ ∃ c ∈ q.current.clauses, c.holds r = true := by
  rw [holds_iff]
  generalize q.current.clauses = es
  induction es with
  | nil => simp [Expr.reachAll]
  | cons e es ih => simp [Expr.reachAll, or_and_right, exists_or, ih, Expr.holds_iff_reach]

/-- Marks are taken after those of the queries inside. -/
theorem nextMark_congr {q r : Query} (same : q.holds = r.holds) : q.nextMark = r.nextMark := by
  have bound {q : Query} {n : Nat} :
      q.nextMark ≤ n ↔ ∀ inner, q.holds inner = true → inner.current.mark < n := by
    rw [nextMark, Expr.markAfter_marksOf_le_iff, reach_eq]
    simp only [holds_iff]
    constructor
    · rintro h inner ⟨node, hn, hq⟩
      exact h node hn inner hq
    · intro h node hn inner hq
      exact h inner ⟨node, hn, hq⟩
  apply Nat.le_antisymm
  · rw [bound, same, ← bound]
  · rw [bound, ← same, ← bound]

/-- All clauses are revised and marked, also where that changes nothing. -/
theorem normalize_eq_fresh (q : Query) : q.normalize =
    ⟨((((Expr.thorough q.holds).resultSelect q.current).fresh q.holds).run q.nextMark).1, q.past⟩ := by
  have deep : (Expr.thorough q.holds).deep = true := rfl
  have revised := (Expr.thorough q.holds).resultQuery_eq q
  rw [if_pos deep] at revised
  rw [normalize_eq]
  split
  · rw [revised]
  · next unchanged =>
      have same : (Expr.thorough q.holds).resultQuery q = q := by
        rw [Pass.resultQuery, Option.not_isSome_iff_eq_none.mp unchanged]
        rfl
      have current : (Expr.thorough q.holds).resultSelect q.current = q.current :=
        congrArg Query.current (revised.symm.trans same)
      rw [current, fresh_eq_self]

end Query

/-- Filters whose queries were all kept are left out of marking. -/
theorem Select.fresh_filters {kept : Query → Bool} {s : Select} {filters : List Expr}
    (nextSource : SourceId) (old : ∀ p ∈ s.filters, p.AllKept kept)
    (new : ∀ p ∈ filters, p.AllKept kept) (m : Nat) :
    ((fresh kept { s with filters, nextSource }).run m).1 =
        { ((fresh kept s).run m).1 with filters, nextSource } ∧
      ((fresh kept s).run m).1.filters = s.filters := by
  have left {es : List Expr} (all : ∀ p ∈ es, p.AllKept kept) (m : Nat) :
      (Expr.freshAll kept es).run m = (es, m) := by
    obtain ⟨marked, ended⟩ := Expr.markedAll_eq_self fun p hp => (all p hp).marked_eq_self
    rw [Expr.freshAll_run, marked, ended]
  obtain ⟨sources, runSources, -⟩ := Source.freshAll_run kept m s.sources
  constructor
  · rw [fresh_eq, fresh_eq, run_bind_eq runSources, run_bind_eq runSources, run_bind_eq (left old _),
      run_bind_eq (left new _)]
    rfl
  · rw [fresh_eq, run_bind_eq runSources, run_bind_eq (left old _)]
    rfl

/-- A pass leaves out filters that it does not change. -/
theorem Pass.resultSelect_filters {pass : Pass} {s : Select} {filters : List Expr}
    (nextSource : SourceId) (old : ∀ p ∈ s.filters, pass.result p = p)
    (new : ∀ p ∈ filters, pass.result p = p) :
    pass.resultSelect { s with filters, nextSource } =
        { pass.resultSelect s with filters, nextSource } ∧
      (pass.resultSelect s).filters = s.filters := by
  simp [resultSelect_eq, reviseAll_getD, map_result_eq_self old, map_result_eq_self new]

namespace Query

/-- Other filters, which hold the same queries and are normal too, make no difference to
the rest of the normal form. -/
theorem normalize_filters {q r : Query} {filters : List Expr} {nextSource : SourceId}
    (current : q.current = { r.current with filters, nextSource }) (same : q.holds = r.holds)
    (old : ∀ p ∈ r.current.filters, Expr.Normal (.kept r.holds) true p)
    (new : ∀ p ∈ filters, Expr.Normal (.kept r.holds) true p) :
    q.normalize.current = { r.normalize.current with filters, nextSource } ∧
      r.normalize.current.filters = r.current.filters := by
  let pass := Expr.thorough r.holds
  have oldKept : ∀ p ∈ r.current.filters, pass.result p = p := fun p hp => (old p hp).result_eq.1
  have newKept : ∀ p ∈ filters, pass.result p = p := fun p hp => (new p hp).result_eq.1
  obtain ⟨revised, kept⟩ := Pass.resultSelect_filters nextSource oldKept newKept
  have clause {q : Query} : ∀ p ∈ q.current.filters, p.AllKept q.holds := fun p hp =>
    q.allKept_holds p (by simp [Select.clauses, hp])
  have oldHeld : ∀ p ∈ (pass.resultSelect r.current).filters, p.AllKept r.holds := kept ▸ clause
  have newHeld : ∀ p ∈ filters, p.AllKept r.holds := by
    intro p hp
    rw [← same]
    exact clause p (by rw [current]; exact hp)
  obtain ⟨marked, left⟩ := Select.fresh_filters nextSource oldHeld newHeld r.nextMark
  rw [normalize_eq_fresh, normalize_eq_fresh r, same, nextMark_congr same, current, revised]
  exact ⟨marked, left.trans kept⟩

end Query

/-! ## Rendering in a scope that no query inside shares -/

namespace Rendering

variable {M : Type → Type} {T : Type} [Monad M] [MonadExcept RenderError M] [Append T] [Wording T]
  [Scribe M T] {l : Likeness} {s t : Select} {P : Query → Prop}

theorem columnsOf_congr {es : List Expr}
    (h : ∀ e ∈ es, (columns l s e : M (List T)) = columns l t e) :
    (columnsOf l s es : M (List T)) = columnsOf l t es := by
  induction es with
  | nil => rw [columnsOf, columnsOf]
  | cons e es ih =>
      rw [columnsOf, columnsOf, h e List.mem_cons_self,
        ih fun e he => h e (List.mem_cons_of_mem _ he)]

theorem list_congr {es : List Expr} (h : ∀ e ∈ es, (columns l s e : M (List T)) = columns l t e) :
    (list l s es : M (List T)) = list l t es := by
  induction es with
  | nil => rw [list, list]
  | cons e es ih =>
      rw [list, list, h e List.mem_cons_self, ih fun e he => h e (List.mem_cons_of_mem _ he)]

theorem sortKeys_congr {ks : List SortKey}
    (h : ∀ e ∈ ks.map SortKey.key, (columns l s e : M (List T)) = columns l t e) :
    (sortKeys l s ks : M (List T)) = sortKeys l t ks := by
  induction ks with
  | nil => rw [sortKeys, sortKeys]
  | cons k ks ih =>
      obtain ⟨key, direction⟩ := k
      rw [sortKeys, sortKeys, h key List.mem_cons_self,
        ih fun e he => h e (List.mem_cons_of_mem _ he)]

/-- Queries inside that range over neither selection are written in the same way in both. -/
theorem columns_congr (apart : ∀ q, P q → s.sameScope l q.current = false ∧
      t.sameScope l q.current = false) {e : Expr} (h : e.Holding P) :
    (columns l s e : M (List T)) = columns l t e := by
  induction e using Expr.partsInduction false with
  | node e ih =>
      have child : ∀ c ∈ e.children, (columns l s c : M (List T)) = columns l t c := fun c hc =>
        ih c (by simpa [Expr.parts] using hc) ((Expr.holding_iff.mp h).2.2 c hc)
      cases e with
      | unary op operand _ => rw [columns, columns, child operand (by simp [Expr.children])]
      | binary op left right _ =>
          rw [columns, columns, child left (by simp [Expr.children]),
            child right (by simp [Expr.children])]
      | conditional test yes no _ =>
          rw [columns, columns, child test (by simp [Expr.children]),
            child yes (by simp [Expr.children]), child no (by simp [Expr.children])]
      | tuple items _ =>
          rw [columns, columns]
          exact columnsOf_congr child
      | call fn args _ =>
          have same : (list l s args : M (List T)) = list l t args := list_congr child
          rw [columns, columns, same]
      | aggregate fn arg q _ =>
          obtain ⟨here, there⟩ := apart q ((Expr.holding_aggregate.mp h).1.1)
          simp [columns, here, there]
      | _ => rw [columns, columns]

section Conjoined

variable [LawfulMonad M]

/-- A conjunction is written as the list of what it joins is. -/
theorem expr_conjoin (first : Expr) (rest : List Expr) :
    (expr l s (.conjoin first rest) : M T) = (do
      let first ← expr l s first
      let rest ← list l s rest
      pure (conjunction (first :: rest))) := by
  induction rest generalizing first with
  | nil => simp [Expr.conjoin, list, conjunction]
  | cons p rest ih =>
      have both : (expr l s (.and first p) : M T) = (do
          let first ← expr l s first
          let p ← expr l s p
          pure (binary .and first p)) := by
        simp [expr, Expr.and, Expr.apply, whole, columns, joined]
      rw [Expr.conjoin, List.foldl_cons, ← Expr.conjoin, ih, both]
      simp [list, expr, conjunction]

theorem list_conjoin (first : Expr) (rest : List Expr) :
    (list l s [.conjoin first rest] : M (List T)) = (do
      let filters ← list l s (first :: rest)
      pure [conjunction filters]) := by
  change (do
    let whole ← expr l s (.conjoin first rest)
    let none ← list l s []
    pure (whole :: none) : M (List T)) = _
  rw [expr_conjoin]
  simp [list, expr]

/-- A selection with the conjunction of its filters as its only one. -/
theorem select_conjoin {q r : Query} {first : Expr} {rest : List Expr} {nextSource : SourceId}
    (filters : r.current.filters = first :: rest)
    (current : q.current = { r.current with filters := [.conjoin first rest], nextSource })
    (same : ∀ c ∈ r.current.clauses,
      (columns l q.current c : M (List T)) = columns l r.current c) :
    (select l q none : M T) = select l r none := by
  have sameList {es : List Expr} (inside : ∀ e ∈ es, e ∈ r.current.clauses) :
      (list l q.current es : M (List T)) = list l r.current es :=
    list_congr fun e he => same e (inside e he)
  have sameItems : items l q.current (none : Option (M T)) = items l r.current none := by
    cases known : r.current.projection with
    | some e =>
        have inside : e ∈ r.current.clauses := by simp [Select.clauses, known]
        simpa [items, current, known] using same e inside
    | none => simp [items, rootAlias, Select.root?, current, known]
  have sameFilters : (list l q.current q.current.filters : M (List T)) = (do
      let filters ← list l r.current r.current.filters
      pure [conjunction filters]) := by
    have inside : ∀ e ∈ first :: rest, e ∈ r.current.clauses := fun e he => by
      simp [Select.clauses, filters ▸ he]
    have only : q.current.filters = [.conjoin first rest] := by rw [current]
    rw [only, list_conjoin, sameList inside, filters]
  have sameGroups : (list l q.current q.current.groupBy : M (List T)) =
      list l r.current r.current.groupBy := by
    have keys : q.current.groupBy = r.current.groupBy := by rw [current]
    rw [keys]
    exact sameList fun e he => by simp [Select.clauses, he]
  have sameHaving : (list l q.current q.current.having : M (List T)) =
      list l r.current r.current.having := by
    have keys : q.current.having = r.current.having := by rw [current]
    rw [keys]
    exact sameList fun e he => by simp [Select.clauses, he]
  have sameOrder : order l q.current (none : Option (M T)) = order l r.current none := by
    have keys : q.current.orderBy = r.current.orderBy := by rw [current]
    rw [order, order, keys]
    exact sortKeys_congr fun e he => same e (List.mem_append_right _ he)
  have nonempty : (list l r.current r.current.filters : M (List T)) =
      list l r.current (first :: rest) := by
    rw [filters]
  rw [select_eq, select_eq, sameItems, sameFilters, sameGroups, sameHaving, sameOrder, nonempty,
    list]
  simp [current, selection, clause, conjunction]

end Conjoined

end Rendering

/-! ## Filters folded in turn -/

/-- Filters folded in turn onto a query, with marks that are new, and the predicates that are
stored. None of them is a constant. -/
inductive Query.FilteredBy (q : Query) : List Expr → Query → Prop where
  | start : FilteredBy q [] q
  | filter {predicates : List Expr} {p : Expr} {r r' : Query} {compiler : Compiler}
      {closure : Closure} (before : FilteredBy q predicates r) (positive : 0 < compiler.nextMark)
      (fresh : r.nextMark ≤ compiler.nextMark) (folds : compiler.fold r (.filter closure) = .ok r')
      (stored : r'.current.filters = r.current.filters ++ [p]) (varies : p.asBool = none) :
      FilteredBy q (predicates ++ [p]) r'

namespace Query

/-- A predicate is stored in normal form. -/
theorem normal_overRow {r : Query} {env : Compile.Environment} {closure : Closure} {p : Expr}
    {supply supply' : Compile.Supply} (positive : 0 < supply.nextMark)
    (fresh : r.nextMark ≤ supply.nextMark)
    (h : (r.overRow env closure).run supply = .ok (p, supply')) (held : Query → Bool) :
    Expr.Normal (.kept held) true p := by
  simp only [overRow, bind_run_eq_ok, compileIn_run_eq_ok, inlineIn_run_eq_ok] at h
  obtain ⟨inner, between, compiled, rfl, rfl⟩ := h
  obtain ⟨after, ran, rfl⟩ := Closure.compile_eq_ok.mp compiled
  obtain ⟨le, below⟩ := Compile.nextMark_compileBody positive ran
  have row : r.currentRow.nextMark ≤ after.nextMark :=
    Nat.le_trans r.nextMark_currentRow_le (Nat.le_trans fresh le)
  exact Expr.normal_inlined_of below row (.kept held)

theorem FilteredBy.spec {q r : Query} {predicates : List Expr} (h : q.FilteredBy predicates r)
    (rows : q.current.shape = .rows) :
    (∃ nextSource, r.current =
      { q.current with filters := q.current.filters ++ predicates, nextSource }) ∧
    ∀ p ∈ predicates, p.asBool = none ∧ ∀ held, Expr.Normal (.kept held) true p := by
  induction h with
  | start => exact ⟨⟨q.current.nextSource, by rw [List.append_nil]; cases q.current; rfl⟩, by simp⟩
  | @filter predicates p r r' compiler closure before positive fresh folds stored varies ih =>
      obtain ⟨⟨next, current⟩, all⟩ := ih
      have shape : r.current.shape = .rows := by rw [current]; exact rows
      cases rowFold_of_fold rfl (Compiler.fold_eq_ok.mp folds) with
      | @filter _ e supply _ row derived =>
          obtain ⟨-, -, -, rfl⟩ := filtered_eq_ok.mp derived
          by_cases always : e.asBool = some true
          · simp [derive, always] at stored
          · simp only [derive, always, shape, if_false, reduceCtorEq] at stored ⊢
            obtain rfl : e = p := by simpa using stored
            refine ⟨⟨max r.current.nextSource supply.nextSource, by simp [current, rows]⟩, ?_⟩
            intro p' hp'
            rcases List.mem_append.mp hp' with old | new
            · exact all p' old
            · obtain rfl := List.mem_singleton.mp new
              exact ⟨varies, normal_overRow positive fresh row⟩

end Query

/-- The conjunction of the filters holds the queries that the filters hold. -/
theorem Query.holds_of_conjoin {q r : Query} {first : Expr} {rest : List Expr}
    {nextSource : SourceId} (filters : r.current.filters = first :: rest)
    (current : q.current =
      { r.current with filters := [.conjoin first rest], nextSource }) : q.holds = r.holds := by
  funext inner
  rw [Bool.eq_iff_iff, holds_iff_clause, holds_iff_clause, current]
  simp only [Select.clauses, filters, List.mem_append, or_and_right, exists_or,
    List.mem_singleton, exists_eq_left, Expr.holds_conjoin]

/-- The query with other filters. -/
def Query.withFilters (q : Query) (filters : List Expr) : Query :=
  ⟨{ q.current with filters }, q.past⟩

namespace Reached

variable {q r : Query}

theorem shape_rows (h : Reached Rowwise q) : q.current.shape = .rows := by
  induction h with
  | opened h => rw [Compiler.streamAll_eq_ok h]; rfl
  | folded _ folds may ih =>
      cases Query.rowFold_of_fold may (Compiler.fold_eq_ok.mp folds) with
      | filter _ derived =>
          obtain ⟨-, -, -, rfl⟩ := Query.filtered_eq_ok.mp derived
          simp only [Query.derive, ih, reduceCtorEq, if_false]
          split <;> rfl
      | select _ derived =>
          obtain ⟨-, -, rfl⟩ := Query.projected_eq_ok.mp derived
          exact ih
      | join _ derived =>
          obtain ⟨-, -, -, -, -, rfl⟩ := Query.joined_eq_ok.mp derived
          exact ih
      | sortedBy _ derived =>
          obtain ⟨-, -, -, rfl⟩ := Query.sorted_eq_ok.mp derived
          exact ih
      | skip derived =>
          obtain ⟨-, -, rfl⟩ := Query.skipped_eq_ok.mp derived
          exact ih
      | limit derived =>
          obtain ⟨-, rfl⟩ := Query.limited_eq_ok.mp derived
          exact ih
      | distinct derived =>
          obtain ⟨-, -, rfl⟩ := Query.distinctRows_eq_ok.mp derived
          exact ih

theorem filteredBy {predicates : List Expr} (h : Reached Rowwise q)
    (filtered : q.FilteredBy predicates r) : Reached Rowwise r := by
  induction filtered with
  | start => exact h
  | filter _ _ _ folds _ _ ih => exact .folded ih folds rfl

/-- A query inside that does not range over the first source is never taken to range over
the rows of the normal form. -/
theorem sameScope_foreign (h : Reached Rowwise r) {s : Select}
    (ids : s.ids = r.normalize.current.ids) {inner : Query}
    (foreign : 0 ∈ inner.current.ids → False) :
    s.sameScope Rendering.rowsAlike inner.current = false := by
  refine Bool.eq_false_iff.mpr fun same => foreign ?_
  rw [← Rendering.ids_eq_of_sameScope same, ids, r.ids_normalize]
  exact h.zero_mem_ids

/-- Filters folded in turn onto a stream of rows without filters are written as their
conjunction, joined from the left, would be as its only filter. -/
theorem render_filteredBy (h : Reached Rowwise q) (unfiltered : q.current.filters = [])
    {first : Expr} {rest : List Expr} (filtered : q.FilteredBy (first :: rest) r)
    (settings : Settings) :
    r.render settings = (q.withFilters [.conjoin first rest]).render settings := by
  obtain ⟨⟨next, current⟩, predicates⟩ := filtered.spec h.shape_rows
  rw [unfiltered, List.nil_append] at current
  let joined := q.withFilters [.conjoin first rest]
  have filters : r.current.filters = first :: rest := by rw [current]
  have joinedCurrent : joined.current = { r.current with
      filters := [.conjoin first rest], nextSource := q.current.nextSource } := by
    rw [current]
    rfl
  obtain ⟨normal, kept⟩ := Query.normalize_filters joinedCurrent
    (Query.holds_of_conjoin filters joinedCurrent)
    (fun p hp => (predicates p (filters ▸ hp)).2 _) (by
      intro p hp
      obtain rfl := List.mem_singleton.mp hp
      exact Expr.normal_conjoin (fun p hp => (predicates p hp).2 _) fun p hp => (predicates p hp).1)
  have reached := h.filteredBy filtered
  have holding := Query.holding_normalize (Query.lasting_without 0)
    (reached.holding_rows reached.shape_rows)
  have ids : joined.normalize.current.ids = r.normalize.current.ids := by rw [normal]; rfl
  have selects := Rendering.select_conjoin (M := RenderM) (kept.trans filters) normal fun c hc =>
    Rendering.columns_congr (fun inner foreign =>
      ⟨reached.sameScope_foreign ids foreign, reached.sameScope_foreign rfl foreign⟩) (holding c hc)
  have bounds : joined.normalize.current.skip = r.normalize.current.skip ∧
      joined.normalize.current.limit = r.normalize.current.limit := by
    rw [normal]
    exact ⟨rfl, rfl⟩
  rw [Query.render, Query.render, selects, bounds.1, bounds.2]

def hasDomestic : Closure where
  body := { domesticAccounts.body with
    returns := .bool
    code := domesticAccounts.body.code.dropLast ++ [.const (.int 0), .compare .gt, .ret] }
  captured := []

theorem render_filteredBy_hasDomestic :
    let all := Query.ofEntity "Customer"
    ∃ r p p', all.FilteredBy [p, p'] r ∧
      (r.render {}).map Rendered.text = .ok ("SELECT A FROM Customer A WHERE (((SELECT COUNT(B) " ++
        "FROM A.accounts B WHERE ((B.country) = (A.country))) > 0) AND ((A.name) = (A.country)))") ∧
      r.render {} = (all.withFilters [.and p p']).render {} := by
  intro all
  let last (q : Query) : Expr := q.current.filters.getLast?.getD default
  have ran : (customers.extend all (.filter hasDomestic)).map (fun made =>
      (made.2.fold made.1 (.filter namedLikeCountry)).map fun r =>
        decide (made.1.current.filters = [last made.1] ∧ (last made.1).asBool = none ∧
          r.current.filters = made.1.current.filters ++ [last r] ∧ (last r).asBool = none ∧
          (r.render {}).map Rendered.text = .ok ("SELECT A FROM Customer A WHERE (((SELECT " ++
            "COUNT(B) FROM A.accounts B WHERE ((B.country) = (A.country))) > 0) AND " ++
            "((A.name) = (A.country)))"))) =
      .ok (.ok true) := by
    decide +kernel
  obtain ⟨⟨q, later⟩, first, found⟩ := Compile.map_eq_ok.mp ran
  obtain ⟨r, second, checked⟩ := Compile.map_eq_ok.mp found
  obtain ⟨one, varies, two, varies', text⟩ := of_decide_eq_true checked
  have opens : Provider.streamAll ⟨customers⟩ "Customer" = .ok ⟨customers, all⟩ := rfl
  have applied : Stream.apply ⟨customers, all⟩ (.filter hasDomestic) = .ok ⟨later, q⟩ :=
    Stream.apply_eq_ok.mpr first
  have fresh := (Provider.fresh_streamAll Nat.one_pos opens).apply applied
  have filtered : all.FilteredBy [last q, last r] r :=
    .filter (.filter .start (by decide) (by decide) (Compiler.fold_of_extend first) one varies)
      fresh.positive fresh.nextMark_le second two varies'
  have reached := (Provider.streamAll_eq_ok.mp opens).1
  exact ⟨r, last q, last r, filtered, text, render_filteredBy (.opened reached) rfl filtered {}⟩

end Reached

end StreamQuery
