import StreamQuery.Proofs.Built
import StreamQuery.Proofs.Derivation
import StreamQuery.Stream

/-! # What folding does when it succeeds

An operation that is folded onto a query adds clauses over its sources, or joins
another query. `NewClause` lists the ways in which the new expressions come about:
rows, keys and streams take the places they have in what the closures compile to.
What holds of every query that can be reached follows from what one fold does.
-/

namespace StreamQuery

def Operation.isRowwise : Operation → Bool
  | filter _ | select _ | join _ | sortedBy .. | skip _ | limit _ | distinct => true
  | _ => false

namespace Query

/-! ## Steps in sequence -/

section Steps

variable {α β : Type} {supply supply' : Compile.Supply}

@[simp] theorem bind_run_eq_ok {x : FoldM α} {f : α → FoldM β} {b : β} :
    (x >>= f).run supply = .ok (b, supply') ↔
      ∃ a between, x.run supply = .ok (a, between) ∧ (f a).run between = .ok (b, supply') := by
  rw [StateT.run_bind]
  cases x.run supply with
  | error error => simp [bind, Except.bind]
  | ok found =>
      obtain ⟨a, between⟩ := found
      constructor
      · exact fun h => ⟨a, between, rfl, h⟩
      · rintro ⟨_, _, ⟨⟩, h⟩
        exact h

@[simp] theorem pure_run_eq_ok {a b : α} :
    (pure a : FoldM α).run supply = .ok (b, supply') ↔ a = b ∧ supply = supply' := by
  change Except.ok (a, supply) = _ ↔ _
  simp

@[simp] theorem throw_run_ne_ok {error : FoldError} {r : α × Compile.Supply} :
    (throw error : FoldM α).run supply ≠ .ok r := by
  change Except.error error ≠ _
  simp

@[simp] theorem get_run_eq_ok {found : Compile.Supply} :
    (get : FoldM Compile.Supply).run supply = .ok (found, supply') ↔
      supply = found ∧ supply = supply' := by
  change Except.ok (supply, supply) = _ ↔ _
  simp

@[simp] theorem liftRefusal_run_eq_ok {result : Except Refusal α} {a : α} :
    (liftRefusal result).run supply = .ok (a, supply') ↔ result = .ok a ∧ supply = supply' := by
  cases result with
  | error refusal => exact iff_of_false throw_run_ne_ok (by simp)
  | ok b => exact pure_run_eq_ok.trans (by simp)

theorem compileIn_run (env : Compile.Environment) (closure : Closure) (chain : Chain)
    (head : BinderId) : (compileIn env closure chain head).run supply =
      ((closure.compile env chain head supply).outcome.mapError FoldError.compile).map
        fun e => (e, (closure.compile env chain head supply).supply) := by
  cases outcome : (closure.compile env chain head supply).outcome <;>
    simp only [compileIn, StateT.run_bind, StateT.run_get, StateT.run_set, pure_bind, outcome] <;>
    rfl

theorem compileIn_run_eq_ok {env : Compile.Environment} {closure : Closure} {chain : Chain}
    {head : BinderId} {e : Expr} :
    (compileIn env closure chain head).run supply = .ok (e, supply') ↔
      (closure.compile env chain head supply).outcome = .ok e ∧
        (closure.compile env chain head supply).supply = supply' := by
  rw [compileIn_run]
  cases (closure.compile env chain head supply).outcome <;> simp [Except.mapError, Except.map]

theorem inlineIn_run_eq_ok {e row result : Expr} {scope : ElementScope} :
    (inlineIn e scope row).run supply = .ok (result, supply') ↔
      ((e.inlined scope row).run supply.nextMark).1 = result ∧
        { supply with nextMark := ((e.inlined scope row).run supply.nextMark).2 } = supply' := by
  change Except.ok (supply.build (e.inlined scope row)) = _ ↔ _
  rw [Except.ok.injEq]
  exact Iff.of_eq (Prod.mk.injEq ..)

end Steps

/-! ## Closures -/

section Closures

variable {q : Query} {env : Compile.Environment} {closure : Closure}
  {supply supply' : Compile.Supply} {e : Expr}

/-- A closure of the row is compiled over an element, and the row takes its place. -/
theorem overRow_run_eq_ok (h : (q.overRow env closure).run supply = .ok (e, supply')) :
    ∃ (inner : Expr) (mark : Nat),
      (closure.compile env (Compile.elementChain closure q.rowType) 1 supply).outcome =
        .ok inner ∧
      ((inner.inlined 1 q.currentRow).run mark).1 = e ∧
      supply'.nextSource = (closure.compile env (Compile.elementChain closure q.rowType) 1
        supply).supply.nextSource := by
  simp only [overRow, bind_run_eq_ok, compileIn_run_eq_ok, inlineIn_run_eq_ok] at h
  obtain ⟨inner, between, ⟨compiled, rfl⟩, rfl, rfl⟩ := h
  exact ⟨inner, _, compiled, rfl, rfl⟩

theorem offers_elementChain (closure : Closure) (type : ValueType) :
    (Compile.elementChain closure type).Offers none [1] (some 1) := by
  have slots : (Chain.empty.push (.ofClosure closure) none).Offers none [1] (some 0) :=
    Chain.OffersFrom.outermost.push trivial
  exact slots.push (.inr ⟨1, List.mem_cons_self, type, rfl⟩)

theorem offers_streamChain (q : Query) (closure : Closure) (scopes : List ElementScope) :
    ((Chain.empty.push (.ofClosure closure) none).push (.stream q) (some 0)).Offers (some q)
      scopes (some 1) := by
  have slots : (Chain.empty.push (.ofClosure closure) none).Offers (some q) scopes (some 0) :=
    Chain.OffersFrom.outermost.push trivial
  exact slots.push ⟨q, rfl, rfl⟩

/-- What a closure of one row compiles to, with the row in the place of its element. -/
inductive OverRow (q : Query) : (start next : SourceId) → Expr → Prop where
  | mk {start next : SourceId} {inner : Expr} (h : Compile.Built none start [1] next inner)
      (le : start ≤ next) (mark : Nat) :
      OverRow q start next ((inner.inlined 1 q.currentRow).run mark).1

/-- How new expressions come about. -/
inductive NewClause (q : Query) : (start next : SourceId) → Expr → Prop where
  | overRow {start next : SourceId} {e : Expr} (h : OverRow q start next e) :
      NewClause q start next e
  /-- A key and the query before grouping are what a closure of a group reads. -/
  | overGroup {start middle next : SourceId} {key inner : Expr}
      (hkey : NewClause q start middle key) (h : Compile.Built (some q) middle [2] next inner)
      (le : middle ≤ next) (mark : Nat) :
      NewClause q start next ((inner.inlined 2 key).run mark).1
  | overStream {start next : SourceId} {inner : Expr}
      (h : Compile.Built (some q) start [] next inner) (le : start ≤ next) :
      NewClause q start next inner.simplify
  | summarized {start next : SourceId} {arg : Expr} (h : NewClause q start next arg)
      (fn : AggregateFn) : NewClause q start next (.summarize fn (some arg) q)
  | counted {start : SourceId} : NewClause q start start (.summarize .count none q)
  | pair {start next : SourceId} {left right : Expr} (hl : NewClause q start next left)
      (hr : NewClause q start next right) : NewClause q start next (.pack [left, right])
  | item {start next : SourceId} {items : List Expr} {t : ValueType} {c : Expr}
      (h : NewClause q start next (.tuple items t)) (hc : c ∈ items) : NewClause q start next c
  | later {start next next' : SourceId} {e : Expr} (h : NewClause q start next e)
      (le : next ≤ next') : NewClause q start next' e

inductive OverAll (q : Query) : (start next : SourceId) → Expr → Prop where
  | closure {start next : SourceId} {inner : Expr}
      (h : Compile.Built (some q) start [] next inner) (le : start ≤ next) :
      OverAll q start next inner.simplify
  | summarized {start next : SourceId} {arg : Expr} (h : OverRow q start next arg)
      (fn : AggregateFn) : OverAll q start next (.summarize fn (some arg) q)
  | counted {start : SourceId} : OverAll q start start (.summarize .count none q)

theorem OverAll.newClause {start next : SourceId} (h : OverAll q start next e) :
    NewClause q start next e := by
  cases h with
  | closure built le => exact .overStream built le
  | summarized made fn => exact .summarized (.overRow made) fn
  | counted => exact .counted

theorem OverRow.le {start next : SourceId} (h : OverRow q start next e) : start ≤ next := by
  cases h with
  | mk _ le => exact le

theorem NewClause.le {start next : SourceId} (h : NewClause q start next e) : start ≤ next := by
  induction h with
  | overRow h => exact h.le
  | overStream _ le => exact le
  | overGroup _ _ le _ ih => exact Nat.le_trans ih le
  | summarized _ _ ih | item _ _ ih => exact ih
  | counted => exact Nat.le_refl _
  | pair _ _ ih _ => exact ih
  | later _ le ih => exact Nat.le_trans ih le

theorem overRow_overRow (h : (q.overRow env closure).run supply = .ok (e, supply')) :
    OverRow q supply.nextSource supply'.nextSource e := by
  obtain ⟨inner, mark, compiled, rfl, source⟩ := overRow_run_eq_ok h
  obtain ⟨built, le⟩ := Closure.built_compile (offers_elementChain closure q.rowType) compiled
  rw [source]
  exact .mk built le mark

theorem overGroup_run_eq_ok {key : Expr}
    (h : (q.overGroup env closure key).run supply = .ok (e, supply')) :
    ∃ (inner : Expr) (mark : Nat),
      Compile.Built (some q) supply.nextSource [2] supply'.nextSource inner ∧
        ((inner.inlined 2 key).run mark).1 = e ∧ supply.nextSource ≤ supply'.nextSource := by
  simp only [overGroup, bind_run_eq_ok, compileIn_run_eq_ok, inlineIn_run_eq_ok] at h
  obtain ⟨inner, between, ⟨compiled, rfl⟩, rfl, rfl⟩ := h
  have offers : (((Chain.empty.push (.ofClosure closure) none).push (.stream q)
      (some 0)).pushElement key.type (some 1)).Offers (some q) [2] (some 2) :=
    (offers_streamChain q closure [2]).push (.inr ⟨2, List.mem_cons_self, key.type, rfl⟩)
  obtain ⟨built, le⟩ := Closure.built_compile offers compiled
  exact ⟨inner, _, built, rfl, le⟩

theorem overAll_overStream (h : (q.overStream env closure).run supply = .ok (e, supply')) :
    OverAll q supply.nextSource supply'.nextSource e := by
  unfold overStream at h
  split at h
  · simp only [bind_run_eq_ok, compileIn_run_eq_ok, pure_run_eq_ok] at h
    obtain ⟨inner, between, ⟨compiled, rfl⟩, rfl, rfl⟩ := h
    obtain ⟨built, le⟩ := Closure.built_compile (offers_streamChain q closure []) compiled
    exact .closure built le
  · exact absurd h throw_run_ne_ok

end Closures

/-! ## Operations -/

section Operations

variable {q q' : Query} {env : Compile.Environment} {mark : Nat}

theorem extend_eq_ok {operation : Operation} {next : Nat} :
    q.extend env operation mark = .ok (q', next) ↔ ∃ source,
      (q.foldM env operation).run ⟨q.current.nextSource, mark⟩ = .ok (q', ⟨source, next⟩) := by
  rw [extend, Compile.map_eq_ok]
  constructor
  · intro ⟨⟨found, supply⟩, ran, same⟩
    obtain ⟨rfl, rfl⟩ := Prod.mk.inj same
    exact ⟨supply.nextSource, ran⟩
  · intro ⟨source, ran⟩
    exact ⟨_, ran, rfl⟩

theorem fold_eq_ok {operation : Operation} : q.fold env operation mark = .ok q' ↔ ∃ supply,
    (q.foldM env operation).run ⟨q.current.nextSource, mark⟩ = .ok (q', supply) := by
  rw [fold, Compile.map_eq_ok]
  constructor
  · intro ⟨⟨found, next⟩, extended, same⟩
    obtain ⟨source, ran⟩ := extend_eq_ok.mp extended
    exact ⟨⟨source, next⟩, same ▸ ran⟩
  · intro ⟨supply, ran⟩
    exact ⟨_, extend_eq_ok.mpr ⟨supply.nextSource, ran⟩, rfl⟩

/-- What one fold can do: clauses are added over the same sources, or a query is
joined. The new expressions are made in certain ways. -/
inductive Folded (made : Query → SourceId → SourceId → Expr → Prop) (q q' : Query) : Prop where
  | adds {new : List Expr} {next : SourceId} (h : Adds new next q q')
      (new : ∀ e ∈ new, made q q.current.nextSource next e) (le : q.current.nextSource ≤ next)
  | joins {other : Query} {t : ValueType} {next : SourceId}
      (new : OverRow q q.current.nextSource next (.subQuery other t))
      (h : q.joined other next = .ok q')

/-- What an operation on rows does when it goes through. -/
inductive RowFold (q : Query) (env : Compile.Environment) (mark : Nat) :
    Operation → Query → Prop where
  | filter {closure : Closure} {e : Expr} {supply : Compile.Supply} {q' : Query}
      (row : (q.overRow env closure).run ⟨q.current.nextSource, mark⟩ = .ok (e, supply))
      (derived : q.filtered e supply.nextSource = .ok q') : RowFold q env mark (.filter closure) q'
  | select {closure : Closure} {e : Expr} {supply : Compile.Supply} {q' : Query}
      (row : (q.overRow env closure).run ⟨q.current.nextSource, mark⟩ = .ok (e, supply))
      (derived : q.projected e supply.nextSource = .ok q') : RowFold q env mark (.select closure) q'
  | join {closure : Closure} {other : Query} {t : ValueType} {supply : Compile.Supply} {q' : Query}
      (row : (q.overRow env closure).run ⟨q.current.nextSource, mark⟩ =
        .ok (.subQuery other t, supply))
      (derived : q.joined other supply.nextSource = .ok q') : RowFold q env mark (.join closure) q'
  | sortedBy {closure : Closure} {direction : Direction} {e : Expr} {supply : Compile.Supply}
      {q' : Query}
      (row : (q.overRow env closure).run ⟨q.current.nextSource, mark⟩ = .ok (e, supply))
      (derived : q.sorted e direction supply.nextSource = .ok q') :
      RowFold q env mark (.sortedBy closure direction) q'
  | skip {count : UInt64} {q' : Query} (derived : q.skipped count = .ok q') :
      RowFold q env mark (.skip count) q'
  | limit {count : UInt64} {q' : Query} (derived : q.limited count = .ok q') :
      RowFold q env mark (.limit count) q'
  | distinct {q' : Query} (derived : q.distinctRows = .ok q') : RowFold q env mark .distinct q'

theorem rowFold_of_fold {operation : Operation} (rowwise : operation.isRowwise = true)
    (h : q.fold env operation mark = .ok q') : RowFold q env mark operation q' := by
  obtain ⟨supply, ran⟩ := fold_eq_ok.mp h
  cases operation with
  | filter closure =>
      simp only [foldM, bind_run_eq_ok, get_run_eq_ok, liftRefusal_run_eq_ok] at ran
      obtain ⟨e, between, row, _, _, ⟨rfl, rfl⟩, derived, rfl⟩ := ran
      exact .filter row derived
  | select closure =>
      simp only [foldM, bind_run_eq_ok, get_run_eq_ok, liftRefusal_run_eq_ok] at ran
      obtain ⟨e, between, row, _, _, ⟨rfl, rfl⟩, derived, rfl⟩ := ran
      exact .select row derived
  | join closure =>
      simp only [foldM, bind_run_eq_ok] at ran
      obtain ⟨e, between, row, ran⟩ := ran
      split at ran
      · simp only [bind_run_eq_ok, get_run_eq_ok, liftRefusal_run_eq_ok] at ran
        obtain ⟨_, _, ⟨rfl, rfl⟩, derived, rfl⟩ := ran
        exact .join row derived
      · exact absurd ran throw_run_ne_ok
  | sortedBy closure direction =>
      simp only [foldM, bind_run_eq_ok, get_run_eq_ok, liftRefusal_run_eq_ok] at ran
      obtain ⟨e, between, row, _, _, ⟨rfl, rfl⟩, derived, rfl⟩ := ran
      exact .sortedBy row derived
  | skip count =>
      simp only [foldM, liftRefusal_run_eq_ok] at ran
      exact .skip ran.1
  | limit count =>
      simp only [foldM, liftRefusal_run_eq_ok] at ran
      exact .limit ran.1
  | distinct =>
      simp only [foldM, liftRefusal_run_eq_ok] at ran
      exact .distinct ran.1
  | _ => cases rowwise

theorem RowFold.folded {operation : Operation} (h : RowFold q env mark operation q') :
    Folded OverRow q q' := by
  cases h with
  | filter row derived =>
      have made := overRow_overRow row
      exact .adds (adds_filtered derived) (by simpa using made) made.le
  | select row derived =>
      have made := overRow_overRow row
      exact .adds (adds_projected derived) (by simpa using made) made.le
  | join row derived => exact .joins (overRow_overRow row) derived
  | sortedBy row derived =>
      have made := overRow_overRow row
      exact .adds (adds_sorted derived) (by simpa using made) made.le
  | skip derived => exact .adds (adds_skipped derived) (by simp) (Nat.le_refl _)
  | limit derived => exact .adds (adds_limited derived) (by simp) (Nat.le_refl _)
  | distinct derived => exact .adds (adds_distinctRows derived) (by simp) (Nat.le_refl _)

theorem folded_of_rowwise {operation : Operation} (rowwise : operation.isRowwise = true)
    (h : q.fold env operation mark = .ok q') : Folded OverRow q q' :=
  (rowFold_of_fold rowwise h).folded

/-- What one fold does when it goes through, with the closures of each operation. -/
inductive FoldStep (q : Query) : Query → Prop where
  | filter {e : Expr} {next : SourceId} {q' : Query} (made : OverRow q q.current.nextSource next e)
      (derived : q.filtered e next = .ok q') : FoldStep q q'
  | select {e : Expr} {next : SourceId} {q' : Query} (made : OverRow q q.current.nextSource next e)
      (derived : q.projected e next = .ok q') : FoldStep q q'
  | join {other : Query} {t : ValueType} {next : SourceId} {q' : Query}
      (made : OverRow q q.current.nextSource next (.subQuery other t))
      (derived : q.joined other next = .ok q') : FoldStep q q'
  | group {key inner : Expr} {middle next : SourceId} {mark : Nat} {q' : Query}
      (made : OverRow q q.current.nextSource middle key)
      (built : Compile.Built (some q) middle [2] next inner) (le : middle ≤ next)
      (derived : q.grouped key ((inner.inlined 2 key).run mark).1 next = .ok q') : FoldStep q q'
  | aggregate {value : Expr} {next : SourceId} {q' : Query}
      (made : OverAll q q.current.nextSource next value)
      (derived : q.aggregated value next = .ok q') : FoldStep q q'
  | sortedBy {e : Expr} {direction : Direction} {next : SourceId} {q' : Query}
      (made : OverRow q q.current.nextSource next e)
      (derived : q.sorted e direction next = .ok q') : FoldStep q q'
  | skip {count : UInt64} {q' : Query} (derived : q.skipped count = .ok q') : FoldStep q q'
  | limit {count : UInt64} {q' : Query} (derived : q.limited count = .ok q') : FoldStep q q'
  | distinct {q' : Query} (derived : q.distinctRows = .ok q') : FoldStep q q'

theorem RowFold.foldStep {operation : Operation} (h : RowFold q env mark operation q') :
    FoldStep q q' := by
  cases h with
  | filter row derived => exact .filter (overRow_overRow row) derived
  | select row derived => exact .select (overRow_overRow row) derived
  | join row derived => exact .join (overRow_overRow row) derived
  | sortedBy row derived => exact .sortedBy (overRow_overRow row) derived
  | skip derived => exact .skip derived
  | limit derived => exact .limit derived
  | distinct derived => exact .distinct derived

def Ends (q q' : Query) : Prop := q.current.shape = .rows ∧ q'.current.shape ≠ .rows

theorem ends_grouped {key value : Expr} {next : SourceId}
    (h : q.grouped key value next = .ok q') : Ends q q' := by
  obtain ⟨rows, -, -, -, rfl⟩ := grouped_eq_ok.mp h
  exact ⟨rows, by simp [derive]⟩

theorem ends_aggregated {value : Expr} {next : SourceId}
    (h : q.aggregated value next = .ok q') : Ends q q' := by
  obtain ⟨rows, -, -, -, rfl⟩ := aggregated_eq_ok.mp h
  exact ⟨rows, by simp [derive]⟩

theorem foldStep_aggregatedBy {fn : AggregateFn} {closure : Closure}
    {supply supply' : Compile.Supply} (start : supply.nextSource = q.current.nextSource)
    (h : (q.aggregatedBy env fn closure).run supply = .ok (q', supply')) :
    FoldStep q q' ∧ Ends q q' := by
  simp only [aggregatedBy, bind_run_eq_ok] at h
  obtain ⟨arg, between, values, h⟩ := h
  have made := overRow_overRow values
  rw [start] at made
  split at h
  · exact absurd h throw_run_ne_ok
  · simp only [bind_run_eq_ok, get_run_eq_ok, liftRefusal_run_eq_ok] at h
    obtain ⟨_, _, ⟨rfl, rfl⟩, derived, rfl⟩ := h
    exact ⟨.aggregate (.summarized made fn) derived, ends_aggregated derived⟩

/-- The other operations end the stream of rows. -/
theorem foldStep_of_not_rowwise {operation : Operation} (other : operation.isRowwise = false)
    (h : q.fold env operation mark = .ok q') : FoldStep q q' ∧ Ends q q' := by
  obtain ⟨supply, ran⟩ := fold_eq_ok.mp h
  cases operation with
  | group keyOf valueOf =>
      simp only [foldM, bind_run_eq_ok, get_run_eq_ok, liftRefusal_run_eq_ok] at ran
      obtain ⟨key, first, overKey, value, second, overValue, _, _, ⟨rfl, rfl⟩, derived, rfl⟩ := ran
      obtain ⟨inner, mark, built, rfl, le⟩ := overGroup_run_eq_ok overValue
      exact ⟨.group (overRow_overRow overKey) built le derived, ends_grouped derived⟩
  | aggregate closure =>
      simp only [foldM, bind_run_eq_ok, get_run_eq_ok, liftRefusal_run_eq_ok] at ran
      obtain ⟨e, between, values, _, _, ⟨rfl, rfl⟩, derived, rfl⟩ := ran
      exact ⟨.aggregate (overAll_overStream values) derived, ends_aggregated derived⟩
  | count =>
      simp only [foldM, bind_run_eq_ok, get_run_eq_ok, liftRefusal_run_eq_ok] at ran
      obtain ⟨_, _, ⟨rfl, rfl⟩, derived, rfl⟩ := ran
      exact ⟨.aggregate .counted derived, ends_aggregated derived⟩
  | sum closure | min closure | max closure | avg closure => exact foldStep_aggregatedBy rfl ran
  | _ => cases other

theorem foldStep_of_fold {operation : Operation}
    (h : q.fold env operation mark = .ok q') : FoldStep q q' := by
  cases rowwise : operation.isRowwise with
  | true => exact (rowFold_of_fold rowwise h).foldStep
  | false => exact (foldStep_of_not_rowwise rowwise h).1

theorem FoldStep.folded (h : FoldStep q q') : Folded NewClause q q' := by
  cases h with
  | filter made derived =>
      exact .adds (adds_filtered derived) (by simpa using NewClause.overRow made) made.le
  | select made derived =>
      exact .adds (adds_projected derived) (by simpa using NewClause.overRow made) made.le
  | join made derived => exact .joins made derived
  | @group key inner middle next mark _ made built le derived =>
      have madeKey := NewClause.overRow made
      have madeValue := madeKey.overGroup built le mark
      have madeKey := madeKey.later le
      refine .adds (adds_grouped derived) (fun e he => ?_) madeKey.le
      rcases List.mem_cons.mp he with rfl | he
      · exact madeKey.pair madeValue
      · exact Expr.of_mem_columns (fun _ _ made c hc => made.item hc) madeKey he
  | aggregate made derived =>
      have made := made.newClause
      exact .adds (adds_aggregated derived) (by simpa using made) made.le
  | sortedBy made derived =>
      exact .adds (adds_sorted derived) (by simpa using NewClause.overRow made) made.le
  | skip derived => exact .adds (adds_skipped derived) (by simp) (Nat.le_refl _)
  | limit derived => exact .adds (adds_limited derived) (by simp) (Nat.le_refl _)
  | distinct derived => exact .adds (adds_distinctRows derived) (by simp) (Nat.le_refl _)

end Operations

end Query

/-! ## Queries that are reached -/

/-- Queries reached from all rows of an entity by folding operations, of which only
some may be allowed. -/
inductive Reached (allowed : Compiler → Query → Operation → Query → Prop) : Query → Prop where
  | opened {compiler : Compiler} {entity : String} {q : Query}
      (h : compiler.streamAll entity = .ok q) : Reached allowed q
  | folded {compiler : Compiler} {q q' : Query} {operation : Operation} (h : Reached allowed q)
      (folds : compiler.fold q operation = .ok q') (may : allowed compiler q operation q') :
      Reached allowed q'

theorem Compiler.streamAll_eq_ok {compiler : Compiler} {entity : String} {q : Query}
    (h : compiler.streamAll entity = .ok q) : q = .ofEntity entity := by
  unfold streamAll at h
  split at h <;> cases h
  rfl

theorem Compiler.fold_eq_ok {compiler : Compiler} {q q' : Query} {operation : Operation} :
    compiler.fold q operation = .ok q' ↔
      q.fold compiler.environment operation compiler.nextMark = .ok q' :=
  Compile.mapError_eq_ok

theorem Compiler.extend_eq_ok {compiler compiler' : Compiler} {q q' : Query}
    {operation : Operation} :
    compiler.extend q operation = .ok (q', compiler') ↔ ∃ nextMark,
      q.extend compiler.environment operation compiler.nextMark = .ok (q', nextMark) ∧
        { compiler with nextMark } = compiler' := by
  simp [extend, Prod.exists]

theorem Compiler.fold_of_extend {compiler compiler' : Compiler} {q q' : Query}
    {operation : Operation} (h : compiler.extend q operation = .ok (q', compiler')) :
    compiler.fold q operation = .ok q' := by
  obtain ⟨nextMark, extended, -⟩ := extend_eq_ok.mp h
  exact fold_eq_ok.mpr (by rw [Query.fold, extended]; rfl)

theorem Compiler.foldStep {compiler : Compiler} {q q' : Query} {operation : Operation}
    (h : compiler.fold q operation = .ok q') : Query.FoldStep q q' :=
  Query.foldStep_of_fold (Compiler.fold_eq_ok.mp h)

/-- What all rows of an entity have and every fold keeps, every reached query has. -/
theorem Reached.stepwise {allowed : Compiler → Query → Operation → Query → Prop}
    {P : Query → Prop} {q : Query} (h : Reached allowed q) (start : ∀ entity, P (.ofEntity entity))
    (step : ∀ q q', P q → Query.FoldStep q q' → P q') : P q := by
  induction h with
  | opened h => exact Compiler.streamAll_eq_ok h ▸ start _
  | folded _ folds _ ih => exact step _ _ ih (Compiler.foldStep folds)

/-- The same for what is kept whenever clauses are added or a query is joined. -/
theorem Reached.invariant {allowed : Compiler → Query → Operation → Query → Prop}
    {P : Query → Prop} {q : Query} (h : Reached allowed q) (start : ∀ entity, P (.ofEntity entity))
    (step : ∀ q q', P q → Query.Folded Query.NewClause q q' → P q') : P q :=
  h.stepwise start fun q q' hq folds => step q q' hq folds.folded

/-- A run of folds from all rows of an entity, of which the first list holds the queries
before the last one, the latest first. -/
inductive Trail (entity : String) : List Query → Query → Prop where
  | opened {compiler : Compiler} {q : Query} (h : compiler.streamAll entity = .ok q) :
      Trail entity [] q
  | folded {compiler : Compiler} {earlier : List Query} {q q' : Query} {operation : Operation}
      (h : Trail entity earlier q) (folds : compiler.fold q operation = .ok q') :
      Trail entity (q :: earlier) q'

namespace Trail

variable {entity : String} {earlier : List Query} {q : Query}

theorem reached (h : Trail entity earlier q) : Reached (fun _ _ _ _ => True) q := by
  induction h with
  | opened h => exact .opened h
  | folded _ folds ih => exact .folded ih folds trivial

end Trail

/-! ## Streams -/

theorem Stream.apply_eq_ok {stream stream' : Stream} {operation : Operation} :
    stream.apply operation = .ok stream' ↔
      stream.compiler.extend stream.query operation = .ok (stream'.query, stream'.compiler) := by
  unfold apply
  cases stream.compiler.extend stream.query operation with
  | error error => simp
  | ok made =>
      cases stream'
      simp [Prod.ext_iff, and_comm]

theorem Stream.foldlM_apply_cons_eq_ok {stream last : Stream} {operation : Operation}
    {operations : List Operation} :
    (operation :: operations).foldlM apply stream = .ok last ↔ ∃ between,
      stream.apply operation = .ok between ∧ operations.foldlM apply between = .ok last := by
  rw [List.foldlM_cons]
  cases stream.apply operation <;> simp [bind, Except.bind]

theorem Provider.streamAll_eq_ok {provider : Provider} {entity : String} {stream : Stream} :
    provider.streamAll entity = .ok stream ↔
      provider.compiler.streamAll entity = .ok stream.query ∧
        provider.compiler = stream.compiler := by
  unfold streamAll
  cases provider.compiler.streamAll entity with
  | error error => simp
  | ok q =>
      cases stream
      simp [and_comm]

def Compiler.chain (compiler : Compiler) (entity : String) (operations : List Operation) :
    Except StreamError Query := do
  let all ← Provider.streamAll ⟨compiler⟩ entity
  let last ← operations.foldlM Stream.apply all
  pure last.query

theorem Compiler.chain_eq_ok {compiler : Compiler} {entity : String} {operations : List Operation}
    {q : Query} : compiler.chain entity operations = .ok q ↔ ∃ all last,
      Provider.streamAll ⟨compiler⟩ entity = .ok all ∧
        operations.foldlM Stream.apply all = .ok last ∧ last.query = q := by
  unfold chain
  cases Provider.streamAll ⟨compiler⟩ entity with
  | error error => simp [bind, Except.bind]
  | ok all =>
      cases ran : operations.foldlM Stream.apply all <;>
        simp [ran, bind, Except.bind, pure, Except.pure]

theorem Trail.foldlM {entity : String} {earlier : List Query} {stream last : Stream}
    {operations : List Operation} (h : Trail entity earlier stream.query)
    (ran : operations.foldlM Stream.apply stream = .ok last) :
    ∃ earlier', Trail entity earlier' last.query ∧
      earlier'.length = earlier.length + operations.length := by
  induction operations generalizing earlier stream with
  | nil =>
      cases ran
      exact ⟨earlier, h, rfl⟩
  | cons operation operations ih =>
      obtain ⟨between, first, rest⟩ := Stream.foldlM_apply_cons_eq_ok.mp ran
      have folds := Compiler.fold_of_extend (Stream.apply_eq_ok.mp first)
      obtain ⟨earlier', trail, length⟩ := ih (.folded h folds) rest
      exact ⟨earlier', trail, by simp [length]; omega⟩

theorem Trail.chain {compiler : Compiler} {entity : String} {operations : List Operation}
    {q : Query} (h : compiler.chain entity operations = .ok q) :
    ∃ earlier, Trail entity earlier q ∧ earlier.length = operations.length := by
  obtain ⟨all, last, opens, ran, rfl⟩ := Compiler.chain_eq_ok.mp h
  simpa using foldlM (.opened (Provider.streamAll_eq_ok.mp opens).1) ran

theorem Reached.chain {compiler : Compiler} {entity : String} {operations : List Operation}
    {q : Query} (h : compiler.chain entity operations = .ok q) :
    Reached (fun _ _ _ _ => True) q := by
  obtain ⟨_, trail, -⟩ := Trail.chain h
  exact trail.reached

end StreamQuery
