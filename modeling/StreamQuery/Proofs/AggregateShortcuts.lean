import StreamQuery.Proofs.Explain
import StreamQuery.Proofs.Freshness
import StreamQuery.Proofs.Supply

/-! # Aggregates as operations of their own

Sums, extremes and averages are operations of their own, and so is the number of rows.
Each stands for an aggregate of the whole stream, whose closure calls it. The two ways
compile the closure over rows differently: on its own, or nested in that of the stream
and so under two binders more.

Elements are numbered by their binders, so they have other numbers on the second way. Rows
take the place of all of them but those in what new queries were derived from. There the
two results differ, and nowhere else.
-/

namespace StreamQuery

/-! ## Renaming what was opened -/

/-- Elements move up by `k`, in what queries over sources from `start` on were derived
from. -/
def Relabel.lifting (k : Nat) (start : SourceId) : Relabel :=
  ⟨(· + k), id, fun ids => ids.all fun id => decide (start ≤ id)⟩

theorem Relabel.renames_lifting {k : Nat} {start : SourceId} : (lifting k start).Renames :=
  ⟨add_left_injective k, Function.injective_id⟩

theorem Relabel.keeps_lifting {k n : Nat} {start : SourceId} : (lifting k start).Keeps n :=
  fun _ _ => rfl

/-- What is compiled over elements alone holds only queries that it opened. -/
theorem Compile.Built.relabel_lifting {start next : SourceId} {scopes : List ElementScope}
    {e : Expr} (h : Built none start scopes next e) (k : Nat) :
    e.relabel (.lifting k start) = e.relabel (.shift k) := by
  have opened : e.Within (Referent.Opened [] 0 start next) [] := h.opened (by simp) (Nat.zero_le _)
  refine Expr.relabel_congr rfl (opened.mono fun ids referent holds => ?_)
  cases referent with
  | query own =>
      refine ⟨?_, fun _ => rfl⟩
      have new : ∀ id ∈ own, start ≤ id := by
        intro id hid
        obtain ⟨-, range⟩ := (holds id hid).resolve_left (by simp)
        exact range.elim And.left fun old => absurd old.1 (Nat.not_lt_zero _)
      simpa [Relabel.lifting, Relabel.shift] using new
  | element scope => rfl
  | nothing | row => trivial

theorem Relabel.enters_lifting {k : Nat} {start id : SourceId} {ids : List SourceId}
    (hid : id ∈ ids) (old : id < start) : (lifting k start).enters ids = false := by
  simp only [lifting, List.all_eq_false]
  exact ⟨id, hid, by simpa using old⟩

namespace Query

variable {q : Query}

theorem Closed.enters_lifting (closed : q.Closed) (numbered : q.Numbered q.current.ids) (k : Nat) :
    (Relabel.lifting k q.current.nextSource).enters q.current.ids = false := by
  obtain ⟨id, hid⟩ := List.exists_mem_of_ne_nil _ closed.sources
  exact Relabel.enters_lifting hid (numbered.below id hid)

/-- A closed query has no elements, and holds no queries over sources that were not opened
yet. -/
theorem Closed.relabel_lifting (closed : q.Closed) (numbered : q.Numbered q.current.ids)
    (k : Nat) : q.relabel (.lifting k q.current.nextSource) = q := by
  obtain ⟨-, bound⟩ := closed_iff.mp closed
  conv_rhs => rw [← relabel_none q]
  refine relabel_congr rfl (Relabel.agreesAt_none (closed.enters_lifting numbered k)) ?_
  intro c hc
  refine Expr.relabel_congr rfl (((bound c hc).and (numbered.apart c hc)).mono ?_)
  rintro ids referent ⟨bound, apart⟩
  cases referent with
  | query own =>
      obtain ⟨id, hid⟩ := List.exists_mem_of_ne_nil own bound
      have old : id < q.current.nextSource :=
        (apart id hid).elim (numbered.below id) fun nested => nested.2
      exact Relabel.agreesAt_none (Relabel.enters_lifting hid old)
  | element scope => cases bound
  | nothing | row => trivial

/-- Of a query that aggregates a closed one, only the aggregate is renamed. -/
theorem Closed.relabel_aggregated (closed : q.Closed) (numbered : q.Numbered q.current.ids)
    (k : Nat) (next : SourceId) (value : Expr) :
    (q.derive next fun s =>
        { s with projection := some value, shape := .aggregated, orderBy := [] }).relabel
          (.lifting k q.current.nextSource) =
      q.derive next fun s =>
        { s with
          projection := some (value.relabel (.lifting k q.current.nextSource))
          shape := .aggregated
          orderBy := [] } := by
  have same := congrArg Query.current (closed.relabel_lifting numbered k)
  have leaves := closed.enters_lifting numbered k
  rw [current_relabel] at same
  obtain ⟨⟨⟩, past⟩ := q
  simp only [Select.relabel, Select.mk.injEq] at same
  simp only [derive, Query.relabel, Select.relabel]
  simp_all [Select.ids, SortKey.relabelAll]

/-- The row of a query has no marks but those in its clauses. -/
theorem nextMark_currentRow_le (q : Query) : q.currentRow.nextMark ≤ q.nextMark := by
  unfold currentRow Select.currentRow
  split
  · next projection known =>
      exact nextMark_clause_le (by simp [Select.clauses, known])
  · exact Nat.zero_le _
  · exact Nat.zero_le _

end Query

/-! ## Code of the aggregates -/

namespace Compile

def aggregating (call : String) (body : Body) : List Instruction :=
  [.loadParam 0, .makeClosure body [], .invoke ⟨"JinqStream", call, 1, false⟩, .ret]

def counting : List Instruction := [.loadParam 0, .invoke ⟨"JinqStream", "count", 0, false⟩, .ret]

def streamChain (closure : Closure) (q : Query) : Chain :=
  (Chain.empty.push (.ofClosure closure) none).push (.stream q) (some 0)

theorem shiftsTo_elementChain {f w : Closure} (captureFree : f.body.captures = []) (q : Query)
    (t : ValueType) : (elementChain f t).ShiftsTo (.shift 2) 2
      (((streamChain w q).push (.outer []) (some 1)).pushElement t (some 2)) where
  size := rfl
  forwardCount_le := Nat.le_refl 0
  link id link found := by
    rcases id with _ | _ | id
    · obtain rfl : (⟨.ofClosure f, none⟩ : Link) = link := by
        simpa [links_elementChain] using found
      exact .inl ⟨f.body.id, by simp [Binder.ofClosure, captureFree]⟩
    · obtain rfl : (⟨.element (.element 1 t), some 0⟩ : Link) = link := by
        simpa [links_elementChain] using found
      exact .inr rfl
    · simp [links_elementChain] at found

section Run

variable {env : Environment} {body : Body} {head : BinderId} {nested : Nested body} {pc : Nat}
  {work between after : Work} {e : Expr}

theorem resolveStream_streamChain (closure : Closure) (q : Query) (index : Nat) :
    (streamChain closure q).resolveStream 1 index = .ok q := rfl

theorem loadParam_streamChain {w : Closure} {rows : ValueType} {q : Query}
    (params : w.body.params = [.stream rows]) (chain : work.chain = streamChain w q) :
    loadParam (.alongChain 1) w.body 0 work = .ok (.embed q) work := by
  have known : work.chain.resolveStream 1 0 = .ok q := by rw [chain, resolveStream_streamChain]
  unfold loadParam
  simp only [params, List.getElem?_cons_zero, bind_eq_ok, stream_alongChain, found_eq_ok,
    pure_eq_ok]
  exact ⟨_, _, ⟨rfl, rfl⟩, q, _, ⟨known, rfl⟩, rfl, rfl⟩

/-- A closure of the whole stream begins with its parameter. -/
theorem run_loadParam {w : Closure} {nested : Nested w.body} {rows : ValueType} {q : Query}
    (params : w.body.params = [.stream rows]) (fetched : w.body.code[0]? = some (.loadParam 0))
    (few : work.steps < env.settings.maxSteps) (chain : work.chain = streamChain w q)
    (rest : run env (nested.handles 1) 1 ⟨[.value (.embed q)], []⟩
      { work with steps := work.steps + 1 } = .ok e after) :
    run env (nested.handles 1) 0 .empty work = .ok e after := by
  have stepped : step env (nested.handles 1) 0 (.loadParam 0) (List.mem_of_getElem? fetched) .empty
      { work with steps := work.steps + 1 } =
        .ok (.next ⟨[.value (.embed q)], []⟩) { work with steps := work.steps + 1 } := by
    apply StepsTo.step_eq
    exact .loadParam (loadParam_streamChain params chain)
  exact run_of_step fetched few stepped rest

theorem run_ret {rest : List (Operand body.Makes)} (returns : body.returns = .any)
    (fetched : body.code[pc]? = some .ret) (few : work.steps < env.settings.maxSteps) :
    run env (nested.handles head) pc ⟨.value e :: rest, []⟩ work =
      .ok e { work with steps := work.steps + 1 } := by
  have coerced : coerceReturn body.returns e = .ok e := by simp [coerceReturn, returns]
  let below : Frame body.Makes := ⟨rest, []⟩
  have onTop : (⟨.value e :: rest, []⟩ : Frame body.Makes).stack = .value e :: below.stack := rfl
  have stepped : step env (nested.handles head) pc .ret (List.mem_of_getElem? fetched)
      ⟨.value e :: rest, []⟩ { work with steps := work.steps + 1 } =
        .ok (.done e) { work with steps := work.steps + 1 } := by
    apply StepsTo.step_eq
    exact .ret onTop rfl coerced
  exact run_of_step fetched few stepped rfl

theorem invoke_of_overRows {fn : AggregateFn} {call : String} {pending : Pending body.Makes}
    {q : Query} {arg : Expr} (named : aggregateNamed? call = some fn)
    (number : (fn.needsNumber && !arg.type.isNumeric) = false)
    (values : overRows body.id pc nested pending q work = .ok arg after) :
    invoke body.id pc env.schema nested ⟨"JinqStream", call, 1, false⟩
        [.value (.embed q), .closure pending] work =
      .ok (.summarize fn (some arg) q) after := by
  have called : streamCall body.id pc nested ⟨"JinqStream", call, 1, false⟩
      [.value (.embed q), .closure pending] =
        overStream body.id pc nested (.embed q) pending (aggregated body.id pc fn) := by
    have notWhere : call = "where" → False := by
      rintro rfl
      cases named
    have notSelect : call = "select" → False := by
      rintro rfl
      cases named
    simp only [streamCall, named]
  rw [invoke, if_pos rfl, called]
  simp only [overStream, bind_eq_ok, liftObstacle_eq_ok]
  refine ⟨q, work, ⟨rfl, rfl⟩, arg, after, values, ?_⟩
  rw [aggregated, number]
  rfl

variable {f w : Closure} {rows : ValueType} {q : Query} {supply : Supply}

/-- A closure over the rows of the given stream is compiled under two binders more than one
over the rows of the query. -/
theorem overRows_streamChain {inner : Expr} (captureFree : f.body.captures = [])
    (one : f.body.params.length = 1) (written : .makeClosure f.body [] ∈ w.body.code)
    (chain : work.chain = streamChain w q) (given : work.toSupply = supply)
    (compiled : compileBody env f.body 1
      { toSupply := supply, chain := elementChain f q.rowType } = .ok inner after) :
    ∃ between, overRows w.body.id pc (fun pending inner => compileBody env pending.body inner)
        (⟨⟨f.body, [], 1⟩, written⟩ : Pending w.body.Makes) q work =
          .ok (((inner.relabel (.shift 2)).inlined 3 q.currentRow).run after.nextMark).1 between ∧
      between.nextSource = after.nextSource ∧ between.steps = work.steps := by
  let outside : Work := { toSupply := supply, chain := elementChain f q.rowType }
  let inside : Work :=
    { work with chain := (work.chain.push (.outer []) (some 1)).pushElement q.rowType (some 2) }
  have shifts : outside.chain.ShiftsTo (.shift 2) 2 inside.chain := by
    simp only [outside, inside, chain]
    exact shiftsTo_elementChain captureFree q q.rowType
  have supplied : inside.toSupply = outside.toSupply := given
  obtain ⟨between, compiled', -, sameSupply, steps, -⟩ :=
    (compileBody_relabel Relabel.moves_shift shifts supplied compiled).2 Relabel.keeps_shift
  let pending : Pending w.body.Makes := ⟨⟨f.body, [], 1⟩, written⟩
  let nested : Nested w.body := fun pending inner => compileBody env pending.body inner
  have size : work.chain.size = 2 := by rw [chain]; rfl
  have values : nested pending (work.chain.size + 1)
      { work with
        chain := (work.chain.push (.outer pending.forwards)
          (some pending.creator)).pushElement q.rowType (some work.chain.size) } =
      .ok (inner.relabel (.shift 2)) between := by
    rw [size]
    exact compiled'
  have ran : overRows w.body.id pc nested pending q work = _ := overRows_of_nested one values
  rw [size, sameSupply] at ran
  exact ⟨_, ran, rfl, steps⟩

/-- A closure that aggregates the values of another over the whole stream compiles that
one under two binders more. -/
theorem compileBody_aggregating {fn : AggregateFn} {call : String} {inner arg : Expr}
    (captureFree : f.body.captures = []) (one : f.body.params.length = 1)
    (params : w.body.params = [.stream rows]) (returns : w.body.returns = .any)
    (code : w.body.code = aggregating call f.body) (named : aggregateNamed? call = some fn)
    (few : 4 ≤ env.settings.maxSteps)
    (compiled : compileBody env f.body 1
      { toSupply := supply, chain := elementChain f q.rowType } = .ok inner after)
    (inlined : (((inner.relabel (.shift 2)).inlined 3 q.currentRow).run after.nextMark).1 = arg)
    (number : (fn.needsNumber && !arg.type.isNumeric) = false) :
    ∃ after', compileBody env w.body 1 { toSupply := supply, chain := streamChain w q } =
        .ok (Expr.summarize fn (some arg) q).simplify after' ∧
      after'.nextSource = after.nextSource := by
  have written : .makeClosure f.body [] ∈ w.body.code := by simp [code, aggregating]
  let pending : Pending w.body.Makes := ⟨⟨f.body, [], 1⟩, written⟩
  let nested : Nested w.body := fun pending inner => compileBody env pending.body inner
  let reached (steps : Nat) : Work := { toSupply := supply, chain := streamChain w q, steps }
  have streamed : (reached 3).chain = streamChain w q := rfl
  have given : (reached 3).toSupply = supply := rfl
  obtain ⟨between, values, source, steps⟩ :=
    overRows_streamChain captureFree one written streamed given compiled
  rw [inlined] at values
  have calls : w.body.code[2]? = some (.invoke ⟨"JinqStream", call, 1, false⟩) := by rw [code]; rfl
  have called : step env (nested.handles 1) 2 (.invoke ⟨"JinqStream", call, 1, false⟩)
      (List.mem_of_getElem? calls) ⟨[.closure pending, .value (.embed q)], []⟩ (reached 3) =
        .ok (.next ⟨[.value (.summarize fn (some arg) q)], []⟩) between := by
    apply StepsTo.step_eq
    exact .invoke (Nat.le_refl 2) (invoke_of_overRows named number values)
  have makes : w.body.code[1]? = some (.makeClosure f.body []) := by rw [code]; rfl
  have made : step env (nested.handles 1) 1 (.makeClosure f.body []) (List.mem_of_getElem? makes)
      ⟨[.value (.embed q)], []⟩ (reached 2) =
        .ok (.next ⟨[.closure pending, .value (.embed q)], []⟩) (reached 2) := rfl
  have returned := @run_ret env w.body 1 nested 3 between (.summarize fn (some arg) q) []
    returns (by rw [code]; rfl) (by rw [steps]; exact few)
  have ran : run env (nested.handles 1) 0 .empty (reached 0) = .ok (.summarize fn (some arg) q) _ :=
    run_loadParam params (by rw [code]; rfl) (by simp [reached]; omega) rfl <|
      run_of_step makes (by simp [reached]; omega) made <|
        run_of_step calls (by simp [reached]; omega) called returned
  exact ⟨_, compileBody_of_run ran, source⟩

theorem compileBody_counting (params : w.body.params = [.stream rows])
    (returns : w.body.returns = .any) (code : w.body.code = counting)
    (few : 4 ≤ env.settings.maxSteps) :
    ∃ after', compileBody env w.body 1 { toSupply := supply, chain := streamChain w q } =
        .ok (Expr.summarize .count none q).simplify after' ∧
      after'.nextSource = supply.nextSource := by
  let nested : Nested w.body := fun pending inner => compileBody env pending.body inner
  let reached (steps : Nat) : Work := { toSupply := supply, chain := streamChain w q, steps }
  have calls : w.body.code[1]? = some (.invoke ⟨"JinqStream", "count", 0, false⟩) := by
    rw [code]; rfl
  have called : step env (nested.handles 1) 1 (.invoke ⟨"JinqStream", "count", 0, false⟩)
      (List.mem_of_getElem? calls) ⟨[.value (.embed q)], []⟩ (reached 2) =
        .ok (.next ⟨[.value (.summarize .count none q)], []⟩) (reached 2) := rfl
  have returned := @run_ret env w.body 1 nested 2 (reached 2) (.summarize .count none q) []
    returns (by rw [code]; rfl) (by simp [reached]; omega)
  have ran : run env (nested.handles 1) 0 .empty (reached 0) = .ok (.summarize .count none q) _ :=
    run_loadParam params (by rw [code]; rfl) (by simp [reached]; omega) rfl <|
      run_of_step calls (by simp [reached]; omega) called returned
  exact ⟨_, compileBody_of_run ran, rfl⟩

end Run

end Compile

/-! ## Folding -/

namespace Query

variable {q a : Query} {env : Compile.Environment} {f w : Closure} {fn : AggregateFn}
  {supply supply' : Compile.Supply}

theorem aggregatedBy_run_eq_ok (h : (q.aggregatedBy env fn f).run supply = .ok (a, supply')) :
    ∃ (inner : Expr) (after : Compile.Work),
      Compile.compileBody env f.body 1
        { toSupply := supply, chain := Compile.elementChain f q.rowType } = .ok inner after ∧
      let arg := ((inner.inlined 1 q.currentRow).run after.nextMark).1
      (fn.needsNumber && !arg.type.isNumeric) = false ∧
        q.aggregated (.summarize fn (some arg) q) after.nextSource = .ok a := by
  simp only [aggregatedBy, overRow, bind_run_eq_ok, compileIn_run_eq_ok, inlineIn_run_eq_ok] at h
  obtain ⟨_, _, ⟨inner, between, compiled, rfl, rfl⟩, h⟩ := h
  obtain ⟨after, ran, rfl⟩ := Closure.compile_eq_ok.mp compiled
  refine ⟨inner, after, ran, ?_⟩
  split at h
  · exact absurd h throw_run_ne_ok
  · next number =>
      simp only [bind_run_eq_ok, get_run_eq_ok, liftRefusal_run_eq_ok] at h
      obtain ⟨_, _, ⟨rfl, rfl⟩, derived, -⟩ := h
      exact ⟨Bool.eq_false_iff.mpr number, derived⟩

theorem overStream_of_compileBody {rows : ValueType} {e : Expr} {after : Compile.Work}
    (params : w.body.params = [.stream rows])
    (compiled : Compile.compileBody env w.body 1
      { toSupply := supply, chain := Compile.streamChain w q } = .ok e after) :
    (q.overStream env w).run supply = .ok (e.simplify, after.toSupply) := by
  have head : w.body.params.head? = some (.stream rows) := by rw [params]; rfl
  simp only [overStream, head, bind_run_eq_ok, compileIn_run_eq_ok, pure_run_eq_ok]
  exact ⟨e, _, Closure.compile_eq_ok.mpr ⟨after, compiled, rfl⟩, rfl, rfl⟩

/-- An aggregate of the whole stream from what its closure compiles to. -/
theorem fold_aggregate_of_compileBody {rows : ValueType} {e : Expr} {after : Compile.Work}
    {mark : Nat} (params : w.body.params = [.stream rows])
    (compiled : Compile.compileBody env w.body 1
      { toSupply := ⟨q.current.nextSource, mark⟩, chain := Compile.streamChain w q } = .ok e after)
    (derived : q.aggregated e.simplify after.nextSource = .ok a) :
    q.fold env (.aggregate w) mark = .ok a := by
  refine fold_eq_ok.mpr ⟨after.toSupply, ?_⟩
  simp only [foldM, bind_run_eq_ok, get_run_eq_ok, liftRefusal_run_eq_ok]
  exact ⟨_, _, overStream_of_compileBody params compiled, _, _, ⟨rfl, rfl⟩, derived, rfl⟩

end Query

/-! ## Normal forms -/

namespace Expr

theorem simplify_summarize {fn : AggregateFn} {arg : Option Expr} {q : Query}
    (h : ∀ e ∈ arg, Normal .usual false e) :
    (summarize fn arg q).simplify = summarize fn arg q := by
  have normal : Normal .usual false (summarize fn arg q) := by
    refine ⟨fun c hc => h c ?_, .inl rfl, fun _ => rfl⟩
    simpa [parts, summarize, children] using hc
  exact normal.result_eq.1

/-- An aggregate stays one, and reads rows only in its argument. -/
theorem readsRows_simplify_aggregate (fn : AggregateFn) (arg : Option Expr) (q : Query)
    (t : ValueType) (sources : List Source) :
    (aggregate fn arg q t).simplify.readsRows sources [] = false := by
  have result : (aggregate fn arg q t).simplify = shallow.result (aggregate fn arg q t) := rfl
  rw [result, Pass.result_eq_finished rfl, Pass.rebuild_aggregate]
  simp [Pass.finished, shallow, reduce?, readsRows]

end Expr

/-! ## Shortcuts -/

/-- An aggregate that is an operation of its own, and the call that it stands for. -/
structure Shortcut where
  operation : Closure → Operation
  call : String

def Shortcut.all : List Shortcut :=
  [⟨.sum, "sumInteger"⟩, ⟨.min, "min"⟩, ⟨.max, "max"⟩, ⟨.avg, "avg"⟩]

theorem Shortcut.named {shortcut : Shortcut} (h : shortcut ∈ all) :
    ∃ fn, Compile.aggregateNamed? shortcut.call = some fn ∧
      ∀ (q : Query) (env : Compile.Environment) (f : Closure),
        q.foldM env (shortcut.operation f) = q.aggregatedBy env fn f := by
  simp only [all, List.mem_cons, List.not_mem_nil, or_false] at h
  rcases h with rfl | rfl | rfl | rfl
  · exact ⟨.sum, rfl, fun _ _ _ => rfl⟩
  · exact ⟨.min, rfl, fun _ _ _ => rfl⟩
  · exact ⟨.max, rfl, fun _ _ _ => rfl⟩
  · exact ⟨.avg, rfl, fun _ _ _ => rfl⟩

namespace Query

variable {q a : Query} {env : Compile.Environment} {f w : Closure} {rows : ValueType} {mark : Nat}

/-- An aggregate that is an operation of its own is that of a closure of the whole stream,
but for the numbers of elements. -/
theorem fold_aggregating {fn : AggregateFn} {call : String} (closed : q.Closed)
    (numbered : q.Numbered q.current.ids) (captureFree : f.body.captures = [])
    (one : f.body.params.length = 1) (params : w.body.params = [.stream rows])
    (returns : w.body.returns = .any) (code : w.body.code = Compile.aggregating call f.body)
    (named : Compile.aggregateNamed? call = some fn) (few : 4 ≤ env.settings.maxSteps)
    (fresh : q.nextMark ≤ mark) (positive : 0 < mark) {supply' : Compile.Supply}
    (h : (q.aggregatedBy env fn f).run ⟨q.current.nextSource, mark⟩ = .ok (a, supply')) :
    q.fold env (.aggregate w) mark = .ok (a.relabel (.lifting 2 q.current.nextSource)) := by
  obtain ⟨inner, after, compiled, number, derived⟩ := aggregatedBy_run_eq_ok h
  obtain ⟨shape, unbounded, distinct, -, rfl⟩ := aggregated_eq_ok.mp derived
  generalize inlined : ((inner.inlined 1 q.currentRow).run after.nextMark).1 = arg at *
  have unchanged := closed.relabel_lifting numbered 2
  -- The closure is compiled with all elements renamed, of which only those in what new
  -- queries were derived from are left in the end.
  have renamed : (((inner.relabel (.shift 2)).inlined 3 q.currentRow).run after.nextMark).1 =
      arg.relabel (.lifting 2 q.current.nextSource) := by
    have built : Compile.Built none q.current.nextSource [1] after.nextSource inner :=
      (Compile.built_compileBody (offers_elementChain f q.rowType) (Nat.le_refl _) compiled).1
    have row : q.currentRow.relabel (.lifting 2 q.current.nextSource) = q.currentRow := by
      rw [← currentRow_relabel, unchanged]
    rw [← inlined, ← built.relabel_lifting 2]
    nth_rewrite 1 [← row]
    exact congrArg Prod.fst
      (inner.inlined_relabel Relabel.renames_lifting q.currentRow 1 Relabel.keeps_lifting)
  -- The closure of the stream is simplified once more, which changes nothing.
  have settled : (Expr.summarize fn (some arg) q).simplify = .summarize fn (some arg) q := by
    obtain ⟨le, below⟩ := Compile.nextMark_compileBody positive compiled
    have row : q.currentRow.nextMark ≤ after.nextMark :=
      Nat.le_trans q.nextMark_currentRow_le (Nat.le_trans fresh le)
    have normal := (Expr.normal_inlined below row 1).shallow
    rw [inlined] at normal
    exact Expr.simplify_summarize (by simpa using normal)
  obtain ⟨after', ran, source⟩ := Compile.compileBody_aggregating captureFree one params returns
    code named few compiled renamed (by rwa [Expr.type_relabel])
  refine fold_aggregate_of_compileBody params ran ?_
  rw [source, Expr.simplify_simplify, closed.relabel_aggregated numbered 2, ← settled]
  refine aggregated_eq_ok.mpr ⟨shape, unbounded, distinct,
    Expr.readsRows_simplify_aggregate .., ?_⟩
  rw [Expr.relabel_simplify Relabel.renames_lifting, Expr.relabel_summarize, unchanged]
  rfl

theorem fold_counting (params : w.body.params = [.stream rows]) (returns : w.body.returns = .any)
    (code : w.body.code = Compile.counting) (few : 4 ≤ env.settings.maxSteps)
    (h : q.fold env .count mark = .ok a) : q.fold env (.aggregate w) mark = .ok a := by
  obtain ⟨_, ran⟩ := fold_eq_ok.mp h
  simp only [foldM, bind_run_eq_ok, get_run_eq_ok, liftRefusal_run_eq_ok] at ran
  obtain ⟨_, _, ⟨rfl, rfl⟩, derived, -⟩ := ran
  obtain ⟨after', compiled, source⟩ := Compile.compileBody_counting params returns code few
  refine fold_aggregate_of_compileBody params compiled ?_
  rwa [source, Expr.simplify_simplify, Expr.simplify_summarize (by simp)]

end Query

namespace Reached

variable {allowed : Compiler → Query → Operation → Query → Prop} {q : Query}

/-- The aggregates that are operations of their own agree with that of a closure of the
whole stream. Elements are numbered two higher there: they are left in what the new queries
inside the aggregate were derived from, so a closure that opens none gives the same. The
number of rows has none. -/
theorem aggregate_shortcuts (h : Reached allowed q) {compiler : Compiler}
    (few : 4 ≤ compiler.settings.maxSteps) (fresh : q.nextMark ≤ compiler.nextMark)
    (positive : 0 < compiler.nextMark) {w : Closure} {rows : ValueType}
    (params : w.body.params = [.stream rows]) (returns : w.body.returns = .any) :
    (∀ shortcut ∈ Shortcut.all, ∀ (f : Closure) (a : Query), f.body.captures = [] →
      f.body.params.length = 1 → w.body.code = Compile.aggregating shortcut.call f.body →
      compiler.fold q (shortcut.operation f) = .ok a →
        compiler.fold q (.aggregate w) = .ok (a.relabel (.lifting 2 q.current.nextSource)) ∧
          (a.current.nextSource = q.current.nextSource →
            a.relabel (.lifting 2 q.current.nextSource) = a)) ∧
    ∀ a, w.body.code = Compile.counting → compiler.fold q .count = .ok a →
      compiler.fold q (.aggregate w) = .ok a := by
  constructor
  · intro shortcut known f a captureFree one code folds
    constructor
    · obtain ⟨fn, named, folding⟩ := Shortcut.named known
      obtain ⟨supply, ran⟩ := Query.fold_eq_ok.mp (Compiler.fold_eq_ok.mp folds)
      rw [folding] at ran
      exact Compiler.fold_eq_ok.mpr (Query.fold_aggregating h.closed h.numbered captureFree one
        params returns code named few fresh positive ran)
    · intro opensNone
      have folded := (Query.foldStep_of_fold (Compiler.fold_eq_ok.mp folds)).folded
      rw [← opensNone]
      exact (h.closed.folded folded).relabel_lifting (h.numbered.folded h.closed folded) 2
  · intro a code folds
    rw [Compiler.fold_eq_ok] at folds ⊢
    exact Query.fold_counting params returns code few folds

def ofCustomers (code : List Instruction) : Closure where
  body := ⟨3, [.stream (.entity "Customer")], [], .any, code⟩
  captured := []

def sumOfAccounts : Closure := ofCustomers (Compile.aggregating "sumInteger" domesticAccounts.body)

def firstName : Closure := ofCustomers (Compile.aggregating "min" customerName.body)

/-- Both ways to the sum lead to a query, and the two are not the same. -/
theorem fold_sumOfAccounts :
    (customers.fold (.ofEntity "Customer") (.sum domesticAccounts)).map (fun a =>
      (customers.fold (.ofEntity "Customer") (.aggregate sumOfAccounts)).map a.same) =
        .ok (.ok false) := by
  decide +kernel

theorem aggregate_shortcuts_domesticAccounts :
    4 ≤ customers.settings.maxSteps ∧
    (∃ a, customers.fold (.ofEntity "Customer") (.sum domesticAccounts) = .ok a ∧
      customers.fold (.ofEntity "Customer") (.aggregate sumOfAccounts) =
        .ok (a.relabel (.lifting 2 1))) ∧
    (∃ a, customers.fold (.ofEntity "Customer") (.min customerName) = .ok a ∧
      customers.fold (.ofEntity "Customer") (.aggregate firstName) = .ok a) ∧
    ∃ a, customers.fold (.ofEntity "Customer") .count = .ok a ∧
      customers.fold (.ofEntity "Customer") (.aggregate (ofCustomers Compile.counting)) =
        .ok a := by
  have few : 4 ≤ customers.settings.maxSteps := by decide
  have opens : customers.streamAll "Customer" = .ok (.ofEntity "Customer") := rfl
  have reached : Reached (fun _ _ _ _ => True) (.ofEntity "Customer") := .opened opens
  have fresh : (Query.ofEntity "Customer").nextMark ≤ customers.nextMark := by decide
  have positive : 0 < customers.nextMark := by decide
  refine ⟨few, ?_, ?_, ?_⟩
  · have params : sumOfAccounts.body.params = [.stream (.entity "Customer")] := rfl
    have known : ⟨.sum, "sumInteger"⟩ ∈ Shortcut.all := by simp [Shortcut.all]
    obtain ⟨a, folds, -⟩ := Compile.map_eq_ok.mp fold_sumOfAccounts
    obtain ⟨agrees, -⟩ := (aggregate_shortcuts reached few fresh positive params rfl).1 _ known
      domesticAccounts a rfl rfl rfl folds
    exact ⟨a, folds, agrees⟩
  · have params : firstName.body.params = [.stream (.entity "Customer")] := rfl
    have known : ⟨.min, "min"⟩ ∈ Shortcut.all := by simp [Shortcut.all]
    have opened : (customers.fold (.ofEntity "Customer") (.min customerName)).map
        (fun a => a.current.nextSource) = .ok 1 := by decide +kernel
    obtain ⟨a, folds, opensNone⟩ := Compile.map_eq_ok.mp opened
    obtain ⟨agrees, same⟩ := (aggregate_shortcuts reached few fresh positive params rfl).1 _ known
      customerName a rfl rfl rfl folds
    exact ⟨a, folds, by rwa [same opensNone] at agrees⟩
  · have params : (ofCustomers Compile.counting).body.params = [.stream (.entity "Customer")] :=
      rfl
    have counts : (customers.fold (.ofEntity "Customer") .count).map
        (fun a => a.current.nextSource) = .ok 1 := by decide +kernel
    obtain ⟨a, folds, -⟩ := Compile.map_eq_ok.mp counts
    exact ⟨a, folds, (aggregate_shortcuts reached few fresh positive params rfl).2 a rfl folds⟩

/-- The two ways do not give the same query: in what the nested query was derived from, an
account is another element. -/
theorem aggregate_shortcut_differs :
    ∃ a a', customers.fold (.ofEntity "Customer") (.sum domesticAccounts) = .ok a ∧
      customers.fold (.ofEntity "Customer") (.aggregate sumOfAccounts) = .ok a' ∧
      a.same a' = false := by
  obtain ⟨a, sums, found⟩ := Compile.map_eq_ok.mp fold_sumOfAccounts
  obtain ⟨a', aggregates, differs⟩ := Compile.map_eq_ok.mp found
  exact ⟨a, a', sums, aggregates, differs⟩

end Reached

end StreamQuery
