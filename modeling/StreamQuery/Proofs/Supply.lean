import StreamQuery.Proofs.Fold
import StreamQuery.Proofs.Shifting

/-! # The supply of marks

Marks tell queries apart that were built one after the other, so each is given out once.
What no renaming of the marks from a number on changes has marks below that number only, also
in what its queries were derived from. Compiling a closure, putting a row in the place of an
element and folding an operation commute with renaming the marks that are still to be given
out. All marks in what they give were therefore given out before, and the marks that a stream
has left are never those of its query.
-/

namespace StreamQuery

/-- Renames marks from `n` on, and nothing else. -/
structure Relabel.Renews (r : Relabel) (n : Nat) : Prop extends r.Moves 0 where
  keeps : r.Keeps n

theorem Relabel.Renews.mono {r : Relabel} {m n : Nat} (h : r.Renews n) (le : m ≤ n) :
    r.Renews m :=
  ⟨h.toMoves, h.keeps.mono le⟩

theorem Relabel.renews_shift (n : Nat) : (shift 0).Renews n := ⟨moves_shift, keeps_shift⟩

def Relabel.above (n : Nat) : Relabel := ⟨id, fun m => if m < n then m else m + 1, fun _ => true⟩

theorem Relabel.renews_above {n : Nat} (positive : 0 < n) : (above n).Renews n where
  element := rfl
  mark m m' same := by
    simp only [above] at same
    split at same <;> split at same <;> omega
  opened := if_pos positive
  within := rfl
  keeps _ below := if_pos below

/-- No renaming of the marks from `n` on changes it. -/
def MarkedBelow {α : Type} (relabel : Relabel → α → α) (n : Nat) (a : α) : Prop :=
  ∀ r : Relabel, r.Renews n → relabel r a = a

section

variable {α : Type} {relabel : Relabel → α → α} {m n : Nat} {a : α} {e : Expr} {s : Select}
  {q q' : Query}

theorem MarkedBelow.mono (h : MarkedBelow relabel m a) (le : m ≤ n) : MarkedBelow relabel n a :=
  fun r renews => h r (renews.mono le)

/-! ## Expressions, selections and queries -/

/-- Nodes that stay as they are when marks from `n` on move up have none of these. -/
theorem markAfter_le_of_above {nodes : List Expr}
    (same : nodes.map (Expr.relabel (.above n)) = nodes) : markAfter (marksOf nodes) ≤ n := by
  refine Expr.markAfter_marksOf_le_iff.mpr fun node hn q hq => ?_
  have fixed : node.relabel (.above n) = node :=
    List.map_eq_map_iff.mp (same.trans (List.map_id _).symm) node hn
  have query := node.query?_relabel (r := .above n)
  rw [fixed, hq, Option.map_some, Option.some.injEq] at query
  have mark := congrArg (fun query => query.current.mark) query
  simp only [Query.current_relabel, Select.mark_relabel, Relabel.above] at mark
  split at mark <;> omega

theorem Expr.nextMark_le_of_markedBelow (h : MarkedBelow Expr.relabel n e) (positive : 0 < n) :
    e.nextMark ≤ n := by
  have same := e.reach_relabel (r := .above n)
  rw [h _ (Relabel.renews_above positive)] at same
  exact markAfter_le_of_above same.symm

theorem Query.nextMark_le_of_markedBelow (h : MarkedBelow Query.relabel n q) (positive : 0 < n) :
    q.nextMark ≤ n := by
  have same := q.reach_relabel (r := .above n)
  rw [h _ (Relabel.renews_above positive)] at same
  exact markAfter_le_of_above same.symm

theorem Select.clause_markedBelow (h : MarkedBelow Select.relabel n s) {c : Expr}
    (hc : c ∈ s.clauses) : MarkedBelow Expr.relabel n c := by
  intro r renews
  have same := s.clauses_relabel (r := r)
  rw [h r renews] at same
  exact List.map_eq_map_iff.mp (same.symm.trans (List.map_id _).symm) c hc

theorem Select.markedBelow_of_clauses (mark : ∀ r : Relabel, r.Renews n → r.mark s.mark = s.mark)
    (clauses : ∀ c ∈ s.clauses, MarkedBelow Expr.relabel n c) : MarkedBelow Select.relabel n s := by
  intro r renews
  refine Select.eq_of_clauses (s.skeleton_relabel) ?_ ?_
  · rw [mark_relabel, mark r renews]
  · rw [clauses_relabel]
    exact (List.map_congr_left fun c hc => clauses c hc r renews).trans (List.map_id _)

theorem Query.markedBelow_iff : MarkedBelow Query.relabel n q ↔
    MarkedBelow Select.relabel n q.current ∧ ∀ s ∈ q.past, MarkedBelow Select.relabel n s := by
  obtain ⟨current, past⟩ := q
  have relabel_eq {r : Relabel} (renews : r.Renews n) : (⟨current, past⟩ : Query).relabel r =
      ⟨current.relabel r, past.map (Select.relabel r)⟩ := by
    have enters : r.enters current.ids = true := by rw [← renews.within]; rfl
    rw [relabel, if_pos enters, renews.within, Select.relabelEach_eq]
  constructor
  · intro h
    refine ⟨fun r renews => ?_, fun s hs r renews => ?_⟩
    · have same := (relabel_eq renews).symm.trans (h r renews)
      exact (Query.mk.inj same).1
    · have same := (relabel_eq renews).symm.trans (h r renews)
      exact List.map_eq_map_iff.mp ((Query.mk.inj same).2.trans (List.map_id _).symm) s hs
  · intro ⟨now, before⟩ r renews
    rw [relabel_eq renews, now r renews,
      List.map_congr_left (g := id) fun s hs => before s hs r renews, List.map_id]

theorem Query.currentRow_markedBelow (h : MarkedBelow Query.relabel n q) :
    MarkedBelow Expr.relabel n q.currentRow := by
  intro r renews
  rw [← currentRow_relabel, h r renews]

theorem Expr.items_markedBelow {items : List Expr} {t : ValueType}
    (h : MarkedBelow Expr.relabel n (.tuple items t)) :
    ∀ c ∈ items, MarkedBelow Expr.relabel n c := by
  intro c hc r renews
  have same := (Expr.tuple.inj (h r renews)).1
  rw [Expr.relabelAll_eq] at same
  exact List.map_eq_map_iff.mp (same.trans (List.map_id _).symm) c hc

theorem Expr.markedBelow_pack {first second : Expr} (hfirst : MarkedBelow Expr.relabel n first)
    (hsecond : MarkedBelow Expr.relabel n second) :
    MarkedBelow Expr.relabel n (.pack [first, second]) := by
  intro r renews
  rw [Expr.relabel_pack, List.map_cons, List.map_cons, List.map_nil, hfirst r renews,
    hsecond r renews]

theorem Query.of_subQuery_markedBelow {t : ValueType}
    (h : MarkedBelow Expr.relabel n (.subQuery q t)) : MarkedBelow Query.relabel n q :=
  fun r renews => (Expr.subQuery.inj (h r renews)).1

/-- Deriving a query gives out no mark of its own. -/
theorem Query.markedBelow_derived (before : MarkedBelow Query.relabel n q)
    (mark : q'.current.mark = q.current.mark) (past : q'.past = q.current :: q.past)
    (clauses : ∀ c ∈ q'.current.clauses, c ∈ q.current.clauses ∨ MarkedBelow Expr.relabel n c) :
    MarkedBelow Query.relabel n q' := by
  obtain ⟨now, earlier⟩ := markedBelow_iff.mp before
  refine markedBelow_iff.mpr ⟨Select.markedBelow_of_clauses (fun r renews => ?_) fun c hc => ?_, ?_⟩
  · rw [mark, ← Select.mark_relabel, now r renews]
  · exact (clauses c hc).elim (Select.clause_markedBelow now) id
  · rw [past]
    exact List.forall_mem_cons.mpr ⟨now, earlier⟩

theorem Query.Adds.markedBelow {new : List Expr} {next : SourceId} (adds : Adds new next q q')
    (before : MarkedBelow Query.relabel n q) (all : ∀ c ∈ new, MarkedBelow Expr.relabel n c) :
    MarkedBelow Query.relabel n q' :=
  markedBelow_derived before adds.mark adds.past fun c hc => (adds.clauses c hc).imp_right (all c)

theorem Query.Joins.markedBelow {other : Query} {next : SourceId} (joins : Joins other next q q')
    (before : MarkedBelow Query.relabel n q) (joined : MarkedBelow Query.relabel n other) :
    MarkedBelow Query.relabel n q' := by
  refine markedBelow_derived before joins.mark joins.past fun c hc => ?_
  refine (joins.clauses c hc).imp_right fun new => ?_
  rcases new with moved | rfl
  · exact Select.clause_markedBelow (markedBelow_iff.mp joined).1 moved
  · exact Expr.markedBelow_pack (currentRow_markedBelow before) (currentRow_markedBelow joined)

end

/-! ## Closures -/

def Chain.MarkedBelow (n : Nat) (chain : Chain) : Prop :=
  ∀ r : Relabel, r.Renews n → chain.ShiftsTo r 0 chain

namespace Chain.MarkedBelow

variable {n : Nat} {chain : Chain}

theorem ofClosure (closure : Closure) : (Chain.empty.push (.ofClosure closure) none).MarkedBelow n := by
  intro r _
  have empty : Chain.empty.ShiftsTo r 0 Chain.empty :=
    ⟨rfl, Nat.le_refl _, fun id link found => by simp [Chain.empty] at found⟩
  exact empty.push (.ofClosure closure) none

theorem pushElement (h : chain.MarkedBelow n) (t : ValueType) (parent : BinderId) :
    (chain.pushElement t (some parent)).MarkedBelow n :=
  fun r renews => (h r renews).pushElement renews.toMoves t (some parent)

theorem pushStream (h : chain.MarkedBelow n) {q : Query}
    (stream : StreamQuery.MarkedBelow Query.relabel n q) (parent : BinderId) :
    (chain.push (.stream q) (some parent)).MarkedBelow n := by
  intro r renews
  have pushed := (h r renews).push (.stream q) (some parent)
  rwa [Binder.relabel, stream r renews] at pushed

end Chain.MarkedBelow

/-- All marks in what a closure compiles to were given out. -/
theorem Compile.markedBelow_compileBody {env : Environment} {body : Body} {head : BinderId}
    {work after : Work} {e : Expr} (chain : work.chain.MarkedBelow work.nextMark)
    (h : compileBody env body head work = .ok e after) :
    work.nextMark ≤ after.nextMark ∧ MarkedBelow Expr.relabel after.nextMark e := by
  have again {r : Relabel} (renews : r.Renews work.nextMark) :=
    compileBody_relabel renews.toMoves (chain r renews) rfl h
  have le := (again (Relabel.renews_shift _)).1
  refine ⟨le, fun r renews => ?_⟩
  obtain ⟨_, same, -⟩ := (again (renews.mono le)).2 renews.keeps
  rw [Nat.add_zero, h, EStateM.Result.ok.injEq] at same
  exact same.1.symm

theorem Compile.nextMark_compileBody {env : Environment} {closure : Closure} {t : ValueType}
    {supply : Supply} {e : Expr} {after : Work} (positive : 0 < supply.nextMark)
    (h : compileBody env closure.body 1
      { toSupply := supply, chain := elementChain closure t } = .ok e after) :
    supply.nextMark ≤ after.nextMark ∧ e.nextMark ≤ after.nextMark := by
  obtain ⟨le, below⟩ :=
    markedBelow_compileBody ((Chain.MarkedBelow.ofClosure closure).pushElement t 0) h
  exact ⟨le, Expr.nextMark_le_of_markedBelow below (Nat.lt_of_lt_of_le positive le)⟩

theorem Expr.markedBelow_inlined {e row : Expr} {n : Nat} (he : MarkedBelow Expr.relabel n e)
    (hrow : MarkedBelow Expr.relabel n row) (scope : ElementScope) :
    n ≤ ((e.inlined scope row).run n).2 ∧ MarkedBelow Expr.relabel
      ((e.inlined scope row).run n).2 ((e.inlined scope row).run n).1 := by
  have le : n ≤ ((e.inlined scope row).run n).2 := Expr.le_markEnd _ _ n
  refine ⟨le, fun r renews => ?_⟩
  have same := e.inlined_relabel renews.renames row scope renews.keeps
  rw [he r (renews.mono le), hrow r (renews.mono le), renews.element] at same
  exact (congrArg Prod.fst same).symm

/-! ## Folds -/

namespace Query

variable {α β : Type} {n : Nat} {q : Query} {env : Compile.Environment} {closure : Closure}

/-- Marks are only given out, and what comes of it has to do with the marks that are left. -/
def Draws (n : Nat) (x : FoldM α) (P : Nat → α → Prop) : Prop :=
  ∀ supply a supply', n ≤ supply.nextMark → x.run supply = .ok (a, supply') →
    supply.nextMark ≤ supply'.nextMark ∧ P supply'.nextMark a

theorem Draws.bind {x : FoldM α} {f : α → FoldM β} {P : Nat → α → Prop} {R : Nat → β → Prop}
    (hx : Draws n x P) (hf : ∀ m a, n ≤ m → P m a → Draws m (f a) R) : Draws n (x >>= f) R := by
  intro supply b supply' le ran
  obtain ⟨a, between, first, rest⟩ := bind_run_eq_ok.mp ran
  obtain ⟨up, made⟩ := hx supply a between le first
  obtain ⟨up', made'⟩ :=
    hf between.nextMark a (Nat.le_trans le up) made between b supply' (Nat.le_refl _) rest
  exact ⟨Nat.le_trans up up', made'⟩

theorem draws_throw {error : FoldError} {P : Nat → α → Prop} : Draws n (throw error) P :=
  fun _ _ _ _ ran => absurd ran throw_run_ne_ok

theorem draws_get : Draws n (get : FoldM Compile.Supply) fun _ _ => True := by
  intro supply found supply' _ ran
  obtain ⟨-, rfl⟩ := get_run_eq_ok.mp ran
  exact ⟨Nat.le_refl _, trivial⟩

theorem draws_liftRefusal {result : Except Refusal α} {P : Nat → α → Prop}
    (h : ∀ m a, n ≤ m → result = .ok a → P m a) : Draws n (liftRefusal result) P := by
  intro supply a supply' le ran
  obtain ⟨made, rfl⟩ := liftRefusal_run_eq_ok.mp ran
  exact ⟨Nat.le_refl _, h _ a le made⟩

theorem draws_compileIn {chain : Chain} {head : BinderId} (fixed : chain.MarkedBelow n) :
    Draws n (compileIn env closure chain head) (MarkedBelow Expr.relabel) := by
  intro supply e supply' le ran
  obtain ⟨after, compiled, rfl⟩ := Closure.compile_eq_ok.mp (compileIn_run_eq_ok.mp ran)
  exact Compile.markedBelow_compileBody (fun r renews => fixed r (renews.mono le)) compiled

theorem draws_inlineIn {e row : Expr} {scope : ElementScope} (he : MarkedBelow Expr.relabel n e)
    (hrow : MarkedBelow Expr.relabel n row) :
    Draws n (inlineIn e scope row) (MarkedBelow Expr.relabel) := by
  intro supply made supply' le ran
  obtain ⟨rfl, rfl⟩ := inlineIn_run_eq_ok.mp ran
  exact Expr.markedBelow_inlined (he.mono le) (hrow.mono le) scope

theorem draws_overRow (h : MarkedBelow Query.relabel n q) :
    Draws n (q.overRow env closure) (MarkedBelow Expr.relabel) := by
  refine (draws_compileIn ((Chain.MarkedBelow.ofClosure closure).pushElement _ 0)).bind ?_
  exact fun m e le made => draws_inlineIn made (currentRow_markedBelow (h.mono le))

theorem draws_overGroup {key : Expr} (h : MarkedBelow Query.relabel n q)
    (hkey : MarkedBelow Expr.relabel n key) :
    Draws n (q.overGroup env closure key) (MarkedBelow Expr.relabel) := by
  have chain := ((Chain.MarkedBelow.ofClosure closure).pushStream h 0).pushElement key.type 1
  exact (draws_compileIn chain).bind fun m e le made => draws_inlineIn made (hkey.mono le)

theorem draws_overStream (h : MarkedBelow Query.relabel n q) :
    Draws n (q.overStream env closure) (MarkedBelow Expr.relabel) := by
  unfold overStream
  split
  · refine (draws_compileIn ((Chain.MarkedBelow.ofClosure closure).pushStream h 0)).bind ?_
    intro m e _ made supply _ supply' le ran
    obtain ⟨rfl, rfl⟩ := pure_run_eq_ok.mp ran
    refine ⟨Nat.le_refl _, fun r renews => ?_⟩
    rw [Expr.relabel_simplify renews.renames, made r (renews.mono le)]
  · exact draws_throw

/-- The last step of an operation, which the supply is only read for. -/
theorem draws_derived {make : SourceId → Except Refusal Query}
    (h : ∀ m next q', n ≤ m → make next = .ok q' → MarkedBelow Query.relabel m q') :
    Draws n (do liftRefusal (make (← get).nextSource)) (MarkedBelow Query.relabel) :=
  draws_get.bind fun _ supply le _ =>
    draws_liftRefusal fun m q' le' made => h m supply.nextSource q' (Nat.le_trans le le') made

/-- An operation that adds the clause of one closure. -/
theorem Draws.added {x : FoldM Expr} {make : Expr → SourceId → Except Refusal Query}
    (drawn : Draws n x (MarkedBelow Expr.relabel)) (h : MarkedBelow Query.relabel n q)
    (adds : ∀ {e next q'}, make e next = .ok q' → Adds [e] next q q') :
    Draws n (do liftRefusal (make (← x) (← get).nextSource)) (MarkedBelow Query.relabel) := by
  refine drawn.bind fun m e le made => draws_derived fun k next q' le' derived => ?_
  exact (adds derived).markedBelow (h.mono (Nat.le_trans le le'))
    (List.forall_mem_singleton.mpr (made.mono le'))

theorem draws_aggregatedBy (h : MarkedBelow Query.relabel n q) (fn : AggregateFn) :
    Draws n (q.aggregatedBy env fn closure) (MarkedBelow Query.relabel) := by
  refine (draws_overRow h).bind fun m arg le made => ?_
  split
  · exact draws_throw
  · refine draws_derived fun k next q' le' derived => ?_
    refine (adds_aggregated derived).markedBelow (h.mono (Nat.le_trans le le')) ?_
    refine List.forall_mem_singleton.mpr fun r renews => ?_
    have renews' := renews.mono le'
    rw [Expr.relabel_summarize, Option.map_some, made r renews', h r (renews'.mono le)]

/-- All marks of the query that an operation gives were given out. -/
theorem draws_foldM (h : MarkedBelow Query.relabel n q) (operation : Operation) :
    Draws n (q.foldM env operation) (MarkedBelow Query.relabel) := by
  cases operation with
  | filter closure => exact (draws_overRow h).added h adds_filtered
  | select closure => exact (draws_overRow h).added h adds_projected
  | join closure =>
      refine (draws_overRow h).bind fun m e le made => ?_
      split
      · refine draws_derived fun k next q' le' derived => ?_
        exact (joins_joined derived).markedBelow (h.mono (Nat.le_trans le le'))
          ((of_subQuery_markedBelow made).mono le')
      · exact draws_throw
  | group keyOf valueOf =>
      refine (draws_overRow h).bind fun m key le madeKey => ?_
      refine (draws_overGroup (h.mono le) madeKey).bind fun m' value le' madeValue => ?_
      refine draws_derived fun k next q' le'' derived => ?_
      have madeKey := madeKey.mono (Nat.le_trans le' le'')
      refine (adds_grouped derived).markedBelow (h.mono (by omega)) ?_
      refine List.forall_mem_cons.mpr ⟨Expr.markedBelow_pack madeKey (madeValue.mono le''), ?_⟩
      exact fun c hc => Expr.of_mem_columns (fun _ _ => Expr.items_markedBelow) madeKey hc
  | aggregate closure => exact (draws_overStream h).added h adds_aggregated
  | count =>
      refine draws_derived fun k next q' le derived => ?_
      refine (adds_aggregated derived).markedBelow (h.mono le) ?_
      refine List.forall_mem_singleton.mpr fun r renews => ?_
      rw [Expr.relabel_summarize, Option.map_none, h r (renews.mono le)]
  | sum closure | min closure | max closure | avg closure => exact draws_aggregatedBy h _
  | sortedBy closure direction => exact (draws_overRow h).added h adds_sorted
  | skip count =>
      exact draws_liftRefusal fun m q' le derived =>
        (adds_skipped derived).markedBelow (h.mono le) (by simp)
  | limit count =>
      exact draws_liftRefusal fun m q' le derived =>
        (adds_limited derived).markedBelow (h.mono le) (by simp)
  | distinct =>
      exact draws_liftRefusal fun m q' le derived =>
        (adds_distinctRows derived).markedBelow (h.mono le) (by simp)

end Query

theorem Compiler.extend_markedBelow {compiler compiler' : Compiler} {q q' : Query}
    {operation : Operation} (h : MarkedBelow Query.relabel compiler.nextMark q)
    (made : compiler.extend q operation = .ok (q', compiler')) :
    compiler.nextMark ≤ compiler'.nextMark ∧ MarkedBelow Query.relabel compiler'.nextMark q' := by
  obtain ⟨nextMark, extended, rfl⟩ := extend_eq_ok.mp made
  obtain ⟨source, ran⟩ := Query.extend_eq_ok.mp extended
  exact Query.draws_foldM h operation _ q' _ (Nat.le_refl _) ran

/-! ## Streams -/

/-- The marks that a stream has left are none of its query. -/
structure Stream.Fresh (stream : Stream) : Prop where
  positive : 0 < stream.compiler.nextMark
  below : MarkedBelow Query.relabel stream.compiler.nextMark stream.query

namespace Stream.Fresh

variable {stream stream' : Stream}

theorem nextMark_le (h : stream.Fresh) : stream.query.nextMark ≤ stream.compiler.nextMark :=
  Query.nextMark_le_of_markedBelow h.below h.positive

theorem apply (h : stream.Fresh) {operation : Operation}
    (applied : stream.apply operation = .ok stream') : stream'.Fresh := by
  obtain ⟨le, below⟩ := Compiler.extend_markedBelow h.below (apply_eq_ok.mp applied)
  exact ⟨Nat.lt_of_lt_of_le h.positive le, below⟩

theorem foldlM (h : stream.Fresh) {operations : List Operation}
    (ran : operations.foldlM Stream.apply stream = .ok stream') : stream'.Fresh := by
  induction operations generalizing stream with
  | nil =>
      cases ran
      exact h
  | cons operation operations ih =>
      obtain ⟨between, first, rest⟩ := foldlM_apply_cons_eq_ok.mp ran
      exact ih (h.apply first) rest

end Stream.Fresh

theorem Provider.fresh_streamAll {provider : Provider} {entity : String} {stream : Stream}
    (positive : 0 < provider.compiler.nextMark) (opens : provider.streamAll entity = .ok stream) :
    stream.Fresh := by
  obtain ⟨all, same⟩ := streamAll_eq_ok.mp opens
  refine ⟨same ▸ positive, fun r renews => ?_⟩
  rw [Compiler.streamAll_eq_ok all]
  exact Query.relabel_entity renews.opened 0 entity

/-- Whatever operations are applied to the rows of an entity of a catalog, the marks that are
left are none of the query's. -/
theorem Provider.fresh_of_catalog {catalog : Catalog} {settings : Settings} {entity : String}
    {operations : List Operation} {all last : Stream}
    (opens : (Provider.ofCatalog catalog settings).streamAll entity = .ok all)
    (ran : operations.foldlM Stream.apply all = .ok last) : last.Fresh :=
  (fresh_streamAll Nat.one_pos opens).foldlM ran

end StreamQuery
