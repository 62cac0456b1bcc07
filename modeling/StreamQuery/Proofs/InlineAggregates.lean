import StreamQuery.Proofs.Phrases
import StreamQuery.Proofs.Shapes
import StreamQuery.Proofs.Unmarked

/-! # Aggregates over the rows of their own query

Once rows are grouped or aggregated, the sources and filters of a query stay, and
every query inside it that ranges over its first source has the same sources and starts
with the same filters, whatever passes it went through. An aggregate over the rows
themselves is therefore recognized, and written as a function of them.
-/

namespace StreamQuery

namespace Expr

def NoElement (e : Expr) : Prop := e.Everywhere fun node => ∀ s t, node ≠ .element s t

theorem Marking.noElement {a b : Expr} (same : Marking a b) (h : b.NoElement) : a.NoElement := by
  have plain : ∀ {e : Expr}, (e.relabel .unmark).NoElement ↔ e.NoElement :=
    everywhere_relabel fun node => by cases node <;> simp [relabel]
  rw [← plain, same]
  exact plain.mpr h

theorem NoElement.result_placing {e : Expr} (h : e.NoElement) (scope : ElementScope)
    (row : Expr) : (placing scope row).result e = e := by
  have left : e.revise (placing scope row) = none := by
    refine Pass.revise_eq_none (h.mono fun node plain => ⟨?_, rfl⟩)
    cases node with
    | element s t => exact absurd rfl (plain s t)
    | _ => rfl
  rw [Pass.result, left]
  rfl

theorem Within.noElement {ids : List SourceId} {e : Expr} (h : e.Bound [] ids) : e.NoElement := by
  induction h with
  | node here _ ih =>
      refine everywhere_iff.mpr ⟨?_, ih⟩
      rintro s t rfl
      simp [referent, Referent.Bound] at here

theorem likeAll_of_marking {l : Likeness} (sight : l.AtSight) {as bs : List Expr}
    (numbers : ∀ a ∈ as, a.NoNaN) (same : as.map (relabel .unmark) = bs.map (relabel .unmark)) :
    likeAll l as bs = true := by
  induction as generalizing bs with
  | nil =>
      obtain rfl : bs = [] := by simpa using same.symm
      rfl
  | cons a as ih =>
      cases bs with
      | nil => simp at same
      | cons b bs =>
          rw [List.map_cons, List.map_cons, List.cons.injEq] at same
          rw [likeAll, like_of_marking sight (numbers a List.mem_cons_self) same.1,
            ih (fun c hc => numbers c (List.mem_cons_of_mem a hc)) same.2]
          rfl

end Expr

namespace Select

/-! ## Scopes -/

def scope (s : Select) : List Expr := s.sources.filterMap Source.path? ++ s.filters

/-- A selection ranges over rows of another: it has the same sources and starts with the
same filters, marks aside. -/
structure Narrows (s t : Select) : Prop where
  sources : t.sources.map Source.skeleton = s.sources.map Source.skeleton
  scope : s.scope.map (Expr.relabel .unmark) <+: t.scope.map (Expr.relabel .unmark)

/-- The rows of a selection are said by clauses that no pass changes. -/
def Steady (s : Select) : Prop := ∀ c ∈ s.scope, c.Settled ∧ c.NoElement

variable {s s' t t' : Select}

theorem mem_clauses_of_mem_scope {c : Expr} (h : c ∈ s.scope) : c ∈ s.clauses := by
  simp only [clauses, List.append_assoc]
  rw [← List.append_assoc]
  exact List.mem_append_left _ h

theorem sources_skeleton (skeleton : t'.skeleton = t.skeleton) :
    t'.sources.map Source.skeleton = t.sources.map Source.skeleton :=
  congrArg Select.sources skeleton

theorem scope_of_clauses {f : Expr → Expr} (skeleton : t'.skeleton = t.skeleton)
    (clauses : t'.clauses = t.clauses.map f) : t'.scope = t.scope.map f := by
  obtain ⟨paths, filters⟩ := parts_of_clauses skeleton clauses
  rw [scope, scope, paths, filters, List.map_append]

theorem scope_relabel (r : Relabel) (s : Select) :
    (s.relabel r).scope = s.scope.map (Expr.relabel r) :=
  scope_of_clauses (skeleton_relabel s) (clauses_relabel s)

theorem Narrows.refl (s : Select) : s.Narrows s := ⟨rfl, List.prefix_refl _⟩

theorem Narrows.congr (h : s.Narrows t) (sources : s'.sources = s.sources)
    (filters : s'.filters = s.filters) : s'.Narrows t := by
  have same : s'.scope = s.scope := by rw [Select.scope, Select.scope, sources, filters]
  exact ⟨sources ▸ h.sources, same ▸ h.scope⟩

end Select

namespace Query

variable {s : Select} {q q' : Query}

/-- A pass keeps the rows that are narrowed down, if it leaves what says which they are. -/
theorem narrows_resultQuery {pass : Pass} (h : s.Narrows q.current)
    (keeps : ∀ c ∈ s.scope, ∀ c', Expr.Marking c' c → pass.result c' = c') :
    s.Narrows (pass.resultQuery q).current := by
  rw [Pass.resultQuery_eq]
  split
  · have skeleton := @Pass.skeleton_resultSelect pass q.current
    obtain ⟨rest, whole⟩ := h.scope
    obtain ⟨front, back, split, first, -⟩ := List.map_eq_append_iff.mp whole.symm
    have same : front.map pass.result = front := by
      refine Pass.map_result_eq_self fun c' hc' => ?_
      obtain ⟨c, hc, equal⟩ := List.mem_map.mp (first ▸ List.mem_map_of_mem hc')
      exact keeps c hc c' equal.symm
    refine ⟨(Select.sources_skeleton skeleton).trans h.sources, ?_⟩
    rw [Select.scope_of_clauses skeleton (Pass.clauses_resultSelect _), split, List.map_append,
      same, List.map_append, first]
    exact List.prefix_append ..
  · exact h

theorem narrows_of_relabel (h : s.Narrows q.current)
    (same : q'.relabel .unmark = q.relabel .unmark) : s.Narrows q'.current := by
  have current : q'.current.relabel .unmark = q.current.relabel .unmark := by
    rw [← current_relabel, same, current_relabel]
  refine ⟨?_, ?_⟩
  · have skeleton := congrArg Select.skeleton current
    rw [Select.skeleton_relabel, Select.skeleton_relabel] at skeleton
    exact (Select.sources_skeleton skeleton).trans h.sources
  · rw [← Select.scope_relabel .unmark q'.current, current, Select.scope_relabel]
    exact h.scope

theorem narrows_derived {e : Expr} {next : SourceId} (h : s.Narrows q.current)
    (derives : q.filtered e next = .ok q' ∨ q.projected e next = .ok q') : s.Narrows q'.current := by
  rcases derives with filtered | projected
  · obtain ⟨-, -, -, rfl⟩ := filtered_eq_ok.mp filtered
    simp only [derive]
    split
    · exact ⟨h.sources, h.scope⟩
    split
    · exact ⟨h.sources, h.scope⟩
    · refine ⟨h.sources, h.scope.trans ?_⟩
      simp [Select.scope]
  · obtain ⟨-, -, rfl⟩ := projected_eq_ok.mp projected
    exact ⟨h.sources, h.scope⟩

theorem lasting_narrows (steady : s.Steady) : Lasting fun q => s.Narrows q.current where
  placing scope row h := narrows_resultQuery h fun c hc _ same =>
    (same.noElement (steady c hc).2).result_placing scope row
  rules held h := narrows_resultQuery h fun c hc _ same =>
    ((steady c hc).1.marking same).result_eq held
  marked kept m h := narrows_of_relabel h
    (relabel_marked (fun c _ m => Expr.marking_marked kept m c) m)
  derived m h derives := narrows_of_relabel (narrows_derived h derives)
    (relabel_fresh (fun c _ m => Expr.marking_marked _ m c) m)

/-- What is required of queries over a certain source only. -/
theorem Lasting.onSource {P : Query → Prop} (h : Lasting P) (id : SourceId) :
    Lasting fun q => id ∈ q.current.ids → P q where
  placing scope row hq mem := h.placing scope row (hq (Expr.ids_resultQuery _ _ ▸ mem))
  rules held hq mem := h.rules held (hq (Expr.ids_resultQuery _ _ ▸ mem))
  marked kept m hq mem := h.marked kept m (hq (ids_marked _ m ▸ mem))
  derived m hq derives mem := by
    refine h.derived m (hq ?_) derives
    rw [ids_separate] at mem
    exact (derives.elim adds_filtered adds_projected).ids_eq ▸ mem

theorem lasting_without (id : SourceId) : Lasting fun q => id ∈ q.current.ids → False :=
  Lasting.onSource ⟨fun _ _ h => h, fun _ h => h, fun _ _ h => h, fun _ h _ => h⟩ id

/-! ## One fold -/

/-- The clauses that say which rows there are come from the query before, or from closures
of its rows. -/
theorem FoldStep.mem_scope (h : FoldStep q q') {c : Expr} (hc : c ∈ q'.current.scope) :
    c ∈ q.current.scope ∨ ∃ next e, OverRow q q.current.nextSource next e ∧
      (c = e ∨ ∃ other t, e = .subQuery other t ∧ c ∈ other.current.scope) := by
  cases h with
  | @filter e next _ made derived =>
      obtain ⟨-, -, -, rfl⟩ := filtered_eq_ok.mp derived
      simp only [derive] at hc
      split at hc
      · exact .inl hc
      split at hc
      · exact .inl hc
      · rw [Select.scope, ← List.append_assoc, List.mem_append, List.mem_singleton] at hc
        exact hc.imp_right fun new => ⟨next, e, made, .inl new⟩
  | select _ derived =>
      obtain ⟨-, -, rfl⟩ := projected_eq_ok.mp derived
      exact .inl hc
  | @join other t next _ made derived =>
      obtain ⟨-, -, -, -, -, rfl⟩ := joined_eq_ok.mp derived
      have either : c ∈ q.current.scope ∨ c ∈ other.current.scope := by
        simp only [derive, Select.scope, List.filterMap_append, List.mem_append] at hc ⊢
        grind
      exact either.imp_right fun moved => ⟨next, _, made, .inr ⟨other, t, rfl, moved⟩⟩
  | group _ _ _ derived =>
      obtain ⟨-, -, -, -, rfl⟩ := grouped_eq_ok.mp derived
      exact .inl hc
  | aggregate _ derived =>
      obtain ⟨-, -, -, -, rfl⟩ := aggregated_eq_ok.mp derived
      exact .inl hc
  | sortedBy _ derived =>
      obtain ⟨-, -, -, rfl⟩ := sorted_eq_ok.mp derived
      exact .inl hc
  | skip derived =>
      obtain ⟨-, -, rfl⟩ := skipped_eq_ok.mp derived
      exact .inl hc
  | limit derived =>
      obtain ⟨-, rfl⟩ := limited_eq_ok.mp derived
      exact .inl hc
  | distinct derived =>
      obtain ⟨-, -, rfl⟩ := distinctRows_eq_ok.mp derived
      exact .inl hc

/-- A closure of rows is folded on and the shape stays, or the stream of rows ends. -/
theorem FoldStep.rowwise_or_ends (h : FoldStep q q') :
    Folded OverRow q q' ∧ q'.current.shape = q.current.shape ∨ Ends q q' := by
  cases h with
  | filter made derived =>
      refine .inl ⟨.adds (adds_filtered derived) (by simpa using made) made.le, ?_⟩
      obtain ⟨-, -, -, rfl⟩ := filtered_eq_ok.mp derived
      simp only [derive]
      split
      · rfl
      split <;> rfl
  | select made derived =>
      refine .inl ⟨.adds (adds_projected derived) (by simpa using made) made.le, ?_⟩
      obtain ⟨-, -, rfl⟩ := projected_eq_ok.mp derived
      rfl
  | join made derived =>
      refine .inl ⟨.joins made derived, ?_⟩
      obtain ⟨-, -, -, -, -, rfl⟩ := joined_eq_ok.mp derived
      rfl
  | group _ _ _ derived => exact .inr (ends_grouped derived)
  | aggregate _ derived => exact .inr (ends_aggregated derived)
  | sortedBy made derived =>
      refine .inl ⟨.adds (adds_sorted derived) (by simpa using made) made.le, ?_⟩
      obtain ⟨-, -, -, rfl⟩ := sorted_eq_ok.mp derived
      rfl
  | skip derived =>
      refine .inl ⟨.adds (adds_skipped derived) (by simp) (Nat.le_refl _), ?_⟩
      obtain ⟨-, -, rfl⟩ := skipped_eq_ok.mp derived
      rfl
  | limit derived =>
      refine .inl ⟨.adds (adds_limited derived) (by simp) (Nat.le_refl _), ?_⟩
      obtain ⟨-, rfl⟩ := limited_eq_ok.mp derived
      rfl
  | distinct derived =>
      refine .inl ⟨.adds (adds_distinctRows derived) (by simp) (Nat.le_refl _), ?_⟩
      obtain ⟨-, -, rfl⟩ := distinctRows_eq_ok.mp derived
      rfl

/-- Where the result is no stream of rows, sources and filters are those from before. -/
theorem FoldStep.sameSource (h : FoldStep q q') (ended : q'.current.shape ≠ .rows) :
    q'.current.sources = q.current.sources ∧ q'.current.filters = q.current.filters := by
  cases h with
  | filter made derived =>
      obtain ⟨allowed, -, -, rfl⟩ := filtered_eq_ok.mp derived
      simp only [derive] at ended ⊢
      split
      · exact ⟨rfl, rfl⟩
      split
      · exact ⟨rfl, rfl⟩
      · next other => simp_all
  | select _ derived =>
      obtain ⟨rows, -, rfl⟩ := projected_eq_ok.mp derived
      exact absurd rows ended
  | join _ derived =>
      obtain ⟨rows, -, -, -, -, rfl⟩ := joined_eq_ok.mp derived
      exact absurd rows ended
  | group _ _ _ derived =>
      obtain ⟨-, -, -, -, rfl⟩ := grouped_eq_ok.mp derived
      exact ⟨rfl, rfl⟩
  | aggregate _ derived =>
      obtain ⟨-, -, -, -, rfl⟩ := aggregated_eq_ok.mp derived
      exact ⟨rfl, rfl⟩
  | sortedBy _ derived =>
      obtain ⟨-, -, -, rfl⟩ := sorted_eq_ok.mp derived
      exact ⟨rfl, rfl⟩
  | skip derived =>
      obtain ⟨-, -, rfl⟩ := skipped_eq_ok.mp derived
      exact ⟨rfl, rfl⟩
  | limit derived =>
      obtain ⟨-, rfl⟩ := limited_eq_ok.mp derived
      exact ⟨rfl, rfl⟩
  | distinct derived =>
      obtain ⟨-, -, rfl⟩ := distinctRows_eq_ok.mp derived
      exact ⟨rfl, rfl⟩

end Query

def Operation.summary? : Operation → Option AggregateFn
  | count => some .count
  | sum _ => some .sum
  | min _ => some .min
  | max _ => some .max
  | avg _ => some .avg
  | _ => none

theorem Query.projection_aggregatedBy {q q' : Query} {env : Compile.Environment} {fn : AggregateFn}
    {closure : Closure} {supply supply' : Compile.Supply}
    (h : (q.aggregatedBy env fn closure).run supply = .ok (q', supply')) :
    ∃ arg, q'.current.projection = some (.summarize fn arg q) := by
  simp only [aggregatedBy, bind_run_eq_ok] at h
  obtain ⟨arg, between, -, h⟩ := h
  split at h
  · exact absurd h throw_run_ne_ok
  · simp only [bind_run_eq_ok, get_run_eq_ok, liftRefusal_run_eq_ok] at h
    obtain ⟨_, _, -, derived, -⟩ := h
    obtain ⟨-, -, -, -, rfl⟩ := aggregated_eq_ok.mp derived
    exact ⟨some arg, rfl⟩

/-- Such a value is an aggregate over the very stream. -/
theorem Compiler.projection_summary {compiler : Compiler} {q q' : Query} {operation : Operation}
    {fn : AggregateFn} (h : compiler.fold q operation = .ok q')
    (summary : operation.summary? = some fn) :
    ∃ arg, q'.current.projection = some (.summarize fn arg q) := by
  obtain ⟨supply, ran⟩ := Query.fold_eq_ok.mp (Compiler.fold_eq_ok.mp h)
  cases operation with
  | count =>
      cases summary
      simp only [Query.foldM, Query.bind_run_eq_ok, Query.get_run_eq_ok,
        Query.liftRefusal_run_eq_ok] at ran
      obtain ⟨_, _, -, derived, -⟩ := ran
      obtain ⟨-, -, -, -, rfl⟩ := Query.aggregated_eq_ok.mp derived
      exact ⟨none, rfl⟩
  | sum closure | min closure | max closure | avg closure =>
      cases summary
      exact Query.projection_aggregatedBy ran
  | _ => cases summary

/-! ## Queries that are reached -/

namespace Reached

variable {allowed : Compiler → Query → Operation → Query → Prop} {q : Query}

theorem zero_mem_ids (h : Reached allowed q) : 0 ∈ q.current.ids := by
  have root : ∃ entity, q.current.root? = some (.entity 0 entity) := by
    refine h.invariant (P := fun q => ∃ entity, q.current.root? = some (.entity 0 entity))
      (fun entity => ⟨entity, rfl⟩) ?_
    rintro q q' ⟨entity, first⟩ folded
    exact ⟨entity, folded.root? first⟩
  obtain ⟨entity, first⟩ := root
  exact List.mem_map_of_mem (List.mem_of_head? first)

/-- What says which rows there are was put in normal form when it was added. -/
theorem settled_scope (h : Reached allowed q) : ∀ c ∈ q.current.scope, c.NoNaN → c.Settled := by
  refine h.stepwise (P := fun q => ∀ c ∈ q.current.scope, c.NoNaN → c.Settled) ?_ ?_
  · intro entity c hc
    simp [Query.ofEntity, Query.ofSource, Select.ofSource, Select.scope, Source.path?] at hc
  · intro q q' ih step c hc number
    rcases step.mem_scope hc with old | ⟨next, e, ⟨-, -, mark⟩, new⟩
    · exact ih c old number
    · rcases new with rfl | ⟨other, t, inlined, moved⟩
      · exact Expr.settled_inlined number
      · have part : c ∈ (Expr.subQuery other t).parts true := Expr.mem_parts_true.mpr
          (.inr ⟨other, rfl, Select.mem_clauses_of_mem_scope moved⟩)
        rw [← inlined] at part
        exact Expr.settled_part_inlined part number

theorem steady (h : Reached allowed q) (numbers : ∀ c ∈ q.current.scope, c.NoNaN) :
    q.current.Steady := fun c hc =>
  ⟨h.settled_scope c hc (numbers c hc),
    (h.closed.clauses c (Select.mem_clauses_of_mem_scope hc)).noElement⟩

theorem zero_not_mem_opened (h : Reached allowed q) {source : Source}
    (later : q.current.nextSource ≤ source.id) : 0 ∉ (Query.ofSource source).current.ids := by
  have below : 0 < q.current.nextSource := h.numbered.below 0 h.zero_mem_ids
  have positive : 0 < source.id := Nat.lt_of_lt_of_le below later
  simpa [Query.ofSource, Select.ofSource, Select.ids] using Nat.ne_of_lt positive

/-- No query inside a stream of rows ranges over its first source. -/
theorem holding_rows (h : Reached allowed q) (rows : q.current.shape = .rows) :
    ∀ c ∈ q.current.clauses, c.Holding fun r => 0 ∈ r.current.ids → False := by
  induction h with
  | opened h =>
      rw [Compiler.streamAll_eq_ok h]
      simp [Query.ofEntity, Query.ofSource, Select.ofSource, Select.clauses, Source.path?]
  | @folded _ q _ _ before folds _ ih =>
      obtain ⟨folded, shape⟩ := (Compiler.foldStep folds).rowwise_or_ends.resolve_right
        fun ends => ends.2 rows
      rw [shape] at rows
      have lasting := Query.lasting_without 0
      have opened : ∀ source : Source, q.current.nextSource ≤ source.id →
          0 ∈ (Query.ofSource source).current.ids → False := fun _ => before.zero_not_mem_opened
      exact folded.holding lasting (ih rows) opened fun made => made.holding lasting (ih rows) opened

/-- Once rows are grouped or aggregated, every query inside that ranges over the first
source ranges over those rows. -/
theorem holding_narrows (h : Reached allowed q) (ended : q.current.shape ≠ .rows)
    (numbers : ∀ c ∈ q.current.scope, c.NoNaN) :
    ∀ c ∈ q.current.clauses, c.Holding fun r => 0 ∈ r.current.ids → q.current.Narrows r.current := by
  induction h with
  | opened h =>
      rw [Compiler.streamAll_eq_ok h] at ended
      exact absurd rfl ended
  | @folded _ q q' _ before folds _ ih =>
      have step := Compiler.foldStep folds
      obtain ⟨sources, filters⟩ := step.sameSource ended
      have same : q'.current.scope = q.current.scope := by
        rw [Select.scope, Select.scope, sources, filters]
      rw [same] at numbers
      have clauses : ∀ c ∈ q.current.clauses,
          c.Holding fun r => 0 ∈ r.current.ids → q.current.Narrows r.current := by
        by_cases rows : q.current.shape = .rows
        · exact fun c hc => (before.holding_rows rows c hc).mono fun r none mem => (none mem).elim
        · exact ih rows numbers
      have lasting := (Query.lasting_narrows (before.steady numbers)).onSource 0
      intro c hc
      refine (step.holding lasting (fun _ => .refl _) clauses (fun _ later mem => ?_) c hc).mono ?_
      · exact absurd mem (before.zero_not_mem_opened later)
      · exact fun r narrows mem => (narrows mem).congr sources filters

end Reached

/-! ## Places in the text -/

namespace Query

variable {q : Query}

/-- The normal form ranges over the same rows. -/
theorem scope_normalize (steady : q.current.Steady) :
    q.normalize.current.scope.map (Expr.relabel .unmark) =
      q.current.scope.map (Expr.relabel .unmark) := by
  rw [normalize_eq]
  split
  · obtain ⟨s, run, skeleton, -, -, clauses⟩ := Select.fresh_run q.holds q.nextMark
      ((Expr.thorough q.holds).resultQuery q).current
    have deep : (Expr.thorough q.holds).deep = true := rfl
    have marks := Select.relabel_unmark_eq skeleton
      (by rw [clauses, Expr.map_markedAll fun c _ m => Expr.marking_marked q.holds m c])
    have fixed : q.current.scope.map (Expr.thorough q.holds).result = q.current.scope :=
      Pass.map_result_eq_self fun c hc => (steady c hc).1.result_eq q.holds
    rw [run, ← Select.scope_relabel, marks, Select.scope_relabel, Pass.resultQuery_eq, if_pos deep,
      Select.scope_of_clauses (Pass.skeleton_resultSelect _) (Pass.clauses_resultSelect _), fixed]
  · rfl

/-- A query that closures made of a stream step by step, however often the expressions around
it were rewritten since. -/
inductive MadeFrom (step : Query → Query → Prop) (q : Query) : Query → Prop where
  | stream : MadeFrom step q q
  | step {r r' : Query} (h : MadeFrom step q r) (made : step r r') (m : Nat) :
      MadeFrom step q (r'.separate.run m).1
  | placed {r : Query} (h : MadeFrom step q r) (scope : ElementScope) (row : Expr) :
      MadeFrom step q ((Expr.placing scope row).resultQuery r)
  | settled {r : Query} (h : MadeFrom step q r) (held : Query → Bool) :
      MadeFrom step q ((Expr.rules (.kept held) true).resultQuery r)
  | marked {r : Query} (h : MadeFrom step q r) (kept : Query → Bool) (m : Nat) :
      MadeFrom step q (r.marked kept m)

/-- A closure filters a stream or selects something of its rows. -/
def Derives (r r' : Query) : Prop :=
  ∃ e next, r.filtered e next = .ok r' ∨ r.projected e next = .ok r'

/-- A closure selects something of the rows of a stream, or filters them by what always holds. -/
def Selects (r r' : Query) : Prop :=
  ∃ e next, r.projected e next = .ok r' ∨ r.filtered e next = .ok r' ∧ e.asBool = some true

abbrev SelectedFrom (q r : Query) : Prop := MadeFrom Selects q r

theorem lasting_madeFrom (q : Query) : Lasting (MadeFrom Derives q) where
  placing scope row h := h.placed scope row
  rules held h := h.settled held
  marked kept m h := h.marked kept m
  derived m h derives := h.step ⟨_, _, derives⟩ m

theorem skeleton_separate (q : Query) (m : Nat) :
    (q.separate.run m).1.current.skeleton = q.current.skeleton := by
  obtain ⟨s, run, skeleton, -⟩ := q.fresh_run (fun _ => true) m
  have fresh : (q.separate.run m).1 = ⟨s, q.past⟩ := congrArg Prod.fst run
  rw [fresh, skeleton]

theorem skeleton_resultQuery (pass : Pass) (q : Query) :
    (pass.resultQuery q).current.skeleton = q.current.skeleton := by
  rw [Pass.resultQuery_eq]
  split
  · exact Pass.skeleton_resultSelect _
  · rfl

theorem Selects.same {r r' : Query} (h : Selects r r') :
    r'.current.shape = r.current.shape ∧ r'.current.ids = r.current.ids ∧
      r'.current.filters = r.current.filters := by
  obtain ⟨e, next, projected | ⟨filtered, always⟩⟩ := h
  · obtain ⟨-, -, rfl⟩ := projected_eq_ok.mp projected
    exact ⟨rfl, rfl, rfl⟩
  · obtain ⟨-, -, -, rfl⟩ := filtered_eq_ok.mp filtered
    simp [derive, always, Select.ids]

/-- A closure selects on a stream of rows, or filters it. -/
theorem Derives.selects_or_filters {r r' : Query} (h : Derives r r')
    (rows : r.current.shape = .rows) : Selects r r' ∨
      r'.current.shape = r.current.shape ∧ r'.current.ids = r.current.ids ∧
        r'.current.filters.length = r.current.filters.length + 1 := by
  obtain ⟨e, next, filtered | projected⟩ := h
  · by_cases always : e.asBool = some true
    · exact .inl ⟨e, next, .inr ⟨filtered, always⟩⟩
    · obtain ⟨-, -, -, rfl⟩ := filtered_eq_ok.mp filtered
      exact .inr (by simp [derive, always, rows, Select.ids])
  · exact .inl ⟨e, next, .inl projected⟩

/-- A selection has the shape and the sources of a query, and some filters more. -/
structure Extends (q : Query) (more : Nat) (s : Select) : Prop where
  shape : s.shape = q.current.shape
  ids : s.ids = q.current.ids
  filters : s.filters.length = q.current.filters.length + more

theorem Extends.rewritten {more : Nat} {s s' : Select} (h : q.Extends more s)
    (same : s'.skeleton = s.skeleton) : q.Extends more s' where
  shape := (congrArg Select.shape same).trans h.shape
  ids := (Expr.ids_of_skeleton same).trans h.ids
  filters := (Select.lengths_of_skeleton same).2.1.trans h.filters

theorem Extends.selects {more : Nat} {r r' : Query} (h : q.Extends more r.current)
    (made : Selects r r') : q.Extends more r'.current where
  shape := made.same.1.trans h.shape
  ids := made.same.2.1.trans h.ids
  filters := (congrArg List.length made.same.2.2).trans h.filters

/-- What closures select from a stream has its sources and no filter more. -/
theorem SelectedFrom.extends {r : Query} (h : q.SelectedFrom r) : q.Extends 0 r.current := by
  induction h with
  | stream => exact ⟨rfl, rfl, rfl⟩
  | step _ made m ih => exact (ih.selects made).rewritten (skeleton_separate _ m)
  | placed _ scope row ih => exact ih.rewritten (skeleton_resultQuery _ _)
  | settled _ held ih => exact ih.rewritten (skeleton_resultQuery _ _)
  | marked _ kept m ih => exact ih.rewritten (skeleton_marked kept m _)

/-- What closures make of a stream of rows has filters more, or is selected from it. -/
theorem MadeFrom.extends {r : Query} (h : MadeFrom Derives q r) (rows : q.current.shape = .rows) :
    ∃ more, q.Extends more r.current ∧ (more = 0 → q.SelectedFrom r) := by
  induction h with
  | stream => exact ⟨0, ⟨rfl, rfl, rfl⟩, fun _ => .stream⟩
  | @step r r' _ made m ih =>
      obtain ⟨more, range, selected⟩ := ih
      rcases made.selects_or_filters (range.shape.trans rows) with selects | ⟨shape, ids, longer⟩
      · exact ⟨more, (range.selects selects).rewritten (skeleton_separate r' m),
          fun none => (selected none).step selects m⟩
      · have filtered : q.Extends (more + 1) r'.current :=
          ⟨shape.trans range.shape, ids.trans range.ids, by rw [longer, range.filters, Nat.add_assoc]⟩
        exact ⟨more + 1, filtered.rewritten (skeleton_separate r' m), by simp⟩
  | placed _ scope row ih =>
      obtain ⟨more, range, selected⟩ := ih
      exact ⟨more, range.rewritten (skeleton_resultQuery _ _),
        fun none => (selected none).placed scope row⟩
  | settled _ held ih =>
      obtain ⟨more, range, selected⟩ := ih
      exact ⟨more, range.rewritten (skeleton_resultQuery _ _),
        fun none => (selected none).settled held⟩
  | marked _ kept m ih =>
      obtain ⟨more, range, selected⟩ := ih
      exact ⟨more, range.rewritten (skeleton_marked kept m _),
        fun none => (selected none).marked kept m⟩

end Query

theorem Select.sameScope_of_marking {l : Likeness} (sight : l.AtSight) {s t : Select}
    (numbers : ∀ c ∈ s.scope, c.NoNaN)
    (sources : s.sources.map Source.skeleton = t.sources.map Source.skeleton)
    (scope : s.scope.map (Expr.relabel .unmark) = t.scope.map (Expr.relabel .unmark)) :
    s.sameScope l t = true := by
  simp only [Select.scope, List.map_append] at scope
  obtain ⟨paths, filters⟩ := List.append_inj scope (by simpa using Source.length_paths sources)
  simp only [sameScope, Bool.and_eq_true, Source.likeAll_iff]
  refine ⟨⟨sources, Expr.likeAll_of_marking sight (fun c hc => ?_) paths⟩,
    Expr.likeAll_of_marking sight (fun c hc => ?_) filters⟩
  · exact numbers c (List.mem_append_left _ hc)
  · exact numbers c (List.mem_append_right _ hc)

namespace Rendering.Place

variable {l : Likeness} {p p' c : Place}

theorem Visits.holding {P : Query → Prop} (visits : Visits l p p') (h : p.expr.Holding P) :
    p'.expr.Holding P := by
  induction visits with
  | here => exact h
  | onward hc _ ih => exact ih ((Expr.everywhere_iff.mp h).2 _ (expr_mem_parts hc))

/-- What is visited for a query, the query aside, is visited for one of its clauses. -/
theorem Visits.holding_clause {q : Query} {P : Query → Prop} (visits : Visits l q.place p)
    (h : ∀ c ∈ q.normalize.current.clauses, c.Holding P)
    (inner : p.expr ≠ q.place.expr) : p.expr.Holding P := by
  cases visits with
  | here => exact absurd rfl inner
  | @onward _ c _ hc visits =>
      refine visits.holding ?_
      rcases Expr.mem_parts_true.mp (expr_mem_parts hc) with child | ⟨query, held, clause⟩
      · cases child
      · cases held
        exact h c.expr clause

end Rendering.Place

def Query.FoldsTo (q q' : Query) : Prop :=
  ∃ (compiler : Compiler) (operation : Operation), compiler.fold q operation = .ok q'

namespace Reached

open Rendering

variable {q : Query} {p : Place} {fn : AggregateFn} {arg : Option Expr} {r : Query} {t : ValueType}

/-- An aggregate over the first source and no more filters than there are is over the rows
of the query it stands in. -/
theorem sameScope_normalize {allowed : Compiler → Query → Operation → Query → Prop}
    (h : Reached allowed q) (ended : q.current.shape ≠ .rows)
    (numbers : ∀ c ∈ q.current.scope, c.NoNaN) (visits : Place.Visits rowsAlike q.place p)
    (node : p.expr = .aggregate fn arg r t) (first : 0 ∈ r.current.ids)
    (filters : r.current.filters.length = q.current.filters.length) :
    q.normalize.current.sameScope rowsAlike r.current = true := by
  have steady := h.steady numbers
  have normal := Query.scope_normalize steady
  have sources := Select.sources_skeleton q.normalize_spec.1
  have lasting := (Query.lasting_narrows steady).onSource 0
  have whole : q.current.Narrows q.normalize.current := ⟨sources, normal ▸ List.prefix_refl _⟩
  have clauses := Query.holding_normalize lasting (h.holding_narrows ended numbers)
  have here : p.expr.Holding fun r => 0 ∈ r.current.ids → q.current.Narrows r.current :=
    visits.holding (Expr.holding_subQuery.mpr ⟨fun _ => whole, clauses⟩)
  rw [node] at here
  have narrows : q.current.Narrows r.current := (Expr.holding_aggregate.mp here).1.1 first
  have lengths : (q.current.scope.map (Expr.relabel .unmark)).length =
      (r.current.scope.map (Expr.relabel .unmark)).length := by
    simp [Select.scope, filters, Source.length_paths narrows.sources]
  refine Select.sameScope_of_marking (.kept _) (fun c hc => ?_) (sources.trans narrows.sources.symm)
    (normal.trans (narrows.scope.eq_of_length lengths))
  obtain ⟨clause, hclause, same⟩ := List.mem_map.mp (normal ▸ List.mem_map_of_mem hc)
  exact Expr.Marking.noNaN same.symm (numbers clause hclause)

section Later

variable {before first : Query} {compiler : Compiler} {operation : Operation}

/-- Folds after rows were grouped or aggregated leave the sources and filters. -/
theorem later_folds (h : Reached (fun _ _ _ _ => True) before)
    (folds : compiler.fold before operation = .ok first) (ends : operation.isRowwise = false)
    (later : Relation.ReflTransGen Query.FoldsTo first q) :
    Reached (fun _ _ _ _ => True) q ∧ q.current.shape ≠ .rows ∧
      q.current.sources = before.current.sources ∧ q.current.filters = before.current.filters := by
  induction later with
  | refl =>
      obtain ⟨step, -, ended⟩ :=
        Query.foldStep_of_not_rowwise ends (Compiler.fold_eq_ok.mp folds)
      exact ⟨.folded h folds trivial, ended, step.sameSource ended⟩
  | tail _ last ih =>
      obtain ⟨compiler, operation, folds⟩ := last
      obtain ⟨reached, ended, sources, filters⟩ := ih
      have step := Compiler.foldStep folds
      obtain ⟨-, shape⟩ := step.rowwise_or_ends.resolve_right fun ends => ended ends.1
      have still := shape ▸ ended
      obtain ⟨sources', filters'⟩ := step.sameSource still
      exact ⟨.folded reached folds trivial, still, sources'.trans sources, filters'.trans filters⟩

/-- All queries over the first source that stand in the clauses then were made of the stream by
the closures of that fold. -/
theorem holding_madeFrom (h : Reached (fun _ _ _ _ => True) before)
    (folds : compiler.fold before operation = .ok first) (ends : operation.isRowwise = false)
    (later : Relation.ReflTransGen Query.FoldsTo first q) :
    ∀ c ∈ q.current.clauses,
      c.Holding fun r => 0 ∈ r.current.ids → Query.MadeFrom Query.Derives before r := by
  have lasting := (Query.lasting_madeFrom before).onSource 0
  induction later with
  | refl =>
      obtain ⟨step, rows, -⟩ := Query.foldStep_of_not_rowwise ends (Compiler.fold_eq_ok.mp folds)
      refine step.holding lasting (fun _ => .stream) (fun c hc => ?_) fun source later mem => ?_
      · exact (h.holding_rows rows c hc).mono fun r none mem => (none mem).elim
      · exact absurd mem (h.zero_not_mem_opened later)
  | tail steps last ih =>
      obtain ⟨reached, ended, -⟩ := later_folds h folds ends steps
      obtain ⟨compiler, operation, folds⟩ := last
      obtain ⟨folded, -⟩ := (Compiler.foldStep folds).rowwise_or_ends.resolve_right
        fun ends => ended ends.1
      have opened : ∀ source : Source, _ ≤ source.id → 0 ∈ (Query.ofSource source).current.ids →
          Query.MadeFrom Query.Derives before (.ofSource source) := fun _ later mem =>
        absurd mem (reached.zero_not_mem_opened later)
      exact folded.holding lasting ih opened fun made => made.holding lasting ih opened

/-- An aggregate over the stream that was grouped or aggregated, or over what closures
selected from it, is written as a function of the rows around it, right after that fold and
after any later ones. Such is the value of a whole stream, and all aggregates over the sources
of the stream that have no filter more. -/
theorem aggregate_inline (h : Reached (fun _ _ _ _ => True) before)
    (folds : compiler.fold before operation = .ok first) (ends : operation.isRowwise = false)
    (later : Relation.ReflTransGen Query.FoldsTo first q)
    (numbers : ∀ c ∈ q.current.clauses, c.NoNaN) (visits : Place.Visits rowsAlike q.place p)
    (outside : p.around = [q.normalize.current]) (node : p.expr = .aggregate fn arg r t) :
    (∀ summary ∈ operation.summary?,
      ∃ arg, first.current.projection = some (.summarize summary arg before)) ∧
    (before.SelectedFrom r ↔ r.current.ids = before.current.ids ∧
      r.current.filters.length = before.current.filters.length) ∧
    (before.SelectedFrom r → p.entered? rowsAlike = none ∧
      (columns rowsAlike q.normalize.current p.expr : RenderM (List String)) = (do
        let inner ← argument rowsAlike q.normalize.current arg r.current
        pure [fn.name ++ "(" ++ inner ++ ")"])) := by
  obtain ⟨reached, ended, sources, filters⟩ := later_folds h folds ends later
  refine ⟨fun _ => Compiler.projection_summary folds,
    ⟨fun selected => ⟨selected.extends.ids, selected.extends.filters⟩, fun range => ?_⟩,
    fun selected => ?_⟩
  · obtain ⟨ids, length⟩ := range
    have rows := (Query.foldStep_of_not_rowwise ends (Compiler.fold_eq_ok.mp folds)).2.1
    have here := visits.holding_clause
      (Query.holding_normalize ((Query.lasting_madeFrom before).onSource 0)
        (h.holding_madeFrom folds ends later)) (by simp [node, Query.place, Expr.embed])
    rw [node] at here
    have made := (Expr.holding_aggregate.mp here).1.1 (ids ▸ h.zero_mem_ids)
    obtain ⟨more, range, selected⟩ := made.extends rows
    have filters := range.filters
    exact selected (by omega)
  · have range := selected.extends
    have same := reached.sameScope_normalize ended
      (fun c hc => numbers c (Select.mem_clauses_of_mem_scope hc)) visits node
      (range.ids ▸ h.zero_mem_ids) (range.filters.trans (congrArg List.length filters.symm))
    constructor
    · simp [Place.entered?, Place.inScope, node, outside, same]
    · rw [node, columns, if_pos same]
      rfl

end Later

def groupNames : Closure where
  body := ⟨2, [.any, .stream (.entity "Customer")], [], .long,
    [.loadParam 1,
      .makeClosure ⟨3, [.entity "Customer"], [], .text,
        [.loadParam 0, .invoke ⟨"Customer", "getName", 0, false⟩, .ret]⟩ [],
      .invoke ⟨"JinqStream", "select", 1, false⟩, .invoke ⟨"JinqStream", "count", 0, false⟩, .ret]⟩
  captured := []

def hasSecond : Closure where
  body := ⟨4, [.any], [], .bool,
    [.loadParam 0, .invoke ⟨"Pair", "getTwo", 0, false⟩, .const (.int 1), .compare .gt, .ret]⟩
  captured := []

theorem aggregate_inline_groupNames :
    ∃ first q p r, customers.fold (.ofEntity "Customer") (.group countryOf groupNames) = .ok first ∧
      customers.fold first (.filter hasSecond) = .ok q ∧ Place.Visits rowsAlike q.place p ∧
      p.expr = .aggregate .count none r .long ∧ r ≠ .ofEntity "Customer" ∧
      (Query.ofEntity "Customer").SelectedFrom r ∧ p.entered? rowsAlike = none ∧
      (columns rowsAlike q.normalize.current p.expr : RenderM (List String)) = (do
        let inner ← argument rowsAlike q.normalize.current none r.current
        pure [AggregateFn.count.name ++ "(" ++ inner ++ ")"]) ∧
      customers.queryText q = .ok
        "SELECT (A.country), COUNT(A) FROM Customer A GROUP BY (A.country) HAVING (COUNT(A) > 1)" := by
  let names : Expr := .path (.row 0 (.entity "Customer")) ⟨"Customer", "name", .text⟩ .text
  let selected : Query := (Query.ofEntity "Customer").derive 1 ({ · with projection := some names })
  let r : Query := (selected.separate.run 1).1
  have ran : (customers.fold (.ofEntity "Customer") (.group countryOf groupNames)).map
      (fun first => (customers.fold first (.filter hasSecond)).map fun q =>
        (q.current.clauses.all fun c => decide c.NoNaN, customers.queryText q,
          (q.place.along? rowsAlike [0, 1]).map fun p =>
            (decide (p.around = [q.normalize.current]), p.expr))) =
      .ok (.ok (true, .ok ("SELECT (A.country), COUNT(A) FROM Customer A GROUP BY (A.country) " ++
        "HAVING (COUNT(A) > 1)"), some (true, .aggregate .count none r .long))) := by
    decide +kernel
  obtain ⟨first, groups, found⟩ := Compile.map_eq_ok.mp ran
  obtain ⟨q, filters, found⟩ := Compile.map_eq_ok.mp found
  simp only [Prod.mk.injEq, Option.map_eq_some_iff, decide_eq_true_eq, List.all_eq_true] at found
  obtain ⟨numbers, text, p, column, around, node⟩ := found
  have opens : customers.streamAll "Customer" = .ok (.ofEntity "Customer") := rfl
  have inline := aggregate_inline (.opened opens) groups rfl (.single ⟨customers, _, filters⟩)
    numbers (Place.visits_along column) around node
  have derived : (Query.ofEntity "Customer").SelectedFrom r := inline.2.1.mpr ⟨rfl, rfl⟩
  obtain ⟨stays, inner⟩ := inline.2.2 derived
  refine ⟨first, q, p, r, groups, filters, Place.visits_along column, node, ?_, derived,
    stays, inner, text⟩
  decide

end Reached

end StreamQuery
