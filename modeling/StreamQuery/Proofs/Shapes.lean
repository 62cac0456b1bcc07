import StreamQuery.Proofs.Holding
import StreamQuery.Proofs.Subselects

/-! # Shapes of queries along a run

What shape a query has decides which of its clauses are in use. Rows are not grouped,
groups are rows of a key and a value, and one row of aggregates has no clauses after
its projection. Rows that are cut off stay the rows they were, and distinct rows keep
their columns. Every query of a run keeps all the queries before it.
-/

namespace StreamQuery

def Query.ancestor? : Nat → Query → Option Query
  | 0, q => some q
  | n + 1, q => q.parent?.bind (ancestor? n)

namespace Select

/-- Which clauses a selection of each shape has. -/
structure Shaped (s : Select) : Prop where
  rows : s.shape = .rows → s.groupBy = [] ∧ s.having = []
  grouped : s.shape = .grouped → ∃ key value, s.projection = some (.pack [key, value]) ∧
    s.groupBy = key.columns ∧ s.groupBy ≠ []
  aggregated : s.shape = .aggregated → s.projection.isSome = true ∧ s.distinct = false ∧
    s.groupBy = [] ∧ s.having = [] ∧ s.orderBy = [] ∧ s.skip = none ∧ s.limit = none

def isBounded (s : Select) : Bool := s.skip.isSome || s.limit.isSome

/-- The rows of two selections are the same and in the same order, if none are cut off. -/
structure SameRows (s t : Select) : Prop where
  sources : t.sources = s.sources
  filters : t.filters = s.filters
  groupBy : t.groupBy = s.groupBy
  having : t.having = s.having
  orderBy : t.orderBy = s.orderBy
  distinct : t.distinct = s.distinct
  shape : t.shape = s.shape

/-- The rows of two selections have the same columns. -/
structure SameColumns (s t : Select) : Prop where
  sources : t.sources = s.sources
  projection : t.projection = s.projection
  groupBy : t.groupBy = s.groupBy
  shape : t.shape = s.shape

theorem SameRows.trans {s t u : Select} (h : SameRows s t) (h' : SameRows t u) : SameRows s u :=
  ⟨h'.sources.trans h.sources, h'.filters.trans h.filters, h'.groupBy.trans h.groupBy,
    h'.having.trans h.having, h'.orderBy.trans h.orderBy, h'.distinct.trans h.distinct,
    h'.shape.trans h.shape⟩

theorem SameColumns.trans {s t u : Select} (h : SameColumns s t) (h' : SameColumns t u) :
    SameColumns s u :=
  ⟨h'.sources.trans h.sources, h'.projection.trans h.projection, h'.groupBy.trans h.groupBy,
    h'.shape.trans h.shape⟩

theorem not_isBounded {s : Select} : s.isBounded = false ↔ s.skip = none ∧ s.limit = none := by
  simp [isBounded]

end Select

/-! ## Columns of a row -/

namespace Expr

/-- Every row that is no empty tuple has a column. -/
theorem Holding.columns_ne_nil {P : Query → Prop} {e : Expr} (h : e.Holding P) :
    e.columns ≠ [] := by
  induction e using columnsInduction with
  | tuple items t ih =>
      obtain ⟨wide, -, children⟩ := holding_iff.mp h
      cases items with
      | nil => exact absurd rfl (wide t)
      | cons first rest =>
          have some := ih first List.mem_cons_self (children first List.mem_cons_self)
          simp [columns, columnsOf, some]
  | single e single => simp [columns_of_single single]

end Expr

/-! ## One fold -/

namespace Query

variable {q q' : Query}

theorem parent?_derive (next : SourceId) (edit : Select → Select) :
    (q.derive next edit).parent? = some q := by
  cases q
  rfl

/-- Every operation starts from the query before it and keeps that. -/
theorem FoldStep.parent? (h : FoldStep q q') : q'.parent? = some q := by
  cases h with
  | filter _ derived =>
      obtain ⟨-, -, -, rfl⟩ := filtered_eq_ok.mp derived
      exact parent?_derive ..
  | select _ derived =>
      obtain ⟨-, -, rfl⟩ := projected_eq_ok.mp derived
      exact parent?_derive ..
  | join _ derived =>
      obtain ⟨-, -, -, -, -, rfl⟩ := joined_eq_ok.mp derived
      exact parent?_derive ..
  | group _ _ _ derived =>
      obtain ⟨-, -, -, -, rfl⟩ := grouped_eq_ok.mp derived
      exact parent?_derive ..
  | aggregate _ derived =>
      obtain ⟨-, -, -, -, rfl⟩ := aggregated_eq_ok.mp derived
      exact parent?_derive ..
  | sortedBy _ derived =>
      obtain ⟨-, -, -, rfl⟩ := sorted_eq_ok.mp derived
      exact parent?_derive ..
  | skip derived =>
      obtain ⟨-, -, rfl⟩ := skipped_eq_ok.mp derived
      exact parent?_derive ..
  | limit derived =>
      obtain ⟨-, rfl⟩ := limited_eq_ok.mp derived
      exact parent?_derive ..
  | distinct derived =>
      obtain ⟨-, -, rfl⟩ := distinctRows_eq_ok.mp derived
      exact parent?_derive ..

theorem depth_of_parent? (h : q'.parent? = some q) : q'.depth = q.depth + 1 := by
  obtain ⟨current, past⟩ := q'
  cases past with
  | nil => cases h
  | cons last earlier =>
      cases h
      rfl

/-- Sources are only added at the end. -/
theorem Folded.root? {made : Query → SourceId → SourceId → Expr → Prop} (h : Folded made q q')
    {root : Source} (first : q.current.root? = some root) : q'.current.root? = some root := by
  cases h with
  | adds adds => rwa [Select.root?, adds.sources]
  | joins _ joined => rw [Select.root?, (joins_joined joined).sources, List.head?_append,
      ← Select.root?, first, Option.some_or]

theorem FoldStep.shaped (clauses : ∀ c ∈ q.current.clauses, c.Holding fun _ => True)
    (shaped : q.current.Shaped) (h : FoldStep q q') : q'.current.Shaped := by
  have plain : ∀ {s : Select}, s.shape = .rows → s.groupBy = [] ∧ s.having = [] → s.Shaped :=
    fun shape unused => ⟨fun _ => unused, by simp [shape], by simp [shape]⟩
  cases h with
  | filter _ derived =>
      obtain ⟨allowed, -, -, rfl⟩ := filtered_eq_ok.mp derived
      simp only [derive]
      split
      · exact ⟨shaped.rows, shaped.grouped, shaped.aggregated⟩
      split
      · next grouped =>
          exact ⟨by simp [grouped], shaped.grouped, by simp [grouped]⟩
      · next other =>
          have rows : q.current.shape = .rows := by simpa [other] using allowed
          exact plain rows (shaped.rows rows)
  | select _ derived =>
      obtain ⟨rows, -, rfl⟩ := projected_eq_ok.mp derived
      exact plain rows (shaped.rows rows)
  | join _ derived =>
      obtain ⟨rows, -, -, -, -, rfl⟩ := joined_eq_ok.mp derived
      exact plain rows (shaped.rows rows)
  | group made _ _ derived =>
      obtain ⟨-, -, -, -, rfl⟩ := grouped_eq_ok.mp derived
      have key := made.holding lasting_true clauses fun _ _ => trivial
      exact ⟨by simp [derive], fun _ => ⟨_, _, rfl, rfl, key.columns_ne_nil⟩, by simp [derive]⟩
  | aggregate _ derived =>
      obtain ⟨rows, ⟨skip, limit⟩, distinct, -, rfl⟩ := aggregated_eq_ok.mp derived
      obtain ⟨groupBy, having⟩ := shaped.rows rows
      exact ⟨by simp [derive], by simp [derive], fun _ => ⟨rfl, distinct, groupBy, having, rfl, skip, limit⟩⟩
  | sortedBy _ derived =>
      obtain ⟨allowed, -, -, rfl⟩ := sorted_eq_ok.mp derived
      exact ⟨shaped.rows, shaped.grouped, fun shape => by simp_all [derive]⟩
  | skip derived =>
      obtain ⟨allowed, -, rfl⟩ := skipped_eq_ok.mp derived
      exact ⟨shaped.rows, shaped.grouped, fun shape => by simp_all [derive]⟩
  | limit derived =>
      obtain ⟨allowed, rfl⟩ := limited_eq_ok.mp derived
      exact ⟨shaped.rows, shaped.grouped, fun shape => by simp_all [derive]⟩
  | distinct derived =>
      obtain ⟨allowed, -, rfl⟩ := distinctRows_eq_ok.mp derived
      exact ⟨shaped.rows, shaped.grouped, fun shape => by simp_all [derive]⟩

/-- Once rows are cut off, they can be projected or cut off further, and nothing else. -/
theorem FoldStep.sameRows (h : FoldStep q q') (bounded : q.current.isBounded = true) :
    q.current.SameRows q'.current ∧ q'.current.isBounded = true := by
  have refused : ¬ (q.current.skip = none ∧ q.current.limit = none) := by
    rw [← Select.not_isBounded, bounded]
    simp
  cases h with
  | filter _ derived => exact absurd (filtered_eq_ok.mp derived).2.1 refused
  | select _ derived =>
      obtain ⟨-, -, rfl⟩ := projected_eq_ok.mp derived
      exact ⟨⟨rfl, rfl, rfl, rfl, rfl, rfl, rfl⟩, bounded⟩
  | join _ derived => exact absurd (joined_eq_ok.mp derived).2.1 refused
  | group _ _ _ derived => exact absurd (grouped_eq_ok.mp derived).2.1 refused
  | aggregate _ derived => exact absurd (aggregated_eq_ok.mp derived).2.1 refused
  | sortedBy _ derived => exact absurd (sorted_eq_ok.mp derived).2.1 refused
  | skip derived =>
      obtain ⟨-, -, rfl⟩ := skipped_eq_ok.mp derived
      exact ⟨⟨rfl, rfl, rfl, rfl, rfl, rfl, rfl⟩, by simp [derive, Select.isBounded]⟩
  | limit derived =>
      obtain ⟨-, rfl⟩ := limited_eq_ok.mp derived
      exact ⟨⟨rfl, rfl, rfl, rfl, rfl, rfl, rfl⟩, by simp [derive, Select.isBounded]⟩
  | distinct derived => exact absurd (distinctRows_eq_ok.mp derived).2.1 refused

/-- Once rows are told apart by their columns, the columns stay. -/
theorem FoldStep.sameColumns (h : FoldStep q q') (distinct : q.current.distinct = true) :
    q.current.SameColumns q'.current ∧ q'.current.distinct = true := by
  have refused : ¬ q.current.distinct = false := by simp [distinct]
  cases h with
  | filter _ derived =>
      obtain ⟨-, -, -, rfl⟩ := filtered_eq_ok.mp derived
      simp only [derive]
      split
      · exact ⟨⟨rfl, rfl, rfl, rfl⟩, distinct⟩
      split
      · exact ⟨⟨rfl, rfl, rfl, rfl⟩, distinct⟩
      · exact ⟨⟨rfl, rfl, rfl, rfl⟩, distinct⟩
  | select _ derived => exact absurd (projected_eq_ok.mp derived).2.1 refused
  | join _ derived => exact absurd (joined_eq_ok.mp derived).2.2.1 refused
  | group _ _ _ derived => exact absurd (grouped_eq_ok.mp derived).2.2.1 refused
  | aggregate _ derived => exact absurd (aggregated_eq_ok.mp derived).2.2.1 refused
  | sortedBy _ derived =>
      obtain ⟨-, -, -, rfl⟩ := sorted_eq_ok.mp derived
      exact ⟨⟨rfl, rfl, rfl, rfl⟩, distinct⟩
  | skip derived =>
      obtain ⟨-, -, rfl⟩ := skipped_eq_ok.mp derived
      exact ⟨⟨rfl, rfl, rfl, rfl⟩, distinct⟩
  | limit derived =>
      obtain ⟨-, rfl⟩ := limited_eq_ok.mp derived
      exact ⟨⟨rfl, rfl, rfl, rfl⟩, distinct⟩
  | distinct derived =>
      obtain ⟨-, -, rfl⟩ := distinctRows_eq_ok.mp derived
      exact ⟨⟨rfl, rfl, rfl, rfl⟩, rfl⟩

end Query

/-! ## Whole runs -/

theorem Reached.shaped {allowed : Compiler → Query → Operation → Query → Prop} {q : Query}
    (h : Reached allowed q) : q.current.Shaped := by
  refine (h.stepwise (P := fun q => q.current.Shaped ∧
    ∀ c ∈ q.current.clauses, c.Holding fun _ => True) ?_ ?_).1
  · intro entity
    refine ⟨⟨fun _ => ⟨rfl, rfl⟩, nofun, nofun⟩, ?_⟩
    simp [Query.ofEntity, Query.ofSource, Select.ofSource, Select.clauses, Source.path?]
  · rintro q q' ⟨shaped, clauses⟩ step
    exact ⟨step.shaped clauses shaped,
      step.holding Query.lasting_true trivial clauses fun _ _ => trivial⟩

namespace Trail

variable {entity : String} {earlier : List Query} {q : Query}

theorem root? (h : Trail entity earlier q) : q.current.root? = some (.entity 0 entity) := by
  induction h with
  | opened h =>
      rw [Compiler.streamAll_eq_ok h]
      rfl
  | folded _ folds ih => exact (Compiler.foldStep folds).folded.root? ih

theorem sameRows (h : Trail entity earlier q) {r : Query} (before : r ∈ earlier)
    (bounded : r.current.isBounded = true) :
    r.current.SameRows q.current ∧ q.current.isBounded = true := by
  induction h with
  | opened => cases before
  | folded _ folds ih =>
      have step := Compiler.foldStep folds
      rcases List.mem_cons.mp before with rfl | before
      · exact step.sameRows bounded
      · obtain ⟨same, bounded⟩ := ih before
        exact ⟨same.trans (step.sameRows bounded).1, (step.sameRows bounded).2⟩

theorem sameColumns (h : Trail entity earlier q) {r : Query} (before : r ∈ earlier)
    (distinct : r.current.distinct = true) :
    r.current.SameColumns q.current ∧ q.current.distinct = true := by
  induction h with
  | opened => cases before
  | folded _ folds ih =>
      have step := Compiler.foldStep folds
      rcases List.mem_cons.mp before with rfl | before
      · exact step.sameColumns distinct
      · obtain ⟨same, distinct⟩ := ih before
        exact ⟨same.trans (step.sameColumns distinct).1, (step.sameColumns distinct).2⟩

theorem depth_eq (h : Trail entity earlier q) : q.depth = earlier.length + 1 := by
  induction h with
  | opened h =>
      rw [Compiler.streamAll_eq_ok h]
      rfl
  | folded _ folds ih =>
      rw [Query.depth_of_parent? (Compiler.foldStep folds).parent?, ih, List.length_cons]

theorem ancestor?_eq (h : Trail entity earlier q) (n : Nat) :
    q.ancestor? n = (q :: earlier)[n]? := by
  induction h generalizing n with
  | opened h =>
      rw [Compiler.streamAll_eq_ok h]
      cases n <;> rfl
  | folded _ folds ih =>
      cases n with
      | zero => rfl
      | succ n => rw [Query.ancestor?, (Compiler.foldStep folds).parent?, Option.bind_some, ih,
          List.getElem?_cons_succ]

/-- Along every run of folds from all rows of an entity the first source is that entity,
and the shape of a query decides which clauses it has. Rows that are cut off stay the
rows they were, distinct rows keep their columns, and the derivation of a query is the
run that led to it. -/
theorem run_shaped (h : Trail entity earlier q) :
    q.current.root? = some (.entity 0 entity) ∧ q.current.Shaped ∧
    (∀ r ∈ earlier, r.current.isBounded = true → r.current.SameRows q.current) ∧
    (∀ r ∈ earlier, r.current.distinct = true → r.current.SameColumns q.current) ∧
    q.depth = earlier.length + 1 ∧ ∀ n, q.ancestor? n = (q :: earlier)[n]? :=
  ⟨h.root?, h.reached.shaped, fun _ before bounded => (h.sameRows before bounded).1,
    fun _ before distinct => (h.sameColumns before distinct).1, h.depth_eq, h.ancestor?_eq⟩

def groupSize : Closure where
  body := ⟨2, [.any, .stream (.entity "Customer")], [], .long,
    [.loadParam 1, .invoke ⟨"JinqStream", "count", 0, false⟩, .ret]⟩
  captured := []

theorem run_shaped_groupSize :
    ∃ earlier q, Trail "Customer" earlier q ∧ q.current.shape = .grouped ∧
      (∃ key value, q.current.projection = some (.pack [key, value]) ∧
        q.current.groupBy = key.columns ∧ q.current.groupBy ≠ []) ∧
      (∀ r ∈ earlier, r.current.isBounded = true → r.current.SameRows q.current) ∧
      (∀ r ∈ earlier, r.current.distinct = true → r.current.SameColumns q.current) ∧
      q.depth = 5 ∧ ∀ n, q.ancestor? n = (q :: earlier)[n]? := by
  have ran : (Reached.customers.chain "Customer"
      [.group Reached.countryOf groupSize, .distinct, .skip 3, .limit 2]).map
        (·.current.shape) = .ok .grouped := by
    decide +kernel
  obtain ⟨q, folds, shape⟩ := Compile.map_eq_ok.mp ran
  obtain ⟨earlier, trail, length⟩ := chain folds
  obtain ⟨-, shaped, bounded, distinct, depth, ancestors⟩ := run_shaped trail
  exact ⟨earlier, q, trail, shape, shaped.grouped shape, bounded, distinct,
    by simpa [length] using depth, ancestors⟩

end Trail

end StreamQuery
