import StreamQuery.Proofs.Steps

/-! # Joins of lists

A join puts one more loop inside the loops of a query and its filters among the
others. The row of the new source is set by no loop outside it, so the clauses of
the query mean what they meant, and those of the joined stream mean what they meant
over the element.
-/

namespace StreamQuery

variable {Obj : Type} {db : Database Obj} {ν : Valuation Obj}

/-- A filter on a loop inside a loop of which one part is about the outer rows. -/
theorem filter_flatMap_and {α β : Type} {l : List α} {f : α → List β} {p r : β → Bool}
    {outer : α → Bool} (h : ∀ a ∈ l, ∀ b ∈ f a, p b = (outer a && r b)) :
    (l.flatMap f).filter p = (l.filter outer).flatMap fun a => (f a).filter r := by
  induction l with
  | nil => rfl
  | cons a l ih =>
      obtain ⟨first, others⟩ := List.forall_mem_cons.mp h
      rw [List.flatMap_cons, List.filter_append, ih others, List.filter_congr first,
        List.filter_cons]
      cases outer a <;> simp

theorem Source.eval_row (source : Source) (ops : Operations Obj) (ν : Valuation Obj)
    (d : Datum Obj) : source.row.eval ops (ν.withRow source.id d) = d := by
  simp [row, Expr.eval, Valuation.withRow]

namespace Select

variable {s : Select} {source : Source}

structure Plain (s : Select) (source : Source) : Prop where
  sources : s.sources = [source]
  projection : s.projection = none
  orderBy : s.orderBy = []
  distinct : s.distinct = false
  unbounded : s.skip = none ∧ s.limit = none

theorem exists_plain (h : Query.isPlain s = true) : ∃ source, s.Plain source := by
  simp only [Query.isPlain, Bool.and_eq_true, beq_iff_eq, Option.isNone_iff_eq_none,
    List.isEmpty_iff, Bool.not_eq_true'] at h
  obtain ⟨⟨⟨⟨⟨⟨one, projection⟩, -⟩, orderBy⟩, distinct⟩, skip⟩, limit⟩ := h
  obtain ⟨source, sources⟩ := List.length_eq_one_iff.mp one
  exact ⟨source, sources, projection, orderBy, distinct, skip, limit⟩

theorem isPlain_skeleton (s : Select) : Query.isPlain s.skeleton = Query.isPlain s := by
  simp [Query.isPlain, skeleton]

theorem Plain.currentRow_eq (plain : s.Plain source) : s.currentRow = source.row := by
  rw [currentRow, root?, plain.projection, plain.sources]
  rfl

theorem Plain.ids_eq (plain : s.Plain source) : s.ids = [source.id] := by
  rw [ids, plain.sources]
  rfl

/-- The list of a plain selection is what the filters leave of one source. -/
theorem Plain.list_eq [DecidableEq Obj] (plain : s.Plain source) (ν : Valuation Obj) :
    s.list db ν =
      (source.rows db ν).filter fun d => passes db s.filters (ν.withRow source.id d) := by
  have rows : s.rows db ν = ((source.rows db ν).filter fun d =>
      passes db s.filters (ν.withRow source.id d)).map (ν.withRow source.id) := by
    rw [Select.rows, plain.orderBy, ranking, Ranking.sort_level, plain.sources,
      db.product_singleton, List.filter_map]
    rfl
  rw [list_eq_reduced plain.unbounded, plain.distinct, rows, plain.currentRow_eq, List.map_map]
  refine (List.map_congr_left fun d _ => ?_).trans (List.map_id _)
  exact source.eval_row db.ops ν d

end Select

theorem Source.id_of_skeleton {source source' : Source}
    (h : source'.skeleton = source.skeleton) : source'.id = source.id := by
  cases source <;> cases source' <;> simp_all [skeleton, id]

/-- Sources of one form have the same rows if their paths lead to the same data. -/
theorem Source.rows_congr {source source' : Source} {f : Expr → Expr} {μ μ' : Valuation Obj}
    (skeleton : source'.skeleton = source.skeleton)
    (paths : [source'].filterMap path? = ([source].filterMap path?).map f)
    (values : ∀ c ∈ [source].filterMap path?, (f c).eval db.ops μ = c.eval db.ops μ') :
    source'.rows db μ = source.rows db μ' := by
  cases source with
  | entity id name =>
      cases source' with
      | entity id' name' =>
          obtain ⟨rfl, rfl⟩ := Source.entity.inj skeleton
          rfl
      | navigation => cases skeleton
  | navigation id path rowType =>
      cases source' with
      | entity => cases skeleton
      | navigation id' path' rowType' =>
          obtain rfl : path' = f path := by simpa [path?] using paths
          rw [rows, rows, values path (by simp [path?])]

theorem passes_map {f : Expr → Expr} {filters : List Expr} {μ μ' : Valuation Obj}
    (h : ∀ c ∈ filters, (f c).eval db.ops μ' = c.eval db.ops μ) :
    passes db (filters.map f) μ' = passes db filters μ := by
  induction filters with
  | nil => rfl
  | cons c rest ih =>
      obtain ⟨first, others⟩ := List.forall_mem_cons.mp h
      have tail := ih others
      rw [passes, passes, List.map_cons, List.all_cons, List.all_cons, first]
      exact congrArg _ tail

theorem passes_congr {ids : List SourceId} {filters : List Expr} {μ μ' : Valuation Obj}
    (bound : ∀ c ∈ filters, c.Bound [] ids) (agrees : μ'.Agrees [] ids μ) :
    passes db filters μ' = passes db filters μ := by
  have same : passes db (filters.map id) μ' = passes db filters μ :=
    passes_map fun c hc => (bound c hc).eval_congr agrees
  rwa [List.map_id] at same

theorem ranking_congr {ids : List SourceId} {keys : List SortKey} {a b a' b' : Valuation Obj}
    (bound : ∀ c ∈ keys.map SortKey.key, c.Bound [] ids) (ha : a'.Agrees [] ids a)
    (hb : b'.Agrees [] ids b) : (ranking db keys).le a' b' = (ranking db keys).le a b := by
  induction keys with
  | nil => rfl
  | cons key rest ih =>
      obtain ⟨first, others⟩ := List.forall_mem_cons.mp bound
      have tail := ih others
      simp only [ranking, Ranking.before, Ranking.le_through, first.eval_congr ha,
        first.eval_congr hb, tail]

namespace Query

variable {q q' other other' : Query} {source source' : Source} {held : Query → Bool}

/-- The loop over a joined stream stands inside the loops of before. -/
theorem rows_joined {next : SourceId} (closed : q.Closed) (h : q.joined other next = .ok q') :
    q'.current.rows db ν = (q.current.rows db ν).flatMap fun μ =>
      (db.product other.current.sources μ).filter (passes db other.current.filters) := by
  obtain ⟨-, -, -, -, -, derived⟩ := joined_eq_ok.mp h
  have unused := (joins_joined h).unused
  have agrees {μ μ' : Valuation Obj} (hμ : μ' ∈ db.product other.current.sources μ) :
      μ'.Agrees [] q.current.ids μ :=
    db.agrees_of_mem_product hμ (fun id hid mem => unused id mem hid) []
  have filters : ∀ c ∈ q.current.filters, c.Bound [] q.current.ids :=
    fun c hc => closed.clauses c (by simp [Select.clauses, hc])
  have keys : ∀ c ∈ q.current.orderBy.map SortKey.key, c.Bound [] q.current.ids :=
    fun c hc => closed.clauses c (List.mem_append_right _ hc)
  have kept : (db.product (q.current.sources ++ other.current.sources) ν).filter
      (passes db (q.current.filters ++ other.current.filters)) =
        ((db.product q.current.sources ν).filter (passes db q.current.filters)).flatMap fun μ =>
          (db.product other.current.sources μ).filter (passes db other.current.filters) := by
    rw [db.product_append]
    refine filter_flatMap_and fun μ _ μ' hμ' => ?_
    rw [← passes_congr filters (agrees hμ'), passes, List.all_append]
    rfl
  have looped : q'.current.rows db ν = (ranking db q.current.orderBy).sort
      ((db.product (q.current.sources ++ other.current.sources) ν).filter
        (passes db (q.current.filters ++ other.current.filters))) := by
    rw [← derived]
    rfl
  rw [looped, kept]
  refine (Ranking.flatMap_sort fun μ _ ξ _ μ' hμ' ξ' hξ' => ?_).symm
  exact ranking_congr keys (agrees (List.mem_of_mem_filter hμ'))
    (agrees (List.mem_of_mem_filter hξ'))

theorem Sound.hasValue_of_agrees (sound : q.Sound db ν) (closed : q.Closed)
    (unbounded : q.current.skip = none ∧ q.current.limit = none) {μ μ' : Valuation Obj}
    (h : μ ∈ q.current.rows db ν) (agrees : μ'.Agrees [] q.current.ids μ) :
    q.currentRow.HasValue db.ops μ' (q.currentRow.eval db.ops μ) := by
  rw [← Select.standing_eq_rows unbounded] at h
  have bound : q.currentRow.Bound [] q.current.ids := by
    simpa using bound_currentRow (closed_iff.mp closed).2
  exact (sound.hasValue h).congr bound agrees

/-- A clause of a joined stream, where the row of the query is in the place of the
element. -/
theorem Sound.eval_placed (sound : q.Sound db ν) (closed : q.Closed)
    (unbounded : q.current.skip = none ∧ q.current.limit = none) {μ μ' ν' : Valuation Obj}
    (h : μ ∈ q.current.rows db ν) (agrees : μ'.Agrees [] q.current.ids μ) {ids : List SourceId}
    (agrees' : (μ'.withElement 1 (q.currentRow.eval db.ops μ)).Agrees [1] ids ν') {c : Expr}
    (bound : c.Bound [1] ids) (elementary : c.Elementary) (typed : c.WellTyped db.ops ν')
    (held : Query → Bool) :
    (c.placed held 1 q.currentRow).eval db.ops μ' = c.eval db.ops ν' := by
  have row := sound.hasValue_of_agrees closed unbounded h agrees
  have typed' := (bound.wellTyped_congr agrees').mpr typed
  exact (row.placed held elementary typed').eval_eq.trans (bound.eval_congr agrees')

/-! ## The joined stream -/

/-- A stream over one source, before and after the row of a query took the place of the
element in its clauses. -/
structure PlacedStream (q other other' : Query) (source source' : Source)
    (held : Query → Bool) : Prop where
  before : other.current.Plain source
  after : other'.current.Plain source'
  skeleton : other'.current.skeleton = other.current.skeleton
  clauses : other'.current.clauses =
    other.current.clauses.map (Expr.placed · held 1 q.currentRow)
  bound : ∀ c ∈ other.current.clauses, c.Bound [1] other.current.ids
  unused : source.id ∉ q.current.ids

theorem PlacedStream.source_skeleton (placed : PlacedStream q other other' source source' held) :
    source'.skeleton = source.skeleton := by
  have sources := congrArg Select.sources placed.skeleton
  simpa [Select.skeleton, placed.before.sources, placed.after.sources] using sources

theorem exists_placedStream {next : SourceId} {t t' : ValueType} {mark : Nat}
    (row : q.currentRow.Elementary) (elementary : ∀ c ∈ other.current.clauses, c.Elementary)
    (bound : (Expr.subQuery other t).Bound [1] [])
    (inlined : (((Expr.subQuery other t).inlined 1 q.currentRow).run mark).1 = .subQuery other' t')
    (h : q.joined other' next = .ok q') :
    ∃ source source' held, PlacedStream q other other' source source' held := by
  obtain ⟨_, _, held, same, skeleton, clauses⟩ := Expr.inlined_subQuery elementary row t 1 mark
  obtain ⟨rfl, -⟩ := Expr.subQuery.inj (inlined.symm.trans same)
  obtain ⟨-, -, -, isPlain, -⟩ := joined_eq_ok.mp h
  obtain ⟨source', after⟩ := Select.exists_plain isPlain
  rw [← Select.isPlain_skeleton, skeleton, Select.isPlain_skeleton] at isPlain
  obtain ⟨source, before⟩ := Select.exists_plain isPlain
  refine ⟨source, source', held, before, after, skeleton, clauses, ?_, ?_⟩
  · simpa [Query.Within] using (Expr.within_subQuery.mp bound).2
  · refine (joins_joined h).unused source.id ?_
    rw [Expr.ids_of_skeleton skeleton, before.ids_eq]
    exact List.mem_singleton_self _

/-- The row of the query beside a row of the stream. -/
theorem Sound.hasValue_pair (sound : q.Sound db ν) (closed : q.Closed)
    (unbounded : q.current.skip = none ∧ q.current.limit = none)
    (placed : PlacedStream q other other' source source' held) {μ : Valuation Obj}
    (h : μ ∈ q.current.rows db ν) (r : Datum Obj) :
    (Expr.pack [q.currentRow, other'.currentRow]).HasValue db.ops (μ.withRow source.id r)
      (.tuple [q.currentRow.eval db.ops μ, r]) := by
  have left := sound.hasValue_of_agrees closed unbounded h
    (Valuation.agrees_withRow placed.unused [] μ r)
  have right : other'.currentRow.HasValue db.ops (μ.withRow source.id r) r := by
    rw [currentRow, placed.after.currentRow_eq, ← Source.id_of_skeleton placed.source_skeleton]
    exact ⟨by simp [Source.row, Expr.Elementary, Expr.query?], trivial,
      source'.eval_row db.ops μ r⟩
  exact .tuple (.cons left (.cons right .nil))

section

variable [DecidableEq Obj]

/-- The rows that a joined stream has at a row of the query are the data of the stream
that the closure gives for the value of the row. -/
theorem Sound.placed_rows (sound : q.Sound db ν) (closed : q.Closed)
    (unbounded : q.current.skip = none ∧ q.current.limit = none)
    (placed : PlacedStream q other other' source source' held)
    (regular : other.Regular db ν (q.current.list db ν)) {μ : Valuation Obj}
    (h : μ ∈ q.current.rows db ν) :
    (db.product other'.current.sources μ).filter (passes db other'.current.filters) =
      (other.current.list db (ν.withElement 1 (q.currentRow.eval db.ops μ))).map
        (μ.withRow source.id) := by
  let d := q.currentRow.eval db.ops μ
  have mem : d ∈ q.current.list db ν :=
    Select.value_mem_list (.inr unbounded) (Select.standing_eq_rows unbounded ▸ h)
  -- No loop of the query sets the row of the new source.
  have base : μ.Agrees [] other.current.ids ν :=
    Select.agrees_of_mem_rows h (by simpa [placed.before.ids_eq] using placed.unused) []
  obtain ⟨paths, filters⟩ := Select.parts_of_clauses placed.skeleton placed.clauses
  rw [placed.after.sources, placed.before.sources] at paths
  have looped : source'.rows db μ = source.rows db (ν.withElement 1 d) := by
    refine Source.rows_congr placed.source_skeleton paths fun c hc => ?_
    have path : c ∈ other.current.sources.filterMap Source.path? := by
      rwa [placed.before.sources]
    have clause : c ∈ other.current.clauses := by simp [Select.clauses, path]
    exact sound.eval_placed closed unbounded h ⟨by simp, fun _ _ => rfl, rfl⟩
      (base.withElement 1 d) (placed.bound c clause) (regular.elementary c clause)
      (regular.paths d mem c path) held
  rw [placed.after.sources, db.product_singleton, Source.id_of_skeleton placed.source_skeleton,
    looped, placed.before.list_eq, List.filter_map]
  refine congrArg (List.map _) (List.filter_congr fun r hr => ?_)
  rw [Function.comp_apply, filters]
  refine passes_map fun c hc => ?_
  have clause : c ∈ other.current.clauses := by simp [Select.clauses, hc]
  have inside : (ν.withElement 1 d).withRow source.id r ∈
      db.product other.current.sources (ν.withElement 1 d) := by
    rw [placed.before.sources, db.product_singleton]
    exact List.mem_map_of_mem hr
  exact sound.eval_placed closed unbounded h (Valuation.agrees_withRow placed.unused [] μ r)
    ((base.withRow source.id r).withElement 1 d) (placed.bound c clause)
    (regular.elementary c clause) (regular.filters d mem _ inside c hc) held

theorem Sound.joined {next : SourceId} {t t' : ValueType} {mark : Nat} (sound : q.Sound db ν)
    (closed : q.Closed) (bound : (Expr.subQuery other t).Bound [1] [])
    (regular : other.Regular db ν (q.current.list db ν))
    (inlined : (((Expr.subQuery other t).inlined 1 q.currentRow).run mark).1 = .subQuery other' t')
    (h : q.joined other' next = .ok q') :
    q'.Sound db ν ∧ q'.current.list db ν = (q.current.list db ν).flatMap fun d =>
      (other.current.list db (ν.withElement 1 d)).map fun r => .tuple [d, r] := by
  obtain ⟨source, source', held, placed⟩ :=
    exists_placedStream sound.elementary regular.elementary bound inlined h
  obtain ⟨-, unbounded, repeated, -, -, derived⟩ := joined_eq_ok.mp h
  have rows : q'.current.rows db ν = (q.current.rows db ν).flatMap fun μ =>
      (other.current.list db (ν.withElement 1 (q.currentRow.eval db.ops μ))).map
        (μ.withRow source.id) := by
    rw [rows_joined closed h]
    exact List.flatMap_congr fun μ hμ => sound.placed_rows closed unbounded placed regular hμ
  have row : q'.current.currentRow = .pack [q.currentRow, other'.currentRow] := by
    rw [← derived]
    rfl
  have repeated' : q'.current.distinct = false := by
    rw [← derived]
    exact repeated
  have unbounded' : q'.current.skip = none ∧ q'.current.limit = none := by
    rw [← derived]
    exact unbounded
  refine ⟨⟨?_, ?_, fun μ hμ => ?_⟩, ?_⟩
  · rw [← derived]
    exact sound.shape
  · have root : other'.currentRow = source'.row := placed.after.currentRow_eq
    rw [currentRow, row, root]
    simpa [Expr.pack, Source.row, Expr.Elementary, Expr.query?] using sound.elementary
  · rw [Select.standing_eq_rows unbounded', rows] at hμ
    simp only [List.mem_flatMap, List.mem_map] at hμ
    obtain ⟨μ, inRows, r, -, rfl⟩ := hμ
    rw [currentRow, row]
    exact (sound.hasValue_pair closed unbounded placed inRows r).wellTyped
  · rw [Select.list_eq_map repeated', Select.list_eq_map repeated,
      Select.standing_eq_rows unbounded', Select.standing_eq_rows unbounded, rows,
      List.map_flatMap, List.flatMap_map]
    refine List.flatMap_congr fun μ hμ => ?_
    rw [List.map_map, row]
    exact List.map_congr_left fun r _ =>
      (sound.hasValue_pair closed unbounded placed hμ r).eval_eq

end

end Query

end StreamQuery
