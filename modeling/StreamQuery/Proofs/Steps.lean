import StreamQuery.Proofs.Meaning

/-! # Operations over one list

An operation other than a join adds to one clause, and the clauses are carried out
in a fixed order. What it does to the list of the query is what it says all the
same, because it commutes with the clauses that are carried out after it or would
have been refused. Closures stand in clauses with the row in the place of their
element, so they have to be known at the rows that are still there.
-/

namespace StreamQuery

variable {Obj : Type} {db : Database Obj} {ν : Valuation Obj}

namespace Select

variable {s : Select} {μ : Valuation Obj}

theorem agrees_of_mem_rows {ids : List SourceId} (h : μ ∈ s.rows db ν)
    (apart : ∀ id ∈ ids, id ∉ s.ids) (scopes : List ElementScope) : μ.Agrees scopes ids ν :=
  db.agrees_of_mem_product (List.mem_filter.mp (Ranking.mem_sort.mp h)).1 apart scopes

theorem length_rows_le (s : Select) :
    (s.rows db ν).length ≤ (db.product s.sources ν).length := by
  rw [rows, Ranking.sort, List.length_mergeSort]
  exact List.length_filter_le ..

/-- The rows that further closures are about. No further closure is about the rows of
a query that is both distinct and bounded. -/
def standing (db : Database Obj) (ν : Valuation Obj) (s : Select) : List (Valuation Obj) :=
  if s.distinct then s.rows db ν else bounded s.skip s.limit (s.rows db ν)

theorem mem_rows_of_standing (h : μ ∈ s.standing db ν) : μ ∈ s.rows db ν := by
  unfold standing at h
  split at h
  · exact h
  · exact bounded_sublist.subset h

theorem standing_eq_rows (h : s.skip = none ∧ s.limit = none) :
    s.standing db ν = s.rows db ν := by
  rw [standing, h.1, h.2, bounded_none, ite_self]

variable [DecidableEq Obj]

theorem list_eq_reduced (h : s.skip = none ∧ s.limit = none) :
    s.list db ν = reduced s.distinct ((s.rows db ν).map (s.currentRow.eval db.ops)) := by
  rw [list, h.1, h.2, bounded_none]

theorem list_eq_map (h : s.distinct = false) :
    s.list db ν = (s.standing db ν).map (s.currentRow.eval db.ops) := by
  rw [list, standing, h, if_neg (by simp), map_bounded]
  rfl

theorem value_mem_list (opened : s.distinct = false ∨ s.skip = none ∧ s.limit = none)
    (h : μ ∈ s.standing db ν) : s.currentRow.eval db.ops μ ∈ s.list db ν := by
  rcases opened with repeated | unbounded
  · rw [list_eq_map repeated]
    exact List.mem_map_of_mem h
  · rw [standing_eq_rows unbounded] at h
    rw [list_eq_reduced unbounded, mem_reduced]
    exact List.mem_map_of_mem h

end Select

namespace Query

variable {q q' : Query}

/-- A query of rows whose row is an expression without nested queries that is
well-typed wherever it stands. -/
structure Sound (db : Database Obj) (ν : Valuation Obj) (q : Query) : Prop where
  shape : q.current.shape = .rows
  elementary : q.currentRow.Elementary
  wellTyped : ∀ μ ∈ q.current.standing db ν, q.currentRow.WellTyped db.ops μ

theorem Sound.hasValue (sound : q.Sound db ν) {μ : Valuation Obj}
    (h : μ ∈ q.current.standing db ν) :
    q.currentRow.HasValue db.ops μ (q.currentRow.eval db.ops μ) :=
  ⟨sound.elementary, sound.wellTyped μ h, rfl⟩

/-! ## Closures -/

theorem translated?_of_overRow {compiler : Compiler} {closure : Closure} {e : Expr}
    {supply : Compile.Supply}
    (h : (q.overRow compiler.environment closure).run ⟨q.current.nextSource, compiler.nextMark⟩ =
      .ok (e, supply)) :
    ∃ (inner : Expr) (mark : Nat), q.translated? compiler closure = some inner ∧
      ((inner.inlined 1 q.currentRow).run mark).1 = e ∧ inner.Bound [1] [] := by
  obtain ⟨inner, mark, compiled, inlined, -⟩ := overRow_run_eq_ok h
  have built := (Closure.built_compile (offers_elementChain closure q.rowType) compiled).1
  refine ⟨inner, mark, ?_, inlined, Compile.Built.bound (by simp) built⟩
  rw [translated?, Compiler.compile, compiled]
  rfl

section

variable [DecidableEq Obj] {inner : Expr} {mark : Nat} {μ : Valuation Obj}

/-- The clause that a closure becomes has the value of the closure at the row. -/
theorem Sound.hasValue_inlined (sound : q.Sound db ν)
    (opened : q.current.distinct = false ∨ q.current.skip = none ∧ q.current.limit = none)
    (bound : inner.Bound [1] []) (regular : inner.Regular db ν (q.current.list db ν))
    (h : μ ∈ q.current.standing db ν) :
    ((inner.inlined 1 q.currentRow).run mark).1.HasValue db.ops μ
      (inner.valueAt db ν (q.currentRow.eval db.ops μ)) := by
  have base : μ.Agrees [] [] ν :=
    Select.agrees_of_mem_rows (Select.mem_rows_of_standing h) (by simp) []
  have agrees := base.withElement 1 (q.currentRow.eval db.ops μ)
  have typed := regular.wellTyped _ (Select.value_mem_list opened h)
  rw [Expr.valueAt, ← bound.eval_congr agrees]
  exact (sound.hasValue h).inlined regular.elementary ((bound.wellTyped_congr agrees).mpr typed)
    mark

theorem Sound.eval_inlined (sound : q.Sound db ν)
    (unbounded : q.current.skip = none ∧ q.current.limit = none) (bound : inner.Bound [1] [])
    (regular : inner.Regular db ν (q.current.list db ν)) (h : μ ∈ q.current.rows db ν) :
    ((inner.inlined 1 q.currentRow).run mark).1.eval db.ops μ =
      inner.valueAt db ν (q.currentRow.eval db.ops μ) := by
  rw [← Select.standing_eq_rows unbounded] at h
  exact (sound.hasValue_inlined (.inr unbounded) bound regular h).eval_eq

end

/-! ## One operation -/

/-- A row that stays as it was and stands where it stood. -/
theorem Sound.of_standing (sound : q.Sound db ν) (shape : q'.current.shape = q.current.shape)
    (row : q'.current.currentRow = q.current.currentRow)
    (standing : q'.current.standing db ν ⊆ q.current.standing db ν) : q'.Sound db ν := by
  refine ⟨shape.trans sound.shape, ?_, fun μ hμ => ?_⟩
  · rw [currentRow, row]
    exact sound.elementary
  · rw [currentRow, row]
    exact sound.wellTyped μ (standing hμ)

/-- A filter stands among the filters of before, unless it always holds. -/
theorem filtered_current {e : Expr} {next : SourceId} (shape : q.current.shape = .rows)
    (h : q.filtered e next = .ok q') : (q.current.skip = none ∧ q.current.limit = none) ∧
      ∃ filters nextSource, q'.current = { q.current with filters, nextSource } ∧
        ∀ μ, passes db filters μ =
          (db.ops.truth (e.eval db.ops μ) && passes db q.current.filters μ) := by
  obtain ⟨-, unbounded, -, rfl⟩ := filtered_eq_ok.mp h
  refine ⟨unbounded, ?_⟩
  simp only [derive, shape, reduceCtorEq, if_false]
  split
  · next always =>
      refine ⟨q.current.filters, _, rfl, fun μ => ?_⟩
      rw [Expr.truth_of_asBool always, Bool.true_and]
  · refine ⟨q.current.filters ++ [e], _, rfl, fun μ => ?_⟩
    simp [passes, Bool.and_comm]

section

variable [DecidableEq Obj] {inner : Expr} {mark : Nat} {next : SourceId}

theorem Sound.filtered (sound : q.Sound db ν) (bound : inner.Bound [1] [])
    (regular : inner.Regular db ν (q.current.list db ν))
    (h : q.filtered ((inner.inlined 1 q.currentRow).run mark).1 next = .ok q') :
    q'.Sound db ν ∧ q'.current.list db ν =
      (q.current.list db ν).filter fun d => db.ops.truth (inner.valueAt db ν d) := by
  obtain ⟨unbounded, filters, nextSource, current, passes⟩ := filtered_current sound.shape h
  have rows : q'.current.rows db ν = (q.current.rows db ν).filter fun μ =>
      db.ops.truth (((inner.inlined 1 q.currentRow).run mark).1.eval db.ops μ) := by
    rw [Select.rows, current, funext passes, ← List.filter_filter, ← Ranking.filter_sort]
    rfl
  have unbounded' : q'.current.skip = none ∧ q'.current.limit = none := by rwa [current]
  have distinct : q'.current.distinct = q.current.distinct := by rw [current]
  have row : q'.current.currentRow = q.current.currentRow := by
    rw [current]
    rfl
  constructor
  · refine sound.of_standing (by rw [current]) row ?_
    rw [Select.standing_eq_rows unbounded', Select.standing_eq_rows unbounded, rows]
    exact List.filter_subset_self _
  · rw [Select.list_eq_reduced unbounded', Select.list_eq_reduced unbounded, filter_reduced,
      distinct, row, rows, List.filter_map]
    congr 2
    refine List.filter_congr fun μ hμ => ?_
    rw [sound.eval_inlined unbounded bound regular hμ]
    rfl

theorem Sound.projected (sound : q.Sound db ν) (bound : inner.Bound [1] [])
    (regular : inner.Regular db ν (q.current.list db ν))
    (h : q.projected ((inner.inlined 1 q.currentRow).run mark).1 next = .ok q') :
    q'.Sound db ν ∧ q'.current.list db ν = (q.current.list db ν).map (inner.valueAt db ν) := by
  obtain ⟨-, repeated, derived⟩ := projected_eq_ok.mp h
  have row : q'.current.currentRow = ((inner.inlined 1 q.currentRow).run mark).1 := by
    rw [← derived]
    rfl
  have repeated' : q'.current.distinct = false := by
    rw [← derived]
    exact repeated
  have standing : q'.current.standing db ν = q.current.standing db ν := by
    rw [← derived]
    rfl
  have value {μ : Valuation Obj} (hμ : μ ∈ q.current.standing db ν) :
      q'.current.currentRow.HasValue db.ops μ
        (inner.valueAt db ν (q.current.currentRow.eval db.ops μ)) := by
    rw [row]
    exact sound.hasValue_inlined (.inl repeated) bound regular hμ
  refine ⟨⟨?_, ?_, fun μ hμ => (value (standing ▸ hμ)).wellTyped⟩, ?_⟩
  · rw [← derived]
    exact sound.shape
  · rw [currentRow, row]
    exact regular.elementary.inlined sound.elementary 1 mark
  · rw [Select.list_eq_map repeated', Select.list_eq_map repeated, standing, List.map_map]
    exact List.map_congr_left fun μ hμ => (value hμ).eval_eq

theorem Sound.sorted {direction : Direction} (sound : q.Sound db ν) (bound : inner.Bound [1] [])
    (regular : inner.Regular db ν (q.current.list db ν))
    (h : q.sorted ((inner.inlined 1 q.currentRow).run mark).1 direction next = .ok q') :
    q'.Sound db ν ∧ q'.current.list db ν =
      ((direction.ranks db.order).through (inner.valueAt db ν)).sort (q.current.list db ν) := by
  obtain ⟨-, unbounded, -, derived⟩ := sorted_eq_ok.mp h
  -- The earlier keys decide among rows of one rank, in the order a stable sort leaves them.
  have rows : q'.current.rows db ν = ((direction.ranks db.order).through
      (((inner.inlined 1 q.currentRow).run mark).1.eval db.ops)).sort (q.current.rows db ν) := by
    rw [Select.rows, Select.rows, Ranking.sort_sort, ← derived]
    rfl
  have unbounded' : q'.current.skip = none ∧ q'.current.limit = none := by
    rw [← derived]
    exact unbounded
  have distinct : q'.current.distinct = q.current.distinct := by
    rw [← derived]
    rfl
  have row : q'.current.currentRow = q.current.currentRow := by
    rw [← derived]
    rfl
  constructor
  · refine sound.of_standing ?_ row ?_
    · rw [← derived]
      rfl
    · rw [Select.standing_eq_rows unbounded', Select.standing_eq_rows unbounded, rows]
      exact fun μ hμ => Ranking.mem_sort.mp hμ
  · rw [Select.list_eq_reduced unbounded', Select.list_eq_reduced unbounded, ← reduced_sort,
      distinct, row, rows]
    refine congrArg (reduced _) (Ranking.map_sort fun μ hμ μ' hμ' => ?_)
    rw [Ranking.le_through, Ranking.le_through, sound.eval_inlined unbounded bound regular hμ,
      sound.eval_inlined unbounded bound regular hμ']
    rfl

end

/-! ## Bounds and repeated rows -/

section

variable {count : UInt64}

theorem le_addSaturating (a b : UInt64) : a.toNat ≤ (addSaturating a b).toNat := by
  unfold addSaturating
  split
  · next fits =>
      rw [UInt64.toNat_add, Nat.mod_eq_of_lt fits]
      exact Nat.le_add_right ..
  · exact Nat.le_of_lt_succ (UInt64.toNat_lt a)

/-- Bounds may be narrowed. -/
theorem Sound.narrowed (sound : q.Sound db ν) {skip limit : Option UInt64} {nextSource : SourceId}
    (current : q'.current = { q.current with skip, limit, nextSource })
    (narrower : ∀ l : List (Valuation Obj),
      (bounded skip limit l).Sublist (bounded q.current.skip q.current.limit l)) :
    q'.Sound db ν := by
  refine sound.of_standing (by rw [current]) (by rw [current]; rfl) ?_
  have rows : q'.current.rows db ν = q.current.rows db ν := by
    rw [current]
    rfl
  rw [Select.standing, Select.standing, rows, current]
  split
  · exact List.Subset.refl _
  · exact (narrower _).subset

theorem Sound.skipped (sound : q.Sound db ν) (h : q.skipped count = .ok q') : q'.Sound db ν := by
  obtain ⟨-, limit, rfl⟩ := skipped_eq_ok.mp h
  refine sound.narrowed rfl fun l => ?_
  rw [limit, bounded, bounded]
  exact List.drop_sublist_drop_left l (le_addSaturating ..)

theorem Sound.limited (sound : q.Sound db ν) (h : q.limited count = .ok q') : q'.Sound db ν := by
  obtain ⟨-, rfl⟩ := limited_eq_ok.mp h
  refine sound.narrowed rfl fun l => ?_
  have taken := List.take_sublist count.toNat (bounded q.current.skip q.current.limit l)
  rw [take_bounded] at taken
  exact taken

theorem Sound.distinctRows (sound : q.Sound db ν) (h : q.distinctRows = .ok q') :
    q'.Sound db ν := by
  obtain ⟨-, unbounded, rfl⟩ := distinctRows_eq_ok.mp h
  refine sound.of_standing rfl rfl fun μ hμ => ?_
  rw [Select.standing_eq_rows unbounded]
  have inRows := Select.mem_rows_of_standing hμ
  exact inRows

variable [DecidableEq Obj]

theorem list_skipped (few : (db.product q.current.sources ν).length < 2 ^ 64)
    (h : q.skipped count = .ok q') :
    q'.current.list db ν = (q.current.list db ν).drop count.toNat := by
  obtain ⟨-, limit, rfl⟩ := skipped_eq_ok.mp h
  let data := reduced q.current.distinct
    ((q.current.rows db ν).map (q.current.currentRow.eval db.ops))
  have short : data.length < 2 ^ 64 := by
    refine Nat.lt_of_le_of_lt length_reduced_le ?_
    rw [List.length_map]
    exact Nat.lt_of_le_of_lt q.current.length_rows_le few
  have dropped : (bounded q.current.skip none data).drop count.toNat = _ :=
    drop_bounded count short
  rw [← limit] at dropped
  exact dropped.symm

theorem list_limited (h : q.limited count = .ok q') :
    q'.current.list db ν = (q.current.list db ν).take count.toNat := by
  obtain ⟨-, rfl⟩ := limited_eq_ok.mp h
  exact (take_bounded count).symm

theorem list_distinctRows (h : q.distinctRows = .ok q') :
    q'.current.list db ν = (q.current.list db ν).eraseDups := by
  obtain ⟨-, unbounded, derived⟩ := distinctRows_eq_ok.mp h
  have unbounded' : q'.current.skip = none ∧ q'.current.limit = none := by
    rw [← derived]
    exact unbounded
  rw [Select.list_eq_reduced unbounded', Select.list_eq_reduced unbounded, eraseDups_reduced,
    ← derived]
  rfl

end

end Query

end StreamQuery
