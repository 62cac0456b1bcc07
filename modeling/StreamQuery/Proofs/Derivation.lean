import StreamQuery.Proofs.Clauses
import StreamQuery.Query.Derivation

/-! # What an operation does when it is not refused

One statement for each operation: under which conditions it goes through, and
which selection it then derives. All but joining add clauses over the same
sources.
-/

namespace StreamQuery

/-! ## Columns of a row -/

namespace Expr

theorem columnsOf_eq (es : List Expr) : columnsOf es = es.flatMap columns := by
  induction es with
  | nil => rfl
  | cons e es ih => rw [columnsOf, ih, List.flatMap_cons]

theorem mem_columns_tuple {items : List Expr} {t : ValueType} {c : Expr} :
    c ∈ (tuple items t).columns ↔ ∃ item ∈ items, c ∈ item.columns := by
  rw [columns, columnsOf_eq, List.mem_flatMap]

theorem columns_of_single {e : Expr} (single : ∀ items t, e ≠ .tuple items t) :
    e.columns = [e] := by
  cases e with
  | tuple items t => exact absurd rfl (single items t)
  | _ => rfl

/-- Induction on a row: on the components of tuples only. -/
theorem columnsInduction {P : Expr → Prop}
    (tuple : ∀ items t, (∀ item ∈ items, P item) → P (.tuple items t))
    (single : ∀ e, (∀ items t, e ≠ .tuple items t) → P e) (e : Expr) : P e := by
  induction e using partsInduction false with
  | node e ih =>
      cases e with
      | tuple items t =>
          exact tuple items t fun item hitem => ih item (by simpa [parts, children] using hitem)
      | _ => exact single _ (by simp)

theorem of_mem_columns {P : Expr → Prop}
    (item : ∀ items t, P (.tuple items t) → ∀ c ∈ items, P c) {e c : Expr} (h : P e)
    (hc : c ∈ e.columns) : P c := by
  induction e using columnsInduction with
  | tuple items t ih =>
      obtain ⟨part, hpart, hc⟩ := mem_columns_tuple.mp hc
      exact ih part hpart (item items t h part hpart) hc
  | single e single =>
      obtain rfl : c = e := by simpa [columns_of_single single] using hc
      exact h

end Expr

/-! ## Operations -/

namespace Query

variable {q q' : Query}

@[simp] theorem require_bind_eq_ok {α : Type} {verb : Verb} {condition : Bool} {reason : Reason}
    {rest : Unit → Except Refusal α} {a : α} :
    (require verb condition reason >>= rest) = .ok a ↔ condition = true ∧ rest () = .ok a := by
  unfold require
  cases condition
  · simp [bind, Except.bind]
  · simp [bind, Except.bind]

@[simp] theorem requireShape_bind_eq_ok {α : Type} {verb : Verb} {allowed : List Shape}
    {rest : Unit → Except Refusal α} {a : α} :
    (q.requireShape verb allowed >>= rest) = .ok a ↔
      q.current.shape ∈ allowed ∧ rest () = .ok a := by
  rw [requireShape, require_bind_eq_ok, List.contains_iff_mem]

@[simp] theorem requireUnbounded_bind_eq_ok {α : Type} {verb : Verb}
    {rest : Unit → Except Refusal α} {a : α} :
    (q.requireUnbounded verb >>= rest) = .ok a ↔
      (q.current.skip = none ∧ q.current.limit = none) ∧ rest () = .ok a := by
  rw [requireUnbounded, require_bind_eq_ok]
  simp [Option.isNone_iff_eq_none]

theorem pure_eq_ok {a b : Query} : (pure a : Except Refusal Query) = .ok b ↔ a = b := by
  simp [pure, Except.pure]

theorem filtered_eq_ok {predicate : Expr} {next : SourceId} :
    q.filtered predicate next = .ok q' ↔
      q.current.shape ∈ [.rows, .grouped] ∧ (q.current.skip = none ∧ q.current.limit = none) ∧
        predicate.type.flowsTo .bool = true ∧
        q.derive next (fun s =>
          if predicate.asBool = some true then s
          else if s.shape = .grouped then { s with having := s.having ++ [predicate] }
          else { s with filters := s.filters ++ [predicate] }) = q' := by
  rw [filtered, requireShape_bind_eq_ok, requireUnbounded_bind_eq_ok, require_bind_eq_ok,
    pure_eq_ok]

theorem projected_eq_ok {projection : Expr} {next : SourceId} :
    q.projected projection next = .ok q' ↔
      q.current.shape = .rows ∧ q.current.distinct = false ∧
        q.derive next (fun s => { s with projection := some projection }) = q' := by
  rw [projected, requireShape_bind_eq_ok, require_bind_eq_ok, pure_eq_ok]
  simp

theorem joined_eq_ok {other : Query} {next : SourceId} :
    q.joined other next = .ok q' ↔
      q.current.shape = .rows ∧ (q.current.skip = none ∧ q.current.limit = none) ∧
        q.current.distinct = false ∧ isPlain other.current = true ∧
        (q.current.sources.any fun source => other.current.root?.any (·.id == source.id)) = false ∧
        q.derive (max next other.current.nextSource) (fun s =>
          { s with
            sources := s.sources ++ other.current.sources
            filters := s.filters ++ other.current.filters
            projection := some (.pack [q.currentRow, other.currentRow]) }) = q' := by
  rw [joined, requireShape_bind_eq_ok, requireUnbounded_bind_eq_ok, require_bind_eq_ok,
    require_bind_eq_ok, require_bind_eq_ok, pure_eq_ok]
  simp

theorem grouped_eq_ok {key value : Expr} {next : SourceId} :
    q.grouped key value next = .ok q' ↔
      q.current.shape = .rows ∧ (q.current.skip = none ∧ q.current.limit = none) ∧
        q.current.distinct = false ∧
        value.readsRows q.current.sources (key.columns ++ [key]) = false ∧
        q.derive next (fun s =>
          { s with
            groupBy := key.columns
            projection := some (.pack [key, value])
            shape := .grouped }) = q' := by
  rw [grouped, requireShape_bind_eq_ok, requireUnbounded_bind_eq_ok, require_bind_eq_ok,
    requireAggregated, require_bind_eq_ok, pure_eq_ok]
  simp

theorem aggregated_eq_ok {value : Expr} {next : SourceId} :
    q.aggregated value next = .ok q' ↔
      q.current.shape = .rows ∧ (q.current.skip = none ∧ q.current.limit = none) ∧
        q.current.distinct = false ∧ value.readsRows q.current.sources [] = false ∧
        q.derive next (fun s =>
          { s with projection := some value, shape := .aggregated, orderBy := [] }) = q' := by
  rw [aggregated, requireShape_bind_eq_ok, requireUnbounded_bind_eq_ok, require_bind_eq_ok,
    requireAggregated, require_bind_eq_ok, pure_eq_ok]
  simp

theorem sorted_eq_ok {key : Expr} {direction : Direction} {next : SourceId} :
    q.sorted key direction next = .ok q' ↔
      q.current.shape ∈ [.rows, .grouped] ∧ (q.current.skip = none ∧ q.current.limit = none) ∧
        key.type.isScalar = true ∧
        q.derive next (fun s => { s with orderBy := ⟨key, direction⟩ :: s.orderBy }) = q' := by
  rw [sorted, requireShape_bind_eq_ok, requireUnbounded_bind_eq_ok, require_bind_eq_ok,
    pure_eq_ok]

theorem skipped_eq_ok {count : UInt64} :
    q.skipped count = .ok q' ↔
      q.current.shape ∈ [.rows, .grouped] ∧ q.current.limit = none ∧
        q.derive q.current.nextSource (fun s =>
          { s with skip := some (addSaturating (s.skip.getD 0) count) }) = q' := by
  rw [skipped, requireShape_bind_eq_ok, require_bind_eq_ok, pure_eq_ok, Option.isNone_iff_eq_none]

theorem limited_eq_ok {count : UInt64} :
    q.limited count = .ok q' ↔
      q.current.shape ∈ [.rows, .grouped] ∧
        q.derive q.current.nextSource (fun s =>
          { s with limit := some (match s.limit with
              | some limit => min limit count
              | none => count) }) = q' := by
  rw [limited, requireShape_bind_eq_ok]
  exact and_congr_right fun _ => pure_eq_ok

theorem distinctRows_eq_ok :
    q.distinctRows = .ok q' ↔
      q.current.shape ∈ [.rows, .grouped] ∧ (q.current.skip = none ∧ q.current.limit = none) ∧
        q.derive q.current.nextSource (fun s => { s with distinct := true }) = q' := by
  rw [distinctRows, requireShape_bind_eq_ok, requireUnbounded_bind_eq_ok, pure_eq_ok]

/-! ## Clauses that are added -/

/-- The derived selection is over the same sources, and each of its clauses is an old
one or a new one. -/
structure Adds (new : List Expr) (next : SourceId) (q q' : Query) : Prop where
  sources : q'.current.sources = q.current.sources
  clauses : ∀ c ∈ q'.current.clauses, c ∈ q.current.clauses ∨ c ∈ new
  nextSource : q'.current.nextSource = max q.current.nextSource next
  mark : q'.current.mark = q.current.mark
  past : q'.past = q.current :: q.past

theorem adds_filtered {predicate : Expr} {next : SourceId}
    (h : q.filtered predicate next = .ok q') : Adds [predicate] next q q' := by
  obtain ⟨-, -, -, rfl⟩ := filtered_eq_ok.mp h
  simp only [derive]
  split
  · exact ⟨rfl, fun c hc => .inl hc, rfl, rfl, rfl⟩
  · split
    · refine ⟨rfl, fun c hc => ?_, rfl, rfl, rfl⟩
      simp only [Select.clauses, List.mem_append] at hc ⊢
      grind
    · refine ⟨rfl, fun c hc => ?_, rfl, rfl, rfl⟩
      simp only [Select.clauses, List.mem_append] at hc ⊢
      grind

theorem adds_projected {projection : Expr} {next : SourceId}
    (h : q.projected projection next = .ok q') : Adds [projection] next q q' := by
  obtain ⟨-, -, rfl⟩ := projected_eq_ok.mp h
  refine ⟨rfl, fun c hc => ?_, rfl, rfl, rfl⟩
  simp only [derive, Select.clauses, List.mem_append, Option.toList_some] at hc ⊢
  grind

theorem adds_grouped {key value : Expr} {next : SourceId}
    (h : q.grouped key value next = .ok q') :
    Adds (.pack [key, value] :: key.columns) next q q' := by
  obtain ⟨-, -, -, -, rfl⟩ := grouped_eq_ok.mp h
  refine ⟨rfl, fun c hc => ?_, rfl, rfl, rfl⟩
  simp only [derive, Select.clauses, List.mem_append, Option.toList_some] at hc ⊢
  grind

theorem adds_aggregated {value : Expr} {next : SourceId}
    (h : q.aggregated value next = .ok q') : Adds [value] next q q' := by
  obtain ⟨-, -, -, -, rfl⟩ := aggregated_eq_ok.mp h
  refine ⟨rfl, fun c hc => ?_, rfl, rfl, rfl⟩
  simp only [derive, Select.clauses, List.mem_append, Option.toList_some] at hc ⊢
  grind

theorem adds_sorted {key : Expr} {direction : Direction} {next : SourceId}
    (h : q.sorted key direction next = .ok q') : Adds [key] next q q' := by
  obtain ⟨-, -, -, rfl⟩ := sorted_eq_ok.mp h
  refine ⟨rfl, fun c hc => ?_, rfl, rfl, rfl⟩
  simp only [derive, Select.clauses, List.mem_append, List.map_cons] at hc ⊢
  grind

theorem adds_skipped {count : UInt64} (h : q.skipped count = .ok q') :
    Adds [] q.current.nextSource q q' := by
  obtain ⟨-, -, rfl⟩ := skipped_eq_ok.mp h
  exact ⟨rfl, fun c hc => .inl hc, rfl, rfl, rfl⟩

theorem adds_limited {count : UInt64} (h : q.limited count = .ok q') :
    Adds [] q.current.nextSource q q' := by
  obtain ⟨-, rfl⟩ := limited_eq_ok.mp h
  exact ⟨rfl, fun c hc => .inl hc, rfl, rfl, rfl⟩

theorem adds_distinctRows (h : q.distinctRows = .ok q') : Adds [] q.current.nextSource q q' := by
  obtain ⟨-, -, rfl⟩ := distinctRows_eq_ok.mp h
  exact ⟨rfl, fun c hc => .inl hc, rfl, rfl, rfl⟩

/-- Joining moves the sources and clauses of a query with one source into another. -/
structure Joins (other : Query) (next : SourceId) (q q' : Query) : Prop where
  one : ∃ source, other.current.sources = [source] ∧ ∀ s ∈ q.current.sources, source.id ≠ s.id
  sources : q'.current.sources = q.current.sources ++ other.current.sources
  clauses : ∀ c ∈ q'.current.clauses, c ∈ q.current.clauses ∨ c ∈ other.current.clauses ∨
    c = .pack [q.currentRow, other.currentRow]
  nextSource : q'.current.nextSource =
    max q.current.nextSource (max next other.current.nextSource)
  mark : q'.current.mark = q.current.mark
  past : q'.past = q.current :: q.past

theorem joins_joined {other : Query} {next : SourceId} (h : q.joined other next = .ok q') :
    Joins other next q q' := by
  obtain ⟨-, -, -, plain, unused, rfl⟩ := joined_eq_ok.mp h
  have one : other.current.sources.length = 1 := by
    simp only [isPlain, Bool.and_eq_true, beq_iff_eq] at plain
    exact plain.1.1.1.1.1.1
  obtain ⟨source, found⟩ := List.length_eq_one_iff.mp one
  refine ⟨⟨source, found, fun s hs => ?_⟩, rfl, fun c hc => ?_, rfl, rfl, rfl⟩
  · have other := List.any_eq_false.mp unused s hs
    simpa [Select.root?, found] using other
  · simp only [derive, Select.clauses, List.filterMap_append, List.mem_append,
      Option.toList_some, List.mem_singleton] at hc ⊢
    grind

end Query

end StreamQuery
