import StreamQuery.Proofs.Fold
import StreamQuery.Proofs.Scoping

/-! # Closed queries

A query that was reached by folding is closed. No element is left in its clauses,
and every row is one of a source around it: of the query it stands in or of one
that encloses that. Elements of outer closures travel into nested closures and
queries, so compiled expressions are closed but for the elements that their chain
of binders offers.
-/

namespace StreamQuery

/-- What a node may refer to: rows of the sources around it, elements of some
scopes, and queries that have sources. -/
def Referent.Bound (scopes : List ElementScope) (ids : List SourceId) : Referent → Prop
  | nothing => True
  | row source => source ∈ ids
  | element scope => scope ∈ scopes
  | query sources => sources ≠ []

theorem Referent.Bound.mono {scopes scopes' : List ElementScope} {ids ids' : List SourceId}
    {r : Referent} (h : r.Bound scopes ids) (hs : scopes ⊆ scopes') (hi : ids ⊆ ids') :
    r.Bound scopes' ids' := by
  cases r with
  | nothing => trivial
  | row source => exact hi h
  | element scope => exact hs h
  | query sources => exact h

namespace Expr

variable {scopes : List ElementScope} {ids : List SourceId}

abbrev Bound (scopes : List ElementScope) (ids : List SourceId) (e : Expr) : Prop :=
  e.Within (Referent.Bound scopes) ids

theorem Within.widen {scopes' : List ElementScope} {ids' : List SourceId} {e : Expr}
    (h : e.Bound scopes ids) (hs : scopes ⊆ scopes') (hi : ids ⊆ ids') : e.Bound scopes' ids' :=
  h.reframe fun _ _ hr =>
    hr.mono hs (List.append_subset.mpr
      ⟨List.subset_append_left .., List.subset_append_of_subset_right _ hi⟩)

/-- A row in the place of the innermost element leaves the outer ones. -/
theorem Within.inlined_bound {e row : Expr} {scope : ElementScope}
    (h : e.Bound (scope :: scopes) []) (hrow : row.Bound scopes ids) (m : Nat) :
    ((e.inlined scope row).run m).1.Bound scopes ids := by
  refine Within.inlined h hrow (fun _ => trivial) ?_ ?_ m
  · intro inner r other hr
    cases r with
    | nothing => trivial
    | row source => exact List.mem_append_left _ hr
    | element s =>
        refine (List.mem_cons.mp hr).resolve_left fun same => other ?_
        rw [same]
    | query sources => exact hr
  · intro outer _ inner r hr
    exact hr.mono (List.Subset.refl _) (by simp)

end Expr

namespace Query

/-- A query has sources, and its clauses refer to nothing that is not around them. -/
structure Closed (q : Query) : Prop where
  sources : q.current.ids ≠ []
  clauses : ∀ c ∈ q.current.clauses, c.Bound [] q.current.ids

variable {scopes : List ElementScope} {ids : List SourceId} {q q' : Query}

theorem closed_iff : q.Closed ↔ q.current.ids ≠ [] ∧
    q.Within (Referent.Bound []) [] := by
  constructor
  · rintro ⟨sources, clauses⟩
    exact ⟨sources, by simpa [Query.Within] using clauses⟩
  · rintro ⟨sources, clauses⟩
    exact ⟨sources, by simpa [Query.Within] using clauses⟩

theorem Within.widen {ids' : List SourceId} (h : q.Within (Referent.Bound []) ids)
    (hi : ids ⊆ ids') : q.Within (Referent.Bound scopes) ids' :=
  fun c hc => (h c hc).widen (List.nil_subset _) (List.append_subset.mpr
    ⟨List.subset_append_left .., List.subset_append_of_subset_right _ hi⟩)

theorem bound_currentRow (h : q.Within (Referent.Bound scopes) ids) :
    q.currentRow.Bound scopes (q.current.ids ++ ids) :=
  h.currentRow (fun _ => trivial) fun _ hid => List.mem_append_left _ hid

theorem Adds.ids_eq {new : List Expr} {next : SourceId} (h : Adds new next q q') :
    q'.current.ids = q.current.ids :=
  congrArg (List.map Source.id) h.sources

theorem Joins.ids_eq {other : Query} {next : SourceId} (h : Joins other next q q') :
    q'.current.ids = q.current.ids ++ other.current.ids := by
  rw [Select.ids, h.sources, List.map_append]
  rfl

theorem Joins.unused {other : Query} {next : SourceId} (h : Joins other next q q') :
    ∀ id ∈ other.current.ids, id ∉ q.current.ids := by
  obtain ⟨source, one, unused⟩ := h.one
  intro id hid mem
  obtain ⟨s, hs, rfl⟩ := List.mem_map.mp mem
  rw [Select.ids, one] at hid
  exact unused s hs (List.mem_singleton.mp hid).symm

theorem Within.adds {p : List SourceId → Referent → Prop} {new : List Expr} {next : SourceId}
    (h : q.Within p ids) (adds : Adds new next q q')
    (hnew : ∀ e ∈ new, e.Within p (q.current.ids ++ ids)) : q'.Within p ids := by
  intro c hc
  rw [adds.ids_eq]
  rcases adds.clauses c hc with old | new
  · exact h c old
  · exact hnew c new

end Query

/-! ## Compiled expressions -/

theorem Compile.Built.bound {stream? : Option Query} {start next : SourceId}
    {scopes : List ElementScope} {e : Expr} (closed : ∀ q ∈ stream?, q.Closed)
    (h : Built stream? start scopes next e) : e.Bound scopes [] := by
  have plain : ∀ {scopes : List ElementScope} (ids : List SourceId),
      Referent.nothing.Bound scopes ids := fun _ => trivial
  induction h with
  | constant => exact Expr.within_constant plain
  | param => exact Expr.within_param plain
  | element known => exact Expr.within_element.mpr known
  | given given =>
      obtain ⟨query, given, rfl⟩ := given
      obtain ⟨sources, clauses⟩ := Query.closed_iff.mp (closed _ given)
      exact Expr.within_subQuery.mpr ⟨sources, clauses.widen (List.Subset.refl _)⟩
  | compound holdsNone nonempty _ _ ih =>
      exact (Expr.within_compound plain holdsNone nonempty).mpr ih
  | retyped _ _ ih => exact (Expr.within_withType _).mpr ih
  | simplified _ ih => exact ih.simplify plain
  | navigation _ _ ih =>
      refine Expr.within_subQuery.mpr ⟨List.cons_ne_nil _ _, ?_⟩
      intro c hc
      obtain rfl : c = _ := by
        simpa [Query.ofSource, Select.ofSource, Select.clauses, Source.along, Source.path?] using hc
      exact ih.widen (List.Subset.refl _) (List.nil_subset _)
  | entity =>
      refine Expr.within_subQuery.mpr ⟨List.cons_ne_nil _ _, ?_⟩
      intro c hc
      simp [Query.ofSource, Select.ofSource, Select.clauses, Source.path?] at hc
  | counted _ ih =>
      obtain ⟨sources, clauses⟩ := Expr.within_subQuery.mp ih
      exact Expr.within_aggregate.mpr ⟨sources, by simp, clauses⟩
  | summarized _ _ _ _ _ mark ihq ihe =>
      obtain ⟨sources, clauses⟩ := Expr.within_subQuery.mp ihq
      refine Expr.within_aggregate.mpr ⟨sources, ?_, clauses⟩
      simpa using ihe.inlined_bound (Query.bound_currentRow clauses) mark
  | @derived _ _ _ _ query query' _ _ _ mark _ _ _ _ derives mark' ihq ihe =>
      obtain ⟨sources, clauses⟩ := Expr.within_subQuery.mp ihq
      have new := ihe.inlined_bound (Query.bound_currentRow clauses) mark
      have adds := derives.elim Query.adds_filtered Query.adds_projected
      refine Expr.within_subQuery.mpr ⟨?_, (clauses.adds adds (by simpa using new)).separate mark'⟩
      rw [Query.ids_separate, adds.ids_eq]
      exact sources
  | later _ _ ih => exact ih

/-! ## Folding -/

namespace Query

variable {q q' : Query}

theorem NewClause.bound {start next : SourceId} {e : Expr} (closed : q.Closed)
    (h : NewClause q start next e) : e.Bound [] q.current.ids := by
  obtain ⟨sources, clauses⟩ := closed_iff.mp closed
  have row : q.currentRow.Bound [] q.current.ids := by simpa using bound_currentRow clauses
  have inside : q.Within (Referent.Bound []) q.current.ids := clauses.widen (List.nil_subset _)
  induction h with
  | overRow h =>
      cases h with
      | mk built _ mark => exact (built.bound (by simp)).inlined_bound row mark
  | overGroup _ built _ mark ihkey =>
      exact (built.bound (by simpa using closed)).inlined_bound ihkey mark
  | overStream built _ =>
      exact ((built.bound (by simpa using closed)).simplify fun _ => trivial).widen
        (List.Subset.refl _) (List.nil_subset _)
  | summarized _ fn ih =>
      refine Expr.within_aggregate.mpr ⟨sources, ?_, inside⟩
      simpa using ih.widen (List.Subset.refl _) (List.subset_append_left ..)
  | counted => exact Expr.within_aggregate.mpr ⟨sources, by simp, inside⟩
  | pair _ _ ihl ihr => exact Expr.within_pack (fun _ => trivial) (by simp [ihl, ihr])
  | item _ hc ih =>
      exact (Expr.within_compound (fun _ => trivial) rfl (List.ne_nil_of_mem hc)).mp ih _ hc
  | later _ _ ih => exact ih

/-- What one fold can do keeps a query closed. -/
theorem Closed.folded (closed : q.Closed) (h : Folded NewClause q q') : q'.Closed := by
  obtain ⟨sources, clauses⟩ := closed_iff.mp closed
  cases h with
  | adds adds made le =>
      refine closed_iff.mpr ⟨adds.ids_eq ▸ sources, clauses.adds adds fun e he => ?_⟩
      simpa using (made e he).bound closed
  | @joins other t next new joined =>
      have joins := joins_joined joined
      obtain ⟨-, inner⟩ := Expr.within_subQuery.mp ((NewClause.overRow new).bound closed)
      refine ⟨by simp [joins.ids_eq, sources], fun c hc => ?_⟩
      rw [joins.ids_eq]
      have left {c : Expr} (h : c.Bound [] q.current.ids) :
          c.Bound [] (q.current.ids ++ other.current.ids) :=
        h.widen (List.Subset.refl _) (List.subset_append_left ..)
      have right {c : Expr} (h : c.Bound [] (other.current.ids ++ q.current.ids)) :
          c.Bound [] (q.current.ids ++ other.current.ids) :=
        h.widen (List.Subset.refl _) (by simp)
      rcases joins.clauses c hc with old | moved | rfl
      · exact left (closed.clauses c old)
      · exact right (inner c moved)
      · refine Expr.within_pack (fun _ => trivial) ?_
        have first := left (by simpa using bound_currentRow clauses)
        have second := right (bound_currentRow inner)
        simp [first, second]

theorem closed_ofEntity (name : String) : (ofEntity name).Closed := by
  refine ⟨by simp [ofEntity, ofSource, Select.ofSource, Select.ids], ?_⟩
  simp [ofEntity, ofSource, Select.ofSource, Select.clauses, Source.path?]

end Query

theorem Reached.closed {allowed : Compiler → Query → Operation → Query → Prop} {q : Query}
    (h : Reached allowed q) : q.Closed :=
  h.invariant Query.closed_ofEntity fun _ _ closed folded => closed.folded folded

end StreamQuery
