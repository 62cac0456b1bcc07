import StreamQuery.Proofs.Closed

/-! # Numbers of sources

Sources are numbered in the order in which closures open them. A nested query has
therefore sources other than those of all queries around it, unless it ranges over
sources of the outermost query. That happens where a closure is given the stream of
that query, and where a stream that is a row is joined. The numbers stay apart when
rows are put into the places of elements, because what a row holds was opened before
what it is put into.
-/

namespace StreamQuery

namespace Referent

/-- The sources of nested queries, but for shared ones, are not among those around
them, and are numbered below `next`. -/
def Apart (shared : List SourceId) (next : SourceId) (ids : List SourceId) : Referent → Prop
  | query own => ∀ id ∈ own, id ∈ shared ∨ (id ∉ ids ∧ id < next)
  | _ => True

/-- In what a closure compiles to, other sources than those of the given stream were
opened by the closure, from `start` on, or stand inside the given stream, which was
built before `low`. Elements stand among sources of the first two kinds. -/
def Opened (given : List SourceId) (low start next : SourceId) (ids : List SourceId) :
    Referent → Prop
  | query own => ∀ id ∈ own, id ∈ given ∨
      (id ∉ ids ∧ (start ≤ id ∧ id < next ∨ id < low ∧ ids ≠ []))
  | element _ => ∀ id ∈ ids, id ∈ given ∨ start ≤ id
  | _ => True

variable {given ids : List SourceId} {low start next : SourceId} {r : Referent}

theorem Opened.later {next' : SourceId} (h : r.Opened given low start next ids)
    (le : next ≤ next') : r.Opened given low start next' ids := by
  cases r with
  | query own =>
      intro id hid
      refine (h id hid).imp_right fun ⟨outside, range⟩ => ⟨outside, range.imp_left fun ⟨l, r⟩ => ?_⟩
      exact ⟨l, Nat.lt_of_lt_of_le r le⟩
  | element _ => exact h
  | _ => trivial

theorem Apart.mono {shared shared' ids' : List SourceId} {next' : SourceId}
    (h : r.Apart shared next ids) (hshared : shared ⊆ shared')
    (le : next ≤ next') (hids : ∀ id ∈ ids', id ∈ ids ∨ id ∈ shared' ∨ next ≤ id) :
    r.Apart shared' next' ids' := by
  cases r with
  | query own =>
      intro id hid
      by_cases known : id ∈ shared'
      · exact .inl known
      obtain ⟨outside, below⟩ := (h id hid).resolve_left fun old => known (hshared old)
      refine .inr ⟨fun mem => ?_, Nat.lt_of_lt_of_le below le⟩
      rcases hids id mem with mem | mem | above
      · exact outside mem
      · exact known mem
      · exact Nat.not_lt.mpr above below
  | _ => trivial

/-- The source that is opened next is a new one. -/
theorem opened_next (later : start ≤ next) :
    (query [next]).Opened given low start (next + 1) [] := by
  intro id hid
  obtain rfl := List.mem_singleton.mp hid
  exact .inr ⟨List.not_mem_nil, .inl ⟨later, Nat.lt_succ_self _⟩⟩

/-- What was opened before may stand below the source that is opened next. -/
theorem Opened.below_next (h : r.Opened given low start next ids) (hlow : low ≤ start)
    (later : start ≤ next) : r.Opened given low start (next + 1) (ids ++ [next]) := by
  cases r with
  | query own =>
      intro id hid
      refine (h id hid).imp_right fun opened => ⟨?_, ?_⟩
      · have before : id < next := opened.2.elim And.right fun old =>
          Nat.lt_of_lt_of_le old.1 (Nat.le_trans hlow later)
        simp [opened.1, Nat.ne_of_lt before]
      · exact opened.2.imp (fun new => ⟨new.1, Nat.lt_succ_of_lt new.2⟩) fun old =>
          ⟨old.1, by simp⟩
  | element s =>
      intro id hid
      rcases List.mem_append.mp hid with hid | hid
      · exact h id hid
      · obtain rfl := List.mem_singleton.mp hid
        exact .inr later
  | _ => trivial

/-- What is compiled over a given stream takes its place among the stream's sources. -/
theorem Opened.apart (h : r.Opened given low start next ids) (hlow : low ≤ start)
    (le : start ≤ next) : r.Apart given next (ids ++ given) := by
  cases r with
  | query own =>
      intro id hid
      by_cases known : id ∈ given
      · exact .inl known
      obtain ⟨outside, range⟩ := (h id hid).resolve_left known
      refine .inr ⟨by simp [outside, known], ?_⟩
      exact range.elim And.right fun old => Nat.lt_of_lt_of_le old.1 (Nat.le_trans hlow le)
  | _ => trivial

end Referent

namespace Expr

variable {given ids : List SourceId} {low start opened next : SourceId}

/-- A row of a query built before `opened` in what was built from there on. -/
theorem Within.inlined_opened {e row : Expr} {scope : ElementScope}
    (h : e.Within (Referent.Opened given low opened next) [])
    (hrow : row.Within (Referent.Opened given low start opened) ids)
    (hids : ∀ id ∈ ids, id ∈ given ∨ (start ≤ id ∧ id < opened)) (hlow : low ≤ start)
    (later : start ≤ opened) (le : opened ≤ next) (m : Nat) :
    ((e.inlined scope row).run m).1.Within (Referent.Opened given low start next) ids := by
  refine Within.inlined h hrow (fun _ => trivial) ?_ ?_ m
  · intro inner r _ hr
    cases r with
    | query own =>
        intro id hid
        by_cases shared : id ∈ given
        · exact .inl shared
        obtain ⟨outside, range⟩ := (hr id hid).resolve_left shared
        refine .inr ⟨fun mem => ?_, ?_⟩
        · rcases List.mem_append.mp mem with mem | mem
          · exact outside mem
          · obtain ⟨above, below⟩ := (hids id mem).resolve_left shared
            rcases range with ⟨new, -⟩ | ⟨old, -⟩
            · exact Nat.not_lt.mpr new below
            · exact Nat.not_lt.mpr (Nat.le_trans hlow above) old
        · refine range.imp (fun new => ⟨Nat.le_trans later new.1, new.2⟩) fun old => ⟨old.1, ?_⟩
          simp [old.2]
    | element s =>
        intro id hid
        rcases List.mem_append.mp hid with hid | hid
        · exact (hr id hid).imp_right (Nat.le_trans later)
        · exact (hids id hid).imp_right And.left
    | _ => trivial
  · intro outer here inner r hr
    cases r with
    | query own =>
        intro id hid
        by_cases shared : id ∈ given
        · exact .inl shared
        obtain ⟨outside, range⟩ := (hr id hid).resolve_left shared
        refine .inr ⟨fun mem => ?_, ?_⟩
        · simp only [List.mem_append] at mem outside
          rcases mem with mem | mem | mem
          · exact outside (.inl mem)
          · have new := (here id mem).resolve_left shared
            rcases range with ⟨-, below⟩ | ⟨old, -⟩
            · exact Nat.not_lt.mpr new below
            · exact Nat.not_lt.mpr (Nat.le_trans hlow (Nat.le_trans later new)) old
          · exact outside (.inr mem)
        · refine range.imp (fun new => ⟨new.1, Nat.lt_of_lt_of_le new.2 le⟩) fun old => ⟨old.1, ?_⟩
          have := old.2
          simp only [ne_eq, List.append_eq_nil_iff] at this ⊢
          exact fun none => this ⟨none.1, none.2.2⟩
    | element s =>
        intro id hid
        simp only [List.mem_append] at hid
        rcases hid with hid | hid | hid
        · exact hr id (List.mem_append_left _ hid)
        · exact (here id hid).imp_right (Nat.le_trans later)
        · exact hr id (List.mem_append_right _ hid)
    | _ => trivial

/-- The values of a nested closure on the rows of a query. -/
theorem Within.inlined_currentRow {query : Query} {t : ValueType} {e : Expr}
    (hq : (subQuery query t).Within (Referent.Opened given low start opened) [])
    (h : e.Within (Referent.Opened given low opened next) []) (hlow : low ≤ start)
    (later : start ≤ opened) (le : opened ≤ next) (scope : ElementScope) (m : Nat) :
    ((e.inlined scope query.currentRow).run m).1.Within (Referent.Opened given low start next)
      (query.current.ids ++ []) := by
  obtain ⟨own, clauses⟩ := within_subQuery.mp hq
  have row := clauses.currentRow (fun _ => trivial) fun _ _ => trivial
  refine h.inlined_opened row (fun id hid => ?_) hlow later le m
  rw [List.append_nil] at hid
  exact (own id hid).imp_right fun ⟨_, range⟩ => range.resolve_right fun old => old.2 rfl

end Expr

/-! ## Compiled expressions -/

theorem Compile.Built.opened {stream? : Option Query} {start next low : SourceId}
    {given : List SourceId} {scopes : List ElementScope} {e : Expr}
    (streams : ∀ q ∈ stream?, q.Closed ∧ q.current.ids = given ∧
      q.Within (Referent.Apart given low) [])
    (h : Built stream? start scopes next e) (hlow : low ≤ start) :
    e.Within (Referent.Opened given low start next) [] := by
  have plain : ∀ {start next : SourceId} (ids : List SourceId),
      Referent.nothing.Opened given low start next ids := fun _ => trivial
  induction h with
  | constant => exact Expr.within_constant plain
  | param => exact Expr.within_param plain
  | element => exact Expr.within_element.mpr (by simp [Referent.Opened])
  | given found =>
      obtain ⟨query, found, rfl⟩ := found
      obtain ⟨closed, rfl, apart⟩ := streams _ found
      obtain ⟨hasSource, bound⟩ := Query.closed_iff.mp closed
      refine Expr.within_subQuery.mpr ⟨fun id hid => .inl hid, (bound.and apart).reframe ?_⟩
      rintro inner r ⟨bound, apart⟩
      cases r with
      | query own =>
          intro id hid
          refine (apart id hid).imp_right (And.imp_right fun old => .inr ⟨old, ?_⟩)
          simp [hasSource]
      | element s => cases bound
      | _ => trivial
  | compound holdsNone nonempty _ _ ih =>
      exact (Expr.within_compound plain holdsNone nonempty).mpr fun c hc => ih c hc hlow
  | retyped _ _ ih => exact (Expr.within_withType _).mpr (ih hlow)
  | simplified _ ih => exact (ih hlow).simplify plain
  | @navigation start next _ path _ later ih =>
      refine Expr.within_subQuery.mpr ⟨Referent.opened_next later, fun c hc => ?_⟩
      obtain rfl : c = path := by
        simpa [Query.ofSource, Select.ofSource, Select.clauses, Source.along, Source.path?] using hc
      refine (ih hlow).reframe fun inner r hr => ?_
      rw [List.append_nil] at hr ⊢
      exact hr.below_next hlow later
  | entity name later =>
      refine Expr.within_subQuery.mpr ⟨Referent.opened_next later, fun c hc => ?_⟩
      simp [Query.ofSource, Select.ofSource, Select.clauses, Source.path?] at hc
  | counted _ ih =>
      obtain ⟨own, clauses⟩ := Expr.within_subQuery.mp (ih hlow)
      exact Expr.within_aggregate.mpr ⟨own, by simp, clauses⟩
  | @summarized _ _ _ _ _ _ _ scope _ _ later le _ mark ihq ihe =>
      have stream := ihq hlow
      have arg := stream.inlined_currentRow (ihe (Nat.le_trans hlow later)) hlow later le scope mark
      obtain ⟨own, clauses⟩ := Expr.within_subQuery.mp (stream.mono fun _ _ hr => hr.later le)
      exact Expr.within_aggregate.mpr ⟨own, by simpa using arg, clauses⟩
  | @derived _ _ _ _ query query' _ _ scope mark _ _ later le derives mark' ihq ihe =>
      have stream := ihq hlow
      have new := stream.inlined_currentRow (ihe (Nat.le_trans hlow later)) hlow later le scope mark
      obtain ⟨own, clauses⟩ := Expr.within_subQuery.mp (stream.mono fun _ _ hr => hr.later le)
      have adds := derives.elim Query.adds_filtered Query.adds_projected
      refine Expr.within_subQuery.mpr ⟨?_, (clauses.adds adds (by simpa using new)).separate mark'⟩
      rw [Query.ids_separate, adds.ids_eq]
      exact own
  | later _ le ih => exact (ih hlow).mono fun _ _ hr => hr.later le

/-! ## Folding -/

namespace Query

/-- The sources of a query are numbered once each, all numbers are below `nextSource`,
and those of nested queries are apart but for shared ones. -/
structure Numbered (shared : List SourceId) (q : Query) : Prop where
  nodup : q.current.ids.Nodup
  below : ∀ id ∈ q.current.ids, id < q.current.nextSource
  apart : q.Within (Referent.Apart shared q.current.nextSource) []

variable {q q' : Query} {shared : List SourceId} {next : SourceId} {e : Expr}

/-- The value of a closure of one row. What it opened is numbered from `nextSource`
on, what the row holds before that. -/
theorem OverRow.apart (numbered : q.Numbered shared) (h : OverRow q q.current.nextSource next e) :
    e.Within (Referent.Apart shared next) q.current.ids := by
  cases h with
  | @mk inner built le mark =>
      have opened : inner.Within (Referent.Opened [] 0 q.current.nextSource next) [] :=
        built.opened (by simp) (Nat.zero_le _)
      have row := numbered.apart.currentRow (fun _ => trivial) fun _ _ => trivial
      rw [List.append_nil] at row
      refine opened.inlined row (fun _ => trivial) ?_ ?_ mark
      · intro ids r _ hr
        cases r with
        | query own =>
            intro id hid
            obtain ⟨outside, range⟩ := (hr id hid).resolve_left (by simp)
            obtain ⟨new, below⟩ := range.resolve_right fun old => Nat.not_lt_zero _ old.1
            refine .inr ⟨fun mem => ?_, below⟩
            rcases List.mem_append.mp mem with mem | mem
            · exact outside mem
            · exact Nat.not_lt.mpr new (numbered.below id mem)
        | _ => trivial
      · intro outer here ids r hr
        refine hr.mono (List.Subset.refl _) le fun id hid => ?_
        simp only [List.mem_append] at hid ⊢
        rcases hid with hid | hid | hid
        · exact .inl (.inl hid)
        · exact .inr (.inr ((here id hid).resolve_left (by simp)))
        · exact .inl (.inr hid)

theorem NewClause.apart (closed : q.Closed) (numbered : q.Numbered q.current.ids)
    (h : NewClause q q.current.nextSource next e) :
    e.Within (Referent.Apart q.current.ids next) q.current.ids := by
  have given : ∀ query ∈ some q, query.Closed ∧ query.current.ids = q.current.ids ∧
      query.Within (Referent.Apart q.current.ids q.current.nextSource) [] := by
    rintro _ ⟨⟩
    exact ⟨closed, rfl, numbered.apart⟩
  have inside {next : SourceId} (le : q.current.nextSource ≤ next) :
      q.Within (Referent.Apart q.current.ids next) q.current.ids :=
    numbered.apart.reframe fun _ _ hr => hr.mono (List.Subset.refl _) le fun id hid =>
      .inl (by simpa using hid)
  induction h with
  | overRow h => exact OverRow.apart numbered h
  | overGroup hkey built le mark ih =>
      have opened := built.opened given hkey.le
      refine opened.inlined ih (fun _ => trivial) ?_ ?_ mark
      · exact fun ids r _ hr => hr.apart hkey.le le
      · intro outer here ids r hr
        refine hr.mono (List.Subset.refl _) le fun id hid => ?_
        simp only [List.mem_append] at hid ⊢
        rcases hid with hid | hid | hid
        · exact .inl (.inl hid)
        · exact .inr (here id hid)
        · exact .inl (.inr hid)
  | overStream built le =>
      have opened := built.opened given (Nat.le_refl _)
      refine (opened.simplify fun _ => trivial).reframe fun ids r hr => ?_
      rw [List.append_nil] at hr
      exact hr.apart (Nat.le_refl _) le
  | summarized h fn ih =>
      refine Expr.within_aggregate.mpr ⟨fun id hid => .inl hid, ?_, inside h.le⟩
      rintro _ ⟨⟩
      exact ih.reframe fun _ _ hr => hr.mono (List.Subset.refl _) (Nat.le_refl _) fun id hid =>
        .inl (by simpa using hid)
  | counted =>
      exact Expr.within_aggregate.mpr ⟨fun id hid => .inl hid, by simp, inside (Nat.le_refl _)⟩
  | pair _ _ ihl ihr => exact Expr.within_pack (fun _ => trivial) (by simp [ihl, ihr])
  | item _ hc ih =>
      exact (Expr.within_compound (fun _ => trivial) rfl (List.ne_nil_of_mem hc)).mp ih _ hc
  | later _ le ih =>
      exact ih.mono fun _ _ hr => hr.mono (List.Subset.refl _) le fun _ => .inl

theorem Numbered.adds {new : List Expr} (numbered : q.Numbered shared) (adds : Adds new next q q')
    (le : q.current.nextSource ≤ next)
    (hnew : ∀ e ∈ new, e.Within (Referent.Apart shared next) q.current.ids) :
    q'.Numbered shared := by
  have most : q'.current.nextSource = next := by
    rw [adds.nextSource]
    exact Nat.max_eq_right le
  refine ⟨adds.ids_eq ▸ numbered.nodup, fun id hid => ?_, ?_⟩
  · rw [most]
    exact Nat.lt_of_lt_of_le (numbered.below id (adds.ids_eq ▸ hid)) le
  · rw [most]
    have old := numbered.apart.mono fun _ _ hr => hr.mono (List.Subset.refl _) le fun _ => .inl
    exact old.adds adds (by simpa using hnew)

/-- A joined stream may range over an old source only if that becomes a shared one. -/
theorem Numbered.joins {shared' : List SourceId} {other : Query} {t : ValueType}
    (numbered : q.Numbered shared) (inside : shared ⊆ q.current.ids)
    (new : OverRow q q.current.nextSource next (.subQuery other t)) (joins : Joins other next q q')
    (hshared : shared ⊆ shared')
    (fresh : ∀ id ∈ other.current.ids, id ∈ shared' ∨ q.current.nextSource ≤ id) :
    q'.Numbered shared' := by
  have ids := joins.ids_eq
  have unused := joins.unused
  obtain ⟨⟨source, one, -⟩, -, parts, most⟩ := joins
  obtain ⟨own, clauses⟩ := Expr.within_subQuery.mp (new.apart numbered)
  have single : other.current.ids = [source.id] := by rw [Select.ids, one]; rfl
  have next_le : next ≤ q'.current.nextSource := by
    rw [most]
    exact Nat.le_trans (Nat.le_max_left ..) (Nat.le_max_right ..)
  have old_le : q.current.nextSource ≤ q'.current.nextSource := Nat.le_trans new.le next_le
  have left {c : Expr} (h : c.Within (Referent.Apart shared q.current.nextSource) q.current.ids) :
      c.Within (Referent.Apart shared' q'.current.nextSource) q'.current.ids := by
    refine h.reframe fun inner r hr => hr.mono hshared old_le fun id hid => ?_
    simp only [ids, List.mem_append] at hid ⊢
    rcases hid with hid | hid | hid
    · exact .inl (.inl hid)
    · exact .inl (.inr hid)
    · exact .inr (fresh id hid)
  have right {c : Expr}
      (h : c.Within (Referent.Apart shared next) (other.current.ids ++ q.current.ids)) :
      c.Within (Referent.Apart shared' q'.current.nextSource) q'.current.ids := by
    refine h.reframe fun inner r hr => hr.mono hshared next_le fun id hid => .inl ?_
    simp only [ids, List.mem_append] at hid ⊢
    exact hid.imp_right Or.symm
  refine ⟨?_, fun id hid => ?_, fun c hc => ?_⟩
  · rw [ids, single, List.nodup_append]
    refine ⟨numbered.nodup, by simp, ?_⟩
    rintro id hid _ hother rfl
    exact unused id (single ▸ hother) hid
  · rcases List.mem_append.mp (ids ▸ hid) with hid | hid
    · exact Nat.lt_of_lt_of_le (numbered.below id hid) old_le
    · have new := (own id hid).resolve_left fun old => unused id hid (inside old)
      exact Nat.lt_of_lt_of_le new.2 next_le
  · rw [List.append_nil]
    rcases parts c hc with old | moved | rfl
    · exact left (by simpa using numbered.apart c old)
    · exact right (clauses c moved)
    · refine Expr.within_pack (fun _ => trivial) ?_
      have first := left (by
        simpa using numbered.apart.currentRow (fun _ => trivial) fun _ _ => trivial)
      have second := right (clauses.currentRow (fun _ => trivial) fun _ _ => trivial)
      simp [first, second]

/-- What one fold can do, with the sources of the query itself as shared ones. -/
theorem Numbered.folded (closed : q.Closed) (numbered : q.Numbered q.current.ids)
    (h : Folded NewClause q q') : q'.Numbered q'.current.ids := by
  cases h with
  | adds adds new le =>
      rw [adds.ids_eq]
      exact numbered.adds adds le fun e he => (new e he).apart closed numbered
  | joins new joined =>
      have joins := joins_joined joined
      rw [joins.ids_eq]
      exact numbered.joins (List.Subset.refl _) new joins (List.subset_append_left ..)
        fun id hid => .inl (List.mem_append_right _ hid)

/-- What one row-wise fold can do, with no shared sources, if a join adds no source
that was opened before. -/
theorem Numbered.folded_own (numbered : q.Numbered []) (h : Folded OverRow q q')
    (own : ∀ id ∈ q'.current.ids, id ∈ q.current.ids ∨ q.current.nextSource ≤ id) :
    q'.Numbered [] := by
  cases h with
  | adds adds new le => exact numbered.adds adds le fun e he => (new e he).apart numbered
  | joins new joined =>
      have joins := joins_joined joined
      refine numbered.joins (List.nil_subset _) new joins (List.nil_subset _) fun id hid => .inr ?_
      refine (own id ?_).resolve_left (joins.unused id hid)
      rw [joins.ids_eq]
      exact List.mem_append_right _ hid

theorem numbered_ofEntity (name : String) : (ofEntity name).Numbered shared := by
  refine ⟨by simp [ofEntity, ofSource, Select.ofSource, Select.ids], fun id hid => ?_,
    fun c hc => ?_⟩
  · obtain rfl := List.mem_singleton.mp hid
    exact Nat.lt_succ_self 0
  · simp [ofEntity, ofSource, Select.ofSource, Select.clauses, Source.path?] at hc

end Query

/-! ## Joins that are refused -/

namespace Query

variable {q other : Query} {next : SourceId}

theorem require_bind_eq_error {α : Type} {verb : Verb} {condition : Bool} {reason : Reason}
    {rest : Unit → Except Refusal α} {refusal : Refusal}
    (h : (require verb condition reason >>= rest) = .error refusal) :
    (condition = false ∧ refusal = ⟨verb, reason⟩) ∨ rest () = .error refusal := by
  unfold require at h
  cases condition
  · exact .inl ⟨rfl, (Except.error.inj h).symm⟩
  · exact .inr h

theorem joined_eq_sourceReused (h : q.joined other next = .error ⟨.join, .sourceReused⟩) :
    ∃ id ∈ other.current.ids, id ∈ q.current.ids := by
  rw [joined, requireShape, requireUnbounded] at h
  have h := (require_bind_eq_error h).resolve_left (by simp)
  have h := (require_bind_eq_error h).resolve_left (by simp)
  have h := (require_bind_eq_error h).resolve_left (by simp)
  have h := (require_bind_eq_error h).resolve_left (by simp)
  obtain ⟨reused, -⟩ := (require_bind_eq_error h).resolve_right (by simp [pure, Except.pure])
  simp only [Bool.not_eq_false', List.any_eq_true, Option.any_eq_true, beq_iff_eq] at reused
  obtain ⟨source, hs, root, hroot, same⟩ := reused
  refine ⟨root.id, List.mem_map_of_mem (List.mem_of_mem_head? hroot), ?_⟩
  rw [same]
  exact List.mem_map_of_mem hs

theorem overRow_run_eq_error {env : Compile.Environment} {closure : Closure}
    {supply : Compile.Supply} {error : FoldError}
    (h : (q.overRow env closure).run supply = .error error) : ∃ e, error = .compile e := by
  rw [overRow, StateT.run_bind, compileIn_run, ← Compile.elementChain] at h
  cases outcome :
      (closure.compile env (Compile.elementChain closure q.rowType) 1 supply).outcome with
  | error refused =>
      rw [outcome] at h
      exact ⟨refused, (Except.error.inj h).symm⟩
  | ok e =>
      rw [outcome] at h
      cases h

/-- A join is refused for a source that is used already only if the stream that its
closure gives ranges over that. -/
theorem fold_join_eq_sourceReused {compiler : Compiler} {closure : Closure}
    (h : compiler.fold q (.join closure) = .error (.refused ⟨.join, .sourceReused⟩)) :
    ∃ other t supply, (q.overRow compiler.environment closure).run
        ⟨q.current.nextSource, compiler.nextMark⟩ = .ok (.subQuery other t, supply) ∧
      ∃ id ∈ other.current.ids, id ∈ q.current.ids := by
  unfold Compiler.fold fold extend foldM at h
  rw [StateT.run_bind] at h
  cases ran : (q.overRow compiler.environment closure).run
      ⟨q.current.nextSource, compiler.nextMark⟩ with
  | error error =>
      obtain ⟨e, rfl⟩ := overRow_run_eq_error ran
      rw [ran] at h
      cases h
  | ok found =>
      obtain ⟨e, supply⟩ := found
      rw [ran] at h
      simp only [bind, Except.bind] at h
      split at h
      · next other t =>
          change ((((liftRefusal (q.joined other supply.nextSource)).run supply).map
            (Prod.map id Compile.Supply.nextMark)).map Prod.fst).mapError QueryError.ofFold = _ at h
          refine ⟨other, t, supply, rfl, ?_⟩
          cases joined : q.joined other supply.nextSource with
          | ok q' =>
              rw [joined] at h
              cases h
          | error refusal =>
              rw [joined] at h
              obtain rfl : refusal = ⟨.join, .sourceReused⟩ :=
                QueryError.refused.inj (Except.error.inj h)
              exact joined_eq_sourceReused joined
      · cases h

end Query

def Rowwise (_ : Compiler) (_ : Query) (operation : Operation) (_ : Query) : Prop :=
  operation.isRowwise = true

/-- An operation on rows of which a join adds a source that its closure opened. -/
def OpensOwn (compiler : Compiler) (q : Query) (operation : Operation) (q' : Query) : Prop :=
  Rowwise compiler q operation q' ∧ ∀ id ∈ q'.current.ids, id ∈ q.current.ids ∨
    q.current.nextSource ≤ id

namespace Reached

variable {allowed : Compiler → Query → Operation → Query → Prop} {q : Query}

theorem numbered (h : Reached allowed q) : q.Numbered q.current.ids := by
  refine (h.invariant (P := fun q => q.Closed ∧ q.Numbered q.current.ids) ?_ ?_).2
  · exact fun entity => ⟨Query.closed_ofEntity entity, Query.numbered_ofEntity entity⟩
  · rintro q q' ⟨closed, numbered⟩ folded
    exact ⟨closed.folded folded, numbered.folded closed folded⟩

theorem numbered_own (h : Reached OpensOwn q) : q.Numbered [] := by
  induction h with
  | opened h => exact Compiler.streamAll_eq_ok h ▸ Query.numbered_ofEntity _
  | folded _ folds may ih =>
      exact ih.folded_own (Query.folded_of_rowwise may.1 (Compiler.fold_eq_ok.mp folds)) may.2

end Reached

end StreamQuery
