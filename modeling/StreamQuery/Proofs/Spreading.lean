import StreamQuery.Proofs.Substitution

/-! # What spreads over compiled expressions

A property that nodes keep when they are revised and marked, and that holds of each
node which compiling makes, spreads over everything that is compiled: all nodes of an
expression have it if the nodes have it that compiling was given, and the sources that
it opened. From compiled expressions it goes on to the clauses of the queries that
operations derive with them, and to the normal form of those.
-/

namespace StreamQuery

namespace Expr

variable {p : Expr → Prop}

/-- A property that nodes keep when rows take the places of elements, rules are applied
and marks are given. -/
structure Lasting (p : Expr → Prop) : Prop where
  placing : ∀ {e : Expr} (scope : ElementScope) (row : Expr), p e →
    p ((Expr.placing scope row).rebuild e)
  rules : ∀ {e : Expr} (held : Query → Bool), p e → p ((Expr.rules (.kept held) true).rebuild e)
  simplifying : ∀ {e : Expr}, p e → p (shallow.rebuild e)
  marked : ∀ {e : Expr} (kept : Query → Bool) (m : Nat), p e → p (e.marked kept m)
  reduced : ∀ {l : Likeness} {e e' : Expr}, Reduces l e e' → e.Everywhere p → e'.Everywhere p

/-- A lasting property of all nodes that compiling makes, over sources that it may open. -/
structure Spreading (p : Expr → Prop) (opens : SourceId → Prop) : Prop extends Lasting p where
  constant : ∀ (v : Value) {t : ValueType}, t.isTuple = false → p (.constant v t)
  param : ∀ (capture : Capture) {t : ValueType}, t.isTuple = false → p (.param capture t)
  element : ∀ (scope : ElementScope) (t : ValueType), p (.element scope t)
  compound : ∀ {e : Expr}, e.query? = none → e.children ≠ [] → e.FitsKind → p e
  retyped : ∀ {e : Expr} {t : ValueType},
    (t = e.type ∨ e.type.isTuple = false ∧ t.isTuple = false) → p e → p (e.withType t)
  opened : ∀ {source : Source}, opens source.id → p (.embed (.ofSource source))
  root : ∀ {q : Query} {t : ValueType} {source : Source}, p (.subQuery q t) →
    source ∈ q.current.sources → p source.row
  summarized : ∀ {q : Query} {t : ValueType} (fn : AggregateFn) (arg : Option Expr),
    p (.subQuery q t) → p (.summarize fn arg q)
  derived : ∀ {q q' : Query} {t : ValueType} {e : Expr} {next : SourceId} (m : Nat),
    p (.subQuery q t) → (∀ c ∈ q.current.clauses, c.Everywhere p) →
      (q.filtered e next = .ok q' ∨ q.projected e next = .ok q') →
        p (.embed (q'.separate.run m).1)

/-! ## Passes and marks -/

theorem Everywhere.marked (lasting : Lasting p) {e : Expr} (h : e.Everywhere p)
    (kept : Query → Bool) (m : Nat) : (e.marked kept m).Everywhere p := by
  induction e using partsInduction true generalizing m with
  | node e ih =>
      obtain ⟨here, parts⟩ := everywhere_iff.mp h
      refine everywhere_iff.mpr ⟨lasting.marked kept m here, fun c hc => ?_⟩
      rcases mem_parts_true.mp hc with hc | ⟨q, hq, hc⟩
      · rw [children_marked] at hc
        obtain ⟨child, hchild, k, -, rfl⟩ := mem_markedAll hc
        have part := mem_parts_true.mpr (.inl hchild)
        exact ih child part (parts child part) k
      · rw [query?_marked] at hq
        obtain ⟨query, hquery, rfl⟩ := Option.map_eq_some_iff.mp hq
        obtain ⟨clause, hclause, rfl | ⟨k, rfl⟩⟩ := Query.mem_clauses_marked hc
        · exact parts c (mem_parts_true.mpr (.inr ⟨query, hquery, hclause⟩))
        · have part := mem_parts_true.mpr (.inr ⟨query, hquery, hclause⟩)
          exact ih clause part (parts clause part) k

theorem Lasting.reduce (lasting : Lasting p) {l : Likeness} {e e' : Expr}
    (reduces : reduce? l e = some e') (h : e.Everywhere p) : e'.Everywhere p :=
  lasting.reduced (reduces_of_reduce? reduces) h

theorem Everywhere.simplify (lasting : Lasting p) {e : Expr} (h : e.Everywhere p) :
    e.simplify.Everywhere p := by
  refine @Pass.everywhere_result shallow p ?_ ?_ ?_ e h
  · simp [shallow]
  · exact fun _ _ => lasting.reduce
  · exact fun _ => lasting.simplifying

theorem Everywhere.rules (lasting : Lasting p) {e : Expr} (h : e.Everywhere p)
    (held : Query → Bool) : ((Expr.rules (.kept held) true).result e).Everywhere p := by
  refine Pass.everywhere_result ?_ ?_ ?_ h
  · simp [Expr.rules]
  · exact fun _ _ => lasting.reduce
  · exact fun _ => lasting.rules held

theorem Everywhere.inlined (lasting : Lasting p) {e row : Expr} (h : e.Everywhere p)
    (hrow : row.Everywhere p) (scope : ElementScope) (m : Nat) :
    ((e.inlined scope row).run m).1.Everywhere p := by
  have placed : ((placing scope row).result e).Everywhere p := by
    refine Pass.everywhere_result (fun e r hr => ?_) ?_ ?_ h
    · cases e with
      | element s t =>
          simp only [placing, Option.ite_none_right_eq_some, Option.some.injEq] at hr
          exact hr.2 ▸ hrow
      | _ => cases hr
    · simp [placing]
    · exact fun _ => lasting.placing scope row
  rw [inlined_run_eq]
  exact (placed.rules lasting _).marked lasting _ m

theorem everywhere_compound {e : Expr} (holdsNone : e.query? = none) :
    e.Everywhere p ↔ p e ∧ ∀ c ∈ e.children, c.Everywhere p := by
  rw [everywhere_iff, parts, holdsNone]
  simp

end Expr

namespace Query

variable {p : Expr → Prop} {q q' : Query}

theorem everywhere_separate (lasting : Expr.Lasting p)
    (h : ∀ c ∈ q.current.clauses, c.Everywhere p) (m : Nat) :
    ∀ c ∈ (q.separate.run m).1.current.clauses, c.Everywhere p := by
  obtain ⟨s, run, -, -, -, clauses⟩ := q.fresh_run (fun _ => true) m
  have fresh : (q.separate.run m).1 = ⟨s, q.past⟩ := congrArg Prod.fst run
  intro c hc
  rw [fresh] at hc
  obtain ⟨clause, hclause, k, -, rfl⟩ := Expr.mem_markedAll (clauses ▸ hc)
  exact (h clause hclause).marked lasting _ k

theorem everywhere_normalize (lasting : Expr.Lasting p)
    (h : ∀ c ∈ q.current.clauses, c.Everywhere p) :
    ∀ c ∈ q.normalize.current.clauses, c.Everywhere p := by
  intro c hc
  obtain ⟨clause, hclause, rfl | ⟨m, rfl⟩⟩ := q.normalize_spec.2 c hc
  · exact h c hclause
  · exact ((h clause hclause).rules lasting _).marked lasting _ m

theorem everywhere_adds {new : List Expr} {next : SourceId}
    (h : ∀ c ∈ q.current.clauses, c.Everywhere p) (adds : Adds new next q q')
    (hnew : ∀ e ∈ new, e.Everywhere p) : ∀ c ∈ q'.current.clauses, c.Everywhere p :=
  fun c hc => (adds.clauses c hc).elim (h c) (hnew c)

theorem everywhere_currentRow (null : p (.constant .null .null))
    (root : ∀ source ∈ q.current.sources, p source.row)
    (h : ∀ c ∈ q.current.clauses, c.Everywhere p) : q.currentRow.Everywhere p := by
  unfold currentRow Select.currentRow
  split
  · next projection hp => exact h projection (by simp [Select.clauses, hp])
  · next source _ hroot =>
      exact Expr.everywhere_row.mpr (root source (List.mem_of_mem_head? hroot))
  · exact Expr.everywhere_constant.mpr null

end Query

/-! ## Compiled expressions -/

section

variable {p : Expr → Prop} {opens : SourceId → Prop}

theorem Expr.Spreading.currentRow (spreading : Expr.Spreading p opens) {q : Query} {t : ValueType}
    (h : (Expr.subQuery q t).Everywhere p) : q.currentRow.Everywhere p := by
  obtain ⟨here, clauses⟩ := Expr.everywhere_subQuery.mp h
  exact Query.everywhere_currentRow (spreading.constant .null rfl)
    (fun _ hs => spreading.root here hs) clauses

theorem Expr.Spreading.summarize (spreading : Expr.Spreading p opens) {q : Query} {t : ValueType}
    (h : (Expr.subQuery q t).Everywhere p) (fn : AggregateFn) {arg : Option Expr}
    (harg : ∀ e ∈ arg, e.Everywhere p) : (Expr.summarize fn arg q).Everywhere p := by
  obtain ⟨here, clauses⟩ := Expr.everywhere_subQuery.mp h
  exact Expr.everywhere_aggregate.mpr ⟨spreading.summarized fn arg here, harg, clauses⟩

theorem Compile.BuiltFrom.everywhere (spreading : Expr.Spreading p opens) {given : Expr → Prop}
    {start next : SourceId} {scopes : List ElementScope} {e : Expr}
    (fromOutside : ∀ x, given x → x.Everywhere p)
    (opened : ∀ id, start ≤ id → id < next → opens id)
    (h : BuiltFrom given start scopes next e) : e.Everywhere p := by
  have lasting := spreading.toLasting
  induction h with
  | constant v single => exact Expr.everywhere_constant.mpr (spreading.constant v single)
  | param capture single => exact Expr.everywhere_param.mpr (spreading.param capture single)
  | element _ t => exact Expr.everywhere_element.mpr (spreading.element _ t)
  | given found => exact fromOutside _ found
  | compound holdsNone nonempty fits _ ih =>
      refine (Expr.everywhere_compound holdsNone).mpr ?_
      exact ⟨spreading.compound holdsNone nonempty fits, fun c hc => ih c hc opened⟩
  | retyped _ keeps ih =>
      have inner := ih opened
      exact inner.withType (spreading.retyped keeps (Expr.everywhere_iff.mp inner).1)
  | simplified _ ih => exact (ih opened).simplify lasting
  | @navigation start next _ path _ later ih =>
      have new : opens (Source.along next path).id := opened next later (Nat.lt_succ_self _)
      refine Expr.everywhere_subQuery.mpr ⟨spreading.opened new, fun c hc => ?_⟩
      obtain rfl : c = path := by
        simpa [Query.ofSource, Select.ofSource, Select.clauses, Source.along, Source.path?] using hc
      exact ih fun id lo hi => opened id lo (Nat.lt_succ_of_lt hi)
  | @entity start next _ name later =>
      have new : opens (Source.entity next name).id := opened next later (Nat.lt_succ_self _)
      refine Expr.everywhere_subQuery.mpr ⟨spreading.opened new, fun c hc => ?_⟩
      simp [Query.ofSource, Select.ofSource, Select.clauses, Source.path?] at hc
  | counted _ ih => exact spreading.summarize (ih opened) .count (by simp)
  | @summarized _ _ _ _ _ _ _ scope _ _ later le fn mark ihq ihe =>
      have query := ihq fun id lo hi => opened id lo (Nat.lt_of_lt_of_le hi le)
      have inner := ihe fun id lo hi => opened id (Nat.le_trans later lo) hi
      have arg := inner.inlined lasting (spreading.currentRow query) scope mark
      exact spreading.summarize query fn (by simpa using arg)
  | @derived _ _ _ _ _ _ _ _ scope mark _ _ later le derives mark' ihq ihe =>
      have query := ihq fun id lo hi => opened id lo (Nat.lt_of_lt_of_le hi le)
      have inner := ihe fun id lo hi => opened id (Nat.le_trans later lo) hi
      have new := inner.inlined lasting (spreading.currentRow query) scope mark
      have adds := derives.elim Query.adds_filtered Query.adds_projected
      obtain ⟨here, clauses⟩ := Expr.everywhere_subQuery.mp query
      refine Expr.everywhere_subQuery.mpr ⟨spreading.derived mark' here clauses derives, ?_⟩
      exact Query.everywhere_separate lasting
        (Query.everywhere_adds clauses adds (by simpa using new)) mark'
  | later _ le ih => exact ih fun id lo hi => opened id lo (Nat.lt_of_lt_of_le hi le)

/-! ## Folding -/

namespace Query

variable {q q' : Query} {start next : SourceId} {e : Expr}

theorem OverRow.everywhere (spreading : Expr.Spreading p opens) (row : q.currentRow.Everywhere p)
    (opened : ∀ id, start ≤ id → opens id) (h : OverRow q start next e) : e.Everywhere p := by
  cases h with
  | mk built _ mark =>
      have inner := built.everywhere spreading (by simp [Expr.Streamed]) fun id lo _ => opened id lo
      exact inner.inlined spreading.toLasting row 1 mark

theorem NewClause.everywhere (spreading : Expr.Spreading p opens)
    (here : (Expr.embed q).Everywhere p) (opened : ∀ id, start ≤ id → opens id)
    (h : NewClause q start next e) : e.Everywhere p := by
  have stream : ∀ x : Expr, x.Streamed (some q) → x.Everywhere p := by
    rintro x ⟨_, ⟨⟩, rfl⟩
    exact here
  induction h with
  | overRow h => exact h.everywhere spreading (spreading.currentRow here) opened
  | overGroup hkey built _ mark ihkey =>
      have inner := built.everywhere spreading stream fun id lo _ =>
        opened id (Nat.le_trans hkey.le lo)
      exact inner.inlined spreading.toLasting ihkey 2 mark
  | overStream built _ =>
      exact (built.everywhere spreading stream fun id lo _ => opened id lo).simplify
        spreading.toLasting
  | summarized _ fn ih => exact spreading.summarize here fn (by simpa using ih)
  | counted => exact spreading.summarize here .count (by simp)
  | pair _ _ ihl ihr =>
      refine (Expr.everywhere_compound rfl).mpr
        ⟨spreading.compound rfl (by simp [Expr.pack, Expr.children]) rfl, ?_⟩
      simp [Expr.pack, Expr.children, ihl, ihr]
  | item _ hc ih => exact (Expr.everywhere_tuple.mp ih).2 _ hc
  | later _ _ ih => exact ih

/-- What one fold can do spreads a property over all clauses, if it is one of the new
expressions. -/
theorem Folded.everywhere {made : Query → SourceId → SourceId → Expr → Prop}
    (spreading : Expr.Spreading p opens) (clauses : ∀ c ∈ q.current.clauses, c.Everywhere p)
    (row : q.currentRow.Everywhere p) (opened : ∀ id, q.current.nextSource ≤ id → opens id)
    (each : ∀ {next e}, made q q.current.nextSource next e → e.Everywhere p)
    (h : Folded made q q') : ∀ c ∈ q'.current.clauses, c.Everywhere p := by
  cases h with
  | adds adds made _ => exact everywhere_adds clauses adds fun e he => each (made e he)
  | joins new joined =>
      have other := new.everywhere spreading row opened
      intro c hc
      rcases (joins_joined joined).clauses c hc with old | moved | rfl
      · exact clauses c old
      · exact (Expr.everywhere_subQuery.mp other).2 c moved
      · refine (Expr.everywhere_compound rfl).mpr
          ⟨spreading.compound rfl (by simp [Expr.pack, Expr.children]) rfl, ?_⟩
        simp [Expr.pack, Expr.children, row, spreading.currentRow other]

theorem FoldStep.everywhere (spreading : Expr.Spreading p opens)
    (here : (Expr.embed q).Everywhere p) (opened : ∀ id, q.current.nextSource ≤ id → opens id)
    (h : FoldStep q q') : ∀ c ∈ q'.current.clauses, c.Everywhere p :=
  h.folded.everywhere spreading (Expr.everywhere_subQuery.mp here).2 (spreading.currentRow here)
    opened fun made => made.everywhere spreading here opened

end Query

end

end StreamQuery
