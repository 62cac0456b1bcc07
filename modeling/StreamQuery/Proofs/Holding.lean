import StreamQuery.Proofs.Spreading

/-! # What the queries in an expression keep

A property that queries keep when they are revised, marked or derived from spreads
over everything that is compiled: all queries in an expression have it if the stream
and the sources that compiling started from have it. Compiling also builds no empty
tuple.
-/

namespace StreamQuery

/-- A property that a query keeps when rows take the places of elements, rules are
applied, marks are given, or a nested closure filters or projects it. -/
structure Query.Lasting (P : Query → Prop) : Prop where
  placing : ∀ {q : Query} (scope : ElementScope) (row : Expr), P q →
    P ((Expr.placing scope row).resultQuery q)
  rules : ∀ {q : Query} (held : Query → Bool), P q →
    P ((Expr.rules (.kept held) true).resultQuery q)
  marked : ∀ {q : Query} (kept : Query → Bool) (m : Nat), P q → P (q.marked kept m)
  derived : ∀ {q q' : Query} {e : Expr} {next : SourceId} (m : Nat), P q →
    (q.filtered e next = .ok q' ∨ q.projected e next = .ok q') → P (q'.separate.run m).1

theorem Query.lasting_true : Lasting fun _ => True :=
  ⟨fun _ _ _ => trivial, fun _ _ => trivial, fun _ _ _ => trivial, fun _ _ _ => trivial⟩

namespace Expr

variable {P : Query → Prop}

/-- All queries in a tree have a property, and no tuple in it is empty. -/
def Holding (P : Query → Prop) (e : Expr) : Prop :=
  e.Everywhere fun node => (∀ t, node ≠ .tuple [] t) ∧ ∀ q ∈ node.query?, P q

theorem holding_iff {e : Expr} : e.Holding P ↔ (∀ t, e ≠ .tuple [] t) ∧
    (∀ q ∈ e.query?, P q ∧ ∀ c ∈ q.current.clauses, c.Holding P) ∧
      ∀ c ∈ e.children, c.Holding P := by
  rw [Holding, everywhere_iff]
  constructor
  · rintro ⟨⟨wide, here⟩, parts⟩
    refine ⟨wide, fun q hq => ⟨here q hq, fun c hc => ?_⟩, fun c hc => ?_⟩
    · exact parts c (mem_parts_true.mpr (.inr ⟨q, hq, hc⟩))
    · exact parts c (mem_parts_true.mpr (.inl hc))
  · rintro ⟨wide, queries, children⟩
    refine ⟨⟨wide, fun q hq => (queries q hq).1⟩, fun c hc => ?_⟩
    rcases mem_parts_true.mp hc with hc | ⟨q, hq, hc⟩
    · exact children c hc
    · exact (queries q hq).2 c hc

theorem Holding.mono {P' : Query → Prop} {e : Expr} (h : e.Holding P) (imp : ∀ q, P q → P' q) :
    e.Holding P' :=
  Everywhere.mono h fun _ node => ⟨node.1, fun q hq => imp q (node.2 q hq)⟩

theorem holding_compound {e : Expr} (holdsNone : e.query? = none) (nonempty : e.children ≠ []) :
    e.Holding P ↔ ∀ c ∈ e.children, c.Holding P := by
  have wide : ∀ t, e ≠ .tuple [] t := by
    rintro t rfl
    exact nonempty rfl
  rw [holding_iff]
  simp [wide, holdsNone]

theorem holding_subQuery {q : Query} {t : ValueType} : (subQuery q t).Holding P ↔
    P q ∧ ∀ c ∈ q.current.clauses, c.Holding P := by
  rw [holding_iff]
  simp [query?, children]

theorem holding_aggregate {fn : AggregateFn} {arg : Option Expr} {q : Query} {t : ValueType} :
    (aggregate fn arg q t).Holding P ↔ (P q ∧ ∀ c ∈ q.current.clauses, c.Holding P) ∧
      ∀ e ∈ arg, e.Holding P := by
  rw [holding_iff]
  simp [query?, children]

theorem hereditary_holding : Hereditary (Holding P) where
  compound := holding_compound
  constant v t _ := everywhere_constant.mpr (by simp [query?])
  double x y s t _ _ := everywhere_constant.mpr (by simp [query?])

/-! ## How it spreads -/

/-- A node that is built anew holds what the pass makes of its query, and a tuple has as
many components as before. -/
theorem holds_rebuild {pass : Pass} (query : ∀ q, P q → P (pass.resultQuery q)) {e : Expr}
    (h : (∀ t, e ≠ .tuple [] t) ∧ ∀ q ∈ e.query?, P q) :
    (∀ t, pass.rebuild e ≠ .tuple [] t) ∧ ∀ q ∈ (pass.rebuild e).query?, P q := by
  obtain ⟨wide, here⟩ := h
  refine ⟨fun t empty => ?_, fun q hq => ?_⟩
  · have children := @Pass.children_rebuild pass e
    rw [empty] at children
    cases e with
    | tuple items t =>
        have none : items = [] := by simpa [Expr.children] using children.symm
        exact wide t (none ▸ rfl)
    | _ => simp at empty
  · rw [Pass.query?_rebuild] at hq
    obtain ⟨held, hheld, rfl⟩ := Option.map_eq_some_iff.mp hq
    exact query held (here held hheld)

theorem holds_marked (lasting : Query.Lasting P) {e : Expr}
    (h : (∀ t, e ≠ .tuple [] t) ∧ ∀ q ∈ e.query?, P q) (kept : Query → Bool) (m : Nat) :
    (∀ t, e.marked kept m ≠ .tuple [] t) ∧ ∀ q ∈ (e.marked kept m).query?, P q := by
  obtain ⟨wide, here⟩ := h
  refine ⟨fun t empty => ?_, fun q hq => ?_⟩
  · cases e with
    | tuple items s =>
        have same := congrArg Expr.children empty
        rw [children_marked] at same
        have none : items.length = 0 := by
          simpa [Expr.children, length_markedAll] using congrArg List.length same
        exact wide s (List.eq_nil_of_length_eq_zero none ▸ rfl)
    | _ => simp at empty
  · rw [query?_marked] at hq
    obtain ⟨held, hheld, rfl⟩ := Option.map_eq_some_iff.mp hq
    exact lasting.marked kept _ (here held hheld)

theorem lasting_holding (lasting : Query.Lasting P) :
    Lasting fun node => (∀ t, node ≠ .tuple [] t) ∧ ∀ q ∈ node.query?, P q where
  placing scope row h := @holds_rebuild P _ (fun _ => lasting.placing scope row) _ h
  rules held h := @holds_rebuild P _ (fun _ => lasting.rules held) _ h
  simplifying h := @holds_rebuild P _ (fun q hq => by rwa [Pass.resultQuery_eq]) _ h
  marked kept m h := holds_marked lasting h kept m
  reduced reduces h := hereditary_holding.foldable.of_reduces reduces h

theorem spreading_holding (lasting : Query.Lasting P) {opens : SourceId → Prop}
    (opened : ∀ source : Source, opens source.id → P (.ofSource source)) :
    Spreading (fun node => (∀ t, node ≠ .tuple [] t) ∧ ∀ q ∈ node.query?, P q) opens where
  toLasting := lasting_holding lasting
  constant _ _ _ := by simp [query?]
  param _ _ _ := by simp [query?]
  element _ _ := by simp [query?]
  compound {e} holdsNone nonempty _ := by
    refine ⟨?_, by simp [holdsNone]⟩
    rintro t rfl
    exact nonempty rfl
  retyped {e t} _ h := by cases e <;> simp_all [withType, query?]
  opened h := by simpa [embed, query?] using opened _ h
  root _ _ := by simp [Source.row, query?]
  summarized fn arg h := by simpa [summarize, query?] using h
  derived {q q' t e next} m h _ derives := by
    have here : P q := by simpa [query?] using h
    simpa [embed, query?] using lasting.derived m here derives

end Expr

/-! ## Compiling and folding -/

namespace Query

variable {P : Query → Prop} {q q' : Query} {start next : SourceId} {e : Expr}

theorem holding_currentRow (h : ∀ c ∈ q.current.clauses, c.Holding P) : q.currentRow.Holding P :=
  everywhere_currentRow (by simp [Expr.query?]) (by simp [Source.row, Expr.query?]) h

theorem OverRow.holding (lasting : Lasting P) (clauses : ∀ c ∈ q.current.clauses, c.Holding P)
    (opened : ∀ source : Source, start ≤ source.id → P (.ofSource source))
    (h : OverRow q start next e) : e.Holding P :=
  h.everywhere (Expr.spreading_holding lasting opened) (holding_currentRow clauses) fun _ lo => lo

theorem NewClause.holding (lasting : Lasting P) (here : P q)
    (clauses : ∀ c ∈ q.current.clauses, c.Holding P)
    (opened : ∀ source : Source, start ≤ source.id → P (.ofSource source))
    (h : NewClause q start next e) : e.Holding P :=
  h.everywhere (Expr.spreading_holding lasting opened)
    (Expr.holding_subQuery.mpr ⟨here, clauses⟩) fun _ lo => lo

/-- What one fold can do keeps the queries in all clauses as they should be, if the new
expressions are. -/
theorem Folded.holding {made : Query → SourceId → SourceId → Expr → Prop} (lasting : Lasting P)
    (clauses : ∀ c ∈ q.current.clauses, c.Holding P)
    (opened : ∀ source : Source, q.current.nextSource ≤ source.id → P (.ofSource source))
    (each : ∀ {next e}, made q q.current.nextSource next e → e.Holding P)
    (h : Folded made q q') : ∀ c ∈ q'.current.clauses, c.Holding P :=
  h.everywhere (Expr.spreading_holding lasting opened) clauses (holding_currentRow clauses)
    (fun _ lo => lo) each

theorem FoldStep.holding (lasting : Lasting P) (here : P q)
    (clauses : ∀ c ∈ q.current.clauses, c.Holding P)
    (opened : ∀ source : Source, q.current.nextSource ≤ source.id → P (.ofSource source))
    (h : FoldStep q q') : ∀ c ∈ q'.current.clauses, c.Holding P :=
  h.folded.holding lasting clauses opened fun made => made.holding lasting here clauses opened

theorem holding_normalize (lasting : Lasting P) (h : ∀ c ∈ q.current.clauses, c.Holding P) :
    ∀ c ∈ q.normalize.current.clauses, c.Holding P :=
  everywhere_normalize (Expr.lasting_holding lasting) h

end Query

end StreamQuery
