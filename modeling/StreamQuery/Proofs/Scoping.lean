import StreamQuery.Proofs.Idempotence

/-! # Places of nodes

A node stands in the queries around it. What it may refer to, a row, an element or
sources of its own, depends on the sources of those queries. `Within` asks
something of every node and the sources around it, those of nested queries
included. Rules, marks and rows in the place of elements keep it, each under a
condition on single nodes.
-/

namespace StreamQuery

def Select.ids (s : Select) : List SourceId := s.sources.map Source.id

inductive Referent where
  | nothing
  | row (source : SourceId)
  | element (scope : ElementScope)
  | query (sources : List SourceId)

namespace Expr

def referent : Expr → Referent
  | row source _ => .row source
  | element scope _ => .element scope
  | aggregate _ _ query _ | subQuery query _ => .query query.current.ids
  | _ => .nothing

/-- The sources that a node puts around its parts. The argument of an aggregate
stands in the aggregate's query. -/
def opens (e : Expr) : List SourceId := (e.query?.map (·.current.ids)).getD []

/-- Every node has a property, together with the sources of the queries around it,
the innermost first. -/
inductive Within (p : List SourceId → Referent → Prop) : List SourceId → Expr → Prop where
  | node {ids : List SourceId} {e : Expr} (here : p ids e.referent)
      (below : ∀ c ∈ e.parts true, Within p (e.opens ++ ids) c) : Within p ids e

end Expr

def Query.Within (p : List SourceId → Referent → Prop) (ids : List SourceId) (q : Query) : Prop :=
  ∀ c ∈ q.current.clauses, c.Within p (q.current.ids ++ ids)

namespace Expr

section

variable {p p' : List SourceId → Referent → Prop} {ids ids' : List SourceId}

theorem within_iff {e : Expr} : e.Within p ids ↔
    p ids e.referent ∧ ∀ c ∈ e.parts true, c.Within p (e.opens ++ ids) := by
  constructor
  · rintro ⟨here, below⟩
    exact ⟨here, below⟩
  · rintro ⟨here, below⟩
    exact ⟨here, below⟩

/-- The sources around a tree stand behind those that its own nodes put around
their parts, so a tree can be moved to another place. -/
theorem Within.reframe {e : Expr} (h : e.Within p ids)
    (imp : ∀ inner r, p (inner ++ ids) r → p' (inner ++ ids') r) : e.Within p' ids' := by
  generalize hinner : ids = outer at h
  suffices general : ∀ inner, outer = inner ++ ids → e.Within p' (inner ++ ids') from
    general [] hinner.symm
  clear hinner
  induction h with
  | @node outer e here below ih =>
      rintro inner rfl
      refine ⟨imp inner _ here, fun c hc => ?_⟩
      rw [← List.append_assoc]
      exact ih c hc _ (List.append_assoc ..).symm

theorem Within.mono {e : Expr} (h : e.Within p ids) (imp : ∀ ids r, p ids r → p' ids r) :
    e.Within p' ids :=
  h.reframe fun inner r => imp (inner ++ ids) r

theorem Within.and {e : Expr} (h : e.Within p ids) (h' : e.Within p' ids) :
    e.Within (fun ids r => p ids r ∧ p' ids r) ids := by
  induction h with
  | node here below ih =>
      obtain ⟨here', below'⟩ := within_iff.mp h'
      exact ⟨⟨here, here'⟩, fun c hc => ih c hc (below' c hc)⟩

theorem within_subQuery {query : Query} {t : ValueType} :
    (subQuery query t).Within p ids ↔ p ids (.query query.current.ids) ∧ query.Within p ids := by
  rw [within_iff]
  simp [parts, children, query?, opens, referent, Query.Within]

theorem within_aggregate {fn : AggregateFn} {arg : Option Expr} {query : Query} {t : ValueType} :
    (aggregate fn arg query t).Within p ids ↔ p ids (.query query.current.ids) ∧
      (∀ e ∈ arg, e.Within p (query.current.ids ++ ids)) ∧ query.Within p ids := by
  rw [within_iff]
  simp [parts, children, query?, opens, referent, Query.Within, or_imp, forall_and]

theorem referent_compound {e : Expr} (hq : e.query? = none) (hc : e.children ≠ []) :
    e.referent = .nothing := by
  cases e <;> simp_all [referent, query?, children]

/-- Nodes that hold no query change nothing about the sources around their parts. -/
theorem within_compound {e : Expr} (plain : ∀ ids, p ids .nothing) (hq : e.query? = none)
    (hc : e.children ≠ []) : e.Within p ids ↔ ∀ c ∈ e.children, c.Within p ids := by
  rw [within_iff, referent_compound hq hc, opens, parts, hq]
  simp [plain]

theorem Within.children {e : Expr} (h : e.Within p ids) (hq : e.query? = none) :
    ∀ c ∈ e.children, c.Within p ids := by
  have below := (within_iff.mp h).2
  simpa [parts, opens, hq] using below

theorem within_constant {v : Value} {t : ValueType} (plain : ∀ ids, p ids .nothing) :
    (constant v t).Within p ids :=
  within_iff.mpr ⟨plain ids, by simp [parts, children, query?]⟩

theorem within_param {capture : Capture} {t : ValueType} (plain : ∀ ids, p ids .nothing) :
    (param capture t).Within p ids :=
  within_iff.mpr ⟨plain ids, by simp [parts, children, query?]⟩

theorem within_row {source : SourceId} {t : ValueType} :
    (row source t).Within p ids ↔ p ids (.row source) := by
  rw [within_iff]
  simp [parts, children, query?, referent]

theorem within_element {scope : ElementScope} {t : ValueType} :
    (element scope t).Within p ids ↔ p ids (.element scope) := by
  rw [within_iff]
  simp [parts, children, query?, referent]

theorem within_withType {e : Expr} (t : ValueType) :
    (e.withType t).Within p ids ↔ e.Within p ids := by
  cases e <;> rw [within_iff, within_iff] <;> rfl

theorem hereditary_within (plain : ∀ ids, p ids .nothing) (ids : List SourceId) :
    Hereditary (Within p ids) where
  compound := within_compound plain
  constant _ _ _ := within_constant plain
  double _ _ _ _ _ _ := within_constant plain

theorem within_pack {items : List Expr} (plain : ∀ ids, p ids .nothing)
    (h : ∀ e ∈ items, e.Within p ids) : (pack items).Within p ids :=
  within_iff.mpr ⟨plain ids, by simpa [pack, parts, children, query?, opens] using h⟩

end

/-! ## Passes -/

theorem ids_of_sources {s s' : Select}
    (h : s.sources.map Source.skeleton = s'.sources.map Source.skeleton) : s.ids = s'.ids := by
  have ids (ss : List Source) : (ss.map Source.skeleton).map Source.id = ss.map Source.id := by
    rw [List.map_map]
    refine List.map_congr_left fun s _ => ?_
    cases s <;> rfl
  rw [Select.ids, Select.ids, ← ids, h, ids]

theorem ids_of_skeleton {s s' : Select} (h : s.skeleton = s'.skeleton) : s.ids = s'.ids :=
  ids_of_sources (congrArg Select.sources h)

theorem ids_resultQuery (pass : Pass) (q : Query) :
    (pass.resultQuery q).current.ids = q.current.ids := by
  rw [Pass.resultQuery_eq]
  split
  · exact ids_of_skeleton (Pass.skeleton_resultSelect q.current)
  · rfl

theorem referent_rebuild (pass : Pass) (e : Expr) : (pass.rebuild e).referent = e.referent := by
  cases e <;> simp [referent, ids_resultQuery]

theorem opens_rebuild (pass : Pass) (e : Expr) : (pass.rebuild e).opens = e.opens := by
  rw [opens, Pass.query?_rebuild, opens]
  cases e.query? <;> simp [ids_resultQuery]

variable {p p' : List SourceId → Referent → Prop} {ids : List SourceId}

/-- What a pass puts in the place of a node must suit that place, and the nodes that
it keeps must. -/
theorem Within.result {pass : Pass}
    (replaced : ∀ ids e r, pass.replace e = some r → p ids e.referent → r.Within p' ids)
    (kept : ∀ ids e, pass.replace e = none → p ids e.referent → p' ids e.referent)
    (finished : ∀ ids e e', pass.finish e = some e' → e.Within p' ids → e'.Within p' ids)
    (deep : pass.deep = true ∨ p = p') {e : Expr} (h : e.Within p ids) :
    (pass.result e).Within p' ids := by
  induction h with
  | @node ids e here below ih =>
      cases hr : pass.replace e with
      | some replacement =>
          rw [Pass.result_of_replace hr]
          exact replaced ids e replacement hr here
      | none =>
          have node : (pass.rebuild e).Within p' ids := by
            refine within_iff.mpr ⟨?_, fun c hc => ?_⟩
            · rw [referent_rebuild]
              exact kept ids e hr here
            · rw [opens_rebuild]
              rcases mem_parts_true.mp hc with hc | ⟨q, hq, hc⟩
              · rw [Pass.children_rebuild] at hc
                obtain ⟨child, hchild, rfl⟩ := List.mem_map.mp hc
                exact ih child (mem_parts_true.mpr (.inl hchild))
              · rw [Pass.query?_rebuild] at hq
                obtain ⟨query, hquery, rfl⟩ := Option.map_eq_some_iff.mp hq
                rw [Pass.resultQuery_eq] at hc
                split at hc
                · rw [Pass.clauses_resultSelect] at hc
                  obtain ⟨clause, hclause, rfl⟩ := List.mem_map.mp hc
                  exact ih clause (mem_parts_true.mpr (.inr ⟨query, hquery, hclause⟩))
                · next shallow =>
                    obtain rfl := deep.resolve_left shallow
                    exact below c (mem_parts_true.mpr (.inr ⟨query, hquery, hc⟩))
          rw [Pass.result_eq_finished hr, Pass.finished]
          cases hf : pass.finish (pass.rebuild e) with
          | none => exact node
          | some e' => exact finished ids _ e' hf node

theorem Within.rules (plain : ∀ ids, p ids .nothing) {e : Expr} (h : e.Within p ids)
    (l : Likeness) (deep : Bool) : ((rules l deep).result e).Within p ids := by
  refine Within.result ?_ ?_ ?_ (.inr rfl) h
  · intro ids e r hr
    cases hr
  · intro ids e _ here
    exact here
  · intro ids e e' hf he
    exact (hereditary_within plain ids).foldable.of_reduces (reduces_of_reduce? hf) he

theorem Within.simplify (plain : ∀ ids, p ids .nothing) {e : Expr} (h : e.Within p ids) :
    e.simplify.Within p ids :=
  h.rules plain .usual false

end Expr

/-! ## Marks -/

namespace Query

variable {kept : Query → Bool}

theorem ids_marked (q : Query) (m : Nat) : (q.marked kept m).current.ids = q.current.ids := by
  obtain ⟨s, run, skeleton, -⟩ := q.fresh_run kept m
  rw [marked]
  split
  · rfl
  · rw [run]
    exact Expr.ids_of_skeleton skeleton

theorem mem_clauses_marked {q : Query} {m : Nat} {c : Expr}
    (h : c ∈ (q.marked kept m).current.clauses) :
    ∃ clause ∈ q.current.clauses, c = clause ∨ ∃ k, c = clause.marked kept k := by
  obtain ⟨s, run, -, -, -, clauses⟩ := q.fresh_run kept m
  rw [marked] at h
  split at h
  · exact ⟨c, h, .inl rfl⟩
  · rw [run] at h
    obtain ⟨clause, hc, k, -, rfl⟩ := Expr.mem_markedAll (clauses ▸ h)
    exact ⟨clause, hc, .inr ⟨k, rfl⟩⟩

end Query

namespace Expr

variable {p p' : List SourceId → Referent → Prop} {ids : List SourceId}

theorem referent_marked (kept : Query → Bool) (e : Expr) (m : Nat) :
    (e.marked kept m).referent = e.referent := by
  cases e <;> simp [referent, Query.ids_marked]

theorem opens_marked (kept : Query → Bool) (e : Expr) (m : Nat) :
    (e.marked kept m).opens = e.opens := by
  rw [opens, query?_marked, opens]
  cases e.query? <;> simp [Query.ids_marked]

theorem Within.marked {e : Expr} (h : e.Within p ids) (kept : Query → Bool) (m : Nat) :
    (e.marked kept m).Within p ids := by
  induction h generalizing m with
  | @node ids e here below ih =>
      refine within_iff.mpr ⟨by rwa [referent_marked], fun c hc => ?_⟩
      rw [opens_marked]
      rcases mem_parts_true.mp hc with hc | ⟨q, hq, hc⟩
      · rw [children_marked] at hc
        obtain ⟨child, hchild, k, -, rfl⟩ := mem_markedAll hc
        exact ih child (mem_parts_true.mpr (.inl hchild)) k
      · rw [query?_marked] at hq
        obtain ⟨query, hquery, rfl⟩ := Option.map_eq_some_iff.mp hq
        obtain ⟨clause, hclause, rfl | ⟨k, rfl⟩⟩ := Query.mem_clauses_marked hc
        · exact below c (mem_parts_true.mpr (.inr ⟨query, hquery, hclause⟩))
        · exact ih clause (mem_parts_true.mpr (.inr ⟨query, hquery, hclause⟩)) k

/-! ## Rows in the place of elements -/

/-- A closed tree that a row is put into takes the place of the row. Its own nodes
must suit that place, and the row must suit the places of the element, which have
more sources around them. -/
theorem Within.inlined {row e : Expr} {q : List SourceId → Referent → Prop}
    {scope : ElementScope} (h : e.Within p []) (hrow : row.Within q ids)
    (plain : ∀ ids, p' ids .nothing)
    (keeps : ∀ inner r, r ≠ .element scope → p inner r → p' (inner ++ ids) r)
    (moves : ∀ outer, p outer (.element scope) →
      ∀ inner r, q (inner ++ ids) r → p' (inner ++ (outer ++ ids)) r) (m : Nat) :
    ((e.inlined scope row).run m).1.Within p' ids := by
  -- At the element's places the row is known to fit; elsewhere the node is.
  have placed : e.Within (fun ids r =>
      (r = .element scope → row.Within p' ids) ∧ (r ≠ .element scope → p' ids r)) ids := by
    refine h.reframe fun inner r here => ⟨?_, fun other => ?_⟩
    · rintro rfl
      rw [List.append_nil] at here
      exact hrow.reframe (moves inner here)
    · rw [List.append_nil] at here
      exact keeps inner r other here
  refine Within.marked (Within.rules plain ?_ (.kept _) true) _ m
  refine Within.result ?_ ?_ ?_ (.inl rfl) placed
  · intro ids e r hr here
    simp only at hr
    split at hr
    · split at hr
      · next found =>
          cases hr
          exact here.1 (congrArg Referent.element found)
      · cases hr
    · cases hr
  · intro ids e hr here
    refine here.2 fun element => ?_
    cases e with
    | element s t =>
        cases element
        simp at hr
    | _ => cases element
  · intro ids e e' hf
    cases hf

end Expr

/-! ## Queries -/

namespace Query

variable {p p' : List SourceId → Referent → Prop} {ids ids' : List SourceId} {q q' : Query}

theorem Within.reframe (h : q.Within p ids)
    (imp : ∀ inner r, p (inner ++ (q.current.ids ++ ids)) r →
      p' (inner ++ (q.current.ids ++ ids')) r) : q.Within p' ids' :=
  fun c hc => (h c hc).reframe imp

theorem Within.mono (h : q.Within p ids) (imp : ∀ ids r, p ids r → p' ids r) : q.Within p' ids :=
  fun c hc => (h c hc).mono imp

theorem Within.and (h : q.Within p ids) (h' : q.Within p' ids) :
    q.Within (fun ids r => p ids r ∧ p' ids r) ids :=
  fun c hc => (h c hc).and (h' c hc)

/-- A row of a query stands among its sources. -/
theorem Within.currentRow (plain : ∀ ids, p ids .nothing) (h : q.Within p ids)
    (root : ∀ id ∈ q.current.ids, p (q.current.ids ++ ids) (.row id)) :
    q.currentRow.Within p (q.current.ids ++ ids) := by
  unfold Query.currentRow Select.currentRow
  split
  · next projection hp => exact h projection (by simp [Select.clauses, hp])
  · next source _ hroot =>
      have first : source ∈ q.current.sources := List.mem_of_mem_head? hroot
      exact Expr.within_row.mpr (root source.id (List.mem_map_of_mem first))
  · exact Expr.within_constant plain

theorem ids_separate (q : Query) (m : Nat) :
    (q.separate.run m).1.current.ids = q.current.ids := by
  obtain ⟨s, run, skeleton, -⟩ := q.fresh_run (fun _ => true) m
  have fresh : (q.separate.run m).1 = ⟨s, q.past⟩ := congrArg Prod.fst run
  rw [fresh]
  exact Expr.ids_of_skeleton skeleton

theorem Within.separate (h : q.Within p ids) (m : Nat) : (q.separate.run m).1.Within p ids := by
  obtain ⟨s, run, -, -, -, clauses⟩ := q.fresh_run (fun _ => true) m
  have fresh : (q.separate.run m).1 = ⟨s, q.past⟩ := congrArg Prod.fst run
  intro c hc
  rw [ids_separate]
  rw [fresh] at hc
  obtain ⟨clause, hclause, k, -, rfl⟩ := Expr.mem_markedAll (clauses ▸ hc)
  exact (h clause hclause).marked _ k

/-! ## Normal form -/

/-- The clauses of the normal form are those of the query, or each was put in normal
form and marked. -/
theorem normalize_spec (q : Query) : q.normalize.current.skeleton = q.current.skeleton ∧
    ∀ c ∈ q.normalize.current.clauses, ∃ clause ∈ q.current.clauses,
      c = clause ∨ ∃ m, c = ((Expr.thorough q.holds).result clause).marked q.holds m := by
  rw [normalize_eq]
  split
  · obtain ⟨s, run, skeleton, -, -, clauses⟩ := Select.fresh_run q.holds q.nextMark
      ((Expr.thorough q.holds).resultQuery q).current
    rw [run]
    have deep : (Expr.thorough q.holds).deep = true := rfl
    rw [Pass.resultQuery_eq, if_pos deep] at skeleton clauses
    refine ⟨skeleton.trans (Pass.skeleton_resultSelect q.current), fun c hc => ?_⟩
    obtain ⟨c, part, m, -, rfl⟩ := Expr.mem_markedAll (clauses ▸ hc)
    rw [Pass.clauses_resultSelect] at part
    obtain ⟨clause, hclause, rfl⟩ := List.mem_map.mp part
    exact ⟨clause, hclause, .inr ⟨m, rfl⟩⟩
  · exact ⟨rfl, fun c hc => ⟨c, hc, .inl rfl⟩⟩

theorem ids_normalize (q : Query) : q.normalize.current.ids = q.current.ids :=
  Expr.ids_of_skeleton q.normalize_spec.1

theorem Within.normalize (plain : ∀ ids, p ids .nothing) (h : q.Within p ids) :
    q.normalize.Within p ids := by
  intro c hc
  rw [ids_normalize]
  obtain ⟨clause, hclause, rfl | ⟨m, rfl⟩⟩ := q.normalize_spec.2 c hc
  · exact h c hclause
  · exact ((h clause hclause).rules plain (.kept q.holds) true).marked _ m

end Query

end StreamQuery
