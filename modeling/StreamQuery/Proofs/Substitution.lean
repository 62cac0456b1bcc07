import StreamQuery.Proofs.Closed
import StreamQuery.Proofs.SimplifyValue

/-! # Values of rows in the place of elements

An expression reads no more of a valuation than the rows, elements and parameters
that it refers to. With a row in the place of an element it has the value that it
had where the element was the value of the row. For a nested stream the same holds
clause by clause.
-/

namespace StreamQuery

namespace Valuation

variable {Obj : Type}

def withElement (ν : Valuation Obj) (scope : ElementScope) (d : Datum Obj) : Valuation Obj :=
  { ν with element := fun s => if s = scope then d else ν.element s }

def withRow (ν : Valuation Obj) (source : SourceId) (d : Datum Obj) : Valuation Obj :=
  { ν with row := fun id => if id = source then d else ν.row id }

/-- Two valuations are alike in some elements, some rows and all parameters. -/
structure Agrees (scopes : List ElementScope) (ids : List SourceId) (μ ν : Valuation Obj) :
    Prop where
  element : ∀ scope ∈ scopes, μ.element scope = ν.element scope
  row : ∀ id ∈ ids, μ.row id = ν.row id
  param : μ.param = ν.param

theorem Agrees.trans {scopes : List ElementScope} {ids : List SourceId} {μ ν ξ : Valuation Obj}
    (h : μ.Agrees scopes ids ν) (h' : ν.Agrees scopes ids ξ) : μ.Agrees scopes ids ξ where
  element scope hs := (h.element scope hs).trans (h'.element scope hs)
  row id hid := (h.row id hid).trans (h'.row id hid)
  param := h.param.trans h'.param

theorem Agrees.withElement {ids : List SourceId} {μ ν : Valuation Obj} (h : μ.Agrees [] ids ν)
    (scope : ElementScope) (d : Datum Obj) :
    (μ.withElement scope d).Agrees [scope] ids (ν.withElement scope d) where
  element := by simp [Valuation.withElement]
  row := h.row
  param := h.param

theorem Agrees.withRow {scopes : List ElementScope} {ids : List SourceId} {μ ν : Valuation Obj}
    (h : μ.Agrees scopes ids ν) (source : SourceId) (d : Datum Obj) :
    (μ.withRow source d).Agrees scopes ids (ν.withRow source d) where
  element := h.element
  row id hid := by
    simp only [Valuation.withRow]
    rw [h.row id hid]
  param := h.param

theorem agrees_withRow {ids : List SourceId} {source : SourceId} (h : source ∉ ids)
    (scopes : List ElementScope) (ν : Valuation Obj) (d : Datum Obj) :
    (ν.withRow source d).Agrees scopes ids ν where
  element _ _ := rfl
  row id hid := by
    have other : id ≠ source := fun same => h (same ▸ hid)
    simp [withRow, other]
  param := rfl

end Valuation

namespace Expr

variable {Obj : Type} {ops : Operations Obj} {ν μ : Valuation Obj}

/-! ## What an expression reads -/

theorem evalAll_and_wellTypedAll_congr {es : List Expr}
    (h : ∀ e ∈ es, e.eval ops μ = e.eval ops ν ∧ (e.WellTyped ops μ ↔ e.WellTyped ops ν)) :
    evalAll ops μ es = evalAll ops ν es ∧ (WellTypedAll ops μ es ↔ WellTypedAll ops ν es) := by
  constructor
  · rw [evalAll_eq_map, evalAll_eq_map]
    exact List.map_congr_left fun e he => (h e he).1
  · rw [wellTypedAll_iff, wellTypedAll_iff]
    exact forall₂_congr fun e he => (h e he).2

theorem eval_and_wellTyped_congr {scopes : List ElementScope} {ids : List SourceId} {e : Expr}
    (h : e.Bound scopes ids) (agrees : μ.Agrees scopes ids ν) :
    e.eval ops μ = e.eval ops ν ∧ (e.WellTyped ops μ ↔ e.WellTyped ops ν) := by
  induction e using treeInduction with
  | constant => exact ⟨rfl, .rfl⟩
  | param capture t => exact ⟨congrFun agrees.param capture, .rfl⟩
  | row source t => exact ⟨agrees.row source (within_row.mp h), .rfl⟩
  | element scope t => exact ⟨agrees.element scope (within_element.mp h), .rfl⟩
  | path base _ _ ih | component base _ _ ih =>
      obtain ⟨value, typed⟩ := ih (h.children rfl base (by simp [children]))
      exact ⟨by rw [eval, eval, value], typed⟩
  | unary op operand t ih =>
      obtain ⟨value, typed⟩ := ih (h.children rfl operand (by simp [children]))
      refine ⟨by rw [eval, eval, value], ?_⟩
      cases op with
      | not => rw [WellTyped, WellTyped, value, typed]
      | neg => exact typed
  | binary op left right t ihl ihr =>
      obtain ⟨valueL, typedL⟩ := ihl (h.children rfl left (by simp [children]))
      obtain ⟨valueR, typedR⟩ := ihr (h.children rfl right (by simp [children]))
      refine ⟨by rw [eval, eval, valueL, valueR], ?_⟩
      rw [WellTyped, WellTyped, valueL, valueR, typedL, typedR]
  | conditional test yes no t iht ihy ihn =>
      obtain ⟨valueT, typedT⟩ := iht (h.children rfl test (by simp [children]))
      obtain ⟨valueY, typedY⟩ := ihy (h.children rfl yes (by simp [children]))
      obtain ⟨valueN, typedN⟩ := ihn (h.children rfl no (by simp [children]))
      refine ⟨by rw [eval, eval, valueT, valueY, valueN], ?_⟩
      rw [WellTyped, WellTyped, valueT, valueY, valueN, typedT, typedY, typedN]
  | tuple items _ ih | call _ items _ ih =>
      obtain ⟨values, typed⟩ :=
        evalAll_and_wellTypedAll_congr fun e he => ih e he (h.children rfl e he)
      exact ⟨by rw [eval, eval, values], typed⟩
  | aggregate | subQuery => exact ⟨rfl, .rfl⟩

theorem Within.eval_congr {scopes : List ElementScope} {ids : List SourceId} {e : Expr}
    (h : e.Bound scopes ids) (agrees : μ.Agrees scopes ids ν) : e.eval ops μ = e.eval ops ν :=
  (eval_and_wellTyped_congr h agrees).1

theorem Within.wellTyped_congr {scopes : List ElementScope} {ids : List SourceId} {e : Expr}
    (h : e.Bound scopes ids) (agrees : μ.Agrees scopes ids ν) :
    e.WellTyped ops μ ↔ e.WellTyped ops ν :=
  (eval_and_wellTyped_congr h agrees).2

theorem HasValue.congr {scopes : List ElementScope} {ids : List SourceId} {e : Expr} {d : Datum Obj}
    (h : e.HasValue ops ν d) (bound : e.Bound scopes ids) (agrees : μ.Agrees scopes ids ν) :
    e.HasValue ops μ d :=
  ⟨h.elementary, (bound.wellTyped_congr agrees).mpr h.wellTyped,
    (bound.eval_congr agrees).trans h.eval_eq⟩

/-! ## Rows in the place of elements -/

def placing (scope : ElementScope) (row : Expr) : Pass where
  replace
    | element s _ => if s = scope then some row else none
    | _ => none
  finish _ := none
  deep := true

/-- A row in the place of an element, in normal form. -/
def placed (e : Expr) (held : Query → Bool) (scope : ElementScope) (row : Expr) : Expr :=
  (rules (.kept held) true).result ((placing scope row).result e)

theorem inlined_run_eq (e : Expr) (scope : ElementScope) (row : Expr) (m : Nat) :
    ((e.inlined scope row).run m).1 =
      (e.placed (e.heldBeside scope row) scope row).marked
        (·.isKept (e.heldBeside scope row)) m := rfl

/-- A row in the place of an element ends in normal form, if the marks it takes are new. -/
theorem normal_inlined_of {l : Likeness} {e row : Expr} {m : Nat} (he : e.nextMark ≤ m)
    (hrow : row.nextMark ≤ m) {scope : ElementScope}
    (heeds : l.Heeds (·.isKept (e.heldBeside scope row))) :
    Normal l true ((e.inlined scope row).run m).1 := by
  let held := e.heldBeside scope row
  have same : Likeness.kept (·.isKept held) = .kept held := by
    simp [Likeness.kept, Query.isKept, ← Bool.and_assoc]
  have normal : Normal (.kept (·.isKept held)) true (e.placed held scope row) :=
    same ▸ normal_result _
  exact normal.marked (keptBelow_heldBeside he hrow scope) heeds m (Nat.le_refl m)

theorem normal_inlined {e row : Expr} {m : Nat} (he : e.nextMark ≤ m) (hrow : row.nextMark ≤ m)
    (scope : ElementScope) : Normal .usual true ((e.inlined scope row).run m).1 :=
  normal_inlined_of he hrow (.usual fun q hq => by simp_all [Query.isKept])

theorem keepsValue_placing {scope : ElementScope} {row : Expr} {d : Datum Obj}
    (hrow : row.HasValue ops μ d) :
    KeepsValue ops (μ.withElement scope d) μ (placing scope row) where
  replaced e r hr := by
    cases e with
    | element s t =>
        simp only [placing, Option.ite_none_right_eq_some, Option.some.injEq] at hr
        obtain ⟨rfl, rfl⟩ := hr
        simpa [eval, Valuation.withElement] using hrow
    | _ => cases hr
  leaf e hr leaf := by
    cases e with
    | element s t =>
        have other : s ≠ scope := by
          rintro rfl
          simp [placing] at hr
        simp [eval, Valuation.withElement, other]
    | tuple items t | call fn items t =>
        obtain rfl : items = [] := leaf
        rfl
    | constant | param | row | aggregate | subQuery => rfl
    | _ => cases leaf
  finished _ _ h := h

theorem HasValue.placed {scope : ElementScope} {row e : Expr} {d : Datum Obj}
    (hrow : row.HasValue ops μ d) (held : Query → Bool) (he : e.Elementary)
    (hw : e.WellTyped ops (μ.withElement scope d)) :
    (e.placed held scope row).HasValue ops μ (e.eval ops (μ.withElement scope d)) := by
  have replaced := (keepsValue_placing hrow).result he hw
  rw [← replaced.eval_eq]
  exact hasValue_result (Likeness.kept_byValue held) (fun _ => rfl) rfl replaced.elementary
    replaced.wellTyped

theorem Elementary.result {pass : Pass} (replaced : ∀ e r, pass.replace e = some r → r.Elementary)
    (finished : ∀ e e', pass.finish e = some e' → e.Elementary → e'.Elementary) {e : Expr}
    (h : e.Elementary) : (pass.result e).Elementary := by
  refine Pass.everywhere_result replaced finished ?_ h
  rintro e ⟨holdsNone, notDouble⟩
  refine ⟨by rw [Pass.query?_rebuild, holdsNone]; rfl, ?_⟩
  cases e with
  | constant v t => exact notDouble
  | _ => simp

theorem Elementary.placed {e row : Expr} (h : e.Elementary) (hrow : row.Elementary)
    (held : Query → Bool) (scope : ElementScope) : (e.placed held scope row).Elementary := by
  refine Elementary.result (by simp [rules]) ?_ (Elementary.result ?_ (by simp [placing]) h)
  · intro e e' finished he
    exact everywhere_of_reduces elementary_leafProperty (reduces_of_reduce? finished) he
  · intro e r replaced
    cases e with
    | element s t =>
        simp only [placing, Option.ite_none_right_eq_some, Option.some.injEq] at replaced
        exact replaced.2 ▸ hrow
    | _ => cases replaced

theorem Elementary.allKept {e : Expr} (h : e.Elementary) (kept : Query → Bool) :
    e.AllKept kept :=
  h.mono fun node hn => by simp [hn.1]

theorem Elementary.inlined {e row : Expr} (h : e.Elementary) (hrow : row.Elementary)
    (scope : ElementScope) (m : Nat) : ((e.inlined scope row).run m).1.Elementary := by
  have placed := h.placed hrow (e.heldBeside scope row) scope
  rwa [inlined_run_eq, ((placed.allKept _).marked_eq_self m).1]

/-- The element was the value of the row. -/
theorem HasValue.inlined {scope : ElementScope} {row e : Expr} {d : Datum Obj}
    (hrow : row.HasValue ops μ d) (he : e.Elementary)
    (hw : e.WellTyped ops (μ.withElement scope d)) (m : Nat) :
    ((e.inlined scope row).run m).1.HasValue ops μ (e.eval ops (μ.withElement scope d)) := by
  have value := hrow.placed (e.heldBeside scope row) he hw
  rw [inlined_run_eq, ((value.elementary.allKept _).marked_eq_self m).1]
  exact value

/-! ## Nested streams -/

theorem result_placing_subQuery (scope : ElementScope) (row : Expr) (q : Query) (t : ValueType) :
    ∃ t', (placing scope row).result (subQuery q t) =
      subQuery ((placing scope row).resultQuery q) t' := by
  have kept : (placing scope row).replace (subQuery q t) = none := rfl
  rw [Pass.result_eq_finished kept, Pass.rebuild_subQuery]
  exact ⟨_, rfl⟩

theorem result_rules_subQuery (l : Likeness) (deep : Bool) (q : Query) (t : ValueType) :
    ∃ t', (rules l deep).result (subQuery q t) = subQuery ((rules l deep).resultQuery q) t' := by
  have kept : (rules l deep).replace (subQuery q t) = none := rfl
  rw [Pass.result_eq_finished kept, Pass.rebuild_subQuery]
  exact ⟨_, rfl⟩

end Expr

theorem Query.skeleton_marked (kept : Query → Bool) (m : Nat) (q : Query) :
    (q.marked kept m).current.skeleton = q.current.skeleton := by
  obtain ⟨s, run, skeleton, -⟩ := q.fresh_run kept m
  rw [marked]
  split
  · rfl
  · rw [run]
    exact skeleton

theorem Query.clauses_marked {kept : Query → Bool} {q : Query}
    (h : ∀ c ∈ q.current.clauses, c.AllKept kept) (m : Nat) :
    (q.marked kept m).current.clauses = q.current.clauses := by
  obtain ⟨s, run, -, -, -, clauses⟩ := q.fresh_run kept m
  rw [marked]
  split
  · rfl
  · rw [run]
    exact clauses.trans (Expr.markedAll_eq_self fun c hc => (h c hc).marked_eq_self).1

/-- A stream keeps its form when a row takes the place of an element, and its clauses
are those of before with the row in them. -/
theorem Expr.inlined_subQuery {q : Query} {row : Expr}
    (elementary : ∀ c ∈ q.current.clauses, c.Elementary) (hrow : row.Elementary) (t : ValueType)
    (scope : ElementScope) (m : Nat) :
    ∃ (q' : Query) (t' : ValueType) (held : Query → Bool),
      (((subQuery q t).inlined scope row).run m).1 = subQuery q' t' ∧
      q'.current.skeleton = q.current.skeleton ∧
      q'.current.clauses = q.current.clauses.map (Expr.placed · held scope row) := by
  let held := (subQuery q t).heldBeside scope row
  let replaced := (placing scope row).resultQuery q
  let settled := (rules (.kept held) true).resultQuery replaced
  obtain ⟨t₁, first⟩ := result_placing_subQuery scope row q t
  obtain ⟨t₂, second⟩ := result_rules_subQuery (.kept held) true replaced t₁
  have into : (placing scope row).deep = true := rfl
  have below : (rules (.kept held) true).deep = true := rfl
  have skeleton : settled.current.skeleton = q.current.skeleton := by
    simp only [settled, replaced, Pass.resultQuery_eq, into, below, if_true,
      Pass.skeleton_resultSelect]
  have clauses : settled.current.clauses =
      q.current.clauses.map (Expr.placed · held scope row) := by
    simp only [settled, replaced, Pass.resultQuery_eq, into, below, if_true,
      Pass.clauses_resultSelect, List.map_map]
    rfl
  refine ⟨settled.marked (·.isKept held) m, t₂, held, ?_, ?_, ?_⟩
  · rw [inlined_run_eq, Expr.placed, first, second, marked_subQuery]
  · rw [Query.skeleton_marked, skeleton]
  · rw [Query.clauses_marked, clauses]
    rw [clauses, List.forall_mem_map]
    exact fun c hc => ((elementary c hc).placed hrow held scope).allKept _

/-- Paths and filters are clauses of their own. -/
theorem Select.parts_of_clauses {s s' : Select} {f : Expr → Expr}
    (skeleton : s'.skeleton = s.skeleton) (clauses : s'.clauses = s.clauses.map f) :
    s'.sources.filterMap Source.path? = (s.sources.filterMap Source.path?).map f ∧
      s'.filters = s.filters.map f := by
  obtain ⟨ls, lf, lp, lg, lh⟩ := lengths_of_skeleton skeleton
  simp only [Select.clauses, List.map_append] at clauses
  obtain ⟨clauses, -⟩ := List.append_inj clauses (by simp [ls, lf, lp, lg, lh])
  obtain ⟨clauses, -⟩ := List.append_inj clauses (by simp [ls, lf, lp, lg])
  obtain ⟨clauses, -⟩ := List.append_inj clauses (by simp [ls, lf, lp])
  obtain ⟨clauses, -⟩ := List.append_inj clauses (by simp [ls, lf])
  exact List.append_inj clauses (by simp [ls])

end StreamQuery
