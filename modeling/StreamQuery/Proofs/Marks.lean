import StreamQuery.Expr.Fresh
import StreamQuery.Proofs.NormalForm

/-! # Fresh marks

Marking a tree changes nothing but the marks of queries that were not kept. Each
of them gets a mark of its own, from a range that belongs to the subtree it
stands in. Queries in two subtrees with disjoint ranges therefore are the same
after marking only if both were kept and the same before.
-/

namespace StreamQuery

namespace Expr

section

variable (kept : Query → Bool)

/-- An expression with fresh marks from a given one on. -/
def marked (m : Nat) (e : Expr) : Expr := ((e.fresh kept).run m).1

/-- The first mark that is left. -/
def markEnd (m : Nat) (e : Expr) : Nat := ((e.fresh kept).run m).2

def markedAll : Nat → List Expr → List Expr
  | _, [] => []
  | m, e :: es => e.marked kept m :: markedAll (e.markEnd kept m) es

def markEndAll (m : Nat) (es : List Expr) : Nat := es.foldl (fun m e => e.markEnd kept m) m

end

end Expr

section

variable (kept : Query → Bool)

def Query.marked (m : Nat) (q : Query) : Query :=
  if kept q then q else ((q.fresh kept).run m).1

def Query.markEnd (m : Nat) (q : Query) : Nat :=
  if kept q then m else ((q.fresh kept).run m).2

/-- The mark that the clauses of a nested query start from. -/
def Query.markStart (m : Nat) (q : Query) : Nat := if kept q then m else m + 1

end

namespace Expr

variable {kept : Query → Bool} {m : Nat}

theorem freshAll_run (es : List Expr) :
    (freshAll kept es).run m = (markedAll kept m es, markEndAll kept m es) := by
  induction es generalizing m with
  | nil => rfl
  | cons e es ih =>
      have rest := @ih (e.markEnd kept m)
      rw [freshAll]
      change (e.marked kept m :: ((freshAll kept es).run (e.markEnd kept m)).1,
        ((freshAll kept es).run (e.markEnd kept m)).2) = _
      rw [rest]
      rfl

@[simp] theorem marked_constant (value : Value) (t : ValueType) :
    (constant value t).marked kept m = constant value t := rfl

@[simp] theorem marked_param (capture : Capture) (t : ValueType) :
    (param capture t).marked kept m = param capture t := rfl

@[simp] theorem marked_row (source : SourceId) (t : ValueType) :
    (row source t).marked kept m = row source t := rfl

@[simp] theorem marked_element (scope : ElementScope) (t : ValueType) :
    (element scope t).marked kept m = element scope t := rfl

@[simp] theorem marked_path (base : Expr) (field : FieldRef) (t : ValueType) :
    (path base field t).marked kept m = path (base.marked kept m) field t := rfl

@[simp] theorem marked_component (base : Expr) (index : Nat) (t : ValueType) :
    (component base index t).marked kept m = component (base.marked kept m) index t := rfl

@[simp] theorem marked_unary (op : UnaryOp) (operand : Expr) (t : ValueType) :
    (unary op operand t).marked kept m = unary op (operand.marked kept m) t := rfl

@[simp] theorem marked_binary (op : BinaryOp) (left right : Expr) (t : ValueType) :
    (binary op left right t).marked kept m =
      binary op (left.marked kept m) (right.marked kept (left.markEnd kept m)) t := rfl

@[simp] theorem marked_conditional (test yes no : Expr) (t : ValueType) :
    (conditional test yes no t).marked kept m =
      conditional (test.marked kept m) (yes.marked kept (test.markEnd kept m))
        (no.marked kept (yes.markEnd kept (test.markEnd kept m))) t := rfl

@[simp] theorem marked_tuple (items : List Expr) (t : ValueType) :
    (tuple items t).marked kept m = tuple (markedAll kept m items) t := by
  change tuple ((freshAll kept items).run m).1 t = _
  rw [freshAll_run]

@[simp] theorem marked_call (fn : ScalarFn) (args : List Expr) (t : ValueType) :
    (call fn args t).marked kept m = call fn (markedAll kept m args) t := by
  change call fn ((freshAll kept args).run m).1 t = _
  rw [freshAll_run]

@[simp] theorem marked_aggregate (fn : AggregateFn) (arg : Option Expr) (query : Query)
    (t : ValueType) : (aggregate fn arg query t).marked kept m =
      aggregate fn (arg.map fun e => e.marked kept m)
        (query.marked kept (markEndAll kept m arg.toList)) t := by
  cases arg <;> simp only [marked, fresh, freshOption, Query.marked, markEndAll, markEnd]
  all_goals
    split
    · rfl
    · rfl

@[simp] theorem marked_subQuery (query : Query) (t : ValueType) :
    (subQuery query t).marked kept m = subQuery (query.marked kept m) t := by
  simp only [marked, fresh, Query.marked]
  split
  · rfl
  · rfl

/-- Marks are taken for the children first, then for the query of a node. -/
theorem markEnd_eq (e : Expr) : e.markEnd kept m =
    match e.query? with
    | none => markEndAll kept m e.children
    | some q => q.markEnd kept (markEndAll kept m e.children) := by
  cases e with
  | tuple items t | call fn items t =>
      change ((freshAll kept items).run m).2 = _
      rw [freshAll_run]
      rfl
  | aggregate fn arg query t =>
      cases arg <;> simp only [query?, children, Query.markEnd]
      all_goals
        split
        · next h => simp only [markEnd, fresh, freshOption, h]; rfl
        · next h => simp only [markEnd, fresh, freshOption, h]; rfl
  | subQuery query t =>
      simp only [query?, children, Query.markEnd]
      split
      · next h => simp only [markEnd, fresh, h]; rfl
      · next h => simp only [markEnd, fresh, h]; rfl
  | _ => rfl

theorem children_marked (e : Expr) :
    (e.marked kept m).children = markedAll kept m e.children := by
  cases e with
  | aggregate fn arg query t => cases arg <;> simp [children, markedAll]
  | _ => simp [children, markedAll]

theorem query?_marked (e : Expr) : (e.marked kept m).query? =
    e.query?.map (Query.marked kept (markEndAll kept m e.children)) := by
  cases e <;> simp [query?, children, markEndAll]

theorem type_marked (e : Expr) : (e.marked kept m).type = e.type := by
  cases e <;> simp [type]

theorem asConstant_marked (e : Expr) : (e.marked kept m).asConstant = e.asConstant := by
  cases e <;> simp [asConstant]

theorem map_type_markedAll (es : List Expr) : (markedAll kept m es).map type = es.map type := by
  induction es generalizing m with
  | nil => rfl
  | cons e es ih => rw [markedAll, List.map_cons, List.map_cons, type_marked, ih]

theorem markedAll_append (as bs : List Expr) : markedAll kept m (as ++ bs) =
    markedAll kept m as ++ markedAll kept (markEndAll kept m as) bs := by
  induction as generalizing m with
  | nil => rfl
  | cons a as ih => rw [List.cons_append, markedAll, ih, markedAll, List.cons_append]; rfl

theorem markEndAll_append (as bs : List Expr) :
    markEndAll kept m (as ++ bs) = markEndAll kept (markEndAll kept m as) bs :=
  List.foldl_append

theorem length_markedAll (es : List Expr) : (markedAll kept m es).length = es.length := by
  induction es generalizing m with
  | nil => rfl
  | cons e es ih => rw [markedAll, List.length_cons, List.length_cons, ih]

theorem toList_marked (arg : Option Expr) :
    (arg.map fun e => e.marked kept m).toList = markedAll kept m arg.toList := by
  cases arg <;> rfl

theorem freshOption_run (arg : Option Expr) : (freshOption kept arg).run m =
    (arg.map fun e => e.marked kept m, markEndAll kept m arg.toList) := by
  cases arg <;> rfl

end Expr

/-! ## Marking the clauses of a selection -/

theorem run_bind_eq {α β : Type} {x : StateM Nat α} {f : α → StateM Nat β} {m n : Nat} {a : α}
    (h : x.run m = (a, n)) : (x >>= f).run m = (f a).run n := by
  rw [StateT.run_bind, h]
  rfl

section

variable (kept : Query → Bool) (m : Nat)

theorem Source.freshAll_run (ss : List Source) : ∃ ss',
    (Source.freshAll kept ss).run m =
        (ss', Expr.markEndAll kept m (ss.filterMap path?)) ∧
      ss'.map skeleton = ss.map skeleton ∧
      ss'.filterMap path? = Expr.markedAll kept m (ss.filterMap path?) := by
  induction ss generalizing m with
  | nil => exact ⟨[], rfl, rfl, rfl⟩
  | cons s ss ih =>
      cases s with
      | entity id name =>
          obtain ⟨ss', run, skeletons, paths⟩ := ih m
          refine ⟨.entity id name :: ss', ?_, by rw [List.map_cons, skeletons, List.map_cons],
            paths⟩
          change (.entity id name :: ((Source.freshAll kept ss).run m).1,
            ((Source.freshAll kept ss).run m).2) = _
          rw [run]
          rfl
      | navigation id path rowType =>
          obtain ⟨ss', run, skeletons, paths⟩ := ih (path.markEnd kept m)
          refine ⟨.navigation id (path.marked kept m) rowType :: ss', ?_,
            by rw [List.map_cons, skeletons, List.map_cons]; rfl,
            congrArg (path.marked kept m :: ·) paths⟩
          change (.navigation id (path.marked kept m) rowType ::
              ((Source.freshAll kept ss).run (path.markEnd kept m)).1,
            ((Source.freshAll kept ss).run (path.markEnd kept m)).2) = _
          rw [run]
          rfl

/-- The first of some sources has the row that its skeleton has. -/
theorem Source.row_head? {ss ts : List Source} (h : ss.map skeleton = ts.map skeleton) :
    ss.head?.map Source.row = ts.head?.map Source.row := by
  cases ss with
  | nil =>
      have : ts = [] := by simpa using h.symm
      rw [this]
  | cons s ss =>
      obtain ⟨t, rest, rfl, head, -⟩ := cons_of_skeleton h
      cases s <;> cases t <;> simp_all [skeleton, Source.row, Source.rowType, Source.id]

theorem Source.rowType_head? {ss ts : List Source} (h : ss.map skeleton = ts.map skeleton) :
    ss.head?.map Source.rowType = ts.head?.map Source.rowType := by
  have types := congrArg (Option.map Expr.type) (row_head? h)
  simpa [Function.comp_def, Source.row, Expr.type] using types

theorem SortKey.freshAll_run (ks : List SortKey) : ∃ ks',
    (SortKey.freshAll kept ks).run m = (ks', Expr.markEndAll kept m (ks.map key)) ∧
      ks'.map skeleton = ks.map skeleton ∧
      ks'.map key = Expr.markedAll kept m (ks.map key) := by
  induction ks generalizing m with
  | nil => exact ⟨[], rfl, rfl, rfl⟩
  | cons k ks ih =>
      obtain ⟨key, direction⟩ := k
      obtain ⟨ks', run, skeletons, keys⟩ := ih (key.markEnd kept m)
      refine ⟨⟨key.marked kept m, direction⟩ :: ks', ?_,
        by rw [List.map_cons, skeletons, List.map_cons]; rfl,
        congrArg (key.marked kept m :: ·) keys⟩
      change (⟨key.marked kept m, direction⟩ ::
          ((SortKey.freshAll kept ks).run (key.markEnd kept m)).1,
        ((SortKey.freshAll kept ks).run (key.markEnd kept m)).2) = _
      rw [run]
      rfl

theorem Select.fresh_eq (s : Select) : Select.fresh kept s = (do
    let sources ← Source.freshAll kept s.sources
    let filters ← Expr.freshAll kept s.filters
    let projection ← Expr.freshOption kept s.projection
    let groupBy ← Expr.freshAll kept s.groupBy
    let having ← Expr.freshAll kept s.having
    let orderBy ← SortKey.freshAll kept s.orderBy
    pure { s with sources, filters, projection, groupBy, having, orderBy }) := by
  cases s
  rfl

/-- The clauses of a selection are marked one after the other; the rest stays. -/
theorem Select.fresh_run (s : Select) : ∃ s',
    (Select.fresh kept s).run m = (s', Expr.markEndAll kept m s.clauses) ∧
      s'.skeleton = s.skeleton ∧ s'.mark = s.mark ∧ s'.rowType = s.rowType ∧
      s'.clauses = Expr.markedAll kept m s.clauses := by
  let m₁ := Expr.markEndAll kept m (s.sources.filterMap Source.path?)
  let m₂ := Expr.markEndAll kept m₁ s.filters
  let m₃ := Expr.markEndAll kept m₂ s.projection.toList
  let m₄ := Expr.markEndAll kept m₃ s.groupBy
  let m₅ := Expr.markEndAll kept m₄ s.having
  obtain ⟨sources, runSources, skeletons, paths⟩ := Source.freshAll_run kept m s.sources
  obtain ⟨orderBy, runKeys, directions, keys⟩ := SortKey.freshAll_run kept m₅ s.orderBy
  refine ⟨{ s with
    sources
    filters := Expr.markedAll kept m₁ s.filters
    projection := s.projection.map fun e => e.marked kept m₂
    groupBy := Expr.markedAll kept m₃ s.groupBy
    having := Expr.markedAll kept m₄ s.having
    orderBy }, ?_, ?_, rfl, ?_, ?_⟩
  · have whole : Expr.markEndAll kept m s.clauses =
        Expr.markEndAll kept m₅ (s.orderBy.map SortKey.key) := by
      simp only [clauses, Expr.markEndAll_append, m₁, m₂, m₃, m₄, m₅]
    rw [whole]
    rw [fresh_eq, run_bind_eq runSources, run_bind_eq (Expr.freshAll_run _),
      run_bind_eq (Expr.freshOption_run _), run_bind_eq (Expr.freshAll_run _),
      run_bind_eq (Expr.freshAll_run _), run_bind_eq runKeys]
    rfl
  · simp only [skeleton, skeletons, directions, Option.map_map, List.map_const',
      Expr.length_markedAll]
    rfl
  · have roots := Source.rowType_head? skeletons
    cases hp : s.projection with
    | none =>
        simp only [rowType, root?, hp, Option.map_none]
        cases hs : sources.head? <;> cases ht : s.sources.head? <;> simp_all
    | some p => simp only [rowType, hp, Option.map_some, Expr.type_marked]
  · simp only [clauses, paths, keys, Expr.markedAll_append, Expr.markEndAll_append,
      Expr.toList_marked, m₁, m₂, m₃, m₄, m₅]

/-- A query that was not kept takes the next mark, then its clauses are marked. -/
theorem Query.fresh_run (q : Query) : ∃ s,
    (q.fresh kept).run m = (⟨s, q.past⟩, Expr.markEndAll kept (m + 1) q.current.clauses) ∧
      s.skeleton = q.current.skeleton ∧ s.mark = m ∧ s.rowType = q.rowType ∧
      s.clauses = Expr.markedAll kept (m + 1) q.current.clauses := by
  obtain ⟨current, past⟩ := q
  obtain ⟨s, run, skeletons, -, rowTypes, clauses⟩ := Select.fresh_run kept (m + 1) current
  refine ⟨{ s with mark := m }, ?_, skeletons, rfl, rowTypes, clauses⟩
  have taken : takeMark.run m = (m, m + 1) := rfl
  rw [Query.fresh, run_bind_eq taken, run_bind_eq run]
  rfl

theorem Query.markEnd_eq (q : Query) : q.markEnd kept m =
    if kept q then m else Expr.markEndAll kept (m + 1) q.current.clauses := by
  obtain ⟨s, run, -⟩ := q.fresh_run kept m
  rw [Query.markEnd, run]

end

namespace Expr

variable {kept : Query → Bool} {m : Nat}

/-! ## Ranges of marks -/

section

variable (kept : Query → Bool)

theorem le_markEndAll_of {es : List Expr} (h : ∀ e ∈ es, ∀ m, m ≤ e.markEnd kept m) (m : Nat) :
    m ≤ markEndAll kept m es := by
  induction es generalizing m with
  | nil => exact Nat.le_refl m
  | cons e es ih =>
      have first := h e List.mem_cons_self m
      have rest := ih (fun c hc => h c (List.mem_cons_of_mem e hc)) (e.markEnd kept m)
      exact Nat.le_trans first rest

theorem le_markEnd (e : Expr) (m : Nat) : m ≤ e.markEnd kept m := by
  induction e using partsInduction true generalizing m with
  | node e ih =>
      have children : m ≤ markEndAll kept m e.children :=
        le_markEndAll_of kept (fun c hc => ih c (List.mem_append_left _ hc)) m
      rw [markEnd_eq]
      cases hq : e.query? with
      | none => exact children
      | some q =>
          have clauses := le_markEndAll_of kept (fun c (hc : c ∈ q.current.clauses) =>
            ih c (by simp [parts, hq, hc])) (markEndAll kept m e.children + 1)
          simp only [Query.markEnd_eq]
          split
          · exact children
          · omega

theorem le_markEndAll (es : List Expr) (m : Nat) : m ≤ markEndAll kept m es :=
  le_markEndAll_of kept (fun e _ => e.le_markEnd kept) m

theorem markEndAll_children_le (e : Expr) (m : Nat) :
    markEndAll kept m e.children ≤ e.markEnd kept m := by
  rw [markEnd_eq]
  split
  · exact Nat.le_refl _
  · next q hq =>
      have clauses := le_markEndAll kept q.current.clauses (markEndAll kept m e.children + 1)
      rw [Query.markEnd_eq]
      split
      · exact Nat.le_refl _
      · omega

end

theorem mem_markedAll {es : List Expr} {m : Nat} {c' : Expr} (h : c' ∈ markedAll kept m es) :
    ∃ c ∈ es, ∃ k, m ≤ k ∧ c' = c.marked kept k := by
  induction es generalizing m with
  | nil => simp [markedAll] at h
  | cons e es ih =>
      rw [markedAll] at h
      rcases List.mem_cons.mp h with rfl | h
      · exact ⟨e, List.mem_cons_self, m, Nat.le_refl m, rfl⟩
      · obtain ⟨c, hc, k, hk, rfl⟩ := ih h
        have first := e.le_markEnd kept m
        exact ⟨c, List.mem_cons_of_mem e hc, k, by omega, rfl⟩

/-! ## Queries that were kept -/

def AllKept (kept : Query → Bool) (e : Expr) : Prop :=
  e.Everywhere fun node => ∀ q ∈ node.query?, kept q = true

theorem markedAll_eq_self {es : List Expr}
    (h : ∀ e ∈ es, ∀ m, e.marked kept m = e ∧ e.markEnd kept m = m) :
    markedAll kept m es = es ∧ markEndAll kept m es = m := by
  induction es generalizing m with
  | nil => exact ⟨rfl, rfl⟩
  | cons e es ih =>
      obtain ⟨same, stays⟩ := h e List.mem_cons_self m
      have rest := @ih m fun c hc => h c (List.mem_cons_of_mem e hc)
      rw [markedAll, same, stays, rest.1]
      refine ⟨rfl, ?_⟩
      change markEndAll kept (e.markEnd kept m) es = m
      rw [stays, rest.2]

theorem marked_eq_self_of_parts {e : Expr} (hc : markedAll kept m e.children = e.children)
    (hq : ∀ q ∈ e.query?, q.marked kept (markEndAll kept m e.children) = q) :
    e.marked kept m = e := by
  cases e with
  | constant | param | row | element => rfl
  | aggregate fn arg query t =>
      have same : query.marked kept (markEndAll kept m arg.toList) = query := hq query rfl
      cases arg with
      | none => rw [marked_aggregate, Option.map_none, same]
      | some arg =>
          have head : arg.marked kept m = arg := (List.cons.inj hc).1
          rw [marked_aggregate, Option.map_some, head, same]
  | subQuery query t => exact (marked_subQuery query t).trans (congrArg (subQuery · t) (hq query rfl))
  | tuple items t => exact (marked_tuple items t).trans (congrArg (tuple · t) hc)
  | call fn args t => exact (marked_call fn args t).trans (congrArg (call fn · t) hc)
  | _ => simpa [children, markedAll] using hc

/-- Nothing is marked where all nested queries were kept. -/
theorem AllKept.marked_eq_self {e : Expr} (h : e.AllKept kept) (m : Nat) :
    e.marked kept m = e ∧ e.markEnd kept m = m := by
  induction e using partsInduction true generalizing m with
  | node e ih =>
      obtain ⟨here, parts⟩ := everywhere_iff.mp h
      have children := @markedAll_eq_self kept m e.children fun c hc =>
        ih c (List.mem_append_left _ hc) (parts c (List.mem_append_left _ hc))
      have query : ∀ q ∈ e.query?, ∀ m, q.marked kept m = q ∧ q.markEnd kept m = m := by
        intro q hq m
        have hk := here q hq
        simp [Query.marked, Query.markEnd, hk]
      refine ⟨marked_eq_self_of_parts children.1 fun q hq => (query q hq _).1, ?_⟩
      rw [markEnd_eq, children.2]
      cases hq : e.query? with
      | none => rfl
      | some q => exact (query q hq m).2

/-- Queries that may be kept: what they hold was kept too, and their marks are not
fresh. -/
structure KeptBelow (kept : Query → Bool) (n : Nat) : Prop where
  clauses : ∀ q, kept q = true → ∀ c ∈ q.current.clauses, c.AllKept kept
  mark_lt : ∀ q, kept q = true → q.current.mark < n

end Expr

namespace Query

variable {kept : Query → Bool} {n : Nat}

/-- A nested query after marking: its clauses are marked in order, and its mark is
the first of its range, unless it was kept. -/
theorem marked_spec (hk : Expr.KeptBelow kept n) (m : Nat) (q : Query) :
    ((q.marked kept m).current.clauses =
        Expr.markedAll kept (q.markStart kept m) q.current.clauses ∧
      q.markEnd kept m = Expr.markEndAll kept (q.markStart kept m) q.current.clauses) ∧
    (q.marked kept m).current.skeleton = q.current.skeleton ∧
    (q.marked kept m).past = q.past ∧ (q.marked kept m).rowType = q.rowType ∧
    (kept q = true → q.marked kept m = q) ∧
    (kept q = false → (q.marked kept m).current.mark = m) := by
  cases h : kept q with
  | true =>
      have same := @Expr.markedAll_eq_self kept m q.current.clauses fun c hc =>
        (hk.clauses q h c hc).marked_eq_self
      simp [marked, markEnd, markStart, h, same]
  | false =>
      obtain ⟨s, run, skeleton, mark, types, clauses⟩ := fresh_run kept m q
      have rowType : (⟨s, q.past⟩ : Query).rowType = q.rowType := types
      simp [marked, markEnd, markStart, h, run, skeleton, mark, rowType, clauses]

end Query

namespace Expr

variable {kept : Query → Bool} {n : Nat}

/-! ## Comparing marked trees -/

end Expr

/-- Equality with nothing alike at sight. -/
def Likeness.plain : Likeness := .kept fun _ => false

/-- Queries that are alike at sight are equal, and all else is compared as usual. -/
structure Likeness.AtSight (l : Likeness) : Prop where
  value : l.value = Value.same
  mark : ∀ m n, l.mark m n = true
  query : ∀ q q', l.query q q' = true → q = q'
  ofPast : l.ofPast = Likeness.plain.ofPast

theorem Likeness.AtSight.usual : Likeness.usual.AtSight :=
  ⟨rfl, fun _ _ => rfl, fun _ _ same => of_decide_eq_true same, rfl⟩

theorem Likeness.AtSight.kept (held : Query → Bool) : (Likeness.kept held).AtSight :=
  ⟨rfl, fun _ _ => rfl, fun _ _ same => of_decide_eq_true (Bool.and_eq_true_iff.mp same).1, rfl⟩

/-- Of the queries that were kept, none that is alike at sight holds a negation. -/
structure Likeness.Heeds (kept : Query → Bool) (l : Likeness) : Prop extends AtSight l where
  still : ∀ q, kept q = true → l.query q q = true → q.negates = false

theorem Likeness.Heeds.kept {kept : Query → Bool} (held : Query → Bool) :
    (Likeness.kept held).Heeds kept where
  toAtSight := .kept held
  still q _ same := by simp_all [Likeness.kept, Query.isKept]

theorem Likeness.Heeds.usual {kept : Query → Bool}
    (still : ∀ q, kept q = true → q.negates = false) : Likeness.usual.Heeds kept where
  toAtSight := .usual
  still q hq _ := still q hq

namespace Expr

variable {kept : Query → Bool} {n : Nat}

def likeNode (l : Likeness) : Expr → Expr → Bool
  | constant a s, constant b t => l.value a b && decide (s = t)
  | param a s, param b t => decide (a = b) && decide (s = t)
  | row a s, row b t => decide (a = b) && decide (s = t)
  | element a s, element b t => decide (a = b) && decide (s = t)
  | path _ f s, path _ g t => decide (f = g) && decide (s = t)
  | component _ i s, component _ j t => decide (i = j) && decide (s = t)
  | unary o _ s, unary p _ t => decide (o = p) && decide (s = t)
  | binary o _ _ s, binary p _ _ t => decide (o = p) && decide (s = t)
  | conditional _ _ _ s, conditional _ _ _ t => decide (s = t)
  | tuple _ s, tuple _ t => decide (s = t)
  | call f _ s, call g _ t => decide (f = g) && decide (s = t)
  | aggregate f _ _ s, aggregate g _ _ t => decide (f = g) && decide (s = t)
  | subQuery _ s, subQuery _ t => decide (s = t)
  | _, _ => false

def likeQuery (l : Likeness) : Option Query → Option Query → Bool
  | none, none => true
  | some q, some r => l.query q r || Query.like l q r
  | _, _ => false

theorem like_eq {l : Likeness} (a b : Expr) : like l a b =
    (likeNode l a b && likeAll l a.children b.children && likeQuery l a.query? b.query?) := by
  cases a <;> cases b <;> first | rfl | simp [like, likeNode, children, query?, likeQuery, likeAll,
    likeOption_eq, Bool.and_assoc]

theorem likeNode_marked (l : Likeness) (m k : Nat) (a b : Expr) :
    likeNode l (a.marked kept m) (b.marked kept k) = likeNode l a b := by
  cases a <;> cases b <;> first | rfl | simp [likeNode]

theorem likeNode_of_atSight {l : Likeness} (sight : l.AtSight) (a b : Expr) :
    likeNode l a b = likeNode .usual a b := by
  unfold likeNode
  rw [sight.value]
  rfl

/-- Two subtrees that are alike after they were marked from disjoint ranges were
alike before. -/
def Separates (kept : Query → Bool) (l : Likeness) (n : Nat) (a : Expr) : Prop :=
  ∀ b m k, n ≤ m → n ≤ k → a.markEnd kept m ≤ k ∨ b.markEnd kept k ≤ m →
    like l (a.marked kept m) (b.marked kept k) = true → like (.kept kept) a b = true

variable {l : Likeness}

theorem likeAll_of_marked {as : List Expr} (h : ∀ a ∈ as, Separates kept l n a) {bs : List Expr} {m k : Nat} (hm : n ≤ m) (hk : n ≤ k)
    (apart : markEndAll kept m as ≤ k ∨ markEndAll kept k bs ≤ m)
    (alike : likeAll l (markedAll kept m as) (markedAll kept k bs) = true) :
    likeAll (.kept kept) as bs = true := by
  induction as generalizing bs m k with
  | nil =>
      cases bs with
      | nil => rfl
      | cons b bs => simp [markedAll, likeAll] at alike
  | cons a as ih =>
      cases bs with
      | nil => simp [markedAll, likeAll] at alike
      | cons b bs =>
          rw [markedAll, markedAll, likeAll, Bool.and_eq_true] at alike
          have first := a.le_markEnd kept m
          have second := b.le_markEnd kept k
          have restA := le_markEndAll kept as (a.markEnd kept m)
          have restB := le_markEndAll kept bs (b.markEnd kept k)
          have wholeA : markEndAll kept m (a :: as) = markEndAll kept (a.markEnd kept m) as := rfl
          have wholeB : markEndAll kept k (b :: bs) = markEndAll kept (b.markEnd kept k) bs := rfl
          rw [likeAll, Bool.and_eq_true]
          constructor
          · exact h a List.mem_cons_self b m k hm hk (by omega) alike.1
          · exact ih (fun c hc => h c (List.mem_cons_of_mem a hc)) (by omega) (by omega) (by omega)
              alike.2

theorem likeQuery_of_marked (below : KeptBelow kept n) (heeds : l.Heeds kept) {q r : Query}
    (h : ∀ c ∈ q.current.clauses, Separates kept l n c) {m k : Nat} (hm : n ≤ m) (hk : n ≤ k)
    (apart : q.markEnd kept m ≤ k ∨ r.markEnd kept k ≤ m)
    (alike : likeQuery l (some (q.marked kept m)) (some (r.marked kept k)) = true) :
    likeQuery (.kept kept) (some q) (some r) = true := by
  obtain ⟨⟨clausesQ, endQ⟩, skeletonQ, pastQ, -, sameQ, markQ⟩ := Query.marked_spec below m q
  obtain ⟨⟨clausesR, endR⟩, skeletonR, pastR, -, sameR, markR⟩ := Query.marked_spec below k r
  simp only [likeQuery, Bool.or_eq_true] at alike ⊢
  rcases alike with same | alike
  · -- Equal marks are no fresh ones, since the ranges are disjoint.
    left
    have equal := heeds.query _ _ same
    have startQ := le_markEndAll kept q.current.clauses (q.markStart kept m)
    have startR := le_markEndAll kept r.current.clauses (r.markStart kept k)
    have marks := congrArg (fun query => query.current.mark) equal
    cases keptQ : kept q with
    | true =>
        have q' := sameQ keptQ
        have lowQ := below.mark_lt q keptQ
        cases keptR : kept r with
        | true =>
            have r' := sameR keptR
            rw [q', r'] at equal same
            subst equal
            simp [Likeness.kept, Query.isKept, heeds.still q keptQ same, keptQ]
        | false =>
            have highR := markR keptR
            rw [q'] at marks
            omega
    | false =>
        have highQ := markQ keptQ
        cases keptR : kept r with
        | true =>
            have lowR := below.mark_lt r keptR
            rw [sameR keptR] at marks
            omega
        | false =>
            have highR := markR keptR
            have afterQ : q.markStart kept m = m + 1 := by simp [Query.markStart, keptQ]
            have afterR : r.markStart kept k = k + 1 := by simp [Query.markStart, keptR]
            omega
  · right
    rw [Query.like_iff, Select.like_iff, pastQ, pastR, skeletonQ, skeletonR, clausesQ,
      clausesR] at alike
    rw [Query.like_iff, Select.like_iff]
    obtain ⟨⟨-, skeletons, clauses⟩, pasts⟩ := alike
    refine ⟨⟨rfl, skeletons, ?_⟩, heeds.ofPast ▸ pasts⟩
    have startQ : m ≤ q.markStart kept m := by simp only [Query.markStart]; split <;> omega
    have startR : k ≤ r.markStart kept k := by simp only [Query.markStart]; split <;> omega
    exact likeAll_of_marked h (by omega) (by omega) (by omega) clauses

theorem separates (below : KeptBelow kept n) (heeds : l.Heeds kept) (a : Expr) :
    Separates kept l n a := by
  induction a using partsInduction true with
  | node a ih =>
      intro b m k hm hk apart alike
      have endA := markEndAll_children_le kept a m
      have endB := markEndAll_children_le kept b k
      have startA := le_markEndAll kept a.children m
      have startB := le_markEndAll kept b.children k
      rw [like_eq, Bool.and_eq_true, Bool.and_eq_true] at alike ⊢
      obtain ⟨⟨nodes, children⟩, queries⟩ := alike
      refine ⟨⟨?_, ?_⟩, ?_⟩
      · rw [likeNode_marked, likeNode_of_atSight heeds.toAtSight] at nodes
        rw [likeNode_of_atSight (.kept kept), nodes]
      · rw [children_marked, children_marked] at children
        exact likeAll_of_marked (fun c hc => ih c (List.mem_append_left _ hc)) hm hk (by omega)
          children
      · rw [query?_marked, query?_marked] at queries
        rw [markEnd_eq, markEnd_eq b] at apart
        cases hq : a.query? with
        | none =>
            cases hr : b.query? with
            | none => rfl
            | some r => simp [hq, hr, likeQuery] at queries
        | some q =>
            cases hr : b.query? with
            | none => simp [hq, hr, likeQuery] at queries
            | some r =>
                simp only [hq, hr, Option.map_some] at queries apart
                exact likeQuery_of_marked below heeds (fun c hc => ih c (by simp [parts, hq, hc]))
                  (by omega) (by omega) (by omega) queries

end Expr

end StreamQuery
