import StreamQuery.Expr.Normalize
import StreamQuery.Proofs.Marks
import StreamQuery.Rendering.Basic

/-! # Normalizing once is enough

The normal form of an expression, of an expression with its nested queries and of
all clauses of a query is its own normal form. The rules leave a normal tree
behind; marking its queries keeps it normal, because arms of a choice that were
told apart stay apart. What is rendered is the normal form, so it makes no
difference whether a query is normalized before.
-/

namespace StreamQuery

namespace Expr

section

variable {kept : Query → Bool} {n : Nat}

/-! ## Marking keeps the normal form -/

/-- The parts of a marked node are its marked parts. -/
theorem mem_parts_marked (below : KeptBelow kept n) {e c' : Expr} {m : Nat}
    (h : c' ∈ (e.marked kept m).parts true) :
    ∃ c ∈ e.parts true, ∃ k, m ≤ k ∧ c' = c.marked kept k := by
  rw [parts, children_marked, query?_marked] at h
  rcases List.mem_append.mp h with h | h
  · obtain ⟨c, hc, k, hk, rfl⟩ := mem_markedAll h
    exact ⟨c, List.mem_append_left _ hc, k, hk, rfl⟩
  · cases hq : e.query? with
    | none => simp [hq] at h
    | some q =>
        have start := le_markEndAll kept e.children m
        have spec := Query.marked_spec below (markEndAll kept m e.children) q
        rw [hq] at h
        simp only [Option.map_some, Option.getD_some, if_true, spec.1.1] at h
        obtain ⟨c, hc, k, hk, rfl⟩ := mem_markedAll h
        have later : markEndAll kept m e.children ≤
            q.markStart kept (markEndAll kept m e.children) := by
          simp only [Query.markStart]
          split <;> omega
        exact ⟨c, by simp [parts, hq, hc], k, by omega, rfl⟩

theorem Restless.of_marked (below : KeptBelow kept n) {e : Expr} {m : Nat}
    (h : Restless true (e.marked kept m)) : Restless true e := by
  generalize he : e.marked kept m = e' at h
  induction h generalizing e m with
  | here operand t =>
      cases e <;> simp at he
      obtain ⟨rfl, -⟩ := he
      exact .here ..
  | within hc _ ih =>
      subst he
      obtain ⟨c, part, k, -, rfl⟩ := mem_parts_marked below hc
      exact .within part (ih rfl)

theorem isAtom_marked (e : Expr) (m : Nat) : (e.marked kept m).isAtom = e.isAtom := by
  cases e with
  | unary op operand t => cases op <;> rfl
  | binary op left right t => cases op <;> rfl
  | _ => simp [isAtom]

theorem rebuiltType_marked (below : KeptBelow kept n) (e : Expr) (m : Nat) :
    (e.marked kept m).rebuiltType = e.rebuiltType := by
  cases e with
  | tuple items t => rw [marked_tuple, rebuiltType, rebuiltType, map_type_markedAll]
  | subQuery query t =>
      have spec := Query.marked_spec below m query
      rw [marked_subQuery, rebuiltType, rebuiltType, spec.2.2.2.1]
  | _ => simp [rebuiltType, type]

theorem asBool_marked (e : Expr) (m : Nat) : (e.marked kept m).asBool = e.asBool := by
  rw [asBool, asBool, asConstant_marked]

theorem asText_marked (e : Expr) (m : Nat) : (e.marked kept m).asText = e.asText := by
  rw [asText, asText, asConstant_marked]

/-- A rule that does not apply to a node does not apply after marking. -/
theorem reduce?_marked (below : KeptBelow kept n) {l : Likeness} (heeds : l.Heeds kept) {e : Expr}
    {m : Nat} (hm : n ≤ m) (h : reduce? (.kept kept) e = none) :
    reduce? l (e.marked kept m) = none := by
  cases e with
  | unary op operand t =>
      cases op with
      | not => cases h
      | neg => simpa only [marked_unary, reduce?, asConstant_marked] using h
  | binary op left right t =>
      cases op with
      | and =>
          have none := conj?_eq_none_iff.mp h
          rw [marked_binary]
          exact conj?_eq_none_iff.mpr (by rwa [asBool_marked, asBool_marked])
      | or =>
          have none := disj?_eq_none_iff.mp h
          rw [marked_binary]
          exact disj?_eq_none_iff.mpr (by rwa [asBool_marked, asBool_marked])
      | compare op =>
          simpa only [marked_binary, reduce?, compare?, asConstant_marked] using h
      | arith op => simpa only [marked_binary, reduce?, arith?, asConstant_marked] using h
      | concat => simpa only [marked_binary, reduce?, concat?, asText_marked] using h
      | like => rfl
  | conditional test yes no t =>
      obtain ⟨undecided, unlike, type⟩ := choice?_eq_none_iff.mp h
      rw [marked_conditional]
      refine choice?_eq_none_iff.mpr ⟨by rw [asBool_marked, undecided], ?_, type⟩
      intro alike
      have start := test.le_markEnd kept m
      have next := yes.le_markEnd kept (test.markEnd kept m)
      exact unlike (separates below heeds yes no _ _ (by omega) (by omega) (.inl (Nat.le_refl _))
        alike)
  | component base index t =>
      cases base with
      | tuple items s =>
          have outside : items[index]? = none := h
          rw [marked_component, marked_tuple]
          change (markedAll kept m items)[index]? = none
          rw [List.getElem?_eq_none_iff] at outside ⊢
          rwa [length_markedAll]
      | _ => simp [reduce?, component?]
  | _ => simp [reduce?]

theorem Normal.marked (below : KeptBelow kept n) {l : Likeness} (heeds : l.Heeds kept) {e : Expr}
    (h : Normal (.kept kept) true e) :
    ∀ m, n ≤ m → Normal l true (e.marked kept m) := by
  induction h with
  | @intro e _ settled typed ih =>
      intro m hm
      refine ⟨?_, ?_, ?_⟩
      · intro c' hc'
        obtain ⟨c, hc, k, hk, rfl⟩ := mem_parts_marked below hc'
        exact ih c hc k (Nat.le_trans hm hk)
      · rcases settled with none | ⟨atom, rfl, isAtom⟩
        · exact .inl (reduce?_marked below heeds hm none)
        · exact .inr ⟨atom.marked kept m, rfl, by rw [isAtom_marked, isAtom]⟩
      · rintro ⟨c', hc', restless⟩
        obtain ⟨c, hc, k, -, rfl⟩ := mem_parts_marked below hc'
        rw [type_marked, rebuiltType_marked below]
        exact typed ⟨c, hc, restless.of_marked below⟩

/-! ## Queries that stand in some trees -/

theorem markAfter_le_iff {marks : List Nat} {n : Nat} :
    markAfter marks ≤ n ↔ ∀ mark ∈ marks, mark < n := by
  induction marks with
  | nil => simp [markAfter]
  | cons first rest ih =>
      have step : markAfter (first :: rest) = max (first + 1) (markAfter rest) := rfl
      rw [step, Nat.max_le, ih, List.forall_mem_cons, Nat.succ_le_iff]

/-- The queries that some trees hold, with a mark above all of theirs. -/
theorem KeptBelow.of_reach {es : List Expr} (held : ∀ q, kept q = true ↔
      ∃ node ∈ reachAll (fun _ => false) es, node.query? = some q) :
    (∀ e ∈ es, e.AllKept kept) ∧
      KeptBelow kept (markAfter (marksOf (reachAll (fun _ => false) es))) := by
  have all : ∀ e ∈ es, e.AllKept kept := by
    refine everywhere_reachAll.mp ?_
    intro node hn q hq
    exact (held q).mpr ⟨node, hn, hq⟩
  refine ⟨all, ?_, ?_⟩
  · intro q hq c hc
    obtain ⟨node, hn, hq⟩ := (held q).mp hq
    have nodes := everywhere_reachAll.mpr fun e he => (all e he).nodes
    exact (everywhere_iff.mp (nodes node hn)).2 c (by simp [parts, hq, hc])
  · intro q hq
    obtain ⟨node, hn, hq⟩ := (held q).mp hq
    refine markAfter_le_iff.mp (Nat.le_refl _) _ ?_
    simp only [marksOf, List.mem_filterMap]
    exact ⟨node, hn, by simp [hq]⟩

theorem holds_iff {e : Expr} {q : Query} : e.holds q = true ↔
    ∃ node ∈ reachAll (fun _ => false) [e], node.query? = some q := by
  simp [holds, reachAll]

theorem allKept_holds (e : Expr) : e.AllKept e.holds := by
  have held := (KeptBelow.of_reach (fun q => holds_iff (e := e) (q := q))).1
  exact held e (by simp)

theorem keptBelow_nextMark (e : Expr) : KeptBelow e.holds e.nextMark := by
  have below := (KeptBelow.of_reach (fun q => holds_iff (e := e) (q := q))).2
  simpa [reachAll, nextMark] using below

theorem markAfter_marksOf_le_iff {nodes : List Expr} : markAfter (marksOf nodes) ≤ n ↔
    ∀ node ∈ nodes, ∀ q ∈ node.query?, q.current.mark < n := by
  simp only [markAfter_le_iff, marksOf, List.mem_filterMap, Option.map_eq_some_iff]
  constructor
  · exact fun h node hn q hq => h _ ⟨node, hn, q, hq, rfl⟩
  · rintro h _ ⟨node, hn, q, hq, rfl⟩
    exact h node hn q hq

theorem nextMark_le_iff {e : Expr} : e.nextMark ≤ n ↔
    e.Everywhere fun node => ∀ q ∈ node.query?, q.current.mark < n :=
  markAfter_marksOf_le_iff

/-- What no node in the clauses of a query is, none is in those of the queries inside. -/
theorem everywhere_of_any_reach {p : Expr → Bool} {q : Query}
    (h : ((q.reach fun _ => false).any p) = false) {c : Expr} (hc : c ∈ q.current.clauses) :
    c.Everywhere fun node => ∀ r ∈ node.query?, ((r.reach fun _ => false).any p) = false := by
  simp only [List.any_eq_false, Query.reach_eq] at h ⊢
  refine (everywhere_reachAll.mp h c hc).nodes.mono fun node below r hr => ?_
  refine everywhere_reachAll.mpr fun c hc => ?_
  exact (everywhere_iff.mp below).2 c (mem_parts_true.mpr (.inr ⟨r, hr, hc⟩))

/-- The queries that are left when a row takes the place of an element. -/
theorem keptBelow_heldBeside {e row : Expr} (he : e.nextMark ≤ n) (hrow : row.nextMark ≤ n)
    (scope : ElementScope) : KeptBelow (·.isKept (e.heldBeside scope row)) n where
  clauses q hq c hc := by
    simp only [Query.isKept, Bool.and_eq_true, Bool.not_eq_true'] at hq ⊢
    obtain ⟨still, held⟩ := hq
    have stills := everywhere_of_any_reach still hc
    simp only [heldBeside, Bool.or_eq_true, Bool.and_eq_true, Bool.not_eq_true'] at held ⊢
    intro node hn r hr
    refine Bool.and_eq_true_iff.mpr ⟨by simp [Query.negates, stills node hn r hr], ?_⟩
    rcases held with inRow | ⟨inside, apart⟩
    · simp [row.keptBelow_nextMark.clauses q inRow c hc node hn r hr]
    · have aparts := everywhere_of_any_reach apart hc
      simp [e.keptBelow_nextMark.clauses q inside c hc node hn r hr, Query.mentions,
        aparts node hn r hr]
  mark_lt q hq := by
    simp only [Query.isKept, heldBeside, Bool.and_eq_true, Bool.or_eq_true] at hq
    rcases hq.2 with inRow | ⟨inside, -⟩
    · exact Nat.lt_of_lt_of_le (row.keptBelow_nextMark.mark_lt q inRow) hrow
    · exact Nat.lt_of_lt_of_le (e.keptBelow_nextMark.mark_lt q inside) he

end

/-! ## Idempotence -/

theorem simplify_simplify (e : Expr) : e.simplify.simplify = e.simplify :=
  @result_result .usual false e

theorem normalize_eq (e : Expr) : e.normalize =
    if (e.revise (thorough e.holds)).isSome then
      ((thorough e.holds).result e).marked e.holds e.nextMark else e := by
  unfold normalize Pass.result
  cases e.revise (thorough e.holds) <;> rfl

theorem normalize_normalize (e : Expr) : e.normalize.normalize = e.normalize := by
  cases h : (e.revise (thorough e.holds)).isSome with
  | false =>
      have same : e.normalize = e := by rw [normalize_eq, h]; rfl
      rw [same, same]
  | true =>
      have marked : e.normalize = ((thorough e.holds).result e).marked e.holds e.nextMark := by
        rw [normalize_eq, if_pos h]
      have normal : Normal (.kept e.normalize.holds) true e.normalize := by
        have first : Normal (.kept e.holds) true ((thorough e.holds).result e) := normal_result e
        rw [marked]
        exact first.marked e.keptBelow_nextMark (.kept _) _ (Nat.le_refl _)
      have fixed : (thorough e.normalize.holds).result e.normalize = e.normalize :=
        normal.result_eq.1
      rw [normalize_eq e.normalize, fixed]
      split
      · exact (e.normalize.allKept_holds.marked_eq_self _).1
      · rfl

end Expr

namespace Query

theorem holds_iff {q r : Query} : q.holds r = true ↔
    ∃ node ∈ Expr.reachAll (fun _ => false) q.current.clauses, node.query? = some r := by
  simp [holds, reach_eq]

theorem allKept_holds (q : Query) : ∀ c ∈ q.current.clauses, c.AllKept q.holds :=
  (Expr.KeptBelow.of_reach fun _ => holds_iff).1

theorem keptBelow_nextMark (q : Query) : Expr.KeptBelow q.holds q.nextMark := by
  have below := (Expr.KeptBelow.of_reach fun r => holds_iff (q := q) (r := r)).2
  simpa [nextMark, reach_eq] using below

theorem nextMark_clause_le {q : Query} {c : Expr} (hc : c ∈ q.current.clauses) :
    c.nextMark ≤ q.nextMark := by
  have below := Expr.markAfter_marksOf_le_iff.mp (Nat.le_refl q.nextMark)
  rw [reach_eq] at below
  exact Expr.nextMark_le_iff.mpr (Expr.everywhere_reachAll.mp below c hc)

theorem normalize_eq (q : Query) : q.normalize =
    if (q.revise (Expr.thorough q.holds)).isSome then
      ⟨((((Expr.thorough q.holds).resultQuery q).current.fresh q.holds).run q.nextMark).1,
        ((Expr.thorough q.holds).resultQuery q).past⟩
    else q := by
  unfold normalize normalize? Pass.resultQuery
  cases q.revise (Expr.thorough q.holds) <;> rfl

/-- The clauses of a normalized query are normal, whichever queries were held. -/
theorem normal_clauses (q : Query) (h : (q.revise (Expr.thorough q.holds)).isSome = true)
    (held : Query → Bool) :
    ∀ c ∈ q.normalize.current.clauses, Expr.Normal (.kept held) true c := by
  intro c hc
  obtain ⟨s, run, -, -, -, clauses⟩ := Select.fresh_run q.holds q.nextMark
    ((Expr.thorough q.holds).resultQuery q).current
  rw [normalize_eq, if_pos h, run, clauses] at hc
  obtain ⟨c, part, k, hk, rfl⟩ := Expr.mem_markedAll hc
  have revised : ((Expr.thorough q.holds).resultQuery q).current.clauses =
      q.current.clauses.map (Expr.thorough q.holds).result := by
    rw [Pass.resultQuery_eq]
    exact Pass.clauses_resultSelect q.current
  rw [revised] at part
  obtain ⟨clause, -, rfl⟩ := List.mem_map.mp part
  have first : Expr.Normal (.kept q.holds) true ((Expr.thorough q.holds).result clause) :=
    Expr.normal_result clause
  exact first.marked q.keptBelow_nextMark (.kept held) k hk

theorem fresh_eq_self (q : Query) (m : Nat) :
    (⟨((q.current.fresh q.holds).run m).1, q.past⟩ : Query) = q := by
  obtain ⟨s, run, skeleton, mark, -, clauses⟩ := Select.fresh_run q.holds m q.current
  have same : s = q.current := Select.eq_of_clauses skeleton mark (clauses.trans
    (Expr.markedAll_eq_self fun c hc => (q.allKept_holds c hc).marked_eq_self).1)
  rw [run, same]
  cases q
  rfl

theorem normalize_normalize (q : Query) : q.normalize.normalize = q.normalize := by
  cases h : (q.revise (Expr.thorough q.holds)).isSome with
  | false =>
      have same : q.normalize = q := by rw [normalize_eq, h]; rfl
      rw [same, same]
  | true =>
      have fixed : (Expr.thorough q.normalize.holds).resultQuery q.normalize = q.normalize :=
        Pass.resultQuery_eq_self fun c hc => (normal_clauses q h _ c hc).result_eq.1
      rw [normalize_eq q.normalize, fixed, fresh_eq_self, ite_self]

theorem render_normalize (q : Query) (settings : Settings) :
    q.normalize.render settings = q.render settings := by
  unfold render
  rw [normalize_normalize]

end Query

/-- Normalizing a second time makes no difference to an expression, with nested
queries or without, to a query, or to what is rendered. -/
theorem normal_form_idempotent :
    (∀ e : Expr, e.simplify.simplify = e.simplify) ∧
      (∀ e : Expr, e.normalize.normalize = e.normalize) ∧
      ∀ q : Query, q.normalize.normalize = q.normalize ∧
        ∀ settings, q.normalize.render settings = q.render settings :=
  ⟨Expr.simplify_simplify, Expr.normalize_normalize, fun q =>
    ⟨q.normalize_normalize, q.render_normalize⟩⟩

end StreamQuery
