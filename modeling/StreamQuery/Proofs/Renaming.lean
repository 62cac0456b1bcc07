import StreamQuery.Proofs.Derivation
import StreamQuery.Proofs.Relabel
import StreamQuery.Proofs.Substitution

/-! # Renaming elements

A relabelling that keeps elements and marks apart commutes with everything that is done
to expressions: rules, passes, rows in the place of elements, and marks if those that are
given out stay. No step looks at a number but to compare it with another.
-/

namespace StreamQuery

/-- Different elements keep different numbers, and different marks stay different. -/
structure Relabel.Renames (r : Relabel) : Prop where
  element : Function.Injective r.element
  mark : Function.Injective r.mark

variable {r : Relabel}

/-! ## Equality -/

namespace Relabel.Renames

theorem within (h : r.Renames) : r.within.Renames := ⟨h.element, h.mark⟩

theorem follows (h : r.Renames) {l l' : Likeness} (value : l'.value = l.value)
    (mark : ∀ m n, l'.mark (r.mark m) (r.mark n) = l.mark m n)
    (query : ∀ q q', l'.query (q.relabel r) (q'.relabel r) = l.query q q') :
    l.Follows r l' where
  value := value
  element _ _ := h.element.eq_iff
  mark := mark
  query := query

theorem mark_exact (h : r.Renames) (m n : Nat) :
    Likeness.exact.mark (r.mark m) (r.mark n) = Likeness.exact.mark m n := by
  rw [Likeness.exact_mark, Likeness.exact_mark, Bool.eq_iff_iff, beq_iff_eq, beq_iff_eq,
    h.mark.eq_iff]

theorem agrees_exact (h : r.Renames) : Likeness.exact.Agrees r .exact where
  toFollows := h.follows rfl h.mark_exact fun _ _ => rfl
  same := rfl
  within _ _ := ⟨h.within.follows rfl h.mark_exact fun _ _ => rfl, fun _ _ => rfl⟩

end Relabel.Renames

theorem Query.relabel_inj (h : r.Renames) {q q' : Query} :
    q.relabel r = q'.relabel r ↔ q = q' := by
  rw [← Query.like_exact_iff, ← Query.like_exact_iff, Query.like_relabel h.agrees_exact]

theorem Select.relabelEach_eq (ss : List Select) :
    Select.relabelEach r ss = ss.map (Select.relabel r) := by
  induction ss with
  | nil => rfl
  | cons s ss ih => rw [Select.relabelEach, ih, List.map_cons]

theorem Select.relabelEach_inj (h : r.Renames) {ss ts : List Select} :
    Select.relabelEach r ss = Select.relabelEach r ts ↔ ss = ts := by
  have injective : Function.Injective (Select.relabel r) := fun s t same => by
    rw [← Select.like_exact_iff, Select.like_relabel h.agrees_exact] at same
    exact Select.like_exact_iff.mp same
  rw [relabelEach_eq, relabelEach_eq]
  exact (List.map_injective_iff.mpr injective).eq_iff

namespace Relabel.Renames

theorem agrees (h : r.Renames) {l l' : Likeness}
    (query : ∀ q q', l'.query (q.relabel r) (q'.relabel r) = l.query q q')
    (usual : l = { Likeness.usual with query := l.query })
    (usual' : l' = { Likeness.usual with query := l'.query }) : l.Agrees r l' := by
  rw [usual, usual']
  have unmarked : ∀ m n, Likeness.usual.mark (r.mark m) (r.mark n) = Likeness.usual.mark m n :=
    fun _ _ => rfl
  refine ⟨h.follows rfl unmarked query, rfl, fun _ _ =>
    ⟨h.within.follows rfl unmarked fun q q' => ?_, ?_⟩⟩
  · exact decide_eq_decide.mpr (Query.relabel_inj h.within)
  · exact fun _ _ => decide_eq_decide.mpr (Select.relabelEach_inj h.within)

theorem agrees_usual (h : r.Renames) : Likeness.usual.Agrees r .usual :=
  h.agrees (fun _ _ => decide_eq_decide.mpr (Query.relabel_inj h)) rfl rfl

end Relabel.Renames

/-! ## Nodes -/

namespace Expr

theorem reachAll_relabel {es : List Expr}
    (h : ∀ e ∈ es, ((e.relabel r).reach fun _ => false) = (e.reach fun _ => false).map (relabel r)) :
    reachAll (fun _ => false) (es.map (relabel r)) =
      (reachAll (fun _ => false) es).map (relabel r) := by
  induction es with
  | nil => rfl
  | cons e es ih =>
      rw [List.map_cons, reachAll, reachAll, List.map_append, h e List.mem_cons_self,
        ih fun c hc => h c (List.mem_cons_of_mem e hc)]

theorem reach_relabel (e : Expr) :
    ((e.relabel r).reach fun _ => false) = (e.reach fun _ => false).map (relabel r) := by
  induction e using partsInduction true with
  | node e ih =>
      rw [reach_eq_parts, reach_eq_parts, parts_relabel, reachAll_relabel ih, List.map_cons]

end Expr

theorem Query.reach_relabel (q : Query) :
    ((q.relabel r).reach fun _ => false) = (q.reach fun _ => false).map (Expr.relabel r) := by
  rw [Query.reach_eq, Query.reach_eq, Query.current_relabel, Select.clauses_relabel,
    Expr.reachAll_relabel fun e _ => e.reach_relabel]

theorem Query.mentions_relabel (h : r.Renames) (q : Query) (scope : ElementScope) :
    (q.relabel r).mentions (r.element scope) = q.mentions scope := by
  rw [Query.mentions, Query.mentions, Query.reach_relabel, List.any_map]
  congr 1
  funext node
  cases node <;> simp [Expr.relabel, h.element.eq_iff]

theorem Query.negates_relabel (q : Query) : (q.relabel r).negates = q.negates := by
  rw [Query.negates, Query.negates, Query.reach_relabel, List.any_map]
  congr 1
  funext node
  cases node with
  | unary op operand t => cases op <;> rfl
  | _ => rfl

theorem Expr.holds_relabel (h : r.Renames) (e : Expr) (q : Query) :
    (e.relabel r).holds (q.relabel r) = e.holds q := by
  rw [Expr.holds, Expr.holds, Expr.reach_relabel, List.any_map]
  congr 1
  funext node
  have injective : Function.Injective (Query.relabel r) := fun q q' => (Query.relabel_inj h).mp
  simp only [Function.comp, query?_relabel]
  refine decide_eq_decide.mpr ?_
  rw [← Option.map_some, (Option.map_injective injective).eq_iff]

theorem Expr.heldBeside_relabel (h : r.Renames) (e row : Expr) (scope : ElementScope) (q : Query) :
    (e.relabel r).heldBeside (r.element scope) (row.relabel r) (q.relabel r) =
      e.heldBeside scope row q := by
  simp only [heldBeside, holds_relabel h, Query.mentions_relabel h]

theorem Query.isKept_relabel {held held' : Query → Bool}
    (same : ∀ q : Query, held' (q.relabel r) = held q) (q : Query) :
    (q.relabel r).isKept held' = q.isKept held := by
  rw [Query.isKept, Query.isKept, Query.negates_relabel, same]

theorem Relabel.Renames.agrees_kept (h : r.Renames) {held held' : Query → Bool}
    (same : ∀ q : Query, held' (q.relabel r) = held q) :
    (Likeness.kept held).Agrees r (.kept held') := by
  refine h.agrees (fun q q' => ?_) rfl rfl
  simp only [Likeness.kept, Query.isKept_relabel same, Query.relabel_inj h]

/-! ## Passes -/

structure Pass.Renamed (r : Relabel) (pass pass' : Pass) : Prop where
  replace : ∀ e : Expr, pass'.replace (e.relabel r) = (pass.replace e).map (Expr.relabel r)
  finish : ∀ e : Expr, pass'.finish (e.relabel r) = (pass.finish e).map (Expr.relabel r)
  deep : pass'.deep = pass.deep

namespace Pass.Renamed

variable {pass pass' : Pass}

theorem reviseAll {es : List Expr}
    (ih : ∀ e ∈ es, (e.relabel r).revise pass' = (e.revise pass).map (Expr.relabel r)) :
    Expr.reviseAll pass' (es.map (Expr.relabel r)) =
      (Expr.reviseAll pass es).map (List.map (Expr.relabel r)) := by
  induction es with
  | nil => rfl
  | cons e es rest =>
      rw [List.map_cons, Expr.reviseAll, Expr.reviseAll, ih e List.mem_cons_self,
        rest fun c hc => ih c (List.mem_cons_of_mem e hc)]
      cases e.revise pass <;> cases Expr.reviseAll pass es <;> rfl

theorem reviseOption {arg : Option Expr}
    (ih : ∀ e ∈ arg, (e.relabel r).revise pass' = (e.revise pass).map (Expr.relabel r)) :
    Expr.reviseOption pass' (arg.map (Expr.relabel r)) =
      (Expr.reviseOption pass arg).map (Option.map (Expr.relabel r)) := by
  cases arg with
  | none => rfl
  | some e =>
      rw [Option.map_some, Expr.reviseOption, Expr.reviseOption, ih e rfl]
      cases e.revise pass <;> rfl

theorem reviseSelect {s : Select} (ih : ∀ c ∈ s.clauses,
      (c.relabel r).revise pass' = (c.revise pass).map (Expr.relabel r)) :
    Select.revise pass' (s.relabel r) = (Select.revise pass s).map (Select.relabel r) := by
  have some : (Select.revise pass' (s.relabel r)).isSome = (Select.revise pass s).isSome := by
    rw [isSome_reviseSelect, isSome_reviseSelect, Select.clauses_relabel, List.any_map]
    refine Bool.eq_iff_iff.mpr ?_
    simp only [List.any_eq_true]
    exact exists_congr fun c => and_congr_right fun hc => by
      simp only [Function.comp, ih c hc, Option.isSome_map]
  have result : pass'.resultSelect (s.relabel r) = (pass.resultSelect s).relabel r := by
    refine Select.eq_of_clauses ?_ ?_ ?_
    · rw [skeleton_resultSelect, Select.skeleton_relabel, Select.skeleton_relabel,
        skeleton_resultSelect]
    · rw [mark_resultSelect, Select.mark_relabel, Select.mark_relabel, mark_resultSelect]
    · rw [clauses_resultSelect, Select.clauses_relabel, Select.clauses_relabel,
        clauses_resultSelect, List.map_map, List.map_map]
      refine List.map_congr_left fun c hc => ?_
      simp only [Function.comp, Pass.result, ih c hc]
      cases c.revise pass <;> rfl
  unfold resultSelect at result
  cases found : Select.revise pass s <;> cases found' : Select.revise pass' (s.relabel r) <;>
    simp_all

theorem reviseQuery (h : Renamed r pass pass') {q : Query} (ih : ∀ c ∈ q.current.clauses,
      (c.relabel r).revise pass' = (c.revise pass).map (Expr.relabel r)) :
    Query.revise pass' (q.relabel r) = (Query.revise pass q).map (Query.relabel r) := by
  obtain ⟨s, past⟩ := q
  rw [Query.relabel, Query.revise, Query.revise, h.deep, reviseSelect ih]
  split
  · cases found : Select.revise pass s with
    | none => rfl
    | some s' =>
        have ids : s'.ids = s.ids := by
          have skeleton := @skeleton_resultSelect pass s
          rw [resultSelect, found] at skeleton
          exact Expr.ids_of_skeleton skeleton
        simp only [Option.map_some, Query.relabel, ids]
  · rfl

theorem rebuilt (h : Renamed r pass pass') {e : Expr} (ih : ∀ c ∈ e.parts true,
      (c.relabel r).revise pass' = (c.revise pass).map (Expr.relabel r)) :
    pass'.rebuilt (e.relabel r) = (pass.rebuilt e).map (Expr.relabel r) := by
  have child : ∀ c ∈ e.children,
      (c.relabel r).revise pass' = (c.revise pass).map (Expr.relabel r) :=
    fun c hc => ih c (Expr.mem_parts_true.mpr (.inl hc))
  have query : ∀ q ∈ e.query?,
      Query.revise pass' (q.relabel r) = (Query.revise pass q).map (Query.relabel r) :=
    fun q hq => h.reviseQuery fun c hc => ih c (Expr.mem_parts_true.mpr (.inr ⟨q, hq, hc⟩))
  cases e with
  | constant | param | row | element => rfl
  | path base _ _ | component base _ _ | unary _ base _ =>
      rw [Expr.relabel, Pass.rebuilt, Pass.rebuilt, child base (by simp [Expr.children])]
      cases base.revise pass <;> rfl
  | binary op left right t =>
      rw [Expr.relabel, Pass.rebuilt, Pass.rebuilt, child left (by simp [Expr.children]),
        child right (by simp [Expr.children])]
      cases left.revise pass <;> cases right.revise pass <;> rfl
  | conditional test yes no t =>
      rw [Expr.relabel, Pass.rebuilt, Pass.rebuilt, child test (by simp [Expr.children]),
        child yes (by simp [Expr.children]), child no (by simp [Expr.children])]
      cases test.revise pass <;> cases yes.revise pass <;> cases no.revise pass <;> rfl
  | tuple items t =>
      have all : Expr.reviseAll pass' (items.map (Expr.relabel r)) = _ := reviseAll child
      rw [Expr.relabel, Pass.rebuilt, Pass.rebuilt, Expr.relabelAll_eq, all]
      cases Expr.reviseAll pass items <;> simp [Expr.pack, Expr.relabel]
  | call fn args t =>
      have all : Expr.reviseAll pass' (args.map (Expr.relabel r)) = _ := reviseAll child
      rw [Expr.relabel, Pass.rebuilt, Pass.rebuilt, Expr.relabelAll_eq, all]
      cases Expr.reviseAll pass args <;> simp [Expr.relabel]
  | aggregate fn arg q t =>
      have args : Expr.reviseOption pass' (arg.map (Expr.relabel r)) = _ :=
        reviseOption fun e he => child e (by simpa [Expr.children] using he)
      rw [Expr.relabel, Pass.rebuilt, Pass.rebuilt, Expr.relabelOption_eq, args, query q rfl]
      cases Expr.reviseOption pass arg <;> cases Query.revise pass q <;>
        simp [revised, Expr.relabel]
  | subQuery q t =>
      rw [Expr.relabel, Pass.rebuilt, Pass.rebuilt, query q rfl]
      cases Query.revise pass q <;> simp [Expr.embed, Expr.relabel]

/-- A pass and its renamed twin go the same way through a tree. -/
theorem revise (h : Renamed r pass pass') (e : Expr) :
    (e.relabel r).revise pass' = (e.revise pass).map (Expr.relabel r) := by
  induction e using Expr.partsInduction true with
  | node e ih =>
      cases replaced : pass.replace e with
      | some e' =>
          have replaced' := h.replace e
          rw [replaced] at replaced'
          rw [Expr.revise.eq_def, Expr.revise.eq_def pass, replaced, replaced']
          rfl
      | none =>
          have replaced' := h.replace e
          rw [replaced] at replaced'
          rw [revise_eq_settle replaced, revise_eq_settle replaced', h.rebuilt ih, settle, settle]
          have node : ((pass.rebuilt e).map (Expr.relabel r)).getD (e.relabel r) =
              ((pass.rebuilt e).getD e).relabel r := by
            cases pass.rebuilt e <;> rfl
          rw [node, h.finish]
          cases pass.finish ((pass.rebuilt e).getD e) <;> rfl

theorem result (h : Renamed r pass pass') (e : Expr) :
    pass'.result (e.relabel r) = (pass.result e).relabel r := by
  rw [Pass.result, Pass.result, h.revise]
  cases e.revise pass <;> rfl

end Pass.Renamed

namespace Expr

theorem renamed_rules {l l' : Likeness} (agrees : l.Agrees r l') (deep : Bool) :
    (rules l deep).Renamed r (rules l' deep) where
  replace _ := rfl
  finish _ := reduce?_relabel fun _ yes no _ _ => like_relabel agrees yes no
  deep := rfl

theorem renamed_placing (h : r.Renames) (scope : ElementScope) (row : Expr) :
    (placing scope row).Renamed r (placing (r.element scope) (row.relabel r)) where
  replace e := by
    cases e with
    | element s t =>
        simp only [relabel, placing, h.element.eq_iff]
        split <;> rfl
    | _ => rfl
  finish _ := rfl
  deep := rfl

theorem relabel_simplify (h : r.Renames) (e : Expr) : e.simplify.relabel r = (e.relabel r).simplify :=
  ((renamed_rules h.agrees_usual false).result e).symm

end Expr

/-! ## Marks -/

def Relabel.Keeps (r : Relabel) (n : Nat) : Prop := ∀ m < n, r.mark m = m

theorem Relabel.Keeps.mono {n n' : Nat} (h : r.Keeps n) (le : n' ≤ n) : r.Keeps n' :=
  fun m lt => h m (Nat.lt_of_lt_of_le lt le)

/-- Marking commutes with a relabelling that keeps all marks up to those that are given out. -/
def Expr.MarksAlike (r : Relabel) (kept kept' : Query → Bool) (e : Expr) : Prop :=
  ∀ m, r.Keeps (e.markEnd kept m) → (e.relabel r).marked kept' m = (e.marked kept m).relabel r ∧
    (e.relabel r).markEnd kept' m = e.markEnd kept m

theorem Expr.markedAll_relabel {kept kept' : Query → Bool} {es : List Expr}
    (ih : ∀ e ∈ es, e.MarksAlike r kept kept') {m : Nat} (keeps : r.Keeps (markEndAll kept m es)) :
    markedAll kept' m (es.map (relabel r)) = (markedAll kept m es).map (relabel r) ∧
      markEndAll kept' m (es.map (relabel r)) = markEndAll kept m es := by
  induction es generalizing m with
  | nil => exact ⟨rfl, rfl⟩
  | cons e es rest =>
      have le := le_markEndAll kept es (e.markEnd kept m)
      obtain ⟨first, ends⟩ := ih e List.mem_cons_self m (keeps.mono le)
      obtain ⟨others, last⟩ := rest (fun c hc => ih c (List.mem_cons_of_mem e hc)) keeps
      constructor
      · rw [List.map_cons, markedAll, markedAll, List.map_cons, first, ends, others]
      · simp only [List.map_cons, markEndAll, List.foldl_cons] at last ⊢
        rw [ends, last]

theorem Query.fresh_relabel {kept kept' : Query → Bool} {q : Query} {m : Nat}
    (ih : ∀ c ∈ q.current.clauses, c.MarksAlike r kept kept')
    (keeps : r.Keeps ((q.fresh kept).run m).2) :
    ((q.relabel r).fresh kept').run m =
      (((q.fresh kept).run m).1.relabel r, ((q.fresh kept).run m).2) := by
  obtain ⟨s, run, skeleton, mark, -, clauses⟩ := q.fresh_run kept m
  obtain ⟨s', run', skeleton', mark', -, clauses'⟩ := (q.relabel r).fresh_run kept' m
  rw [current_relabel, Select.clauses_relabel] at run' clauses'
  rw [current_relabel, Select.skeleton_relabel] at skeleton'
  rw [run] at keeps
  obtain ⟨marked, ends⟩ := Expr.markedAll_relabel ih keeps
  have same : s' = s.relabel r := by
    refine Select.eq_of_clauses ?_ ?_ ?_
    · rw [skeleton', Select.skeleton_relabel, skeleton]
    · rw [mark', Select.mark_relabel, mark, keeps m (Expr.le_markEndAll kept _ (m + 1))]
    · rw [clauses', Select.clauses_relabel, clauses, marked]
  have ids : s.ids = q.current.ids := Expr.ids_of_skeleton skeleton
  rw [run, run', same, ends]
  cases q
  simp only [Query.relabel, ids]

theorem Query.marked_relabel {kept kept' : Query → Bool}
    (same : ∀ q : Query, kept' (q.relabel r) = kept q) {q : Query} {m : Nat}
    (ih : ∀ c ∈ q.current.clauses, c.MarksAlike r kept kept')
    (keeps : r.Keeps (q.markEnd kept m)) :
    (q.relabel r).marked kept' m = (q.marked kept m).relabel r ∧
      (q.relabel r).markEnd kept' m = q.markEnd kept m := by
  cases h : kept q with
  | true => simp [Query.marked, Query.markEnd, same, h]
  | false =>
      simp only [Query.marked, Query.markEnd, same, h, Bool.false_eq_true, if_false] at keeps ⊢
      simp only [Query.fresh_relabel ih keeps, and_self]

theorem Expr.marked_relabel {kept kept' : Query → Bool}
    (same : ∀ q : Query, kept' (q.relabel r) = kept q) (e : Expr) :
    e.MarksAlike r kept kept' := by
  induction e using partsInduction true with
  | node e ih =>
      intro m keeps
      have children := markedAll_relabel (fun c hc => ih c (mem_parts_true.mpr (.inl hc)))
        (keeps.mono (markEndAll_children_le kept e m))
      have query : ∀ q ∈ e.query?,
          (q.relabel r).marked kept' (markEndAll kept m e.children) =
              (q.marked kept (markEndAll kept m e.children)).relabel r ∧
            (q.relabel r).markEnd kept' (markEndAll kept m e.children) =
              q.markEnd kept (markEndAll kept m e.children) := by
        intro q hq
        refine Query.marked_relabel same
          (fun c hc => ih c (mem_parts_true.mpr (.inr ⟨q, hq, hc⟩))) ?_
        rwa [markEnd_eq, hq] at keeps
      constructor
      · cases e with
        | aggregate fn arg q t =>
            cases arg with
            | none => simpa [relabel, markEndAll, Expr.children] using (query q rfl).1
            | some e =>
                have first : (e.relabel r).marked kept' m = (e.marked kept m).relabel r := by
                  simpa [Expr.children, markedAll] using children.1
                have ends : (e.relabel r).markEnd kept' m = e.markEnd kept m := by
                  simpa [Expr.children, markEndAll] using children.2
                simpa [relabel, markEndAll, first, ends, Expr.children] using (query q rfl).1
        | subQuery q t => simpa [relabel, markEndAll, Expr.children] using (query q rfl).1
        | _ =>
            have marked := children.1
            simp_all [relabel, Expr.children, markedAll]
      · rw [markEnd_eq, markEnd_eq, query?_relabel, children_relabel, children.2]
        cases found : e.query? with
        | none => rfl
        | some q => exact (query q found).2

/-! ## Rows in the place of elements -/

theorem Expr.inlined_relabel (h : r.Renames) (e row : Expr) (scope : ElementScope) {m : Nat}
    (keeps : r.Keeps ((e.inlined scope row).run m).2) :
    ((e.relabel r).inlined (r.element scope) (row.relabel r)).run m =
      (((e.inlined scope row).run m).1.relabel r, ((e.inlined scope row).run m).2) := by
  have held := e.heldBeside_relabel h row scope
  have placed : (e.relabel r).placed ((e.relabel r).heldBeside (r.element scope) (row.relabel r))
      (r.element scope) (row.relabel r) =
        (e.placed (e.heldBeside scope row) scope row).relabel r := by
    rw [Expr.placed, Expr.placed, (renamed_placing h scope row).result,
      (renamed_rules (h.agrees_kept held) true).result]
  obtain ⟨marked, ends⟩ := Expr.marked_relabel (Query.isKept_relabel held)
    (e.placed (e.heldBeside scope row) scope row) m keeps
  rw [← placed] at marked ends
  exact Prod.ext marked ends

/-! ## Typed nodes -/

namespace Expr

theorem relabel_withType (e : Expr) (t : ValueType) :
    (e.withType t).relabel r = (e.relabel r).withType t := by
  cases e <;> rfl

theorem relabel_pick (e : Expr) (index : Nat) :
    (e.pick index).relabel r = (e.relabel r).pick index := by
  rw [pick, pick, type_relabel]
  rfl

theorem relabel_neg (e : Expr) : (neg e).relabel r = neg (e.relabel r) := by
  rw [neg, neg, type_relabel]
  rfl

theorem relabel_apply (op : BinaryOp) (left right : Expr) :
    (apply op left right).relabel r = apply op (left.relabel r) (right.relabel r) := by
  simp only [apply, type_relabel, relabel]

theorem relabel_choose (test yes no : Expr) :
    (choose test yes no).relabel r = choose (test.relabel r) (yes.relabel r) (no.relabel r) := by
  rw [choose, choose, type_relabel, type_relabel]
  rfl

theorem relabel_pack (items : List Expr) : (pack items).relabel r = pack (items.map (relabel r)) := by
  simp [pack, relabel, Function.comp_def]

theorem relabel_invoke (fn : ScalarFn) (e : Expr) :
    (invoke fn [e]).relabel r = invoke fn [e.relabel r] := by
  simp [invoke, relabel]

theorem relabel_summarize (fn : AggregateFn) (arg : Option Expr) (q : Query) :
    (summarize fn arg q).relabel r = summarize fn (arg.map (relabel r)) (q.relabel r) := by
  cases arg <;> simp [summarize, relabel]

theorem relabel_embed (q : Query) : (embed q).relabel r = embed (q.relabel r) := by
  simp [embed, relabel]

end Expr

/-! ## Queries -/

namespace Query

theorem currentRow_relabel (q : Query) : (q.relabel r).currentRow = q.currentRow.relabel r := by
  obtain ⟨⟨sources, filters, projection⟩, past⟩ := q
  cases projection with
  | some projection => rfl
  | none => rcases sources with _ | ⟨_ | _, rest⟩ <;> rfl

theorem relabel_entity (zero : r.mark 0 = 0) (id : SourceId) (name : String) :
    (ofSource (.entity id name)).relabel r = ofSource (.entity id name) := by
  simp [ofSource, Select.ofSource, Query.relabel, Select.relabel, Source.relabelAll,
    SortKey.relabelAll, Select.relabelEach, Source.id, zero]

theorem relabel_along (zero : r.mark 0 = 0) (id : SourceId) (path : Expr) :
    (ofSource (.along id path)).relabel r = ofSource (.along id (path.relabel r)) := by
  simp [ofSource, Select.ofSource, Source.along, Query.relabel, Select.relabel, Source.relabelAll,
    SortKey.relabelAll, Select.relabelEach, Source.id, zero]

theorem le_separate (q : Query) (m : Nat) : m ≤ (q.separate.run m).2 := by
  obtain ⟨s, run, -⟩ := q.fresh_run (fun _ => true) m
  have ends : (q.separate.run m).2 = _ := congrArg Prod.snd run
  rw [ends]
  exact Nat.le_of_succ_le (Expr.le_markEndAll _ _ (m + 1))

theorem separate_relabel (q : Query) {m : Nat} (keeps : r.Keeps (q.separate.run m).2) :
    (q.relabel r).separate.run m = ((q.separate.run m).1.relabel r, (q.separate.run m).2) := by
  refine fresh_relabel (fun c _ => Expr.marked_relabel ?_ c) keeps
  exact fun _ => rfl

/-- A query that is derived keeps the one it was derived from, so the relabelling has to
enter what it was derived from. -/
theorem derive_relabel (all : r.within = r) (q : Query) (next : SourceId)
    {edit edit' : Select → Select} (same : ∀ s : Select, edit' (s.relabel r) = (edit s).relabel r) :
    (q.relabel r).derive next edit' = (q.derive next edit).relabel r := by
  have enters : ∀ ids, r.enters ids = true := fun ids => by rw [← all]; rfl
  obtain ⟨⟨⟩, past⟩ := q
  simp only [derive, Query.relabel, enters, if_true, all, Select.relabelEach]
  simp only [← same]
  rfl

theorem filtered_relabel (all : r.within = r) {q q' : Query} {predicate : Expr} {next : SourceId}
    (h : q.filtered predicate next = .ok q') :
    (q.relabel r).filtered (predicate.relabel r) next = .ok (q'.relabel r) := by
  obtain ⟨shape, unbounded, bool, rfl⟩ := filtered_eq_ok.mp h
  have same : (q.relabel r).current.shape = q.current.shape ∧
      (q.relabel r).current.skip = q.current.skip ∧
      (q.relabel r).current.limit = q.current.limit := by
    obtain ⟨⟨⟩, _⟩ := q
    exact ⟨rfl, rfl, rfl⟩
  obtain ⟨sameShape, sameSkip, sameLimit⟩ := same
  refine filtered_eq_ok.mpr ⟨by rwa [sameShape], by rwa [sameSkip, sameLimit],
    by rwa [Expr.type_relabel], derive_relabel all q next fun s => ?_⟩
  rw [Expr.asBool_relabel]
  cases s
  simp only [Select.relabel]
  split
  · rfl
  split
  · next grouped => simp [Select.relabel, grouped]
  · next notGrouped => simp [Select.relabel, notGrouped]

theorem projected_relabel (all : r.within = r) {q q' : Query} {projection : Expr} {next : SourceId}
    (h : q.projected projection next = .ok q') :
    (q.relabel r).projected (projection.relabel r) next = .ok (q'.relabel r) := by
  obtain ⟨shape, distinct, rfl⟩ := projected_eq_ok.mp h
  have same : (q.relabel r).current.shape = q.current.shape ∧
      (q.relabel r).current.distinct = q.current.distinct := by
    obtain ⟨⟨⟩, _⟩ := q
    exact ⟨rfl, rfl⟩
  refine projected_eq_ok.mpr ⟨by rwa [same.1], by rwa [same.2],
    derive_relabel all q next fun s => ?_⟩
  cases s
  rfl

end Query

end StreamQuery
