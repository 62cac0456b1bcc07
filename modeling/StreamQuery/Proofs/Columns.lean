import StreamQuery.Proofs.Conjunctions
import StreamQuery.Proofs.GroupKeys
import StreamQuery.Proofs.Parameters
import StreamQuery.Proofs.Redexes

/-! # The columns of a text

The text of a query begins with the columns of its rows, which stand for the components of
a tuple from left to right. The type of the rows has the leaves of the types of the columns.
There is one column for each leaf as long as no column has the type of a tuple itself. A
choice can, since it keeps the type of arms that later folds replace.
-/

namespace StreamQuery

/-! ## Types that fit their nodes -/

namespace Expr

/-- Rules keep the types of nodes fit, since what they compute has the type of the node or is
a truth value. -/
theorem foldable_fitsKind : Foldable (Everywhere FitsKind) where
  child holdsNone hc h := ((everywhere_compound holdsNone).mp h).2 _ hc
  bool b := everywhere_constant.mpr rfl
  not h := (everywhere_compound rfl).mpr ⟨rfl, by simpa [Expr.not, children] using h⟩
  predicate {op left right} isBool hl hr := by
    have fits : (apply op left right).FitsKind := by
      cases op <;> simp_all [apply, type, FitsKind, ValueType.isTuple]
    exact (everywhere_compound rfl).mpr ⟨fits, by simpa [apply, children] using ⟨hl, hr⟩⟩
  text s := everywhere_constant.mpr rfl
  neg _ h := everywhere_constant.mpr (everywhere_iff.mp h).1
  arith _ h := everywhere_constant.mpr (everywhere_iff.mp h).1

theorem fitsKind_rebuild {pass : Pass} {e : Expr} (h : e.FitsKind) : (pass.rebuild e).FitsKind := by
  cases e with
  | tuple items t =>
      rw [Pass.rebuild_tuple]
      split
      · rfl
      · next unchanged =>
          -- A tuple that is not built anew keeps its type, and its components stay too.
          have same : items.map pass.result = items := by
            rw [← Pass.reviseAll_getD, Option.not_isSome_iff_eq_none.mp unchanged]
            rfl
          rw [same]
          exact h
  | subQuery q t =>
      rw [Pass.rebuild_subQuery]
      split
      · rfl
      · exact h
  | _ => simp_all [FitsKind]

theorem lasting_fitsKind : Lasting FitsKind where
  placing _ _ h := fitsKind_rebuild h
  rules _ h := fitsKind_rebuild h
  simplifying h := fitsKind_rebuild h
  marked {e} kept m h := by cases e <;> simp_all [FitsKind, map_type_markedAll]
  reduced reduces h := foldable_fitsKind.of_reduces reduces h

theorem spreading_fitsKind : Spreading FitsKind fun _ => True where
  toLasting := lasting_fitsKind
  constant _ _ single := single
  param _ _ single := single
  element _ _ := trivial
  compound _ _ fits := fits
  retyped {e t} keeps h := by
    rcases keeps with rfl | ⟨single, single'⟩
    · cases e <;> exact h
    · cases e <;> simp_all [withType, FitsKind, type, ValueType.isTuple]
  opened _ := rfl
  root _ _ := trivial
  summarized {q t} fn arg _ := by
    cases fn with
    | min => exact fun _ => .inl rfl
    | max => exact fun _ => .inr rfl
    | sum =>
        show ValueType.isTuple (if _ then _ else _) = true → _
        split <;> rintro ⟨⟩
    | _ => rintro ⟨⟩
  derived _ _ _ _ := rfl

end Expr

theorem Reached.fitsKind {allowed : Compiler → Query → Operation → Query → Prop} {q : Query}
    (h : Reached allowed q) : ∀ c ∈ q.current.clauses, c.Everywhere Expr.FitsKind := by
  refine h.stepwise (P := fun q => ∀ c ∈ q.current.clauses, c.Everywhere Expr.FitsKind) ?_ ?_
  · intro entity c hc
    simp [Query.ofEntity, Query.ofSource, Select.ofSource, Select.clauses, Source.path?] at hc
  · intro q q' clauses step
    exact step.everywhere Expr.spreading_fitsKind
      (Expr.everywhere_subQuery.mpr ⟨rfl, clauses⟩) fun _ _ => trivial

/-! ## Leaves of a type -/

mutual

/-- The types in a type of tuples that are none themselves, from left to right. -/
def ValueType.leaves : ValueType → List ValueType
  | .tuple items => ValueType.leavesOf items
  | t => [t]

def ValueType.leavesOf : List ValueType → List ValueType
  | [] => []
  | t :: ts => t.leaves ++ ValueType.leavesOf ts

end

theorem ValueType.leavesOf_eq (ts : List ValueType) : leavesOf ts = ts.flatMap leaves := by
  induction ts with
  | nil => rfl
  | cons t ts ih => rw [leavesOf, ih, List.flatMap_cons]

theorem ValueType.leaves_of_single {t : ValueType} (h : t.isTuple = false) : t.leaves = [t] := by
  cases t <;> simp_all [leaves, isTuple]

namespace Expr

theorem Everywhere.column {p : Expr → Prop} {e c : Expr} (h : e.Everywhere p)
    (hc : c ∈ e.columns) : c.Everywhere p :=
  of_mem_columns (fun _ _ h => (everywhere_tuple.mp h).2) h hc

/-- The leaves of the type of a row are those of its columns. -/
theorem leaves_type {e : Expr} (h : e.Everywhere FitsKind) :
    e.type.leaves = e.columns.flatMap (·.type.leaves) := by
  induction e using columnsInduction with
  | tuple items t ih =>
      obtain ⟨fits, inside⟩ := everywhere_tuple.mp h
      have fits : t = .tuple (items.map type) := fits
      rw [columns, columnsOf_eq, type, fits, ValueType.leaves, ValueType.leavesOf_eq,
        List.flatMap_map, List.flatMap_assoc]
      exact List.flatMap_congr fun item hitem => ih item hitem (inside item hitem)
  | single e single => simp [columns_of_single single]

/-- With no column that has the type of a tuple, each column is one leaf. -/
theorem leaves_type_of_single {e : Expr} (h : e.Everywhere FitsKind)
    (single : ∀ c ∈ e.columns, c.type.isTuple = false) :
    e.type.leaves = e.columns.map type := by
  rw [leaves_type h, List.map_eq_flatMap]
  exact List.flatMap_congr fun c hc => ValueType.leaves_of_single (single c hc)

/-- The kinds of columns that can have the type of a tuple. -/
def standsForTuple : Expr → Bool
  | row .. | path .. | conditional .. => true
  | aggregate fn .. => fn == .min || fn == .max
  | _ => false

end Expr

/-! ## Writing columns -/

namespace Rendering

open Wording Scribe

variable {l : Likeness} {scope : Select} {α β : Type}

theorem run_bind_eq_ok {x : RenderM α} {f : α → RenderM β} {ledger : Ledger} {r : β × Ledger} :
    (x >>= f).run ledger = .ok r ↔
      ∃ a between, x.run ledger = .ok (a, between) ∧ (f a).run between = .ok r := by
  rw [StateT.run_bind]
  cases x.run ledger with
  | error error =>
      refine iff_of_false nofun ?_
      rintro ⟨_, _, ran, -⟩
      cases ran
  | ok found =>
      refine ⟨fun ran => ⟨found.1, found.2, rfl, ran⟩, ?_⟩
      rintro ⟨_, _, ⟨⟩, ran⟩
      exact ran

theorem map_throw (error : RenderError) (f : α → β) :
    (f <$> throw error : RenderM β) = throw error := rfl

/-- Anything but a tuple is written as one column. -/
theorem columns_eq_list_of_single {e : Expr} (single : ∀ items t, e ≠ .tuple items t) :
    (columns l scope e : RenderM (List String)) = list l scope [e] := by
  cases e with
  | tuple items t => exact absurd rfl (single items t)
  | aggregate fn arg query t =>
      simp only [list, whole, columns]
      split
      · simp [joined]
      · split <;> simp [joined, map_throw]
  | _ => simp [list, whole, columns, joined, map_throw]

theorem list_append (es es' : List Expr) : (list l scope (es ++ es') : RenderM (List String)) = (do
    let first ← list l scope es
    let rest ← list l scope es'
    pure (first ++ rest)) := by
  induction es with
  | nil => simp [list]
  | cons e es ih => simp [list, ih]

theorem columnsOf_eq_list {es : List Expr}
    (h : ∀ e ∈ es, (columns l scope e : RenderM (List String)) = list l scope e.columns) :
    (columnsOf l scope es : RenderM (List String)) = list l scope (Expr.columnsOf es) := by
  induction es with
  | nil => rw [columnsOf, Expr.columnsOf, list]
  | cons e es ih =>
      rw [columnsOf, Expr.columnsOf, list_append, h e List.mem_cons_self,
        ih fun c hc => h c (List.mem_cons_of_mem _ hc)]

/-- The columns of a row are written one by one. -/
theorem columns_eq_list (e : Expr) :
    (columns l scope e : RenderM (List String)) = list l scope e.columns := by
  induction e using Expr.columnsInduction with
  | tuple items t ih =>
      rw [columns, Expr.columns]
      exact columnsOf_eq_list ih
  | single e single =>
      rw [Expr.columns_of_single single]
      exact columns_eq_list_of_single single

/-- Each of the expressions has a text. -/
theorem exists_run_of_list {es : List Expr} {ledger after : Ledger} {texts : List String}
    (ran : (list l scope es : RenderM (List String)).run ledger = .ok (texts, after)) :
    texts.length = es.length ∧
      ∀ e ∈ es, ∃ before after, (expr l scope e : RenderM String).run before = .ok after := by
  induction es generalizing ledger texts with
  | nil =>
      cases ran
      simp
  | cons first es ih =>
      rw [list, run_bind_eq_ok] at ran
      obtain ⟨text, between, here, ran⟩ := ran
      obtain ⟨rest, last, later, ran⟩ := run_bind_eq_ok.mp ran
      cases ran
      obtain ⟨length, others⟩ := ih later
      exact ⟨by simp [length], List.forall_mem_cons.mpr ⟨⟨ledger, _, here⟩, others⟩⟩

/-- A row that is not projected is the root. -/
theorem items_eq_list {s : Select} {root : Source} (rooted : s.root? = some root) :
    items l s (none : Option (RenderM String)) = list l s s.currentRow.columns := by
  unfold items Select.currentRow
  cases s.projection with
  | some e => exact columns_eq_list e
  | none =>
      simp only [rooted]
      rw [← columns_eq_list, Source.row, columns, rootAlias, rooted]

theorem exists_items_of_select {q : Query} {root : Source} (rooted : q.current.root? = some root)
    {ledger after : Ledger} {text : String}
    (ran : (select l q none : RenderM String).run ledger = .ok (text, after)) :
    ∃ items names rest, (list l q.current q.currentRow.columns : RenderM (List String)).run
        { ledger with aliases := ledger.aliases.addAll q.current.sources } = .ok (items, names) ∧
      text = (if q.current.distinct then "SELECT DISTINCT " else "SELECT ") ++
        joined ", " items ++ " FROM " ++ rest := by
  rw [select_eq, run_bind_eq_ok] at ran
  obtain ⟨_, _, ⟨⟩, ran⟩ := ran
  obtain ⟨items, names, written, ran⟩ := run_bind_eq_ok.mp ran
  rw [items_eq_list rooted] at written
  obtain ⟨froms, _, -, ran⟩ := run_bind_eq_ok.mp ran
  obtain ⟨filters, _, -, ran⟩ := run_bind_eq_ok.mp ran
  obtain ⟨groups, _, -, ran⟩ := run_bind_eq_ok.mp ran
  obtain ⟨having, _, -, ran⟩ := run_bind_eq_ok.mp ran
  obtain ⟨keys, _, -, ran⟩ := run_bind_eq_ok.mp ran
  cases ran
  exact ⟨items, names, froms ++ clause " WHERE " filters conjunction ++
    clause " GROUP BY " groups (joined ", ") ++ clause " HAVING " having conjunction ++
    clause " ORDER BY " keys (joined ", "), written, by
      simp only [selection, ofText, String.append_assoc]⟩

end Rendering

/-- The columns that can be written and have the type of a tuple. -/
theorem Expr.standsForTuple_of_run {l : Likeness} {s : Select} {e : Expr} {before : Ledger}
    {after : String × Ledger} (ran : (Rendering.expr l s e : RenderM String).run before = .ok after)
    (fits : e.FitsKind) (tuple : e.type.isTuple = true) : e.standsForTuple = true := by
  cases e with
  | row | path | conditional => rfl
  | aggregate fn => simpa [standsForTuple] using fits tuple
  | element | component | tuple =>
      simp only [Rendering.expr, Rendering.whole, Rendering.columns] at ran
      cases ran
  | _ => simp_all [FitsKind, type]

theorem Compiler.exists_run_of_explain {compiler : Compiler} {q : Query} {out : Rendered}
    (h : compiler.explain q = .ok out) : ∃ after : Ledger,
      (Rendering.select Rendering.rowsAlike q.normalize none : RenderM String).run
        ⟨compiler.settings.paramStem, .empty, []⟩ = .ok (out.text, after) := by
  rw [explain, Compile.mapError_eq_ok, Query.render] at h
  change (Rendering.select Rendering.rowsAlike q.normalize none : RenderM String).run _ >>= _ = _ at h
  cases ran : (Rendering.select Rendering.rowsAlike q.normalize none : RenderM String).run
      ⟨compiler.settings.paramStem, .empty, []⟩ with
  | error error =>
      rw [ran] at h
      cases h
  | ok written =>
      rw [ran] at h
      cases h
      exact ⟨written.2, rfl⟩

/-! ## Rows in normal form -/

namespace Expr

theorem Marking.type_eq {a b : Expr} (h : Marking a b) : a.type = b.type := by
  rw [← type_relabel, h, type_relabel]

theorem settled_row (source : Source) : source.row.Settled :=
  ⟨everywhere_row.mpr (by simp), .intro nofun (.inl rfl) nofun⟩

theorem settled_pack {items : List Expr} (h : ∀ e ∈ items, e.Settled) : (pack items).Settled := by
  have number : (pack items).NoNaN :=
    (everywhere_compound rfl).mpr ⟨by simp [pack], fun c hc => (h c hc).number⟩
  refine ⟨number, .intro (fun c hc => ?_) (.inl rfl) fun _ => ?_⟩
  · rw [parts_relabel] at hc
    obtain ⟨item, hitem, rfl⟩ := List.mem_map.mp hc
    exact (h item (by simpa [pack, parts, children, query?] using hitem)).normal
  · rw [type_relabel, rebuiltType_relabel]
    rfl

/-- The kinds of nodes whose type no rule changes. -/
def hasFixedType : Expr → Bool
  | constant .. | param .. | row .. | path .. | call .. | aggregate .. => true
  | _ => false

section

variable {l l' : Likeness} {deep : Bool} {e : Expr}

theorem type_result_of_fixed (fixed : e.hasFixedType = true) :
    ((rules l deep).result e).type = e.type := by
  rw [Pass.result_eq_finished rfl]
  cases e <;> simp_all [hasFixedType, Pass.finished, rules, reduce?, type]

theorem type_result_tuple {items : List Expr} {t : ValueType} (fits : t = .tuple (items.map type))
    (each : ∀ item ∈ items, ((rules l deep).result item).type = item.type) :
    ((rules l deep).result (tuple items t)).type = t := by
  have same : (items.map (rules l deep).result).map type = items.map type := by
    rw [List.map_map]
    exact List.map_congr_left each
  rw [Pass.result_eq_finished rfl, Pass.rebuild_tuple, same, ← fits, ite_self]
  rfl

theorem type_result_of_columns (h : e.Everywhere FitsKind)
    (fixed : ∀ c ∈ e.columns, c.hasFixedType = true) :
    ((rules l deep).result e).type = e.type := by
  induction e using columnsInduction with
  | tuple items t ih =>
      obtain ⟨fits, inside⟩ := everywhere_tuple.mp h
      refine type_result_tuple fits fun item hitem => ih item hitem (inside item hitem) fun c hc => ?_
      exact fixed c (mem_columns_tuple.mpr ⟨item, hitem, hc⟩)
  | single e single =>
      rw [columns_of_single single, List.forall_mem_singleton] at fixed
      exact type_result_of_fixed fixed

/-! ## Operators in normal form

An operator that no rule applies to keeps its place when nested queries are brought into
normal form too, since none of its operands becomes a constant. Only a choice and a component
can make way for one of their parts.
-/

/-- The kinds of nodes that can make way for a part that was in normal form before. -/
def makesWay : Expr → Bool
  | component .. | conditional .. => true
  | _ => false

theorem asConstant_rebuild {pass : Pass} (e : Expr) :
    (pass.rebuild e).asConstant = e.asConstant := by
  cases e <;> simp [asConstant]

theorem isAtom_rebuild {pass : Pass} (e : Expr) : (pass.rebuild e).isAtom = e.isAtom := by
  cases e with
  | unary op | binary op => cases op <;> simp [isAtom]
  | _ => simp [isAtom]

/-- Whether an operator is computed depends on the constants among its operands. -/
theorem reduce?_binary_eq_none {op : BinaryOp} {left right left' right' : Expr} {t : ValueType}
    (hl : left'.asConstant = left.asConstant) (hr : right'.asConstant = right.asConstant)
    (h : reduce? l (binary op left right t) = none) :
    reduce? l' (binary op left' right' t) = none := by
  cases op <;>
    simp_all [reduce?, conj?_eq_none_iff, disj?_eq_none_iff, asBool, asText, compare?, arith?, concat?]

/-- Below a node that is none of these kinds a thorough pass changes nested queries only. -/
theorem Normal.result_eq_rebuild (normal : Normal l false e)
    (stays : ∀ node ∈ e.nodes, node.makesWay = false) :
    (rules l' deep).result e = (rules l' deep).rebuild e := by
  induction e using partsInduction false with
  | node e ih =>
      obtain ⟨here, below⟩ := forall_nodes_iff.mp stays
      have child : ∀ c ∈ e.children, (rules l' deep).result c = (rules l' deep).rebuild c :=
        fun c hc => ih c (List.mem_append_left _ hc) (normal.child hc) (below c hc)
      obtain ⟨-, settled, -⟩ := normal
      rw [Pass.result_eq_finished rfl]
      cases e with
      | unary op operand t =>
          rw [Pass.rebuild_unary, child operand (by simp [children])]
          rcases settled with none | ⟨atom, negation, isAtom⟩
          · cases op with
            | not => cases none
            | neg =>
                rw [reduce?, ← asConstant_rebuild operand] at none
                exact congrArg (Option.getD · _) none
          · -- The negation of an atom is built anew.
            obtain ⟨rfl, rfl, rfl⟩ := unary.inj negation
            exact negate_of_isAtom ((isAtom_rebuild operand).trans isAtom)
      | binary op left right t =>
          rw [Pass.rebuild_binary, child left (by simp [children]), child right (by simp [children])]
          have none := settled.resolve_right (by simp [Expr.not])
          exact congrArg (Option.getD · _)
            (reduce?_binary_eq_none (asConstant_rebuild left) (asConstant_rebuild right) none)
      | component | conditional => cases here
      | _ => simp [Pass.finished, rules, reduce?]

/-- Trees in normal form that keep their type when nested queries are brought into normal
form too. A choice can turn out to be one of its arms. -/
inductive KeepsType : Expr → Prop where
  | fixed {e : Expr} (h : e.hasFixedType = true) : KeepsType e
  | unary {op : UnaryOp} {operand : Expr} {t : ValueType}
      (stays : ∀ node ∈ operand.nodes, node.makesWay = false) : KeepsType (unary op operand t)
  | binary {op : BinaryOp} {left right : Expr} {t : ValueType}
      (staysLeft : ∀ node ∈ left.nodes, node.makesWay = false)
      (staysRight : ∀ node ∈ right.nodes, node.makesWay = false) :
      KeepsType (binary op left right t)
  | choice {test yes no : Expr} {t : ValueType} (yesType : yes.type = t) (noType : no.type = t)
      (hy : KeepsType yes) (hn : KeepsType no) : KeepsType (conditional test yes no t)
  | tuple {items : List Expr} {t : ValueType} (h : ∀ e ∈ items, KeepsType e) :
      KeepsType (tuple items t)

theorem KeepsType.type_result (h : e.KeepsType) (normal : Normal l false e)
    (fits : e.Everywhere FitsKind) : ((rules l' deep).result e).type = e.type := by
  induction h with
  | fixed fixed => exact type_result_of_fixed fixed
  | unary stays =>
      rw [normal.result_eq_rebuild (forall_nodes_iff.mpr ⟨rfl, by simpa [children] using stays⟩),
        Pass.rebuild_unary]
      rfl
  | binary staysLeft staysRight =>
      rw [normal.result_eq_rebuild (forall_nodes_iff.mpr ⟨rfl, by
        simpa [children] using ⟨staysLeft, staysRight⟩⟩), Pass.rebuild_binary]
      rfl
  | @choice test yes no t yesType noType _ _ ihy ihn =>
      have arms := (everywhere_conditional.mp fits).2
      have keptYes := (ihy (normal.child (by simp [children])) arms.2.1).trans yesType
      have keptNo := (ihn (normal.child (by simp [children])) arms.2.2).trans noType
      have notBool : t ≠ .bool :=
        (choice?_eq_none_iff.mp (normal.reduce?_eq_none (by simp [Expr.not]))).2.2
      rw [Pass.result_eq_finished rfl, Pass.rebuild_conditional, Pass.finished]
      cases turns : (rules l' deep).finish (conditional _ _ _ t) with
      | none => rfl
      | some e' =>
          cases choice?_reduces turns with
          | taken | alike => exact keptYes
          | passed => exact keptNo
          | guarded => exact absurd rfl notBool
  | tuple _ ih =>
      obtain ⟨typed, inside⟩ := everywhere_tuple.mp fits
      exact type_result_tuple typed fun item hitem =>
        ih item hitem (normal.child hitem) (inside item hitem)

end

end Expr

theorem Select.currentRow_eq (s : Select) : s.currentRow =
    s.projection.getD ((s.root?.map Source.row).getD (.constant .null .null)) := by
  unfold currentRow
  cases s.projection <;> cases s.root? <;> rfl

theorem Select.settled_currentRow {s : Select} (whole : s.projection = none) :
    s.currentRow.Settled := by
  rw [currentRow_eq, whole]
  cases s.root? with
  | some root => exact Expr.settled_row root
  | none => exact ⟨Expr.everywhere_constant.mpr (by simp), .intro nofun (.inl rfl) nofun⟩

theorem Select.exists_root {s : Select} {id : SourceId} (h : id ∈ s.ids) :
    ∃ root, s.root? = some root := by
  obtain ⟨source, hs, -⟩ := List.mem_map.mp h
  exact Option.isSome_iff_exists.mp (List.isSome_head?.mpr (List.ne_nil_of_mem hs))

theorem Select.rowType_eq {s : Select} {id : SourceId} (h : id ∈ s.ids) :
    s.rowType = s.currentRow.type := by
  obtain ⟨root, rooted⟩ := exists_root h
  rw [rowType, currentRow, rooted]
  cases s.projection <;> rfl

namespace Query

variable {q q' : Query}

def columns (q : Query) : List Expr := q.normalize.currentRow.columns

theorem currentRow_resultSelect (l : Likeness) (deep : Bool) (s : Select) :
    ((Expr.rules l deep).resultSelect s).currentRow = (Expr.rules l deep).result s.currentRow := by
  have root : ((Expr.rules l deep).resultSelect s).root?.map Source.row = s.root?.map Source.row :=
    Source.row_head? (Select.sources_skeleton ((Expr.rules l deep).skeleton_resultSelect s))
  rw [Select.currentRow_eq, Select.currentRow_eq, root, Pass.resultSelect_eq,
    Pass.reviseOption_getD]
  cases s.projection with
  | some e => rfl
  | none => cases s.root? <;> rfl

/-- The normal form has the rows of the query in normal form. -/
theorem marking_currentRow_normalize (q : Query) :
    q.normalize.currentRow.Marking ((Expr.thorough q.holds).result q.currentRow) := by
  obtain ⟨s, run, skeleton, -, -, clauses⟩ := Select.fresh_run q.holds q.nextMark
    ((Expr.thorough q.holds).resultSelect q.current)
  have marks := Select.relabel_unmark_eq skeleton
    (by rw [clauses, Expr.map_markedAll fun c _ m => Expr.marking_marked q.holds m c])
  rw [normalize_eq_fresh, run]
  have same : ((⟨s, q.past⟩ : Query).relabel .unmark).currentRow =
      ((⟨(Expr.thorough q.holds).resultSelect q.current, q.past⟩ : Query).relabel
        .unmark).currentRow := congrArg Select.currentRow marks
  rw [currentRow_relabel, currentRow_relabel] at same
  have revised := currentRow_resultSelect (.kept q.holds) true q.current
  exact same.trans (congrArg (Expr.relabel .unmark) revised)

/-- A row is left, or made of rows in normal form. -/
theorem FoldStep.settled_currentRow (h : FoldStep q q')
    (before : q.current.shape ≠ .aggregated → q.currentRow.NoNaN → q.currentRow.Settled)
    (shape : q'.current.shape ≠ .aggregated) (number : q'.currentRow.NoNaN) :
    q'.currentRow.Settled := by
  cases h with
  | filter _ derived =>
      have same : q'.current.shape = q.current.shape ∧ q'.currentRow = q.currentRow := by
        obtain ⟨-, -, -, rfl⟩ := filtered_eq_ok.mp derived
        simp only [derive, currentRow]
        split
        · exact ⟨rfl, rfl⟩
        split <;> exact ⟨rfl, rfl⟩
      rw [same.1] at shape
      rw [same.2] at number ⊢
      exact before shape number
  | select made derived =>
      obtain ⟨-, -, rfl⟩ := projected_eq_ok.mp derived
      cases made with
      | mk => exact Expr.settled_inlined number
  | @join other t next _ made derived =>
      obtain ⟨rows, -, -, plain, -, rfl⟩ := joined_eq_ok.mp derived
      have items := (Expr.everywhere_tuple.mp number).2
      have first := before (by simp [rows]) (items q.currentRow (by simp))
      -- Only a plain query is joined, so the other row is that of a source.
      have second : other.currentRow.Settled := by
        simp only [isPlain, Bool.and_eq_true, Option.isNone_iff_eq_none] at plain
        exact Select.settled_currentRow plain.1.1.1.1.1.2
      exact Expr.settled_pack (by simpa using ⟨first, second⟩)
  | group made _ _ derived =>
      obtain ⟨-, -, -, -, rfl⟩ := grouped_eq_ok.mp derived
      have items := (Expr.everywhere_tuple.mp number).2
      cases made with
      | mk =>
          have key := Expr.settled_inlined (items _ List.mem_cons_self)
          have value := Expr.settled_inlined (items _ (List.mem_cons_of_mem _ List.mem_cons_self))
          exact Expr.settled_pack (by simpa using ⟨key, value⟩)
  | aggregate _ derived =>
      obtain ⟨-, -, -, -, rfl⟩ := aggregated_eq_ok.mp derived
      exact absurd rfl shape
  | sortedBy _ derived =>
      obtain ⟨-, -, -, rfl⟩ := sorted_eq_ok.mp derived
      exact before shape number
  | skip derived =>
      obtain ⟨-, -, rfl⟩ := skipped_eq_ok.mp derived
      exact before shape number
  | limit derived =>
      obtain ⟨-, rfl⟩ := limited_eq_ok.mp derived
      exact before shape number
  | distinct derived =>
      obtain ⟨-, -, rfl⟩ := distinctRows_eq_ok.mp derived
      exact before shape number

/-- An aggregated row is the value of all rows that the last fold gave. -/
theorem FoldStep.overAll (h : FoldStep q q') (shape : q'.current.shape = .aggregated) :
    ∃ next, OverAll q q.current.nextSource next q'.currentRow := by
  cases h with
  | filter _ derived =>
      obtain ⟨allowed, -, -, rfl⟩ := filtered_eq_ok.mp derived
      have same : q.current.shape = .aggregated := by
        simp only [derive] at shape
        split at shape
        · exact shape
        split at shape <;> exact shape
      simp [same] at allowed
  | select _ derived =>
      obtain ⟨rows, -, rfl⟩ := projected_eq_ok.mp derived
      exact absurd (rows.symm.trans shape) (by simp)
  | join _ derived =>
      obtain ⟨rows, -, -, -, -, rfl⟩ := joined_eq_ok.mp derived
      exact absurd (rows.symm.trans shape) (by simp)
  | group _ _ _ derived =>
      obtain ⟨-, -, -, -, rfl⟩ := grouped_eq_ok.mp derived
      cases shape
  | aggregate made derived =>
      obtain ⟨-, -, -, -, rfl⟩ := aggregated_eq_ok.mp derived
      exact ⟨_, made⟩
  | sortedBy _ derived =>
      obtain ⟨allowed, -, -, rfl⟩ := sorted_eq_ok.mp derived
      simp [show q.current.shape = .aggregated from shape] at allowed
  | skip derived =>
      obtain ⟨allowed, -, rfl⟩ := skipped_eq_ok.mp derived
      simp [show q.current.shape = .aggregated from shape] at allowed
  | limit derived =>
      obtain ⟨allowed, rfl⟩ := limited_eq_ok.mp derived
      simp [show q.current.shape = .aggregated from shape] at allowed
  | distinct derived =>
      obtain ⟨allowed, -, rfl⟩ := distinctRows_eq_ok.mp derived
      simp [show q.current.shape = .aggregated from shape] at allowed

theorem OverAll.normal {start next : SourceId} {e : Expr} (h : OverAll q start next e) :
    e.hasFixedType = true ∨ Expr.Normal .usual false e := by
  cases h with
  | closure => exact .inr (Expr.normal_result _)
  | summarized | counted => exact .inl rfl

end Query

/-! ## Reached queries -/

namespace Reached

open Rendering

variable {allowed : Compiler → Query → Operation → Query → Prop} {q : Query}

/-- Rows and groups are in normal form. -/
theorem settled_currentRow (h : Reached allowed q) :
    q.current.shape ≠ .aggregated → q.currentRow.NoNaN → q.currentRow.Settled := by
  refine h.stepwise (P := fun q => q.current.shape ≠ .aggregated → q.currentRow.NoNaN →
    q.currentRow.Settled) (fun entity _ _ => Select.settled_currentRow rfl) ?_
  exact fun q q' before step => step.settled_currentRow before

theorem fitsKind_row (h : Reached allowed q) : q.currentRow.Everywhere Expr.FitsKind :=
  Query.everywhere_currentRow rfl (fun _ _ => trivial) h.fitsKind

theorem fitsKind_normalRow (h : Reached allowed q) :
    q.normalize.currentRow.Everywhere Expr.FitsKind :=
  Query.everywhere_currentRow rfl (fun _ _ => trivial)
    (Query.everywhere_normalize Expr.lasting_fitsKind h.fitsKind)

/-- The rows of the normal form are those of the query, up to marks. -/
theorem marking_normalRow (h : Reached allowed q) (shape : q.current.shape ≠ .aggregated)
    (number : q.currentRow.NoNaN) : q.normalize.currentRow.Marking q.currentRow := by
  have same := q.marking_currentRow_normalize
  have fixed : (Expr.thorough q.holds).result q.currentRow = q.currentRow :=
    (h.settled_currentRow shape number).result_eq q.holds
  rwa [fixed] at same

/-- The row of all rows is in normal form, nested queries apart. -/
theorem normal_aggregatedRow (h : Reached allowed q) (shape : q.current.shape = .aggregated) :
    q.currentRow.hasFixedType = true ∨ Expr.Normal .usual false q.currentRow := by
  refine h.stepwise (P := fun q => q.current.shape = .aggregated →
    q.currentRow.hasFixedType = true ∨ Expr.Normal .usual false q.currentRow) ?_ ?_ shape
  · intro entity opened
    cases opened
  · intro q q' _ step final
    obtain ⟨_, made⟩ := step.overAll final
    exact made.normal

theorem type_normalRow (h : Reached allowed q)
    (kept : (∀ c ∈ q.currentRow.columns, c.hasFixedType = true) ∨
      (q.current.shape ≠ .aggregated ∧ q.currentRow.NoNaN) ∨
      (q.current.shape = .aggregated ∧ q.currentRow.KeepsType)) :
    q.normalize.currentRow.type = q.currentRow.type := by
  have same := q.marking_currentRow_normalize.type_eq
  rcases kept with fixed | ⟨shape, number⟩ | ⟨shape, keeps⟩
  · exact same.trans (Expr.type_result_of_columns h.fitsKind_row fixed)
  · exact (h.marking_normalRow shape number).type_eq
  · rcases h.normal_aggregatedRow shape with fixed | normal
    · exact same.trans (Expr.type_result_of_fixed fixed)
    · exact same.trans (keeps.type_result normal h.fitsKind_row)

/-- The text of a query begins with the columns of its rows in normal form, written one by
one. There is one for each leaf of the type of the rows, unless a choice, a least or greatest
value, a field or a row has the type of a tuple and stands for all its leaves. Normal form
keeps the type of rows and groups, and of aggregated rows made of aggregates and operators,
in choices too if both arms have their type. -/
theorem explain_columns (h : Reached allowed q) (compiler : Compiler) {out : Rendered}
    (explained : compiler.explain q = .ok out) :
    (∃ items names rest,
        (list rowsAlike q.normalize.current q.columns : RenderM (List String)).run
          ⟨compiler.settings.paramStem, Aliases.empty.addAll q.normalize.current.sources, []⟩ =
            .ok (items, names) ∧
        items.length = q.columns.length ∧
        out.text = (if q.current.distinct then "SELECT DISTINCT " else "SELECT ") ++
          joined ", " items ++ " FROM " ++ rest) ∧
    q.normalize.rowType.leaves = q.columns.flatMap (·.type.leaves) ∧
    ((∀ c ∈ q.columns, c.type.isTuple = false) →
      q.normalize.rowType.leaves = q.columns.map Expr.type) ∧
    (∀ c ∈ q.columns, c.type.isTuple = true → c.standsForTuple = true) ∧
    ((∀ c ∈ q.currentRow.columns, c.hasFixedType = true) ∨
        (q.current.shape ≠ .aggregated ∧ q.currentRow.NoNaN) ∨
        (q.current.shape = .aggregated ∧ q.currentRow.KeepsType) →
      q.normalize.rowType = q.rowType) ∧
    (q.current.shape ≠ .aggregated → q.currentRow.NoNaN →
      q.normalize.currentRow.Marking q.currentRow) := by
  have source : 0 ∈ q.normalize.current.ids := q.ids_normalize ▸ h.zero_mem_ids
  obtain ⟨root, rooted⟩ := Select.exists_root source
  have fits := h.fitsKind_normalRow
  have rowType : q.normalize.rowType = q.normalize.currentRow.type := Select.rowType_eq source
  obtain ⟨_, ran⟩ := Compiler.exists_run_of_explain explained
  obtain ⟨items, names, rest, written, text⟩ := exists_items_of_select rooted ran
  obtain ⟨length, each⟩ := exists_run_of_list written
  have distinct := congrArg Select.distinct q.normalize_spec.1
  change q.normalize.current.distinct = q.current.distinct at distinct
  rw [distinct] at text
  refine ⟨⟨items, names, rest, written, length, text⟩, ?_, fun single => ?_,
    fun c hc tuple => ?_, fun kept => ?_, h.marking_normalRow⟩
  · rw [rowType]
    exact Expr.leaves_type fits
  · rw [rowType]
    exact Expr.leaves_type_of_single fits single
  · obtain ⟨_, _, column⟩ := each c hc
    exact Expr.standsForTuple_of_run column (Expr.everywhere_iff.mp (fits.column hc)).1 tuple
  · rw [rowType]
    have before : q.rowType = q.currentRow.type := Select.rowType_eq h.zero_mem_ids
    rw [before]
    exact h.type_normalRow kept

/-- The name of a customer with the country of an account, and a number beside both. -/
def placedName : Closure where
  body := ⟨2, [.tuple [.entity "Customer", .entity "Account"]], [], .any,
    [.loadParam 0, .invoke ⟨"Pair", "getOne", 0, false⟩,
      .invoke ⟨"Customer", "getName", 0, false⟩, .loadParam 0,
      .invoke ⟨"Pair", "getTwo", 0, false⟩, .invoke ⟨"Account", "getCountry", 0, false⟩,
      .newTuple 2, .const (.int 5), .newTuple 2, .ret]⟩
  captured := []

theorem text_placedName :
    (customers.chain "Customer" [.join accountsOf, .select placedName]).map customers.queryText =
      .ok (.ok "SELECT (A.name), (B.country), 5 FROM Customer A JOIN A.accounts B") := by
  decide +kernel

/-- The number of all customers and the next number. -/
def sizeAndNext : Closure where
  body := ⟨1, [.stream (.entity "Customer")], [], .any,
    [.loadParam 0, .invoke ⟨"JinqStream", "count", 0, false⟩, .loadParam 0,
      .invoke ⟨"JinqStream", "count", 0, false⟩, .const (.int 1), .arith .add, .newTuple 2, .ret]⟩
  captured := []

theorem text_sizeAndNext :
    (customers.chain "Customer" [.aggregate sizeAndNext]).map customers.queryText =
      .ok (.ok "SELECT COUNT(A), (COUNT(A) + 1) FROM Customer A") := by
  decide +kernel

/-- Nested pairs lie flat: three columns for the three leaves. A sum stays one when the rows
below it are brought into normal form. -/
theorem explain_columns_placedName :
    (∃ q out, customers.chain "Customer" [.join accountsOf, .select placedName] = .ok q ∧
      customers.explain q = .ok out ∧
      out.text = "SELECT (A.name), (B.country), 5 FROM Customer A JOIN A.accounts B" ∧
      q.rowType = .tuple [.tuple [.text, .text], .int] ∧
      q.rowType.leaves = q.columns.map Expr.type ∧
      q.normalize.currentRow.Marking q.currentRow ∧
      ∃ items names, items.length = 3 ∧
        (list rowsAlike q.normalize.current q.columns : RenderM (List String)).run
          ⟨"param", Aliases.empty.addAll q.normalize.current.sources, []⟩ = .ok (items, names)) ∧
    ∃ q out, customers.chain "Customer" [.aggregate sizeAndNext] = .ok q ∧
      customers.explain q = .ok out ∧
      out.text = "SELECT COUNT(A), (COUNT(A) + 1) FROM Customer A" ∧
      q.current.shape = .aggregated ∧ q.rowType.leaves = q.columns.map Expr.type := by
  constructor
  · obtain ⟨q, folds, text⟩ := Compile.map_eq_ok.mp text_placedName
    obtain ⟨out, explained, text⟩ := Compile.map_eq_ok.mp text
    have facts : (customers.chain "Customer" [.join accountsOf, .select placedName]).map (fun q =>
        decide (q.rowType = .tuple [.tuple [.text, .text], .int] ∧ q.columns.length = 3 ∧
          (∀ c ∈ q.columns, c.type.isTuple = false) ∧ q.current.shape ≠ .aggregated ∧
          q.currentRow.NoNaN)) = .ok true := by
      decide +kernel
    rw [folds] at facts
    obtain ⟨rowType, three, single, shape, number⟩ := of_decide_eq_true (Except.ok.inj facts)
    obtain ⟨⟨items, names, _, written, length, -⟩, -, leaves, -, keeps, marking⟩ :=
      explain_columns (.chain folds) customers explained
    have same := keeps (.inr (.inl ⟨shape, number⟩))
    exact ⟨q, out, folds, explained, text, rowType, same ▸ leaves single, marking shape number,
      items, names, length.trans three, written⟩
  · let size : Expr := .summarize .count none (.ofEntity "Customer")
    let next : Expr := .binary (.arith .add) size (.constant (.int 1) .int) .long
    obtain ⟨q, folds, text⟩ := Compile.map_eq_ok.mp text_sizeAndNext
    obtain ⟨out, explained, text⟩ := Compile.map_eq_ok.mp text
    have facts : (customers.chain "Customer" [.aggregate sizeAndNext]).map (fun q =>
        decide (q.currentRow = .pack [size, next] ∧ (∀ c ∈ q.columns, c.type.isTuple = false) ∧
          q.current.shape = .aggregated)) = .ok true := by
      decide +kernel
    rw [folds] at facts
    obtain ⟨row, single, shape⟩ := of_decide_eq_true (Except.ok.inj facts)
    have sum : next.KeepsType := .binary (by decide) (by decide)
    have keeps : q.currentRow.KeepsType :=
      row ▸ .tuple (by simpa using ⟨.fixed (e := size) rfl, sum⟩)
    obtain ⟨-, -, leaves, -, kept, -⟩ := explain_columns (.chain folds) customers explained
    have same := kept (.inr (.inr ⟨shape, keeps⟩))
    exact ⟨q, out, folds, explained, text, shape, same ▸ leaves single⟩

def nameAndFive : Closure where
  body := ⟨1, [.entity "Customer"], [], .any,
    [.loadParam 0, .invoke ⟨"Customer", "getName", 0, false⟩, .const (.int 5), .newTuple 2, .ret]⟩
  captured := []

/-- A pair for some names and numbers, a text for all others. -/
def pairOrText : Closure where
  body := ⟨2, [.tuple [.text, .int]], [], .any,
    [.loadParam 0, .invoke ⟨"Pair", "getOne", 0, false⟩, .const (.text "n"), .ifCompare .eq 6,
      .const (.text "y"), .ret,
      .loadParam 0, .invoke ⟨"Pair", "getTwo", 0, false⟩, .const (.int 4), .ifCompare .eq 12,
      .const (.text "x"), .ret,
      .const (.text "a"), .const (.text "b"), .newTuple 2, .ret]⟩
  captured := []

/-- The number is known once the closure is folded onto the pair, and with it that there is
no pair. The choice has the type that it had before. -/
theorem explain_columns_pairOrText :
    ∃ q out, customers.chain "Customer" [.select nameAndFive, .select pairOrText] = .ok q ∧
      customers.explain q = .ok out ∧
      out.text = "SELECT (CASE WHEN ((A.name) = 'n') THEN 'x' ELSE 'y' END) FROM Customer A" ∧
      q.rowType.leaves = [.text, .text] ∧ q.columns.length = 1 := by
  have shown : (customers.chain "Customer" [.select nameAndFive, .select pairOrText]).map
      customers.queryText =
        .ok (.ok "SELECT (CASE WHEN ((A.name) = 'n') THEN 'x' ELSE 'y' END) FROM Customer A") := by
    decide +kernel
  have facts : (customers.chain "Customer" [.select nameAndFive, .select pairOrText]).map (fun q =>
      decide (q.rowType.leaves = [.text, .text] ∧ q.columns.length = 1)) = .ok true := by
    decide +kernel
  obtain ⟨q, folds, text⟩ := Compile.map_eq_ok.mp shown
  obtain ⟨out, explained, text⟩ := Compile.map_eq_ok.mp text
  rw [folds] at facts
  obtain ⟨leaves, one⟩ := of_decide_eq_true (Except.ok.inj facts)
  exact ⟨q, out, folds, explained, text, leaves, one⟩

end Reached

end StreamQuery
