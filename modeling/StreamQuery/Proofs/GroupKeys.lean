import StreamQuery.Proofs.Shapes
import StreamQuery.Proofs.Unmarked

/-! # What grouped queries read

Once rows are grouped, closures see a pair of a key and a value. What they compile to
reads rows through the key only, as far as passes leave the key alone: a negation is
drawn into a key that is a comparison or a connective, and what is left of it reads
rows directly. Sort keys from before grouping stay as they were.
-/

namespace StreamQuery

namespace Expr

variable {p p' : Expr → Prop}

/-- Rows are read only through nodes of some kind, or in aggregates and nested queries. -/
inductive Through (p : Expr → Prop) : Expr → Prop where
  | face {e : Expr} (h : p e) : Through p e
  | node {e : Expr} (noRow : ∀ id t, e ≠ .row id t)
      (below : e.query? = none → ∀ c ∈ e.children, Through p c) : Through p e

/-- Nodes that stay what they are in a tree that is put in normal form. -/
structure Faces (p : Expr → Prop) : Prop where
  settled : ∀ {e : Expr}, p e → e.Settled
  marking : ∀ {a b : Expr}, p b → Marking a b → p a
  negate : ∀ {e : Expr}, p e → Through p (negate e)
  item : ∀ {items : List Expr} {t : ValueType}, p (.tuple items t) → ∀ c ∈ items, Through p c

theorem faces_none : Faces fun _ => False := ⟨nofun, nofun, nofun, nofun⟩

namespace Through

theorem leaf {e : Expr} (noRow : ∀ id t, e ≠ .row id t) (leaf : e.children = []) : Through p e :=
  .node noRow fun _ c hc => by simp [leaf] at hc

theorem query {e : Expr} {q : Query} (holds : e.query? = some q) : Through p e := by
  refine .node (fun id t same => ?_) (by simp [holds])
  rw [same] at holds
  cases holds

theorem compound {e : Expr} (nonempty : e.children ≠ []) (h : ∀ c ∈ e.children, Through p c) :
    Through p e := by
  refine .node (fun id t same => ?_) fun _ => h
  rw [same] at nonempty
  exact nonempty rfl

theorem bool (b : Bool) : Through p (.bool b) := leaf nofun rfl

theorem binary {op : BinaryOp} {left right : Expr} {t : ValueType} (hl : Through p left)
    (hr : Through p right) : Through p (.binary op left right t) :=
  compound (by simp [children]) (by simp [children, hl, hr])

theorem conj {left right : Expr} (hl : Through p left) (hr : Through p right) :
    Through p (Expr.conj left right) := by
  unfold Expr.conj
  cases h : conj? left right with
  | none => exact binary hl hr
  | some e =>
      obtain ⟨rfl, -⟩ | ⟨-, rfl⟩ | ⟨-, rfl⟩ := conj?_cases h
      · exact bool false
      · exact hr
      · exact hl

theorem disj {left right : Expr} (hl : Through p left) (hr : Through p right) :
    Through p (Expr.disj left right) := by
  unfold Expr.disj
  cases h : disj? left right with
  | none => exact binary hl hr
  | some e =>
      obtain ⟨rfl, -⟩ | ⟨-, rfl⟩ | ⟨-, rfl⟩ := disj?_cases h
      · exact bool true
      · exact hr
      · exact hl

theorem negate (faces : Faces p) {e : Expr} (h : Through p e) : Through p (Expr.negate e) := by
  fun_induction Expr.negate e with
  | case1 b t => exact bool _
  | case2 inner t =>
      rcases h with face | ⟨-, below⟩
      · exact faces.negate face
      · exact below rfl inner (by simp [children])
  | case3 op left right t =>
      rcases h with face | ⟨-, below⟩
      · exact faces.negate face
      · exact binary (below rfl left (by simp [children])) (below rfl right (by simp [children]))
  | case4 left right t ihl ihr =>
      rcases h with face | ⟨-, below⟩
      · exact faces.negate face
      · exact disj (ihl (below rfl left (by simp [children])))
          (ihr (below rfl right (by simp [children])))
  | case5 left right t ihl ihr =>
      rcases h with face | ⟨-, below⟩
      · exact faces.negate face
      · exact conj (ihl (below rfl left (by simp [children])))
          (ihr (below rfl right (by simp [children])))
  | case6 e => exact compound (by simp [Expr.not, children]) (by simpa [Expr.not, children] using h)

/-- Rules rearrange what stands below a node. -/
theorem reduces (faces : Faces p) {l : Likeness} {e e' : Expr} (hr : Reduces l e e')
    (below : ∀ c ∈ e.children, Through p c) : Through p e' := by
  cases hr with
  | complement operand t => exact negate faces (below operand (by simp [children]))
  | neg | compare | arith | concat =>
      refine leaf ?_ rfl
      rintro id t ⟨⟩
  | @conj left right _ t hc =>
      obtain ⟨rfl, -⟩ | ⟨-, rfl⟩ | ⟨-, rfl⟩ := conj?_cases hc
      · exact bool false
      · exact below _ (by simp [children])
      · exact below _ (by simp [children])
  | @disj left right _ t hc =>
      obtain ⟨rfl, -⟩ | ⟨-, rfl⟩ | ⟨-, rfl⟩ := disj?_cases hc
      · exact bool true
      · exact below _ (by simp [children])
      · exact below _ (by simp [children])
  | taken | passed | alike => exact below _ (by simp [children])
  | guarded test yes no =>
      have htest := below test (by simp [children])
      exact disj (conj (below yes (by simp [children])) htest)
        (conj (below no (by simp [children])) (negate faces htest))
  | @component items index _ s t hi =>
      have inside := List.mem_of_getElem? hi
      rcases below (.tuple items s) (by simp [children]) with face | ⟨-, items⟩
      · exact faces.item face _ inside
      · exact items rfl _ inside

/-! ## Passes and marks -/

/-- A pass keeps how rows are read, if what it puts in the place of nodes does. -/
theorem result {pass : Pass} (replaced : ∀ e r, pass.replace e = some r → Through p' r)
    (finished : ∀ e e', pass.finish e = some e' →
      e.query? = none ∧ ((∀ c ∈ e.children, Through p' c) → Through p' e'))
    (stays : ∀ e, p e → Through p' (pass.result e)) {e : Expr} (h : Through p e) :
    Through p' (pass.result e) := by
  induction h with
  | face h => exact stays _ h
  | @node e noRow below ih =>
      cases hr : pass.replace e with
      | some r =>
          rw [Pass.result_of_replace hr]
          exact replaced e r hr
      | none =>
          rw [Pass.result_eq_finished hr, Pass.finished]
          have holds := @Pass.query?_rebuild pass e
          have children : e.query? = none → ∀ c ∈ (pass.rebuild e).children, Through p' c := by
            intro holdsNone c hc
            rw [Pass.children_rebuild] at hc
            obtain ⟨child, hchild, rfl⟩ := List.mem_map.mp hc
            exact ih holdsNone child hchild
          cases hf : pass.finish (pass.rebuild e) with
          | some e' =>
              obtain ⟨holdsNone, through⟩ := finished _ e' hf
              rw [holdsNone] at holds
              exact through (children (Option.map_eq_none_iff.mp holds.symm))
          | none =>
              change Through p' (pass.rebuild e)
              refine .node (fun id t same => ?_) fun holdsNone => ?_
              · cases e <;> simp at same
                exact noRow _ _ rfl
              · rw [holds] at holdsNone
                exact children (Option.map_eq_none_iff.mp holdsNone)

theorem query?_of_reduce? {l : Likeness} {e e' : Expr} (h : reduce? l e = some e') :
    e.query? = none := by
  cases e <;> first | rfl | cases h

theorem rules (faces : Faces p) {e : Expr} (h : Through p e) (held : Query → Bool) :
    Through p ((Expr.rules (.kept held) true).result e) := by
  refine result (by simp [Expr.rules]) (fun e e' reduced => ?_) (fun e face => ?_) h
  · exact ⟨query?_of_reduce? reduced, reduces faces (reduces_of_reduce? reduced)⟩
  · rw [(faces.settled face).result_eq]
    exact .face face

theorem simplify {e : Expr} (h : Through (fun _ => False) e) :
    Through (fun _ => False) e.simplify :=
  @result _ _ shallow (by simp [shallow])
    (fun _ _ reduced => ⟨query?_of_reduce? reduced,
      reduces faces_none (reduces_of_reduce? reduced)⟩) nofun e h

theorem placing {scope : ElementScope} {row e : Expr} (h : Through (fun _ => False) e)
    (hrow : Through p row) : Through p ((Expr.placing scope row).result e) := by
  refine result (fun e r replaced => ?_) (by simp [Expr.placing]) nofun h
  cases e with
  | element s t =>
      simp only [Expr.placing, Option.ite_none_right_eq_some, Option.some.injEq] at replaced
      exact replaced.2 ▸ hrow
  | _ => cases replaced

theorem marking (closed : ∀ {a b : Expr}, p b → Marking a b → p a) {a b : Expr}
    (h : Through p b) (same : Marking a b) : Through p a := by
  induction h generalizing a with
  | face face => exact .face (closed face same)
  | @node b noRow below ih =>
      refine .node (fun id t row => ?_) fun holdsNone c hc => ?_
      · subst row
        cases b <;> simp only [Marking, relabel, reduceCtorEq, row.injEq] at same
        exact noRow _ _ rfl
      · have queries := congrArg query? same
        rw [query?_relabel, query?_relabel, holdsNone] at queries
        have parts := congrArg children same
        rw [children_relabel, children_relabel] at parts
        obtain ⟨child, hchild, equal⟩ := List.mem_map.mp (parts ▸ List.mem_map_of_mem hc)
        exact ih (Option.map_eq_none_iff.mp queries.symm) child hchild equal.symm

/-- A closure that reads no rows reads them only through what takes the place of its
element. -/
theorem inlined (faces : Faces p) {row e : Expr} (h : Through (fun _ => False) e)
    (hrow : Through p row) (scope : ElementScope) (m : Nat) :
    Through p ((e.inlined scope row).run m).1 := by
  rw [inlined_run_eq]
  exact marking faces.marking (rules faces (placing h hrow) _) (marking_marked _ m _)

end Through

theorem through_of_columns {e : Expr} (h : ∀ c ∈ e.columns, Through p c) : Through p e := by
  induction e using columnsInduction with
  | tuple items t ih =>
      refine .node nofun fun _ c hc => ih c hc fun d hd => ?_
      exact h d (mem_columns_tuple.mpr ⟨c, hc, hd⟩)
  | single e single => exact h e (by simp [columns_of_single single])

/-! ## Keys -/

theorem columns_of_mem_columns {e c : Expr} (h : c ∈ e.columns) : c.columns = [c] := by
  induction e using columnsInduction with
  | tuple items t ih =>
      obtain ⟨item, hitem, h⟩ := mem_columns_tuple.mp h
      exact ih item hitem h
  | single e single =>
      obtain rfl : c = e := by simpa [columns_of_single single] using h
      exact columns_of_single single

theorem Settled.negate {e : Expr} (h : e.Settled) : (Expr.negate e).Settled := by
  refine ⟨compositional_noNaN.decomposable.negate h.number, ?_⟩
  rw [relabel_negate]
  exact h.normal.negate

theorem Settled.columns {e c : Expr} (h : e.Settled) (hc : c ∈ e.columns) : c.Settled :=
  of_mem_columns (fun _ _ h _ hc => h.part (mem_parts_true.mpr (.inl hc))) h hc

/-- What is left of keys where closures read them: a key, also with other marks, what
negating one gives, and the components of one. -/
inductive Face (keys : List Expr) : Expr → Prop where
  | key {e : Expr} (h : e ∈ keys) : Face keys e
  | marking {a b : Expr} (h : Face keys b) (same : Marking a b) : Face keys a
  | negate {e : Expr} (h : Face keys e) : Face keys (negate e)
  | item {items : List Expr} {t : ValueType} {c : Expr} (h : Face keys (.tuple items t))
      (hc : c ∈ items) : Face keys c

theorem Face.settled {keys : List Expr} (settled : ∀ k ∈ keys, k.Settled) {e : Expr}
    (h : Face keys e) : e.Settled := by
  induction h with
  | key h => exact settled _ h
  | marking _ same ih => exact ih.marking same
  | negate _ ih => exact ih.negate
  | item _ hc ih => exact ih.part (mem_parts_true.mpr (.inl hc))

theorem faces_face {keys : List Expr} (settled : ∀ k ∈ keys, k.Settled) : Faces (Face keys) where
  settled := Face.settled settled
  marking := .marking
  negate h := .face (.negate h)
  item h _ hc := .face (.item h hc)

/-- A negation stands around a key that is no condition made of others, so such keys stay
whole. -/
theorem faces_keys {key : Expr} (settled : key.Settled)
    (atoms : ∀ k ∈ key.columns ++ [key], k.isAtom = true) :
    Faces fun e => ∃ k ∈ key.columns ++ [key], Marking e k where
  settled := by
    rintro e ⟨k, hk, same⟩
    refine Settled.marking ?_ same
    rcases List.mem_append.mp hk with column | whole
    · exact settled.columns column
    · exact List.mem_singleton.mp whole ▸ settled
  marking := by
    rintro a b ⟨k, hk, same⟩ marking
    exact ⟨k, hk, marking.trans same⟩
  negate := by
    rintro e ⟨k, hk, same⟩
    have atom : e.isAtom = true := by
      rw [← isAtom_relabel e, same, isAtom_relabel]
      exact atoms k hk
    rw [negate_of_isAtom atom]
    refine .compound (by simp [Expr.not, children]) fun c hc => ?_
    obtain rfl : c = e := by simpa [Expr.not, children] using hc
    exact .face ⟨k, hk, same⟩
  item := by
    rintro items t ⟨k, hk, same⟩ c hc
    have parts := congrArg children same
    rw [children_relabel, children_relabel] at parts
    obtain ⟨item, hitem, equal⟩ := List.mem_map.mp (parts ▸ List.mem_map_of_mem hc)
    -- Columns are no tuples, so it is the key as a whole that is one.
    have columns : ∀ d ∈ item.columns, d ∈ key.columns := by
      intro d hd
      obtain ⟨items', t', rfl⟩ : ∃ items t, k = .tuple items t := by
        cases k <;> simp only [Marking, relabel, reduceCtorEq] at same
        exact ⟨_, _, rfl⟩
      have inside : d ∈ (tuple items' t').columns := mem_columns_tuple.mpr ⟨item, hitem, hd⟩
      rcases List.mem_append.mp hk with column | whole
      · rw [columns_of_mem_columns column, List.mem_singleton] at inside
        exact inside ▸ column
      · exact List.mem_singleton.mp whole ▸ inside
    refine Through.marking ?_ (through_of_columns fun d hd => ?_) equal.symm
    · rintro a b ⟨k, hk, same⟩ marking
      exact ⟨k, hk, marking.trans same⟩
    · exact .face ⟨d, List.mem_append_left _ (columns d hd), rfl⟩

/-! ## The check on grouped values -/

theorem anyReadsRows_eq_false {sources : List Source} {keys es : List Expr}
    (h : ∀ e ∈ es, e.readsRows sources keys = false) : anyReadsRows sources keys es = false := by
  induction es with
  | nil => rfl
  | cons e es ih =>
      rw [anyReadsRows, h e List.mem_cons_self, ih fun c hc => h c (List.mem_cons_of_mem e hc)]
      rfl

theorem Through.readsRows {keys : List Expr} (numbers : ∀ k ∈ keys, k.NoNaN) {e : Expr}
    (h : Through (fun e => ∃ k ∈ keys, Marking e k) e) (sources : List Source) :
    e.readsRows sources keys = false := by
  induction h with
  | @face e h =>
      obtain ⟨k, hk, same⟩ := h
      have found : keys.any (·.same e) = true := List.any_eq_true.mpr
        ⟨k, hk, like_of_marking .usual (numbers k hk) same.symm⟩
      rw [Expr.readsRows.eq_def, found]
      rfl
  | @node e noRow below ih =>
      cases e <;> simp_all [Expr.readsRows, children, query?, anyReadsRows_eq_false]

end Expr

theorem Compile.Built.through {stream? : Option Query} {start next : SourceId}
    {scopes : List ElementScope} {e : Expr} (h : Built stream? start scopes next e) :
    e.Through fun _ => False := by
  induction h with
  | constant | param | element => exact .leaf nofun rfl
  | given found =>
      obtain ⟨query, -, rfl⟩ := found
      exact .query rfl
  | navigation | entity | counted | summarized | derived => exact .query rfl
  | compound _ nonempty _ _ ih => exact .compound nonempty ih
  | @retyped _ _ _ e _ t _ ih =>
      rcases ih with face | ⟨noRow, below⟩
      · exact face.elim
      · refine .node (fun id s row => ?_) (by cases e <;> exact below)
        cases e <;> simp only [Expr.withType, reduceCtorEq] at row
        exact noRow _ _ rfl
  | simplified _ ih => exact ih.simplify
  | later _ _ ih => exact ih

/-! ## Grouped queries -/

/-- What groups are told apart by: the columns of the key, and the key as a whole. -/
def Select.groupKeys (s : Select) : List Expr :=
  s.groupBy ++ match s.projection with
    | some (.tuple (key :: _) _) => [key]
    | _ => []

namespace Query

variable {q q' : Query}

/-- How a grouped query came about. What closures over groups compile to reads rows
through the key, and the sort keys from before grouping are still there. -/
structure Grouping (q : Query) (key value : Expr) (later earlier : List SortKey) : Prop where
  projection : q.current.projection = some (.pack [key, value])
  groupBy : q.current.groupBy = key.columns
  orderBy : q.current.orderBy = later ++ earlier
  began : ∃ since before rest, q.past = since ++ before :: rest ∧
    (∀ s ∈ since, s.shape = .grouped) ∧ before.shape = .rows ∧ before.orderBy = earlier
  settled : key.NoNaN → key.Settled
  reads : ∀ {p : Expr → Prop}, Expr.Faces p → (∀ c ∈ key.columns ++ [key], p c) →
    ∀ c ∈ value :: (q.current.having ++ later.map SortKey.key), c.Through p

theorem Grouping.groupKeys {key value : Expr} {later earlier : List SortKey}
    (h : Grouping q key value later earlier) : q.current.groupKeys = key.columns ++ [key] := by
  simp [Select.groupKeys, h.groupBy, h.projection, Expr.pack]

/-- A closure over groups is compiled with the pair of key and value as its row. -/
theorem Grouping.overRow {key value e : Expr} {later earlier : List SortKey}
    {start next : SourceId} (h : Grouping q key value later earlier)
    (made : OverRow q start next e) {p : Expr → Prop} (faces : Expr.Faces p)
    (keys : ∀ c ∈ key.columns ++ [key], p c) : e.Through p := by
  cases made with
  | mk built _ mark =>
      have row : q.currentRow.Through p := by
        have whole : key.Through p := .face (keys key (by simp))
        have rest : value.Through p := h.reads faces keys value List.mem_cons_self
        rw [currentRow, Select.currentRow, h.projection]
        exact .compound (by simp [Expr.pack, Expr.children])
          (by simp [Expr.pack, Expr.children, whole, rest])
      exact built.through.inlined faces row 1 mark

/-- Clauses that are added to a grouped query leave how it was grouped. -/
theorem Grouping.derive {key value : Expr} {later earlier : List SortKey}
    (h : Grouping q key value later earlier) (shape : q.current.shape = .grouped)
    {next : SourceId} {edit : Select → Select} (tests : List Expr) (keys : List SortKey)
    (projection : (q.derive next edit).current.projection = q.current.projection)
    (groupBy : (q.derive next edit).current.groupBy = q.current.groupBy)
    (having : (q.derive next edit).current.having = q.current.having ++ tests)
    (orderBy : (q.derive next edit).current.orderBy = keys ++ q.current.orderBy)
    (reads : ∀ {p : Expr → Prop}, Expr.Faces p → (∀ c ∈ key.columns ++ [key], p c) →
      ∀ c ∈ tests ++ keys.map SortKey.key, c.Through p) :
    Grouping (q.derive next edit) key value (keys ++ later) earlier := by
  obtain ⟨since, before, rest, past, grouped, rows, sorted⟩ := h.began
  refine ⟨projection.trans h.projection, groupBy.trans h.groupBy, ?_, ?_, h.settled, ?_⟩
  · rw [orderBy, h.orderBy, List.append_assoc]
  · exact ⟨q.current :: since, before, rest, by simp [Query.derive, past],
      List.forall_mem_cons.mpr ⟨shape, grouped⟩, rows, sorted⟩
  · intro p faces whole c hc
    have old := h.reads faces whole c
    have new := reads faces whole c
    rw [having] at hc
    simp only [List.map_append, List.mem_cons, List.mem_append] at hc old new
    grind

theorem FoldStep.grouping (shaped : q.current.Shaped)
    (h : q.current.shape = .grouped → ∃ key value later earlier, Grouping q key value later earlier)
    (step : FoldStep q q') (shape : q'.current.shape = .grouped) :
    ∃ key value later earlier, Grouping q' key value later earlier := by
  cases step with
  | @filter e next _ made derived =>
      obtain ⟨-, -, -, rfl⟩ := filtered_eq_ok.mp derived
      have before : q.current.shape = .grouped := by
        simp only [Query.derive] at shape
        split at shape
        · exact shape
        split at shape <;> exact shape
      obtain ⟨key, value, later, earlier, grouping⟩ := h before
      by_cases always : e.asBool = some true
      · refine ⟨key, value, [] ++ later, earlier, grouping.derive before [] [] ?_ ?_ ?_ ?_
          (by simp)⟩
        all_goals simp [Query.derive, always]
      · refine ⟨key, value, [] ++ later, earlier, grouping.derive before [e] [] ?_ ?_ ?_ ?_
          fun faces keys c hc => ?_⟩
        · simp [Query.derive, always, before]
        · simp [Query.derive, always, before]
        · simp [Query.derive, always, before]
        · simp [Query.derive, always, before]
        · obtain rfl : c = e := by simpa using hc
          exact grouping.overRow made faces keys
  | select _ derived =>
      obtain ⟨rows, -, rfl⟩ := projected_eq_ok.mp derived
      simp [Query.derive, rows] at shape
  | join _ derived =>
      obtain ⟨rows, -, -, -, -, rfl⟩ := joined_eq_ok.mp derived
      simp [Query.derive, rows] at shape
  | @group key inner middle next mark _ made built le derived =>
      obtain ⟨rows, -, -, -, rfl⟩ := grouped_eq_ok.mp derived
      refine ⟨key, _, [], q.current.orderBy, rfl, rfl, rfl, ⟨[], q.current, q.past, rfl,
        by simp, rows, rfl⟩, fun number => ?_, fun faces keys c hc => ?_⟩
      · cases made
        exact Expr.settled_inlined number
      · have none : q.current.having = [] := (shaped.rows rows).2
        obtain rfl : c = ((inner.inlined 2 key).run mark).1 := by
          simpa [Query.derive, none] using hc
        exact built.through.inlined faces (.face (keys key (by simp))) 2 mark
  | aggregate _ derived =>
      obtain ⟨-, -, -, -, rfl⟩ := aggregated_eq_ok.mp derived
      cases shape
  | @sortedBy e direction next _ made derived =>
      obtain ⟨-, -, -, rfl⟩ := sorted_eq_ok.mp derived
      obtain ⟨key, value, later, earlier, grouping⟩ := h shape
      refine ⟨key, value, [⟨e, direction⟩] ++ later, earlier,
        grouping.derive shape [] [⟨e, direction⟩] rfl rfl (List.append_nil _).symm rfl
          fun faces keys c hc => ?_⟩
      obtain rfl : c = e := by simpa using hc
      exact grouping.overRow made faces keys
  | skip derived =>
      obtain ⟨-, -, rfl⟩ := skipped_eq_ok.mp derived
      obtain ⟨key, value, later, earlier, grouping⟩ := h shape
      exact ⟨key, value, [] ++ later, earlier,
        grouping.derive shape [] [] rfl rfl (List.append_nil _).symm rfl (by simp)⟩
  | limit derived =>
      obtain ⟨-, rfl⟩ := limited_eq_ok.mp derived
      obtain ⟨key, value, later, earlier, grouping⟩ := h shape
      exact ⟨key, value, [] ++ later, earlier,
        grouping.derive shape [] [] rfl rfl (List.append_nil _).symm rfl (by simp)⟩
  | distinct derived =>
      obtain ⟨-, -, rfl⟩ := distinctRows_eq_ok.mp derived
      obtain ⟨key, value, later, earlier, grouping⟩ := h shape
      exact ⟨key, value, [] ++ later, earlier,
        grouping.derive shape [] [] rfl rfl (List.append_nil _).symm rfl (by simp)⟩

end Query

namespace Reached

variable {allowed : Compiler → Query → Operation → Query → Prop} {q : Query}

theorem grouping (h : Reached allowed q) (shape : q.current.shape = .grouped) :
    ∃ key value later earlier, q.Grouping key value later earlier := by
  induction h with
  | opened h =>
      rw [Compiler.streamAll_eq_ok h] at shape
      cases shape
  | folded before folds _ ih => exact (Compiler.foldStep folds).grouping before.shaped ih shape

/-- Conditions on groups and the sort keys that were added to them read rows through the
group keys or what is left of those. If no group key is itself a condition made of others,
they pass the check that is made on the values of groups. Sort keys from before
grouping stay behind them. -/
theorem grouped_reads (h : Reached allowed q) (shape : q.current.shape = .grouped) :
    ∃ later since before rest, q.current.orderBy = later ++ before.orderBy ∧
      q.past = since ++ before :: rest ∧ (∀ s ∈ since, s.shape = .grouped) ∧
      before.shape = .rows ∧
      ((∀ k ∈ q.current.groupKeys, k.NoNaN) →
        ∀ c ∈ q.current.having ++ later.map SortKey.key,
          c.Through (Expr.Face q.current.groupKeys) ∧
          ((∀ k ∈ q.current.groupKeys, k.isAtom = true) →
            c.readsRows q.current.sources q.current.groupKeys = false)) := by
  obtain ⟨key, value, later, earlier, grouping⟩ := h.grouping shape
  obtain ⟨since, before, rest, past, grouped, rows, rfl⟩ := grouping.began
  refine ⟨later, since, before, rest, grouping.orderBy, past, grouped, rows, ?_⟩
  rw [grouping.groupKeys]
  intro numbers c hc
  have settled : key.Settled := grouping.settled (numbers key (by simp))
  have all : ∀ k ∈ key.columns ++ [key], k.Settled := by
    intro k hk
    rcases List.mem_append.mp hk with column | whole
    · exact settled.columns column
    · exact List.mem_singleton.mp whole ▸ settled
  have clause := List.mem_cons_of_mem value hc
  refine ⟨grouping.reads (Expr.faces_face all) (fun k hk => .key hk) c clause, fun atoms => ?_⟩
  refine Expr.Through.readsRows numbers ?_ _
  exact grouping.reads (Expr.faces_keys settled atoms) (fun k hk => ⟨k, hk, rfl⟩) c clause

def fromNorway : Closure where
  body := ⟨3, [.any], [], .bool,
    [.loadParam 0, .invoke ⟨"Pair", "getOne", 0, false⟩, .const (.text "Norway"),
      .invoke ⟨"String", "equals", 1, false⟩, .ret]⟩
  captured := []

theorem grouped_reads_fromNorway :
    ∃ q, Reached (fun _ _ _ _ => True) q ∧ q.current.shape = .grouped ∧
      q.current.having.length = 1 ∧ q.current.orderBy.length = 1 ∧
      ∀ c ∈ q.current.having ++ q.current.orderBy.map SortKey.key,
        c.readsRows q.current.sources q.current.groupKeys = false := by
  have ran : (customers.chain "Customer" [.group countryOf Trail.groupSize, .filter fromNorway,
      .sortedBy firstOfPair .asc]).map (fun q => (q.current.shape, q.current.groupKeys,
        q.current.having.length, q.current.orderBy.length, q.past.map (·.orderBy.length))) =
          .ok (.grouped, List.replicate 2 (.path (.row 0 (.entity "Customer"))
            ⟨"Customer", "country", .text⟩ .text), 1, 1, [0, 0, 0]) := by
    decide +kernel
  obtain ⟨q, folds, found⟩ := Compile.map_eq_ok.mp ran
  simp only [Prod.mk.injEq] at found
  obtain ⟨shape, keys, having, orderBy, sorted⟩ := found
  obtain ⟨later, since, before, rest, order, past, -, -, reads⟩ := grouped_reads (chain folds) shape
  have unsorted : before.orderBy = [] := by
    have length : before.orderBy.length ∈ [0, 0, 0] := by
      rw [← sorted, past]
      exact List.mem_map_of_mem (by simp)
    simpa using length
  have number : ∀ k ∈ q.current.groupKeys, k.NoNaN := by simp [keys, Expr.NoNaN]
  have atom : ∀ k ∈ q.current.groupKeys, k.isAtom = true := by simp [keys, Expr.isAtom]
  rw [unsorted, List.append_nil] at order
  refine ⟨q, chain folds, shape, having, orderBy, fun c hc => ?_⟩
  rw [order] at hc
  exact (reads number c hc).2 atom

def isNotKey : Closure where
  body := ⟨3, [.any], [], .bool,
    [.loadParam 0, .invoke ⟨"Pair", "getOne", 0, false⟩, .ifZero .ne 5, .const (.int 1), .ret,
      .const (.int 0), .ret]⟩
  captured := []

/-- A sort key from before grouping reads rows outside the group keys, and so does a
condition on groups that negates a key. -/
theorem grouped_reads_outside_keys :
    (customers.chain "Customer" [.sortedBy customerName .asc, .group countryOf Trail.groupSize]).map
        (fun q => (q.current.shape, q.current.orderBy.map
          (·.key.readsRows q.current.sources q.current.groupKeys))) = .ok (.grouped, [true]) ∧
      (customers.chain "Customer" [.group namedLikeCountry Trail.groupSize,
        .filter isNotKey]).map (fun q => (q.current.shape, q.current.having.map
          (·.readsRows q.current.sources q.current.groupKeys))) = .ok (.grouped, [true]) := by
  constructor <;> decide +kernel

end Reached

end StreamQuery
