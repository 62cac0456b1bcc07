import StreamQuery.Proofs.Clauses

/-! # Nodes of an expression

Properties of all nodes of an expression, those of nested queries included, and
what they ask of each kind of node.
-/

namespace StreamQuery

namespace Expr

/-- All nodes have a property, those of nested queries included. -/
def Everywhere (p : Expr → Prop) (e : Expr) : Prop := ∀ node ∈ e.reach fun _ => false, p node

section

variable {p q : Expr → Prop}

/-- The nodes of a tree are its root and the nodes of all parts. -/
theorem reach_eq_parts (e : Expr) : (e.reach fun _ => false) =
    e :: reachAll (fun _ => false) (e.parts true) := by
  cases e <;> simp [reach, parts, children, query?, reachAll, reachAll_append, reachOption_eq,
    Query.reach_eq]

theorem everywhere_reachAll {es : List Expr} :
    (∀ node ∈ reachAll (fun _ => false) es, p node) ↔ ∀ e ∈ es, e.Everywhere p := by
  induction es with
  | nil => simp [reachAll]
  | cons e es ih => simp [reachAll, or_imp, forall_and, ih, Everywhere]

theorem everywhere_iff {e : Expr} :
    e.Everywhere p ↔ p e ∧ ∀ c ∈ e.parts true, c.Everywhere p := by
  rw [Everywhere, reach_eq_parts, List.forall_mem_cons, everywhere_reachAll]

theorem Everywhere.mono {e : Expr} (h : e.Everywhere p) (imp : ∀ node, p node → q node) :
    e.Everywhere q :=
  fun node hn => imp node (h node hn)

theorem Everywhere.withType {e : Expr} {t : ValueType} (h : e.Everywhere p)
    (here : p (e.withType t)) : (e.withType t).Everywhere p := by
  have parts : (e.withType t).parts true = e.parts true := by cases e <;> rfl
  rw [everywhere_iff] at h ⊢
  exact ⟨here, parts ▸ h.2⟩

@[simp] theorem everywhere_constant {value : Value} {t : ValueType} :
    (constant value t).Everywhere p ↔ p (constant value t) := by
  rw [everywhere_iff]
  simp [parts, children, query?]

@[simp] theorem everywhere_param {capture : Capture} {t : ValueType} :
    (param capture t).Everywhere p ↔ p (param capture t) := by
  rw [everywhere_iff]
  simp [parts, children, query?]

@[simp] theorem everywhere_row {source : SourceId} {t : ValueType} :
    (row source t).Everywhere p ↔ p (row source t) := by
  rw [everywhere_iff]
  simp [parts, children, query?]

@[simp] theorem everywhere_element {scope : ElementScope} {t : ValueType} :
    (element scope t).Everywhere p ↔ p (element scope t) := by
  rw [everywhere_iff]
  simp [parts, children, query?]

@[simp] theorem everywhere_path {base : Expr} {field : FieldRef} {t : ValueType} :
    (path base field t).Everywhere p ↔ p (path base field t) ∧ base.Everywhere p := by
  rw [everywhere_iff]
  simp [parts, children, query?]

@[simp] theorem everywhere_component {base : Expr} {index : Nat} {t : ValueType} :
    (component base index t).Everywhere p ↔ p (component base index t) ∧ base.Everywhere p := by
  rw [everywhere_iff]
  simp [parts, children, query?]

@[simp] theorem everywhere_unary {op : UnaryOp} {operand : Expr} {t : ValueType} :
    (unary op operand t).Everywhere p ↔ p (unary op operand t) ∧ operand.Everywhere p := by
  rw [everywhere_iff]
  simp [parts, children, query?]

@[simp] theorem everywhere_binary {op : BinaryOp} {left right : Expr} {t : ValueType} :
    (binary op left right t).Everywhere p ↔
      p (binary op left right t) ∧ left.Everywhere p ∧ right.Everywhere p := by
  rw [everywhere_iff]
  simp [parts, children, query?]

@[simp] theorem everywhere_conditional {test yes no : Expr} {t : ValueType} :
    (conditional test yes no t).Everywhere p ↔
      p (conditional test yes no t) ∧ test.Everywhere p ∧ yes.Everywhere p ∧
        no.Everywhere p := by
  rw [everywhere_iff]
  simp [parts, children, query?]

@[simp] theorem everywhere_tuple {items : List Expr} {t : ValueType} :
    (tuple items t).Everywhere p ↔ p (tuple items t) ∧ ∀ e ∈ items, e.Everywhere p := by
  rw [everywhere_iff]
  simp [parts, children, query?]

@[simp] theorem everywhere_call {fn : ScalarFn} {args : List Expr} {t : ValueType} :
    (call fn args t).Everywhere p ↔ p (call fn args t) ∧ ∀ e ∈ args, e.Everywhere p := by
  rw [everywhere_iff]
  simp [parts, children, query?]

@[simp] theorem everywhere_aggregate {fn : AggregateFn} {arg : Option Expr} {query : Query}
    {t : ValueType} : (aggregate fn arg query t).Everywhere p ↔
      p (aggregate fn arg query t) ∧ (∀ e ∈ arg, e.Everywhere p) ∧
        ∀ e ∈ query.current.clauses, e.Everywhere p := by
  rw [everywhere_iff]
  simp [parts, children, query?, or_imp, forall_and]

@[simp] theorem everywhere_subQuery {query : Query} {t : ValueType} :
    (subQuery query t).Everywhere p ↔
      p (subQuery query t) ∧ ∀ e ∈ query.current.clauses, e.Everywhere p := by
  rw [everywhere_iff]
  simp [parts, children, query?]

/-- What holds everywhere in a tree holds everywhere in each of its nodes. -/
theorem Everywhere.nodes {e : Expr} (h : e.Everywhere p) :
    e.Everywhere fun node => node.Everywhere p := by
  induction e using partsInduction true with
  | node e ih =>
      obtain ⟨-, parts⟩ := everywhere_iff.mp h
      exact everywhere_iff.mpr ⟨h, fun c hc => ih c hc (parts c hc)⟩

end

end Expr

namespace Pass

variable {pass : Pass}

theorem children_rebuild (e : Expr) :
    (pass.rebuild e).children = e.children.map pass.result := by
  cases e <;> simp [Expr.children, Option.toList_map]

theorem query?_rebuild (e : Expr) : (pass.rebuild e).query? = e.query?.map pass.resultQuery := by
  cases e <;> simp [Expr.query?]

/-- The clauses of a query after a pass are revised, or they are as before. -/
theorem mem_clauses_resultQuery {q : Query} {c : Expr}
    (h : c ∈ (pass.resultQuery q).current.clauses) :
    ∃ clause ∈ q.current.clauses, c = clause ∨ c = pass.result clause := by
  rw [resultQuery_eq] at h
  split at h
  · rw [clauses_resultSelect] at h
    obtain ⟨clause, hc, rfl⟩ := List.mem_map.mp h
    exact ⟨clause, hc, .inr rfl⟩
  · exact ⟨c, h, .inl rfl⟩

/-- A tree is left by a pass that has nothing to do at any of its nodes. -/
theorem revise_eq_none {e : Expr}
    (h : e.Everywhere fun node => pass.replace node = none ∧ pass.finish node = none) :
    e.revise pass = none := by
  induction e using Expr.partsInduction true with
  | node e ih =>
      obtain ⟨⟨replace, finish⟩, parts⟩ := Expr.everywhere_iff.mp h
      have rebuilt : pass.rebuilt e = none := by
        rw [← Option.isNone_iff_eq_none, ← Option.isSome_eq_false_iff, isSome_rebuilt,
          List.any_eq_false]
        intro c hc
        have part : c ∈ e.parts true := by
          cases deep : pass.deep <;> simp_all [Expr.parts]
        simp [ih c part (parts c part)]
      rw [revise_eq_settle replace, rebuilt, settle]
      simp [finish]

/-- A pass keeps what holds everywhere, if what it puts in the place of nodes does. -/
theorem everywhere_result {p : Expr → Prop}
    (replaced : ∀ e r, pass.replace e = some r → r.Everywhere p)
    (finished : ∀ e e', pass.finish e = some e' → e.Everywhere p → e'.Everywhere p)
    (rebuilt : ∀ e, p e → p (pass.rebuild e)) {e : Expr} (h : e.Everywhere p) :
    (pass.result e).Everywhere p := by
  induction e using Expr.partsInduction true with
  | node e ih =>
      obtain ⟨here, parts⟩ := Expr.everywhere_iff.mp h
      have node : (pass.rebuild e).Everywhere p := by
        refine Expr.everywhere_iff.mpr ⟨rebuilt e here, fun c hc => ?_⟩
        rcases Expr.mem_parts_true.mp hc with hc | ⟨q, hq, hc⟩
        · rw [children_rebuild] at hc
          obtain ⟨child, hchild, rfl⟩ := List.mem_map.mp hc
          have part := Expr.mem_parts_true.mpr (.inl hchild)
          exact ih child part (parts child part)
        · rw [query?_rebuild] at hq
          obtain ⟨query, hquery, rfl⟩ := Option.map_eq_some_iff.mp hq
          obtain ⟨clause, hclause, same | revised⟩ := mem_clauses_resultQuery hc
          · have part := Expr.mem_parts_true.mpr (.inr ⟨query, hquery, hclause⟩)
            rw [same]
            exact parts clause part
          · have part := Expr.mem_parts_true.mpr (.inr ⟨query, hquery, hclause⟩)
            rw [revised]
            exact ih clause part (parts clause part)
      cases hr : pass.replace e with
      | some replacement =>
          rw [result_of_replace hr]
          exact replaced e replacement hr
      | none =>
          rw [result_eq_finished hr, Pass.finished]
          cases hf : pass.finish (pass.rebuild e) with
          | none => exact node
          | some e' => exact finished _ e' hf node

end Pass

end StreamQuery
