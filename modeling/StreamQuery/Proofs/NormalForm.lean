import StreamQuery.Proofs.Rules

/-! # The normal form is a fixed point

What a pass of the rules leaves behind is normal: no rule applies to any node
that the pass visits, negations of atoms apart, which it builds anew each time.
A pass over a normal tree therefore rebuilds the nodes above a negation, with
the types they have, and leaves the rest.
-/

namespace StreamQuery.Expr

/-- The pass that applies the rules, in nested queries too if it is deep. -/
def rules (l : Likeness) (deep : Bool) : Pass := ⟨fun _ => none, reduce? l, deep⟩

/-- A negation stands in what a pass visits. -/
inductive Restless (deep : Bool) : Expr → Prop where
  | here (operand : Expr) (t : ValueType) : Restless deep (unary .not operand t)
  | within {e c : Expr} (hc : c ∈ e.parts deep) (h : Restless deep c) : Restless deep e

/-- What a negation is not drawn into. -/
def isAtom : Expr → Bool
  | constant (.bool _) _ | unary .not _ _ | binary (.compare _) _ _ _ | binary .and _ _ _
  | binary .or _ _ _ => false
  | _ => true

theorem negate_of_isAtom {e : Expr} (h : e.isAtom = true) : negate e = not e := by
  unfold isAtom at h
  split at h
  case h_6 h₁ h₂ h₃ h₄ h₅ => exact negate.eq_6 e h₁ h₂ h₃ h₄ h₅
  all_goals cases h

/-- No rule changes any of the nodes that a pass visits. -/
inductive Normal (l : Likeness) (deep : Bool) : Expr → Prop where
  | intro {e : Expr} (parts : ∀ c ∈ e.parts deep, Normal l deep c)
      (settled : reduce? l e = none ∨ ∃ atom, e = not atom ∧ atom.isAtom = true)
      (typed : (∃ c ∈ e.parts deep, Restless deep c) → e.type = e.rebuiltType) : Normal l deep e

section

variable {l : Likeness} {deep : Bool}

/-- Whether two constants can be compared does not depend on the operator. -/
theorem compare?_eq_none {op : CompareOp} {left right : Expr} (h : compare? op left right = none)
    (other : CompareOp) : compare? other left right = none := by
  unfold compare? at *
  cases hl : left.asConstant with
  | none => rfl
  | some v =>
      cases hr : right.asConstant with
      | none => rfl
      | some w =>
          cases ho : Value.order? v w with
          | none => simp [ho]
          | some order => simp [hl, hr, ho] at h

namespace Normal

theorem parts_normal {e : Expr} (h : Normal l deep e) : ∀ c ∈ e.parts deep, Normal l deep c := by
  obtain ⟨parts, -, -⟩ := h
  exact parts

theorem child {e c : Expr} (h : Normal l deep e) (hc : c ∈ e.children) : Normal l deep c :=
  h.parts_normal c (List.mem_append_left _ hc)

theorem reduce?_eq_none {e : Expr} (h : Normal l deep e) (hn : ∀ atom, e ≠ not atom) :
    reduce? l e = none := by
  obtain ⟨-, settled, -⟩ := h
  rcases settled with settled | ⟨atom, rfl, -⟩
  · exact settled
  · exact absurd rfl (hn atom)

theorem constant (v : Value) (t : ValueType) : Normal l deep (.constant v t) :=
  ⟨by simp [parts, children, query?], .inl rfl, fun _ => rfl⟩

theorem binary {op : BinaryOp} {left right : Expr} {t : ValueType} (hl : Normal l deep left)
    (hr : Normal l deep right) (h : reduce? l (.binary op left right t) = none) :
    Normal l deep (.binary op left right t) :=
  ⟨by simp [parts, children, query?, hl, hr], .inl h, fun _ => rfl⟩

theorem conj {left right : Expr} (hl : Normal l deep left) (hr : Normal l deep right) :
    Normal l deep (Expr.conj left right) := by
  unfold Expr.conj
  cases h : conj? left right with
  | none => exact binary hl hr h
  | some e =>
      obtain ⟨rfl, -⟩ | ⟨-, rfl⟩ | ⟨-, rfl⟩ := conj?_cases h
      · exact constant ..
      · exact hr
      · exact hl

theorem disj {left right : Expr} (hl : Normal l deep left) (hr : Normal l deep right) :
    Normal l deep (Expr.disj left right) := by
  unfold Expr.disj
  cases h : disj? left right with
  | none => exact binary hl hr h
  | some e =>
      obtain ⟨rfl, -⟩ | ⟨-, rfl⟩ | ⟨-, rfl⟩ := disj?_cases h
      · exact constant ..
      · exact hr
      · exact hl

theorem negate {e : Expr} (h : Normal l deep e) : Normal l deep (Expr.negate e) := by
  fun_induction Expr.negate e with
  | case1 b t => exact constant ..
  | case2 inner t => exact h.child (by simp [children])
  | case3 op left right t =>
      have none : compare? op left right = none := h.reduce?_eq_none (by simp [Expr.not])
      refine binary (h.child (by simp [children])) (h.child (by simp [children])) ?_
      exact compare?_eq_none none op.negate
  | case4 left right t ihl ihr =>
      exact disj (ihl (h.child (by simp [children]))) (ihr (h.child (by simp [children])))
  | case5 left right t ihl ihr =>
      exact conj (ihl (h.child (by simp [children]))) (ihr (h.child (by simp [children])))
  | case6 atom h₁ h₂ h₃ h₄ h₅ =>
      refine ⟨by simpa [Expr.not, parts, children, query?] using h, .inr ⟨atom, rfl, ?_⟩, fun _ => rfl⟩
      exact isAtom.eq_6 atom h₁ h₂ h₃ h₄ h₅

/-- What a rule makes of a node over normal parts is normal. -/
theorem of_reduces {e e' : Expr} (hr : Reduces l e e')
    (parts : ∀ c ∈ e.children, Normal l deep c) : Normal l deep e' := by
  cases hr with
  | complement operand t => exact (parts operand (by simp [children])).negate
  | neg | compare | arith | concat => exact constant ..
  | conj t h =>
      obtain ⟨rfl, -⟩ | ⟨-, rfl⟩ | ⟨-, rfl⟩ := conj?_cases h
      · exact constant ..
      · exact parts _ (by simp [children])
      · exact parts _ (by simp [children])
  | disj t h =>
      obtain ⟨rfl, -⟩ | ⟨-, rfl⟩ | ⟨-, rfl⟩ := disj?_cases h
      · exact constant ..
      · exact parts _ (by simp [children])
      · exact parts _ (by simp [children])
  | taken | passed | alike => exact parts _ (by simp [children])
  | guarded test yes no =>
      have ht := parts test (by simp [children])
      have hy := parts yes (by simp [children])
      have hn := parts no (by simp [children])
      exact (hy.conj ht).disj (hn.conj ht.negate)
  | @component items index _ s t h =>
      have base := parts (tuple items s) (by simp [children])
      exact base.child (List.mem_of_getElem? h)

end Normal

/-! ## What a pass leaves behind -/

theorem isSome_revise {e : Expr} : (e.revise (rules l deep)).isSome =
    ((reduce? l ((rules l deep).rebuild e)).isSome ||
      (e.parts deep).any fun c => (c.revise (rules l deep)).isSome) := by
  rw [Pass.revise_eq_settle rfl, Pass.settle, Option.isSome_or, Pass.isSome_rebuilt]
  rfl

theorem Restless.isSome_revise {e : Expr} (h : Restless deep e) :
    (e.revise (rules l deep)).isSome = true := by
  induction h with
  | here operand t =>
      rw [Expr.isSome_revise, Pass.rebuild_unary]
      rfl
  | within hc _ ih =>
      rw [Expr.isSome_revise, Bool.or_eq_true, List.any_eq_true]
      exact .inr ⟨_, hc, ih⟩

theorem type_rebuild_of_restless {e : Expr}
    (h : ∃ c ∈ ((rules l deep).rebuild e).parts deep, Restless deep c) :
    ((rules l deep).rebuild e).type = ((rules l deep).rebuild e).rebuiltType := by
  cases rebuilt : (rules l deep).rebuilt e with
  | some e' => exact Pass.type_rebuild (by rw [rebuilt, Option.isSome_some])
  | none =>
      have same : (rules l deep).rebuild e = e := by rw [Pass.rebuild, rebuilt, Option.getD_none]
      -- A restless part would have been revised, and the node rebuilt.
      rw [same] at h
      obtain ⟨c, hc, restless⟩ := h
      have : ((rules l deep).rebuilt e).isSome = true := by
        rw [Pass.isSome_rebuilt, List.any_eq_true]
        exact ⟨c, hc, restless.isSome_revise⟩
      simp [rebuilt] at this

/-- What a pass makes of a tree is normal. -/
theorem normal_result (e : Expr) : Normal l deep ((rules l deep).result e) := by
  induction e using partsInduction deep with
  | node e ih =>
      have parts : ∀ c ∈ ((rules l deep).rebuild e).parts deep, Normal l deep c := by
        have revised : ((rules l deep).rebuild e).parts deep = _ := Pass.parts_rebuild e
        rw [revised]
        exact List.forall_mem_map.mpr ih
      rw [Pass.result_eq_finished rfl, Pass.finished]
      cases h : reduce? l ((rules l deep).rebuild e) with
      | none =>
          have stays : (rules l deep).finish ((rules l deep).rebuild e) = none := h
          rw [stays, Option.getD_none]
          exact ⟨parts, .inl h, type_rebuild_of_restless⟩
      | some e' =>
          have turns : (rules l deep).finish ((rules l deep).rebuild e) = some e' := h
          rw [turns, Option.getD_some]
          exact .of_reduces (reduces_of_reduce? h) fun c hc =>
            parts c (List.mem_append_left _ hc)

/-- A pass leaves a normal tree as it is, and builds it anew only if it is restless. -/
theorem Normal.result_eq {e : Expr} (h : Normal l deep e) : (rules l deep).result e = e ∧
    ((e.revise (rules l deep)).isSome = true → Restless deep e) := by
  induction h with
  | @intro e _ settled typed ih =>
      have restless : ((rules l deep).rebuilt e).isSome = true →
          ∃ c ∈ e.parts deep, Restless deep c := by
        rw [Pass.isSome_rebuilt, List.any_eq_true]
        rintro ⟨c, hc, revised⟩
        exact ⟨c, hc, (ih c hc).2 revised⟩
      have rebuilt : (rules l deep).rebuild e = e :=
        Pass.rebuild_eq_self (fun c hc => (ih c hc).1) fun h => typed (restless h)
      rw [Pass.result_eq_finished rfl, rebuilt, Expr.isSome_revise, rebuilt, Bool.or_eq_true,
        List.any_eq_true]
      rcases settled with none | ⟨atom, rfl, isAtom⟩
      · have stays : (rules l deep).finish e = Option.none := none
        rw [Pass.finished, stays, Option.getD_none]
        refine ⟨rfl, ?_⟩
        rintro (h | ⟨c, hc, revised⟩)
        · simp [none] at h
        · exact .within hc ((ih c hc).2 revised)
      · exact ⟨negate_of_isAtom isAtom, fun _ => .here atom .bool⟩

/-- A second pass makes no difference. -/
theorem result_result (e : Expr) :
    (rules l deep).result ((rules l deep).result e) = (rules l deep).result e :=
  (normal_result e).result_eq.1

theorem Restless.deepen {e : Expr} (h : Restless false e) : Restless true e := by
  induction h with
  | here operand t => exact .here operand t
  | within hc _ ih => exact .within (mem_parts_true.mpr (.inl (by simpa [parts] using hc))) ih

/-- What a pass into nested queries leaves, a pass that does not enter them leaves too. -/
theorem Normal.shallow {e : Expr} (h : Normal l true e) : Normal l false e := by
  induction h with
  | @intro e _ settled typed ih =>
      have deeper : ∀ c ∈ e.parts false, c ∈ e.parts true :=
        fun c hc => mem_parts_true.mpr (.inl (by simpa [parts] using hc))
      refine ⟨fun c hc => ih c (deeper c hc), settled, ?_⟩
      rintro ⟨c, hc, restless⟩
      exact typed ⟨c, deeper c hc, restless.deepen⟩

end

end StreamQuery.Expr
