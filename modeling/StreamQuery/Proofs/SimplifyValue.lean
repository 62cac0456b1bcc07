import StreamQuery.Proofs.Evaluation
import StreamQuery.Proofs.Rules

/-! # Normal form keeps the value

Each rule of the normal form gives a node of the same value, so one pass from the
leaves up does. Truth values need less: complement, conjunction and disjunction
are right for any operands, because logic reads a truth value off whatever it is
given. That an operand is one itself matters only where a rule drops the operator.
-/

namespace StreamQuery

def Likeness.ByValue (l : Likeness) : Prop := l.value = Value.same

theorem Likeness.usual_byValue : Likeness.usual.ByValue := rfl

theorem Likeness.kept_byValue (held : Query → Bool) : (Likeness.kept held).ByValue := rfl

namespace Expr

theorem elementary_leafProperty :
    LeafProperty fun node => node.query? = none ∧ ∀ x t, node ≠ constant (.double x) t where
  path := by simp [query?]
  component := by simp [query?]
  unary := by simp [query?]
  binary := by simp [query?]
  conditional := by simp [query?]
  tuple := by simp [query?]
  call := by simp [query?]
  constant v t hv := ⟨rfl, fun x s h => hv x (by simp_all)⟩
  double x y s t _ h := absurd rfl (h.2 x s)

theorem Elementary.ne_double {v : Value} {t : ValueType} (h : (constant v t).Elementary)
    (x : Double) : v ≠ .double x := by
  rintro rfl
  exact (everywhere_constant.mp h).2 x t rfl

theorem eq_of_likeAll_of {l : Likeness} {as bs : List Expr}
    (ih : ∀ a ∈ as, ∀ {b : Expr}, a.Elementary → a.like l b = true → a = b)
    (has : ∀ a ∈ as, a.Elementary) (h : likeAll l as bs = true) : as = bs := by
  induction as generalizing bs with
  | nil => cases bs <;> simp_all [likeAll]
  | cons a as ihas =>
      cases bs with
      | nil => simp [likeAll] at h
      | cons b bs =>
          simp only [likeAll, Bool.and_eq_true] at h
          obtain ⟨iha, ihas'⟩ := List.forall_mem_cons.mp ih
          obtain ⟨ha, has'⟩ := List.forall_mem_cons.mp has
          rw [iha ha h.1, ihas ihas' has' h.2]

/-- Without floating constants and nested queries, to be alike is to be equal. -/
theorem eq_of_like_of_elementary {l : Likeness} (hl : l.ByValue) {a b : Expr}
    (ha : a.Elementary) (h : a.like l b = true) : a = b := by
  induction a using treeInduction generalizing b with
  | constant v t =>
      cases b <;> simp only [like, Bool.and_eq_true, decide_eq_true_eq, Bool.false_eq_true] at h
      obtain ⟨hv, rfl⟩ := h
      have hd := ha.ne_double
      rw [hl] at hv
      cases v <;> simp_all [Value.same]
  | param | row | element =>
      cases b <;> simp_all [like]
  | path base field t ih =>
      cases b <;> simp only [like, Bool.and_eq_true, decide_eq_true_eq, Bool.false_eq_true] at h
      obtain ⟨⟨rfl, rfl⟩, inner⟩ := h
      rw [ih (everywhere_path.mp ha).2 inner]
  | component base index t ih =>
      cases b <;> simp only [like, Bool.and_eq_true, decide_eq_true_eq, Bool.false_eq_true] at h
      obtain ⟨⟨rfl, rfl⟩, inner⟩ := h
      rw [ih (everywhere_component.mp ha).2 inner]
  | unary op operand t ih =>
      cases b <;> simp only [like, Bool.and_eq_true, decide_eq_true_eq, Bool.false_eq_true] at h
      obtain ⟨⟨rfl, rfl⟩, inner⟩ := h
      rw [ih (everywhere_unary.mp ha).2 inner]
  | binary op left right t ihl ihr =>
      cases b <;> simp only [like, Bool.and_eq_true, decide_eq_true_eq, Bool.false_eq_true] at h
      obtain ⟨⟨⟨rfl, rfl⟩, first⟩, second⟩ := h
      have parts := (everywhere_binary.mp ha).2
      rw [ihl parts.1 first, ihr parts.2 second]
  | conditional test yes no t iht ihy ihn =>
      cases b <;> simp only [like, Bool.and_eq_true, decide_eq_true_eq, Bool.false_eq_true] at h
      obtain ⟨⟨⟨rfl, first⟩, second⟩, third⟩ := h
      obtain ⟨-, ht, hy, hn⟩ := everywhere_conditional.mp ha
      rw [iht ht first, ihy hy second, ihn hn third]
  | tuple items t ih =>
      cases b <;> simp only [like, Bool.and_eq_true, decide_eq_true_eq, Bool.false_eq_true] at h
      obtain ⟨rfl, inner⟩ := h
      rw [eq_of_likeAll_of ih (everywhere_tuple.mp ha).2 inner]
  | call fn args t ih =>
      cases b <;> simp only [like, Bool.and_eq_true, decide_eq_true_eq, Bool.false_eq_true] at h
      obtain ⟨⟨rfl, rfl⟩, inner⟩ := h
      rw [eq_of_likeAll_of ih (everywhere_call.mp ha).2 inner]
  | aggregate fn arg query t _ _ => exact absurd (everywhere_aggregate.mp ha).1.1 (by simp [query?])
  | subQuery query t _ => exact absurd (everywhere_subQuery.mp ha).1.1 (by simp [query?])

section

variable {Obj : Type} {ops : Operations Obj} {ν : Valuation Obj}

@[simp] theorem eval_bool (b : Bool) : (bool b).eval ops ν = .bool b := by
  simp [bool, literal, eval]

theorem eval_of_asBool {e : Expr} {b : Bool} (h : e.asBool = some b) :
    e.eval ops ν = .bool b := by
  obtain ⟨t, rfl⟩ := eq_constant_of_asBool h
  simp [eval]

/-! ## Logic reads truth values -/

theorem truth_of_asBool {e : Expr} {b : Bool} (h : e.asBool = some b) :
    ops.truth (e.eval ops ν) = b := by
  rw [eval_of_asBool h, ops.truth_bool]

theorem truth_eval_and (left right : Expr) (t : ValueType) :
    ops.truth ((binary .and left right t).eval ops ν) =
      (ops.truth (left.eval ops ν) && ops.truth (right.eval ops ν)) := by
  simp [eval, Operations.binary]

theorem truth_eval_or (left right : Expr) (t : ValueType) :
    ops.truth ((binary .or left right t).eval ops ν) =
      (ops.truth (left.eval ops ν) || ops.truth (right.eval ops ν)) := by
  simp [eval, Operations.binary]

theorem truth_eval_not (operand : Expr) (t : ValueType) :
    ops.truth ((unary .not operand t).eval ops ν) = !ops.truth (operand.eval ops ν) := by
  simp [eval, Operations.unary]

theorem truth_eval_conj? {left right e : Expr} (h : conj? left right = some e) :
    ops.truth (e.eval ops ν) =
      (ops.truth (left.eval ops ν) && ops.truth (right.eval ops ν)) := by
  obtain ⟨rfl, hl | hr⟩ | ⟨hl, rfl⟩ | ⟨hr, rfl⟩ := conj?_cases h
  · simp [truth_of_asBool hl]
  · simp [truth_of_asBool hr]
  · simp [truth_of_asBool hl]
  · simp [truth_of_asBool hr]

theorem truth_eval_disj? {left right e : Expr} (h : disj? left right = some e) :
    ops.truth (e.eval ops ν) =
      (ops.truth (left.eval ops ν) || ops.truth (right.eval ops ν)) := by
  obtain ⟨rfl, hl | hr⟩ | ⟨hl, rfl⟩ | ⟨hr, rfl⟩ := disj?_cases h
  · simp [truth_of_asBool hl]
  · simp [truth_of_asBool hr]
  · simp [truth_of_asBool hl]
  · simp [truth_of_asBool hr]

theorem truth_eval_conj (left right : Expr) :
    ops.truth ((conj left right).eval ops ν) =
      (ops.truth (left.eval ops ν) && ops.truth (right.eval ops ν)) := by
  unfold conj
  cases h : conj? left right with
  | none => exact truth_eval_and left right _
  | some e => exact truth_eval_conj? h

theorem truth_eval_disj (left right : Expr) :
    ops.truth ((disj left right).eval ops ν) =
      (ops.truth (left.eval ops ν) || ops.truth (right.eval ops ν)) := by
  unfold disj
  cases h : disj? left right with
  | none => exact truth_eval_or left right _
  | some e => exact truth_eval_disj? h

/-- The complement of an expression, whatever its value. -/
theorem truth_eval_negate (e : Expr) :
    ops.truth ((negate e).eval ops ν) = !ops.truth (e.eval ops ν) := by
  fun_induction negate e with
  | case1 b t => simp [eval]
  | case2 inner t => rw [truth_eval_not, Bool.not_not]
  | case3 op left right t =>
      simp [compare, apply, eval, Operations.binary, ops.compare_negate]
  | case4 left right t ihl ihr => rw [truth_eval_disj, ihl, ihr, truth_eval_and, Bool.not_and]
  | case5 left right t ihl ihr => rw [truth_eval_conj, ihl, ihr, truth_eval_or, Bool.not_or]
  | case6 e => exact truth_eval_not e .bool

/-! ## Truth values stay truth values -/

/-- A well-typed expression whose value is a truth value. -/
def Decides (ops : Operations Obj) (ν : Valuation Obj) (e : Expr) : Prop :=
  e.WellTyped ops ν ∧ (e.eval ops ν).IsBool

theorem Decides.eval_eq {e : Expr} (h : e.Decides ops ν) :
    e.eval ops ν = .bool (ops.truth (e.eval ops ν)) :=
  ops.eq_bool_truth h.2

theorem decides_bool (b : Bool) : (bool b).Decides ops ν :=
  ⟨by simp [bool, literal, WellTyped], by simp⟩

theorem decides_logical {op : BinaryOp} {left right : Expr} {t : ValueType}
    (hop : op.isLogical = true) (hl : left.Decides ops ν) (hr : right.Decides ops ν) :
    (binary op left right t).Decides ops ν := by
  refine ⟨⟨hl.1, hr.1, fun _ => ⟨hl.2, hr.2⟩⟩, ?_⟩
  cases op <;> simp_all [BinaryOp.isLogical, eval, Operations.binary]

theorem decides_conj {left right : Expr} (hl : left.Decides ops ν) (hr : right.Decides ops ν) :
    (conj left right).Decides ops ν := by
  unfold conj
  cases h : conj? left right with
  | none => exact decides_logical rfl hl hr
  | some e =>
      obtain ⟨rfl, -⟩ | ⟨-, rfl⟩ | ⟨-, rfl⟩ := conj?_cases h
      · exact decides_bool false
      · exact hr
      · exact hl

theorem decides_disj {left right : Expr} (hl : left.Decides ops ν) (hr : right.Decides ops ν) :
    (disj left right).Decides ops ν := by
  unfold disj
  cases h : disj? left right with
  | none => exact decides_logical rfl hl hr
  | some e =>
      obtain ⟨rfl, -⟩ | ⟨-, rfl⟩ | ⟨-, rfl⟩ := disj?_cases h
      · exact decides_bool true
      · exact hr
      · exact hl

theorem decides_negate {e : Expr} (h : e.Decides ops ν) : (negate e).Decides ops ν := by
  fun_induction negate e with
  | case1 b t => exact decides_bool _
  | case2 inner t => exact h.1
  | case3 op left right t =>
      exact ⟨⟨h.1.1, h.1.2.1, by simp [BinaryOp.isLogical]⟩, by simp [compare, apply, eval,
        Operations.binary]⟩
  | case4 left right t ihl ihr =>
      obtain ⟨hl, hr, both⟩ := h.1
      exact decides_disj (ihl ⟨hl, (both rfl).1⟩) (ihr ⟨hr, (both rfl).2⟩)
  | case5 left right t ihl ihr =>
      obtain ⟨hl, hr, both⟩ := h.1
      exact decides_conj (ihl ⟨hl, (both rfl).1⟩) (ihr ⟨hr, (both rfl).2⟩)
  | case6 e => exact ⟨h, by simp [not, eval, Operations.unary]⟩

/-! ## Rules keep the value -/

/-- Constants of one kind are compared in their own order; all others have none. -/
theorem compare_of_order? {v w : Value} {order : Ordering} (op : CompareOp)
    (hv : ∀ x, v ≠ .double x) (hw : ∀ x, w ≠ .double x) (h : Value.order? v w = some order) :
    ops.compare op (.value v) (.value w) = op.holds order := by
  cases v <;> cases w <;> simp_all [Value.order?] <;> subst h <;> apply Bool.eq_iff_iff.mpr
  case bool.bool l r => exact (ops.compare_bool op l r).trans (op.holds_compare_iff l r).symm
  case int.int l r =>
    exact (ops.compare_int op l r).trans (op.holds_compare_iff l.toInt r.toInt).symm
  case text.text l r => exact (ops.compare_text op l r).trans (op.holds_compare_iff l r).symm

theorem arith_of_arith? {op : ArithOp} {v w u : Value} (hv : ∀ x, v ≠ .double x)
    (hw : ∀ x, w ≠ .double x) (h : Value.arith? op v w = some u) :
    ops.arith op (.value v) (.value w) = .value u := by
  cases v <;> cases w <;> simp_all [Value.arith?]
  case int.int l r =>
    obtain ⟨k, hk, rfl⟩ := h
    exact ops.arith_int op l r k (Value.arithWords?_eq_some_iff.mp hk)

theorem neg_of_neg? {v u : Value} (hv : ∀ x, v ≠ .double x) (h : Value.neg? v = some u) :
    ops.neg (.value v) = .value u := by
  cases v <;> simp_all [Value.neg?]
  case int i =>
    obtain ⟨k, hk, rfl⟩ := h
    exact ops.neg_int i k (Value.word?_eq_some_iff.mp hk)

/-- A choice of truth values and its guarded disjunction. -/
theorem eval_guarded {test yes no : Expr} (ht : test.Decides ops ν) (hy : yes.Decides ops ν)
    (hn : no.Decides ops ν) :
    (disj (conj yes test) (conj no (negate test))).eval ops ν =
      if ops.truth (test.eval ops ν) then yes.eval ops ν else no.eval ops ν := by
  rw [(decides_disj (decides_conj hy ht) (decides_conj hn (decides_negate ht))).eval_eq,
    truth_eval_disj, truth_eval_conj, truth_eval_conj, truth_eval_negate]
  rw [hy.eval_eq, hn.eval_eq]
  cases ops.truth (test.eval ops ν) <;> simp

theorem wellTyped_and_eval_of_reduces {l : Likeness} (hl : l.ByValue) {e e' : Expr}
    (hr : Reduces l e e') (he : e.Elementary) (hw : e.WellTyped ops ν) :
    e'.WellTyped ops ν ∧ e'.eval ops ν = e.eval ops ν := by
  cases hr with
  | complement operand t =>
      have h : (negate operand).Decides ops ν := decides_negate hw
      refine ⟨h.1, ?_⟩
      rw [h.eval_eq, truth_eval_negate]
      rfl
  | neg s t hu =>
      have hv := (everywhere_unary.mp he).2
      exact ⟨trivial, (neg_of_neg? (Elementary.ne_double hv) hu).symm⟩
  | conj t hc =>
      obtain ⟨hl, hr, both⟩ := hw
      have h := decides_conj ⟨hl, (both rfl).1⟩ ⟨hr, (both rfl).2⟩
      rw [Expr.conj, hc] at h
      refine ⟨h.1, h.eval_eq.trans ?_⟩
      simp only [Option.getD_some, truth_eval_conj? hc]
      rfl
  | disj t hc =>
      obtain ⟨hl, hr, both⟩ := hw
      have h := decides_disj ⟨hl, (both rfl).1⟩ ⟨hr, (both rfl).2⟩
      rw [Expr.disj, hc] at h
      refine ⟨h.1, h.eval_eq.trans ?_⟩
      simp only [Option.getD_some, truth_eval_disj? hc]
      rfl
  | compare s s' t ho =>
      have parts := (everywhere_binary.mp he).2
      refine ⟨(decides_bool _).1, (eval_bool _).trans ?_⟩
      exact congrArg Datum.bool (compare_of_order? _ (Elementary.ne_double parts.1)
        (Elementary.ne_double parts.2) ho).symm
  | arith s s' t ha =>
      have parts := (everywhere_binary.mp he).2
      exact ⟨trivial, (arith_of_arith? (Elementary.ne_double parts.1)
        (Elementary.ne_double parts.2) ha).symm⟩
  | concat a b s s' t => exact ⟨trivial, (ops.concat_text a b).symm⟩
  | taken t ht => exact ⟨hw.2.1, by simp [eval, truth_of_asBool ht]⟩
  | passed t ht => exact ⟨hw.2.2.1, by simp [eval, truth_of_asBool ht]⟩
  | alike t ha =>
      have same := eq_of_like_of_elementary hl (everywhere_conditional.mp he).2.2.1 ha
      exact ⟨hw.2.1, by simp [eval, same]⟩
  | guarded test yes no =>
      obtain ⟨ht, hy, hn, htest, harms⟩ := hw
      have dt : test.Decides ops ν := ⟨ht, htest⟩
      have dy : yes.Decides ops ν := ⟨hy, (harms rfl).1⟩
      have dn : no.Decides ops ν := ⟨hn, (harms rfl).2⟩
      refine ⟨(decides_disj (decides_conj dy dt) (decides_conj dn (decides_negate dt))).1, ?_⟩
      rw [eval_guarded dt dy dn, eval]
  | component s t hi =>
      have items := (wellTypedAll_iff ops ν).mp hw
      refine ⟨items _ (List.mem_of_getElem? hi), ?_⟩
      simp [eval, evalAll_eq_map, Operations.component, hi]

/-! ## A whole pass -/

/-- Elementary, well-typed and of a given value. -/
structure HasValue (ops : Operations Obj) (ν : Valuation Obj) (e : Expr) (d : Datum Obj) :
    Prop where
  elementary : e.Elementary
  wellTyped : e.WellTyped ops ν
  eval_eq : e.eval ops ν = d

theorem HasValue.finished {pass : Pass} {l : Likeness} (hl : l.ByValue)
    (hfinish : pass.finish = reduce? l) {e : Expr} {d : Datum Obj} (h : e.HasValue ops ν d) :
    (pass.finished e).HasValue ops ν d := by
  unfold Pass.finished
  rw [hfinish]
  cases hr : reduce? l e with
  | none => exact h
  | some e' =>
      have rule := reduces_of_reduce? hr
      obtain ⟨typed, value⟩ := wellTyped_and_eval_of_reduces hl rule h.elementary h.wellTyped
      exact ⟨everywhere_of_reduces elementary_leafProperty rule h.elementary, typed,
        value.trans h.eval_eq⟩

section Nodes

variable {d d₁ d₂ d₃ : Datum Obj} {e e₁ e₂ e₃ : Expr} {t : ValueType}

theorem HasValue.path (h : e.HasValue ops ν d) (field : FieldRef) :
    (path e field t).HasValue ops ν (ops.field field d) :=
  ⟨everywhere_path.mpr ⟨elementary_leafProperty.path .., h.elementary⟩, h.wellTyped,
    by simp [eval, h.eval_eq]⟩

theorem HasValue.component (h : e.HasValue ops ν d) (index : Nat) :
    (component e index t).HasValue ops ν (ops.component index d) :=
  ⟨everywhere_component.mpr ⟨elementary_leafProperty.component .., h.elementary⟩, h.wellTyped,
    by simp [eval, h.eval_eq]⟩

theorem HasValue.unary {op : UnaryOp} (h : e.HasValue ops ν d) (hop : op = .not → d.IsBool) :
    (unary op e t).HasValue ops ν (ops.unary op d) := by
  refine ⟨everywhere_unary.mpr ⟨elementary_leafProperty.unary .., h.elementary⟩, ?_,
    by simp [eval, h.eval_eq]⟩
  cases op with
  | not => exact ⟨h.wellTyped, h.eval_eq ▸ hop rfl⟩
  | neg => exact h.wellTyped

theorem HasValue.binary {op : BinaryOp} (h₁ : e₁.HasValue ops ν d₁) (h₂ : e₂.HasValue ops ν d₂)
    (hop : op.isLogical = true → d₁.IsBool ∧ d₂.IsBool) :
    (binary op e₁ e₂ t).HasValue ops ν (ops.binary op d₁ d₂) := by
  refine ⟨everywhere_binary.mpr
    ⟨elementary_leafProperty.binary .., h₁.elementary, h₂.elementary⟩, ?_,
    by simp [eval, h₁.eval_eq, h₂.eval_eq]⟩
  refine ⟨h₁.wellTyped, h₂.wellTyped, ?_⟩
  rw [h₁.eval_eq, h₂.eval_eq]
  exact hop

theorem HasValue.conditional (h₁ : e₁.HasValue ops ν d₁) (h₂ : e₂.HasValue ops ν d₂)
    (h₃ : e₃.HasValue ops ν d₃) (htest : d₁.IsBool)
    (harms : t = .bool → d₂.IsBool ∧ d₃.IsBool) :
    (conditional e₁ e₂ e₃ t).HasValue ops ν (if ops.truth d₁ then d₂ else d₃) := by
  refine ⟨everywhere_conditional.mpr ⟨elementary_leafProperty.conditional .., h₁.elementary,
    h₂.elementary, h₃.elementary⟩, ?_, by simp [eval, h₁.eval_eq, h₂.eval_eq, h₃.eval_eq]⟩
  refine ⟨h₁.wellTyped, h₂.wellTyped, h₃.wellTyped, ?_⟩
  rw [h₁.eval_eq, h₂.eval_eq, h₃.eval_eq]
  exact ⟨htest, harms⟩

theorem HasValue.all {es : List Expr} {ds : List (Datum Obj)}
    (h : List.Forall₂ (HasValue ops ν) es ds) :
    (∀ e ∈ es, e.Elementary) ∧ WellTypedAll ops ν es ∧ evalAll ops ν es = ds := by
  induction h with
  | nil => simp [WellTypedAll, evalAll]
  | cons h _ ih =>
      exact ⟨List.forall_mem_cons.mpr ⟨h.elementary, ih.1⟩, ⟨h.wellTyped, ih.2.1⟩,
        by rw [evalAll, h.eval_eq, ih.2.2]⟩

theorem HasValue.tuple {es : List Expr} {ds : List (Datum Obj)}
    (h : List.Forall₂ (HasValue ops ν) es ds) : (tuple es t).HasValue ops ν (.tuple ds) := by
  obtain ⟨elementary, typed, values⟩ := HasValue.all h
  exact ⟨everywhere_tuple.mpr ⟨elementary_leafProperty.tuple .., elementary⟩, typed,
    by rw [eval, values]⟩

theorem HasValue.call {fn : ScalarFn} {es : List Expr} {ds : List (Datum Obj)}
    (h : List.Forall₂ (HasValue ops ν) es ds) :
    (call fn es t).HasValue ops ν (ops.call fn ds) := by
  obtain ⟨elementary, typed, values⟩ := HasValue.all h
  exact ⟨everywhere_call.mpr ⟨elementary_leafProperty.call .., elementary⟩, typed,
    by rw [eval, values]⟩

end Nodes

/-- A pass keeps values, those before it under one valuation and those after it under
another. What it puts in the place of a node has the value of the node, the leaves
that it leaves have theirs, and finishing a node keeps its value. -/
structure KeepsValue (ops : Operations Obj) (ν μ : Valuation Obj) (pass : Pass) : Prop where
  replaced : ∀ e r, pass.replace e = some r → r.HasValue ops μ (e.eval ops ν)
  leaf : ∀ e, pass.replace e = none → e.children = [] → e.eval ops μ = e.eval ops ν
  finished : ∀ e d, e.HasValue ops μ d → (pass.finished e).HasValue ops μ d

variable {μ : Valuation Obj} {pass : Pass}

theorem KeepsValue.node (keeps : KeepsValue ops ν μ pass) {e : Expr}
    (rebuild : pass.replace e = none → (pass.rebuild e).HasValue ops μ (e.eval ops ν)) :
    (pass.result e).HasValue ops μ (e.eval ops ν) := by
  cases hr : pass.replace e with
  | some r =>
      rw [Pass.result_of_replace hr]
      exact keeps.replaced e r hr
  | none =>
      rw [Pass.result_eq_finished hr]
      exact keeps.finished _ _ (rebuild hr)

theorem forall₂_result {es : List Expr} (he : ∀ e ∈ es, e.Elementary)
    (hw : WellTypedAll ops ν es)
    (ih : ∀ e ∈ es, e.Elementary → e.WellTyped ops ν →
      (pass.result e).HasValue ops μ (e.eval ops ν)) :
    List.Forall₂ (HasValue ops μ) (es.map pass.result) (evalAll ops ν es) := by
  rw [evalAll_eq_map, List.forall₂_map_left_iff, List.forall₂_map_right_iff, List.forall₂_same]
  exact fun e hmem => ih e hmem (he e hmem) ((wellTypedAll_iff ops ν).mp hw e hmem)

/-- A pass from the leaves up keeps the value of a tree if it does so at each node. -/
theorem KeepsValue.result (keeps : KeepsValue ops ν μ pass) {e : Expr} (he : e.Elementary)
    (hw : e.WellTyped ops ν) : (pass.result e).HasValue ops μ (e.eval ops ν) := by
  induction e using treeInduction with
  | constant | param | row | element =>
      exact keeps.node fun kept => ⟨he, trivial, keeps.leaf _ kept rfl⟩
  | path base field t ih =>
      refine keeps.node fun _ => ?_
      rw [Pass.rebuild_path, eval]
      exact (ih (everywhere_path.mp he).2 hw).path field
  | component base index t ih =>
      refine keeps.node fun _ => ?_
      rw [Pass.rebuild_component, eval]
      exact (ih (everywhere_component.mp he).2 hw).component index
  | unary op operand t ih =>
      refine keeps.node fun _ => ?_
      rw [Pass.rebuild_unary, eval]
      have part : operand.WellTyped ops ν := by
        cases op with
        | not => exact hw.1
        | neg => exact hw
      refine (ih (everywhere_unary.mp he).2 part).unary ?_
      rintro rfl
      exact hw.2
  | binary op left right t ihl ihr =>
      refine keeps.node fun _ => ?_
      rw [Pass.rebuild_binary, eval]
      have parts := (everywhere_binary.mp he).2
      exact (ihl parts.1 hw.1).binary (ihr parts.2 hw.2.1) hw.2.2
  | conditional test yes no t iht ihy ihn =>
      refine keeps.node fun _ => ?_
      rw [Pass.rebuild_conditional, eval]
      obtain ⟨-, ht, hy, hn⟩ := everywhere_conditional.mp he
      exact (iht ht hw.1).conditional (ihy hy hw.2.1) (ihn hn hw.2.2.1) hw.2.2.2.1 hw.2.2.2.2
  | tuple items t ih =>
      refine keeps.node fun _ => ?_
      rw [Pass.rebuild_tuple, eval]
      exact .tuple (forall₂_result (everywhere_tuple.mp he).2 hw ih)
  | call fn args t ih =>
      refine keeps.node fun _ => ?_
      rw [Pass.rebuild_call, eval]
      exact .call (forall₂_result (everywhere_call.mp he).2 hw ih)
  | aggregate fn arg query t _ _ =>
      exact absurd (everywhere_aggregate.mp he).1.1 (by simp [query?])
  | subQuery query t _ => exact absurd (everywhere_subQuery.mp he).1.1 (by simp [query?])

/-- A pass of rules keeps values. -/
theorem hasValue_result {l : Likeness} (hl : l.ByValue) (hreplace : ∀ e, pass.replace e = none)
    (hfinish : pass.finish = reduce? l) {e : Expr} (he : e.Elementary) (hw : e.WellTyped ops ν) :
    (pass.result e).HasValue ops ν (e.eval ops ν) := by
  have keeps : KeepsValue ops ν ν pass := by
    refine ⟨fun e r hr => ?_, fun _ _ _ => rfl, fun _ _ h => h.finished hl hfinish⟩
    rw [hreplace e] at hr
    cases hr
  exact keeps.result he hw

theorem hasValue_simplify {e : Expr} (he : e.Elementary) (hw : e.WellTyped ops ν) :
    e.simplify.HasValue ops ν (e.eval ops ν) :=
  hasValue_result Likeness.usual_byValue (fun _ => rfl) rfl he hw

end

/-- Normal form keeps the value of an expression under every meaning of its
operators and every value of its rows, elements and parameters that make it
well-typed. -/
theorem eval_simplify {Obj : Type} (ops : Operations Obj) (ν : Valuation Obj) (e : Expr)
    (elementary : e.Elementary) (wellTyped : e.WellTyped ops ν) :
    e.simplify.eval ops ν = e.eval ops ν :=
  (hasValue_simplify elementary wellTyped).eval_eq

/-- A choice whose first arm is the complement of a comparison. The sum compared
is past the largest word, so it has no exact value. -/
theorem eval_simplify_past_largest :
    let ops : Operations Empty := .standard fun _ d => d
    let ν : Valuation Empty := ⟨fun _ => .int Int64.maxValue, fun _ => .bool true, fun _ => .null⟩
    let flag := element 0 .bool
    let sum := binary (.arith .add) (row 0 .int) (constant (.int 1) .int) .int
    let e := conditional flag
      (unary .not (binary (.compare .lt) sum (constant (.int 0) .int) .bool) .bool) flag .bool
    e.Elementary ∧ e.WellTyped ops ν ∧ e.simplify.eval ops ν = e.eval ops ν := by
  intro ops ν flag sum e
  have elementary : e.Elementary := by simp [e, flag, sum, Elementary, query?]
  have wellTyped : e.WellTyped ops ν := by
    simp [e, flag, sum, WellTyped, eval, ν, Operations.binary, Operations.unary,
      BinaryOp.isLogical]
  exact ⟨elementary, wellTyped, eval_simplify ops ν e elementary wellTyped⟩

end Expr

end StreamQuery
