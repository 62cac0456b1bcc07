import StreamQuery.Expr.Simplify
import StreamQuery.Proofs.Nodes
import StreamQuery.Proofs.Revision

/-! # Rules of the normal form

What one rule can do at a node, said once: `Reduces` lists the rules, and what a
pass keeps is shown rule by rule. Rules only rearrange parts, drop them, or put
constants in their place, so they keep what holds of all leaves.
-/

namespace StreamQuery

@[simp] theorem Double.isNaN_neg (x : Double) : x.neg.isNaN = x.isNaN := by
  have same : (x.bits.toNat ^^^ 2 ^ 63) % 2 ^ 63 = x.bits.toNat % 2 ^ 63 := by
    rw [Nat.xor_mod_two_pow, Nat.mod_self, Nat.xor_zero]
  have magnitude : x.neg.magnitude = x.magnitude := same
  rw [isNaN, isNaN, magnitude]

/-- A finite result is a number. -/
theorem Value.isNaN_of_arithDoubles? {op : ArithOp} {l r x : Double}
    (h : arithDoubles? op l r = some x) : x.isNaN = false := by
  simp only [arithDoubles?, Option.ite_none_right_eq_some, Option.some.injEq] at h
  obtain ⟨finite, rfl⟩ := h
  simp only [Double.isFinite, Double.isNaN, decide_eq_true_eq, decide_eq_false_iff_not] at finite ⊢
  omega

namespace Expr

theorem eq_constant_of_asConstant {e : Expr} {v : Value} (h : e.asConstant = some v) :
    ∃ t, e = constant v t := by
  cases e <;> simp_all [asConstant]

theorem eq_constant_of_asBool {e : Expr} {b : Bool} (h : e.asBool = some b) :
    ∃ t, e = constant (.bool b) t := by
  obtain ⟨v, hv, hb⟩ := Option.bind_eq_some_iff.mp h
  obtain ⟨t, rfl⟩ := eq_constant_of_asConstant hv
  cases v <;> simp_all [Value.asBool]

theorem eq_constant_of_asText {e : Expr} {s : String} (h : e.asText = some s) :
    ∃ t, e = constant (.text s) t := by
  obtain ⟨v, hv, hs⟩ := Option.bind_eq_some_iff.mp h
  obtain ⟨t, rfl⟩ := eq_constant_of_asConstant hv
  cases v <;> simp_all [Value.asText]

theorem conj?_cases {left right e : Expr} (h : conj? left right = some e) :
    (e = bool false ∧ (left.asBool = some false ∨ right.asBool = some false)) ∨
      (left.asBool = some true ∧ e = right) ∨ (right.asBool = some true ∧ e = left) := by
  unfold conj? at h
  split at h <;> cases h <;> simp_all

theorem disj?_cases {left right e : Expr} (h : disj? left right = some e) :
    (e = bool true ∧ (left.asBool = some true ∨ right.asBool = some true)) ∨
      (left.asBool = some false ∧ e = right) ∨ (right.asBool = some false ∧ e = left) := by
  unfold disj? at h
  split at h <;> cases h <;> simp_all

theorem conj?_eq_none_iff {left right : Expr} :
    conj? left right = none ↔ left.asBool = none ∧ right.asBool = none := by
  unfold conj?
  split <;> simp_all

theorem disj?_eq_none_iff {left right : Expr} :
    disj? left right = none ↔ left.asBool = none ∧ right.asBool = none := by
  unfold disj?
  split <;> simp_all

theorem choice?_eq_none_iff {l : Likeness} {test yes no : Expr} {t : ValueType} :
    choice? l test yes no t = none ↔
      test.asBool = none ∧ ¬ yes.like l no = true ∧ t ≠ .bool := by
  unfold choice?
  split
  · simp_all
  · simp_all
  · next undecided => split <;> simp_all

/-- One rule applied at a node. -/
inductive Reduces (l : Likeness) : Expr → Expr → Prop where
  | complement (operand : Expr) (t : ValueType) :
      Reduces l (unary .not operand t) (negate operand)
  | neg {v u : Value} (s t : ValueType) (h : Value.neg? v = some u) :
      Reduces l (unary .neg (constant v s) t) (constant u t)
  | conj {left right e : Expr} (t : ValueType) (h : conj? left right = some e) :
      Reduces l (binary .and left right t) e
  | disj {left right e : Expr} (t : ValueType) (h : disj? left right = some e) :
      Reduces l (binary .or left right t) e
  | compare {op : CompareOp} {v w : Value} {order : Ordering} (s s' t : ValueType)
      (h : Value.order? v w = some order) :
      Reduces l (binary (.compare op) (constant v s) (constant w s') t) (bool (op.holds order))
  | arith {op : ArithOp} {v w u : Value} (s s' t : ValueType)
      (h : Value.arith? op v w = some u) :
      Reduces l (binary (.arith op) (constant v s) (constant w s') t) (constant u t)
  | concat (a b : String) (s s' t : ValueType) :
      Reduces l (binary .concat (constant (.text a) s) (constant (.text b) s') t)
        (literal (.text (a ++ b)))
  | taken {test yes no : Expr} (t : ValueType) (h : test.asBool = some true) :
      Reduces l (conditional test yes no t) yes
  | passed {test yes no : Expr} (t : ValueType) (h : test.asBool = some false) :
      Reduces l (conditional test yes no t) no
  | alike {test yes no : Expr} (t : ValueType) (h : yes.like l no = true) :
      Reduces l (conditional test yes no t) yes
  | guarded (test yes no : Expr) :
      Reduces l (conditional test yes no .bool)
        (Expr.disj (Expr.conj yes test) (Expr.conj no (negate test)))
  | component {items : List Expr} {index : Nat} {e : Expr} (s t : ValueType)
      (h : items[index]? = some e) : Reduces l (component (tuple items s) index t) e

theorem choice?_reduces {l : Likeness} {test yes no e : Expr} {t : ValueType}
    (h : choice? l test yes no t = some e) : Reduces l (conditional test yes no t) e := by
  unfold choice? at h
  split at h
  next htest => cases h; exact .taken t htest
  next htest => cases h; exact .passed t htest
  next =>
    split at h
    next hlike => cases h; exact .alike t hlike
    next =>
      split at h
      next hbool => cases h; subst hbool; exact .guarded test yes no
      next => cases h

theorem reduces_of_reduce? {l : Likeness} {e e' : Expr} (h : reduce? l e = some e') :
    Reduces l e e' := by
  cases e with
  | unary op operand t =>
      cases op with
      | not => cases h; exact .complement operand t
      | neg =>
          simp only [reduce?, Option.map_eq_some_iff, Option.bind_eq_some_iff] at h
          obtain ⟨u, ⟨v, hv, hu⟩, rfl⟩ := h
          obtain ⟨s, rfl⟩ := eq_constant_of_asConstant hv
          exact .neg s t hu
  | binary op left right t =>
      cases op with
      | arith op =>
          simp only [reduce?, arith?, Option.bind_eq_bind, Option.bind_eq_some_iff,
            Option.some.injEq] at h
          obtain ⟨v, hv, w, hw, u, hu, rfl⟩ := h
          obtain ⟨s, rfl⟩ := eq_constant_of_asConstant hv
          obtain ⟨s', rfl⟩ := eq_constant_of_asConstant hw
          exact .arith s s' t hu
      | compare op =>
          simp only [reduce?, compare?, Option.bind_eq_bind, Option.bind_eq_some_iff,
            Option.some.injEq] at h
          obtain ⟨v, hv, w, hw, order, horder, rfl⟩ := h
          obtain ⟨s, rfl⟩ := eq_constant_of_asConstant hv
          obtain ⟨s', rfl⟩ := eq_constant_of_asConstant hw
          exact .compare s s' t horder
      | and => exact .conj t h
      | or => exact .disj t h
      | concat =>
          simp only [reduce?, concat?, Option.bind_eq_bind, Option.bind_eq_some_iff,
            Option.some.injEq] at h
          obtain ⟨a, ha, b, hb, rfl⟩ := h
          obtain ⟨s, rfl⟩ := eq_constant_of_asText ha
          obtain ⟨s', rfl⟩ := eq_constant_of_asText hb
          exact .concat a b s s' t
      | like => cases h
  | conditional test yes no t => exact choice?_reduces h
  | component base index t =>
      simp only [reduce?, component?] at h
      split at h
      next items s => exact .component s t h
      next => cases h
  | _ => cases h

/-! ## Properties that rules keep -/

/-- A property that the parts of a node have with it, and truth values with the parts
that they are computed from. -/
structure Decomposable (H : Expr → Prop) : Prop where
  child : ∀ {e c : Expr}, e.query? = none → c ∈ e.children → H e → H c
  bool : ∀ b, H (bool b)
  not : ∀ {e : Expr}, H e → H (not e)
  predicate : ∀ {op : BinaryOp} {left right : Expr}, (apply op left right).type = .bool →
    H left → H right → H (apply op left right)

/-- Such a property that constants have too which are computed at a node. -/
structure Foldable (H : Expr → Prop) : Prop extends Decomposable H where
  text : ∀ s, H (literal (.text s))
  neg : ∀ {v u : Value} {s t : ValueType}, Value.neg? v = some u →
    H (unary .neg (constant v s) t) → H (constant u t)
  arith : ∀ {op : ArithOp} {v w u : Value} {s s' t : ValueType}, Value.arith? op v w = some u →
    H (binary (.arith op) (constant v s) (constant w s') t) → H (constant u t)

namespace Decomposable

variable {H : Expr → Prop} (hH : Decomposable H)

include hH

theorem operand {op : UnaryOp} {operand : Expr} {t : ValueType} (h : H (.unary op operand t)) :
    H operand :=
  hH.child rfl (by simp [children]) h

theorem operands {op : BinaryOp} {left right : Expr} {t : ValueType}
    (h : H (.binary op left right t)) : H left ∧ H right :=
  ⟨hH.child rfl (by simp [children]) h, hH.child rfl (by simp [children]) h⟩

theorem arms {test yes no : Expr} {t : ValueType} (h : H (.conditional test yes no t)) :
    H test ∧ H yes ∧ H no :=
  ⟨hH.child rfl (by simp [children]) h, hH.child rfl (by simp [children]) h,
    hH.child rfl (by simp [children]) h⟩

theorem conj {left right : Expr} (hl : H left) (hr : H right) : H (conj left right) := by
  unfold Expr.conj
  cases h : conj? left right with
  | none => exact hH.predicate rfl hl hr
  | some e =>
      obtain ⟨rfl, -⟩ | ⟨-, rfl⟩ | ⟨-, rfl⟩ := conj?_cases h
      · exact hH.bool false
      · exact hr
      · exact hl

theorem disj {left right : Expr} (hl : H left) (hr : H right) : H (disj left right) := by
  unfold Expr.disj
  cases h : disj? left right with
  | none => exact hH.predicate rfl hl hr
  | some e =>
      obtain ⟨rfl, -⟩ | ⟨-, rfl⟩ | ⟨-, rfl⟩ := disj?_cases h
      · exact hH.bool true
      · exact hr
      · exact hl

theorem negate {e : Expr} (h : H e) : H (negate e) := by
  fun_induction Expr.negate e with
  | case1 b t => exact hH.bool _
  | case2 inner t => exact hH.operand h
  | case3 op left right t =>
      have parts := hH.operands h
      exact hH.predicate rfl parts.1 parts.2
  | case4 left right t ihl ihr =>
      have parts := hH.operands h
      exact hH.disj (ihl parts.1) (ihr parts.2)
  | case5 left right t ihl ihr =>
      have parts := hH.operands h
      exact hH.conj (ihl parts.1) (ihr parts.2)
  | case6 e => exact hH.not h

end Decomposable

/-- Rules only rearrange parts, drop them, or put constants in their place. -/
theorem Foldable.of_reduces {H : Expr → Prop} (hH : Foldable H) {l : Likeness} {e e' : Expr}
    (hr : Reduces l e e') (h : H e) : H e' := by
  cases hr with
  | complement operand t => exact hH.negate (hH.operand h)
  | neg s t hu => exact hH.neg hu h
  | conj t hc =>
      have parts := hH.operands h
      obtain ⟨rfl, -⟩ | ⟨-, rfl⟩ | ⟨-, rfl⟩ := conj?_cases hc
      · exact hH.bool false
      · exact parts.2
      · exact parts.1
  | disj t hc =>
      have parts := hH.operands h
      obtain ⟨rfl, -⟩ | ⟨-, rfl⟩ | ⟨-, rfl⟩ := disj?_cases hc
      · exact hH.bool true
      · exact parts.2
      · exact parts.1
  | compare s s' t ho => exact hH.bool _
  | arith s s' t ha => exact hH.arith ha h
  | concat a b s s' t => exact hH.text _
  | taken t ht => exact (hH.arms h).2.1
  | passed t ht => exact (hH.arms h).2.2
  | alike t ha => exact (hH.arms h).2.1
  | guarded test yes no =>
      obtain ⟨htest, hyes, hno⟩ := hH.arms h
      exact hH.disj (hH.conj hyes htest) (hH.conj hno (hH.negate htest))
  | @component items index _ s t hi =>
      have base : H (tuple items s) := hH.child rfl (by simp [children]) h
      exact hH.child rfl (List.mem_of_getElem? hi) base

/-! ## Properties that trees take from their leaves -/

/-- A property that a compound node has just if its children have it. Nested
queries are left to the property itself. -/
structure Compositional (H : Expr → Prop) : Prop where
  compound : ∀ {e : Expr}, e.query? = none → e.children ≠ [] → (H e ↔ ∀ c ∈ e.children, H c)
  constant : ∀ v t, (∀ x, v ≠ .double x) → H (constant v t)

theorem Compositional.decomposable {H : Expr → Prop} (hH : Compositional H) : Decomposable H where
  child holdsNone hc h := (hH.compound holdsNone (List.ne_nil_of_mem hc)).mp h _ hc
  bool b := hH.constant _ _ (by simp)
  not h := (hH.compound rfl (by simp [Expr.not, children])).mpr (by simpa [Expr.not, children])
  predicate _ hl hr := (hH.compound rfl (by simp [apply, children])).mpr
    (by simpa [apply, children] using ⟨hl, hr⟩)

/-- Such a property that folding constants keeps: floating ones come from floating ones
only, and what is not a number from what is not. -/
structure Hereditary (H : Expr → Prop) : Prop extends Compositional H where
  double : ∀ x y s t, (y.isNaN = true → x.isNaN = true) →
    H (.constant (.double x) s) → H (.constant (.double y) t)

namespace Hereditary

variable {H : Expr → Prop} (hH : Hereditary H)

include hH

theorem negated {v u : Value} {s t : ValueType} (hv : H (.constant v s))
    (h : Value.neg? v = some u) : H (.constant u t) := by
  cases v <;> simp only [Value.neg?, Option.map_eq_some_iff, Option.some.injEq,
    reduceCtorEq] at h
  · obtain ⟨k, -, rfl⟩ := h
    exact hH.constant _ _ (by simp)
  · subst h
    exact hH.double _ _ _ _ (by simp) hv

/-- A constant computed from two others has what they have. -/
theorem folded {op : ArithOp} {v w u : Value} {s s' t : ValueType} (hv : H (.constant v s))
    (hw : H (.constant w s')) (h : Value.arith? op v w = some u) : H (.constant u t) := by
  cases v <;> cases w <;> simp only [Value.arith?, Option.map_eq_some_iff, reduceCtorEq] at h <;>
    obtain ⟨x, computed, rfl⟩ := h
  · exact hH.constant _ _ (by simp)
  · exact hH.double _ _ _ _ (by simp [Value.isNaN_of_arithDoubles? computed]) hw
  · exact hH.double _ _ _ _ (by simp [Value.isNaN_of_arithDoubles? computed]) hv
  · exact hH.double _ _ _ _ (by simp [Value.isNaN_of_arithDoubles? computed]) hv

theorem foldable : Foldable H where
  toDecomposable := hH.decomposable
  text s := hH.constant _ _ (by simp)
  neg computed h := hH.negated (hH.decomposable.operand h) computed
  arith computed h :=
    have parts := hH.decomposable.operands h
    hH.folded parts.1 parts.2 computed

end Hereditary

/-- A property that all compound nodes have and all constants that a rule can put
in their place. -/
structure LeafProperty (p : Expr → Prop) : Prop where
  path : ∀ base field t, p (path base field t)
  component : ∀ base index t, p (component base index t)
  unary : ∀ op operand t, p (unary op operand t)
  binary : ∀ op left right t, p (binary op left right t)
  conditional : ∀ test yes no t, p (conditional test yes no t)
  tuple : ∀ items t, p (tuple items t)
  call : ∀ fn args t, p (call fn args t)
  constant : ∀ v t, (∀ x, v ≠ .double x) → p (constant v t)
  /-- Floating constants come from floating constants only. -/
  double : ∀ x y s t, (y.isNaN = true → x.isNaN = true) →
    p (.constant (.double x) s) → p (.constant (.double y) t)

section

variable {p : Expr → Prop} (hp : LeafProperty p)

include hp

theorem hereditary_everywhere : Hereditary (Everywhere p) where
  compound {e} hq hc := by
    have here : p e := by
      cases e with
      | path => exact hp.path ..
      | component => exact hp.component ..
      | unary => exact hp.unary ..
      | binary => exact hp.binary ..
      | conditional => exact hp.conditional ..
      | tuple => exact hp.tuple ..
      | call => exact hp.call ..
      | _ => simp_all [children, query?]
    rw [everywhere_iff, parts, hq]
    simp [here]
  constant v t hv := everywhere_constant.mpr (hp.constant v t hv)
  double x y s t nan h :=
    everywhere_constant.mpr (hp.double x y s t nan (everywhere_constant.mp h))

theorem everywhere_bool (b : Bool) : (bool b).Everywhere p :=
  (hereditary_everywhere hp).decomposable.bool b

theorem everywhere_of_reduces {l : Likeness} {e e' : Expr} (hr : Reduces l e e')
    (h : e.Everywhere p) : e'.Everywhere p :=
  (hereditary_everywhere hp).foldable.of_reduces hr h

end

end Expr

end StreamQuery
