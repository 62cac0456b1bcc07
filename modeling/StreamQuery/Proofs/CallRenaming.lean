import StreamQuery.Proofs.CompileRun
import StreamQuery.Proofs.Renaming

/-! # Relabelled operands

Operators of the stack machine and calls on values look at the types and the constants of
their operands, which a relabelling leaves. So they give the same for relabelled operands,
relabelled.
-/

namespace StreamQuery

variable {r : Relabel}

namespace Compile

open StreamQuery.Expr

/-! ## Operators -/

theorem arith_relabel (op : ArithOp) (left right : Expr) :
    arith op (left.relabel r) (right.relabel r) = (arith op left right).map (relabel r) := by
  rw [arith, arith, type_relabel, type_relabel]
  split
  · rw [Except.map, relabel_apply]
  · rfl

theorem negation_relabel (e : Expr) : negation (e.relabel r) = (negation e).map (relabel r) := by
  rw [negation, negation, type_relabel]
  split
  · rw [Except.map, relabel_neg]
  · rfl

theorem comparison_relabel (op : CompareOp) (left right : Expr) :
    comparison op (left.relabel r) (right.relabel r) =
      (comparison op left right).map (relabel r) := by
  rw [comparison, comparison, type_relabel, type_relabel]
  split
  · rw [Except.map, Expr.compare, Expr.compare, relabel_apply]
  · rfl

theorem convert_relabel (e : Expr) (t : ValueType) :
    convert (e.relabel r) t = (convert e t).map (relabel r) := by
  rw [convert, convert, type_relabel]
  split
  · rw [Except.map, relabel_withType]
  · rfl

theorem zeroTest_relabel (op : CompareOp) (e : Expr) :
    zeroTest op (e.relabel r) = (zeroTest op e).map (relabel r) := by
  simp only [zeroTest, type_relabel]
  split
  · rfl
  · rfl
  · split
    · rw [Except.map, Expr.compare, Expr.compare, relabel_apply]
      rfl
    · rfl

theorem coerceReturn_relabel (returns : ValueType) (e : Expr) :
    coerceReturn returns (e.relabel r) = (coerceReturn returns e).map (relabel r) := by
  simp only [coerceReturn, type_relabel, asConstant_relabel]
  split
  · rfl
  split
  · rfl
  split
  · rfl
  split
  · rw [Except.map, Expr.compare, Expr.compare, relabel_apply]
    rfl
  split
  · rw [Except.map, relabel_withType]
  · rfl

theorem tupleComponent_relabel (e : Expr) (index : Nat) :
    tupleComponent (e.relabel r) index = (tupleComponent e index).map (relabel r) := by
  rw [tupleComponent, tupleComponent, type_relabel, ← relabel_pick]
  split
  · split <;> rfl
  · rfl

theorem like_relabel (method : String) (text searched : Expr) :
    like method (text.relabel r) (searched.relabel r) =
      (like method text searched).map (relabel r) := by
  rw [like, like, asText_relabel]
  split
  · rfl
  · split
    · rfl
    · rw [Except.map, relabel_apply]
      rfl

theorem concatenation_relabel (left right : Expr) :
    concatenation (left.relabel r) (right.relabel r) =
      (concatenation left right).map (relabel r) := by
  rw [concatenation, concatenation, type_relabel]
  split
  · rw [Except.map, relabel_apply]
  · rfl

/-! ## Calls -/

def Called.relabel (r : Relabel) : Called → Called
  | .value e => .value (e.relabel r)
  | .rows entity => .rows entity

theorem called_relabel {result result' : Except Obstacle Expr} {c : Called}
    (same : result' = result.map (Expr.relabel r)) (h : result.map .value = .ok c) :
    result'.map .value = .ok (c.relabel r) := by
  obtain ⟨e, rfl, rfl⟩ := map_eq_ok.mp h
  rw [same]
  rfl

theorem entityCall_relabel {schema : Schema} {method : Method} {values : List Expr} {e : Expr}
    (h : entityCall schema method values = .ok e) :
    entityCall schema method (values.map (Expr.relabel r)) = .ok (e.relabel r) := by
  unfold entityCall at h
  split at h
  · next equals =>
      have compared := mapError_eq_ok.mp h
      simp only [entityCall, equals, List.map, mapError_eq_ok, comparison_relabel, compared,
        Except.map]
  · next receiver =>
      simp only [entityCall, List.map]
      split at h <;> cases h
      rfl
  · cases h

theorem libraryCall_relabel {schema : Schema} {method : Method} {values : List Expr} {c : Called}
    (h : libraryCall schema method values = .ok c) :
    libraryCall schema method (values.map (Expr.relabel r)) = .ok (c.relabel r) := by
  unfold libraryCall at h
  split at h
  case h_13 => cases h
  all_goals simp only [libraryCall, List.map, *]
  case h_1 =>
    obtain ⟨entity, found, rfl⟩ := map_eq_ok.mp h
    refine map_eq_ok.mpr ⟨entity, ?_, rfl⟩
    rwa [entityRows, type_relabel, asText_relabel]
  case h_2 => exact called_relabel (concatenation_relabel ..) h
  case h_7 | h_8 | h_9 => exact called_relabel (like_relabel ..) h
  case h_10 | h_11 =>
    rw [type_relabel]
    split at h <;> cases h
    rw [if_pos ‹_›, ← relabel_invoke]
    rfl
  case h_12 =>
    split at h
    · rw [if_pos ‹_›]
      exact called_relabel (comparison_relabel ..) h
    · cases h
  all_goals
    cases h
    rw [← relabel_invoke]
    rfl

theorem valueCall_other {schema : Schema} {method : Method} {values : List Expr}
    (getter : tupleGetter? method = none)
    (unboxed : ∀ (t : ValueType) (e : Expr), boxing? method = some t → values ≠ [e]) :
    valueCall schema method values =
      if !method.isStatic && schema.isEntity method.owner then
        (entityCall schema method values).map .value
      else (libraryCall schema method values).mapError .obstacle := by
  unfold valueCall
  split
  · next found => exact absurd (getter.symm.trans found) (by simp)
  · next found _ => exact absurd (getter.symm.trans found) (by simp)
  · next boxing => exact absurd rfl (unboxed _ _ boxing)
  · rfl

theorem valueCall_relabel {schema : Schema} {method : Method} {values : List Expr} {c : Called}
    (h : valueCall schema method values = .ok c) :
    valueCall schema method (values.map (Expr.relabel r)) = .ok (c.relabel r) := by
  unfold valueCall at h
  split at h
  · next getter =>
      simp only [valueCall, getter, List.map, mapError_eq_ok] at h ⊢
      exact called_relabel (tupleComponent_relabel ..) h
  · cases h
  · next getter boxing =>
      simp only [valueCall, getter, boxing, List.map, mapError_eq_ok] at h ⊢
      exact called_relabel (convert_relabel ..) h
  · next getter unboxed =>
      rw [valueCall_other getter fun t e boxing same => ?_]
      · split at h
        · obtain ⟨e, called, rfl⟩ := map_eq_ok.mp h
          rw [if_pos ‹_›, entityCall_relabel called]
          rfl
        · rw [if_neg ‹_›, libraryCall_relabel (mapError_eq_ok.mp h)]
          rfl
      · obtain ⟨e, single, -⟩ := List.map_eq_singleton_iff.mp same
        exact unboxed t e boxing single

end Compile

end StreamQuery
