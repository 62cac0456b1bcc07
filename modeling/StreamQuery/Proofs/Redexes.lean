import StreamQuery.Proofs.Arithmetic
import StreamQuery.Proofs.NormalForm

/-! # Redexes

What an expression in normal form is free of, said of single nodes and without the rules: a
negation that could be driven inward, a connective or a choice that a constant decides, a
choice between truth values or between equal arms, constants that could be computed, and a
component that could be read off a tuple. One pass from the leaves up leaves none of them,
also in what the rules themselves build, and it leaves a tree that has none of them.
-/

namespace StreamQuery.Expr

/-- A node that could be written more simply as it stands. -/
inductive Redex : Expr → Prop where
  | notBool (b : Bool) (s t : ValueType) : Redex (unary .not (constant (.bool b) s) t)
  | notNot (operand : Expr) (s t : ValueType) : Redex (unary .not (unary .not operand s) t)
  | notCompare (op : CompareOp) (left right : Expr) (s t : ValueType) :
      Redex (unary .not (binary (.compare op) left right s) t)
  | notAnd (left right : Expr) (s t : ValueType) : Redex (unary .not (binary .and left right s) t)
  | notOr (left right : Expr) (s t : ValueType) : Redex (unary .not (binary .or left right s) t)
  | andLeft (b : Bool) (right : Expr) (s t : ValueType) :
      Redex (binary .and (constant (.bool b) s) right t)
  | andRight (b : Bool) (left : Expr) (s t : ValueType) :
      Redex (binary .and left (constant (.bool b) s) t)
  | orLeft (b : Bool) (right : Expr) (s t : ValueType) :
      Redex (binary .or (constant (.bool b) s) right t)
  | orRight (b : Bool) (left : Expr) (s t : ValueType) :
      Redex (binary .or left (constant (.bool b) s) t)
  | boolChoice (test yes no : Expr) : Redex (conditional test yes no .bool)
  | decided (b : Bool) (yes no : Expr) (s t : ValueType) :
      Redex (conditional (constant (.bool b) s) yes no t)
  | equalArms {yes no : Expr} (test : Expr) (t : ValueType) (h : yes.same no = true) :
      Redex (conditional test yes no t)
  | ordered {v w : Value} (op : CompareOp) (s s' t : ValueType)
      (h : (Value.order? v w).isSome = true) :
      Redex (binary (.compare op) (constant v s) (constant w s') t)
  | computed {op : ArithOp} {v w : Value} (s s' t : ValueType) (h : Value.Computes op v w) :
      Redex (binary (.arith op) (constant v s) (constant w s') t)
  | opposite {v : Value} (s t : ValueType) (h : v.HasOpposite) :
      Redex (unary .neg (constant v s) t)
  | joined (a b : String) (s s' t : ValueType) :
      Redex (binary .concat (constant (.text a) s) (constant (.text b) s') t)
  | picked {items : List Expr} {index : Nat} (s t : ValueType) (h : index < items.length) :
      Redex (component (tuple items s) index t)

/-! ## Redexes and rules -/

/-- A rule applies to a redex, and not as one that only builds the negation of an atom anew. -/
theorem Redex.reducible {e : Expr} (h : Redex e) : (reduce? .usual e).isSome = true ∧
    ∀ atom t, e = unary .not atom t → atom.isAtom = false := by
  cases h with
  | notBool | notNot | notCompare | notAnd | notOr =>
      refine ⟨rfl, ?_⟩
      rintro atom t ⟨⟩
      rfl
  | andLeft b right | andRight b left =>
      refine ⟨?_, by simp⟩
      rw [Option.isSome_iff_ne_none]
      simp [reduce?, conj?_eq_none_iff, asBool, asConstant, Value.asBool]
  | orLeft b right | orRight b left =>
      refine ⟨?_, by simp⟩
      rw [Option.isSome_iff_ne_none]
      simp [reduce?, disj?_eq_none_iff, asBool, asConstant, Value.asBool]
  | boolChoice | decided =>
      refine ⟨?_, by simp⟩
      rw [Option.isSome_iff_ne_none]
      simp [reduce?, choice?_eq_none_iff, asBool, asConstant, Value.asBool]
  | equalArms test t same =>
      refine ⟨?_, by simp⟩
      rw [Option.isSome_iff_ne_none, reduce?, ne_eq, choice?_eq_none_iff]
      exact fun undecided => undecided.2.1 same
  | ordered op s s' t known =>
      obtain ⟨order, known⟩ := Option.isSome_iff_exists.mp known
      exact ⟨by simp [reduce?, compare?, asConstant, known], by simp⟩
  | computed s s' t known =>
      obtain ⟨value, known⟩ := Option.isSome_iff_exists.mp (Value.isSome_arith?_iff.mpr known)
      exact ⟨by simp [reduce?, arith?, asConstant, known], by simp⟩
  | opposite s t known =>
      obtain ⟨value, known⟩ := Option.isSome_iff_exists.mp (Value.isSome_neg?_iff.mpr known)
      exact ⟨by simp [reduce?, asConstant, known], by simp⟩
  | joined => exact ⟨rfl, by simp⟩
  | picked s t inside => exact ⟨by simpa [reduce?, component?] using inside, by simp⟩

/-- Where a rule applies there is a redex, or the negation of an atom. -/
theorem redex_of_reduce? {e e' : Expr} (h : reduce? .usual e = some e') :
    Redex e ∨ ∃ atom t, e = unary .not atom t ∧ atom.isAtom = true := by
  cases reduces_of_reduce? h with
  | complement operand t =>
      cases isAtom : operand.isAtom with
      | true => exact .inr ⟨operand, t, rfl, isAtom⟩
      | false =>
          unfold Expr.isAtom at isAtom
          split at isAtom
          · exact .inl (.notBool ..)
          · exact .inl (.notNot ..)
          · exact .inl (.notCompare ..)
          · exact .inl (.notAnd ..)
          · exact .inl (.notOr ..)
          · cases isAtom
  | neg s t known => exact .inl (.opposite s t (Value.isSome_neg?_iff.mp (by simp [known])))
  | @conj left right _ t folded =>
      have constant : left.asBool ≠ none ∨ right.asBool ≠ none := by
        rw [← not_and_or, ← conj?_eq_none_iff, folded]
        simp
      rcases constant with constant | constant <;>
        obtain ⟨b, known⟩ := Option.ne_none_iff_exists'.mp constant <;>
        obtain ⟨s, rfl⟩ := eq_constant_of_asBool known
      · exact .inl (.andLeft b right s t)
      · exact .inl (.andRight b left s t)
  | @disj left right _ t folded =>
      have constant : left.asBool ≠ none ∨ right.asBool ≠ none := by
        rw [← not_and_or, ← disj?_eq_none_iff, folded]
        simp
      rcases constant with constant | constant <;>
        obtain ⟨b, known⟩ := Option.ne_none_iff_exists'.mp constant <;>
        obtain ⟨s, rfl⟩ := eq_constant_of_asBool known
      · exact .inl (.orLeft b right s t)
      · exact .inl (.orRight b left s t)
  | compare s s' t known => exact .inl (.ordered _ s s' t (by simp [known]))
  | arith s s' t known =>
      exact .inl (.computed s s' t (Value.isSome_arith?_iff.mp (by simp [known])))
  | concat a b s s' t => exact .inl (.joined a b s s' t)
  | taken t known | passed t known =>
      obtain ⟨s, rfl⟩ := eq_constant_of_asBool known
      exact .inl (.decided ..)
  | alike t same => exact .inl (.equalArms _ t same)
  | guarded test yes no => exact .inl (.boolChoice test yes no)
  | component s t found =>
      exact .inl (.picked s t (List.getElem?_eq_some_iff.mp found).1)

/-! ## Nodes of a tree -/

theorem nodesOf_eq (es : List Expr) : nodesOf es = es.flatMap nodes := by
  induction es with
  | nil => rfl
  | cons e es ih => rw [nodesOf, ih, List.flatMap_cons]

theorem nodes_eq (e : Expr) : e.nodes = e :: e.children.flatMap nodes := by
  cases e with
  | aggregate fn arg query t => cases arg <;> simp [nodes, nodesOption, children]
  | _ => simp [nodes, children, nodesOf_eq]

/-- What holds of all nodes of a tree holds of its root, and of all nodes of its children. -/
theorem forall_nodes_iff {p : Expr → Prop} {e : Expr} :
    (∀ node ∈ e.nodes, p node) ↔ p e ∧ ∀ c ∈ e.children, ∀ node ∈ c.nodes, p node := by
  rw [nodes_eq, List.forall_mem_cons]
  simp only [List.mem_flatMap, forall_exists_index, and_imp]
  exact and_congr_right fun _ =>
    ⟨fun h c hc node hn => h node c hc hn, fun h node c hc => h c hc node⟩

/-! ## Normal form -/

theorem Normal.not_redex {e : Expr} (h : Normal .usual false e) : ¬ Redex e := by
  obtain ⟨-, settled, -⟩ := h
  intro redex
  obtain ⟨applies, noAtom⟩ := redex.reducible
  rcases settled with none | ⟨atom, rfl, isAtom⟩
  · simp [none] at applies
  · simp [noAtom atom .bool rfl] at isAtom

theorem Normal.no_redexes {e : Expr} (h : Normal .usual false e) :
    ∀ node ∈ e.nodes, ¬ Redex node := by
  induction e using partsInduction false with
  | node e ih =>
      rw [forall_nodes_iff]
      exact ⟨h.not_redex, fun c hc =>
        ih c (List.mem_append_left _ hc) (h.child hc)⟩

/-- The types of negations and tuples are those that their parts give them. -/
def HasBuiltType : Expr → Prop
  | unary .not _ t => t = .bool
  | tuple items t => t = .tuple (items.map type)
  | _ => True

theorem normal_of_no_redexes {e : Expr} (h : ∀ node ∈ e.nodes, ¬ Redex node ∧ node.HasBuiltType) :
    Normal .usual false e := by
  induction e using partsInduction false with
  | node e ih =>
      obtain ⟨⟨noRedex, typed⟩, below⟩ := forall_nodes_iff.mp h
      have isChild : ∀ c ∈ e.parts false, c ∈ e.children := by simp [parts]
      refine ⟨fun c hc => ih c hc (below c (isChild c hc)), ?_, fun restless => ?_⟩
      · cases reduced : reduce? .usual e with
        | none => exact .inl rfl
        | some e' =>
            rcases redex_of_reduce? reduced with redex | ⟨atom, t, rfl, isAtom⟩
            · exact absurd redex noRedex
            · obtain rfl : t = .bool := typed
              exact .inr ⟨atom, rfl, isAtom⟩
      · cases e with
        | tuple items t => exact typed
        | subQuery query t =>
            obtain ⟨c, hc, -⟩ := restless
            cases isChild c hc
        | _ => rfl

/-- The normal form of any expression has no redex, and an expression without one is its own
normal form, provided that its negations and tuples have the types of their parts. -/
theorem simplify_redex_free (e : Expr) : (∀ node ∈ e.simplify.nodes, ¬ Redex node) ∧
    ((∀ node ∈ e.nodes, ¬ Redex node ∧ node.HasBuiltType) → e.simplify = e) :=
  ⟨(normal_result e).no_redexes, fun h => (normal_of_no_redexes h).result_eq.1⟩

/-- A negation is driven inward to an atom and to a comparison, and stays there. -/
theorem simplify_redex_free_overdrawn :
    let account := row 0 (.entity "Account")
    let isOpen := path account ⟨"Account", "open", .bool⟩ .bool
    let balance := path account ⟨"Account", "balance", .int⟩ .int
    let zero := constant (.int 0) .int
    let e := unary .not (binary .and isOpen (binary (.compare .lt) balance zero .bool) .bool) .bool
    let driven :=
      binary .or (unary .not isOpen .bool) (binary (.compare .ge) balance zero .bool) .bool
    e.simplify = driven ∧ (∀ node ∈ driven.nodes, ¬ Redex node) ∧ driven.simplify = driven := by
  intro account isOpen balance zero e driven
  have drives : e.simplify = driven := by decide +kernel
  have noRedex : ∀ node ∈ driven.nodes, ¬ Redex node := drives ▸ (simplify_redex_free e).1
  have typed : ∀ node ∈ driven.nodes, node.HasBuiltType := by
    simp [driven, isOpen, balance, account, zero, nodes, HasBuiltType]
  exact ⟨drives, noRedex, (simplify_redex_free driven).2 fun node h =>
    ⟨noRedex node h, typed node h⟩⟩

end StreamQuery.Expr
