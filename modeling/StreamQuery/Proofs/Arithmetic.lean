import Mathlib
import StreamQuery.Value.Arithmetic

/-! # Exactness of folded constants

What arithmetic and comparisons mean for whole numbers and for members of an
order, said without words, and that constants are folded to exactly that.
-/

namespace StreamQuery

/-- How a comparison relates two members of an order. -/
def CompareOp.Relates {α : Type} [LT α] [LE α] (op : CompareOp) (a b : α) : Prop :=
  match op with
  | eq => a = b
  | ne => a ≠ b
  | lt => a < b
  | le => a ≤ b
  | gt => b < a
  | ge => b ≤ a

theorem CompareOp.holds_compare_iff {α : Type} [LinearOrder α] (op : CompareOp) (a b : α) :
    op.holds (compare a b) = true ↔ op.Relates a b := by
  rcases lt_trichotomy a b with h | h | h
  · have hc : compare a b = .lt := compare_lt_iff_lt.mpr h
    cases op <;> simp [holds, hc, Relates, h, h.ne, h.le, h.not_ge, h.not_gt]
  · subst h
    cases op <;> simp [holds, Relates]
  · have hc : compare a b = .gt := compare_gt_iff_gt.mpr h
    cases op <;> simp [holds, hc, Relates, h, h.ne', h.le, h.not_ge, h.not_gt]

/-- What arithmetic gives on whole numbers, where it gives a result at all. A
quotient is cut toward zero. There is none by zero, and no remainder where the
quotient of two words is no word. -/
def ArithOp.Gives (op : ArithOp) (a b c : Int) : Prop :=
  match op with
  | add => c = a + b
  | sub => c = a - b
  | mul => c = a * b
  | div => b ≠ 0 ∧ c = a.tdiv b
  | rem => b ≠ 0 ∧ ¬(a = -(2 ^ 63) ∧ b = -1) ∧ c = a.tmod b

namespace Value

/-- The words are the whole numbers of 63 bits with a sign. -/
theorem word?_eq_ite (i : Int) :
    word? i = if -(2 ^ 63) ≤ i ∧ i < 2 ^ 63 then some (Int64.ofInt i) else none := by
  have greatest : i ≤ Int64.maxValue.toInt ↔ i < 2 ^ 63 := by
    rw [Int64.toInt_maxValue]
    exact Int.le_sub_one_iff
  exact if_congr (and_congr_right' greatest) rfl rfl

theorem word?_eq_some_iff {i : Int} {k : Int64} : word? i = some k ↔ k.toInt = i := by
  constructor
  · intro h
    rw [word?_eq_ite] at h
    split at h
    next range => cases h; exact Int64.toInt_ofInt_of_le range.1 range.2
    next => cases h
  · rintro rfl
    rw [word?_eq_ite, if_pos ⟨Int64.le_toInt k, Int64.toInt_lt k⟩, Int64.ofInt_toInt]

/-- All quotients of words are words, but for the least word by `-1`. -/
theorem word?_tdiv {l r : Int64} (range : ¬(l.toInt = -(2 ^ 63) ∧ r.toInt = -1)) :
    word? (l.toInt.tdiv r.toInt) = some (Int64.ofInt (l.toInt.tdiv r.toInt)) := by
  have lo := Int64.le_toInt l
  have hi := Int64.toInt_lt l
  rw [word?_eq_ite, if_pos]
  by_cases zero : r.toInt = 0
  · simp [zero]
  by_cases one : r.toInt = 1
  · rw [one, Int.tdiv_one]
    exact ⟨lo, hi⟩
  by_cases minusOne : r.toInt = -1
  · rw [minusOne, Int.tdiv_neg, Int.tdiv_one]
    omega
  -- Any other divisor at least halves the dividend.
  have halved : (l.toInt.tdiv r.toInt).natAbs ≤ l.toInt.natAbs / 2 := by
    rw [Int.natAbs_tdiv]
    exact Nat.div_le_div_left (by omega) (by omega)
  omega

/-- Arithmetic of words has a result exactly if that of whole numbers has one
that is a word. -/
theorem arithWords?_eq_some_iff {op : ArithOp} {l r k : Int64} :
    arithWords? op l r = some k ↔ op.Gives l.toInt r.toInt k.toInt := by
  cases op with
  | add => exact word?_eq_some_iff
  | sub => exact word?_eq_some_iff
  | mul => exact word?_eq_some_iff
  | div => simp [arithWords?, ArithOp.Gives, word?_eq_some_iff]
  | rem =>
      by_cases range : l.toInt = -(2 ^ 63) ∧ r.toInt = -1
      · simp [arithWords?, ArithOp.Gives, range, word?_eq_ite]
      · simp only [arithWords?, ArithOp.Gives, word?_tdiv range, Option.bind_some, range,
          not_false_eq_true, true_and]
        by_cases zero : r.toInt = 0
        · simp [zero]
        · simp [zero, word?_eq_some_iff]

/-- When two constants have a result: of two words the one of whole numbers must be a
word, and of numbers that are not both words the rounded one must be finite. -/
inductive Computes (op : ArithOp) : Value → Value → Prop where
  | words {l r : Int64} {k : Int} (gives : op.Gives l.toInt r.toInt k) (least : -(2 ^ 63) ≤ k)
      (greatest : k < 2 ^ 63) : Computes op (int l) (int r)
  | wordDouble {l : Int64} {r : Double}
      (finite : (op.onDoubles (wordToDouble l) r).isFinite = true) :
      Computes op (int l) (double r)
  | doubleWord {l : Double} {r : Int64}
      (finite : (op.onDoubles l (wordToDouble r)).isFinite = true) :
      Computes op (double l) (int r)
  | doubles {l r : Double} (finite : (op.onDoubles l r).isFinite = true) :
      Computes op (double l) (double r)

theorem isSome_arithWords?_iff {op : ArithOp} {l r : Int64} :
    (arithWords? op l r).isSome = true ↔
      ∃ k : Int, op.Gives l.toInt r.toInt k ∧ -(2 ^ 63) ≤ k ∧ k < 2 ^ 63 := by
  rw [Option.isSome_iff_exists]
  constructor
  · intro ⟨k, result⟩
    exact ⟨k.toInt, arithWords?_eq_some_iff.mp result, Int64.le_toInt k, Int64.toInt_lt k⟩
  · intro ⟨k, gives, least, greatest⟩
    refine ⟨Int64.ofInt k, arithWords?_eq_some_iff.mpr ?_⟩
    rwa [Int64.toInt_ofInt_of_le least greatest]

@[simp] theorem isSome_arithDoubles? (op : ArithOp) (l r : Double) :
    (arithDoubles? op l r).isSome = (op.onDoubles l r).isFinite := by
  cases finite : (op.onDoubles l r).isFinite <;> simp [arithDoubles?, finite]

theorem isSome_arith?_iff {op : ArithOp} {v w : Value} :
    (arith? op v w).isSome = true ↔ Computes op v w := by
  constructor
  · intro known
    cases v <;> cases w
    case int.int l r =>
      rw [arith?, Option.isSome_map, isSome_arithWords?_iff] at known
      obtain ⟨k, gives, least, greatest⟩ := known
      exact .words gives least greatest
    case int.double => exact .wordDouble (by simpa [arith?] using known)
    case double.int => exact .doubleWord (by simpa [arith?] using known)
    case double.double => exact .doubles (by simpa [arith?] using known)
    all_goals cases known
  · intro computes
    cases computes with
    | words gives least greatest =>
        rw [arith?, Option.isSome_map, isSome_arithWords?_iff]
        exact ⟨_, gives, least, greatest⟩
    | wordDouble finite | doubleWord finite | doubles finite => simpa [arith?] using finite

/-- All numbers have an opposite but the least word. -/
def HasOpposite : Value → Prop
  | int i => i.toInt ≠ -(2 ^ 63)
  | double _ => True
  | _ => False

theorem isSome_neg?_iff {v : Value} : (neg? v).isSome = true ↔ v.HasOpposite := by
  cases v with
  | int i =>
      have least := Int64.le_toInt i
      have greatest := Int64.toInt_lt i
      simp only [neg?, Option.isSome_map, word?_eq_ite, Option.isSome_ite, HasOpposite]
      omega
  | _ => simp [neg?, HasOpposite]

end Value

end StreamQuery
