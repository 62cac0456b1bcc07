import Mathlib

/-! # Stable sorting

A stable sort is known by two things: its result is in order, and elements of
one rank stay in the order that they had. Two lists that agree in both are equal,
so a sort commutes with whatever keeps both: filters, maps, loops inside the
sorted rows, and leaving out repeated elements. Sorting by a second ranking after
the first makes the second one the more significant.
-/

namespace StreamQuery

/-- A ranking of elements, of which several may have one rank. -/
structure Ranking (α : Type) where
  le : α → α → Bool
  le_trans : ∀ a b c, le a b = true → le b c = true → le a c = true
  le_total : ∀ a b, (le a b || le b a) = true

namespace Ranking

variable {α β : Type}

def level : Ranking α where
  le _ _ := true
  le_trans _ _ _ _ _ := rfl
  le_total _ _ := rfl

def ofInt : Ranking Int where
  le i k := decide (i ≤ k)
  le_trans := by grind
  le_total := by grind

def flip (r : Ranking α) : Ranking α where
  le a b := r.le b a
  le_trans a b c hab hbc := r.le_trans c b a hbc hab
  le_total a b := r.le_total b a

def through (r : Ranking β) (f : α → β) : Ranking α where
  le a b := r.le (f a) (f b)
  le_trans a b c := r.le_trans (f a) (f b) (f c)
  le_total a b := r.le_total (f a) (f b)

theorem le_through (r : Ranking β) (f : α → β) (a b : α) :
    (r.through f).le a b = r.le (f a) (f b) := rfl

def tied (r : Ranking α) (a b : α) : Bool := r.le a b && r.le b a

/-- The first ranking decides, and the second among elements of one rank. -/
def before (r s : Ranking α) : Ranking α where
  le a b := r.le a b && (!r.le b a || s.le a b)
  le_trans a b c hab hbc := by
    simp only [Bool.and_eq_true, Bool.or_eq_true, Bool.not_eq_true'] at *
    refine ⟨r.le_trans a b c hab.1 hbc.1, ?_⟩
    cases hca : r.le c a with
    | false => exact .inl rfl
    | true =>
        have hba := r.le_trans b c a hbc.1 hca
        have hcb := r.le_trans c a b hca hab.1
        simp only [hba, hcb, Bool.true_eq_false, false_or] at hab hbc
        exact .inr (s.le_trans a b c hab.2 hbc.2)
  le_total a b := by
    have hr := r.le_total a b
    have hs := s.le_total a b
    simp only [Bool.or_eq_true, Bool.and_eq_true, Bool.not_eq_true'] at *
    cases hab : r.le a b <;> cases hba : r.le b a <;> simp_all

def sort (r : Ranking α) (l : List α) : List α := l.mergeSort r.le

variable {r s : Ranking α}

theorem le_refl (a : α) : r.le a a = true := by simpa using r.le_total a a

theorem tied_self (a : α) : r.tied a a = true := by rw [tied, le_refl, Bool.and_true]

theorem tied_iff {a b : α} : r.tied a b = true ↔ r.le a b = true ∧ r.le b a = true := by
  rw [tied, Bool.and_eq_true]

theorem mem_sort {a : α} {l : List α} : a ∈ r.sort l ↔ a ∈ l := List.mem_mergeSort

theorem pairwise_sort (l : List α) : (r.sort l).Pairwise fun a b => r.le a b = true :=
  List.pairwise_mergeSort r.le_trans r.le_total l

/-! ## Elements of one rank -/

/-- Elements of one rank stay in order. -/
theorem filter_tied_sort (x : α) (l : List α) :
    (r.sort l).filter (r.tied x) = l.filter (r.tied x) := by
  have ordered : (l.filter (r.tied x)).Pairwise fun a b => r.le a b = true := by
    refine List.pairwise_of_forall_mem_list ?_
    intro a ha b hb
    have ax := (tied_iff.mp (List.mem_filter.mp ha).2).2
    have xb := (tied_iff.mp (List.mem_filter.mp hb).2).1
    exact r.le_trans a x b ax xb
  have inside : (l.filter (r.tied x)).Sublist (r.sort l) :=
    List.sublist_mergeSort r.le_trans r.le_total ordered List.filter_sublist
  have chosen : (l.filter (r.tied x)).Sublist ((r.sort l).filter (r.tied x)) := by
    simpa using inside.filter (r.tied x)
  have perm : ((r.sort l).filter (r.tied x)).Perm (l.filter (r.tied x)) :=
    (List.mergeSort_perm l r.le).filter _
  exact (chosen.eq_of_length perm.length_eq.symm).symm

/-- Lists in order are equal if they agree on the elements of each rank. -/
theorem eq_of_filter_tied {l m : List α} (hl : l.Pairwise fun a b => r.le a b = true)
    (hm : m.Pairwise fun a b => r.le a b = true)
    (same : ∀ x, x ∈ l ∨ x ∈ m → l.filter (r.tied x) = m.filter (r.tied x)) : l = m := by
  induction l generalizing m with
  | nil =>
      cases m with
      | nil => rfl
      | cons b m =>
          have none := same b (.inr List.mem_cons_self)
          rw [List.filter_cons_of_pos (tied_self b)] at none
          cases none
  | cons a l ih =>
      have rankA := same a (.inl List.mem_cons_self)
      cases m with
      | nil =>
          rw [List.filter_cons_of_pos (tied_self a)] at rankA
          cases rankA
      | cons b m =>
          obtain ⟨leastA, restA⟩ := List.pairwise_cons.mp hl
          obtain ⟨leastB, restB⟩ := List.pairwise_cons.mp hm
          -- Each head is in the other list, so they are of one rank, and the first of it.
          have aIn : a ∈ b :: m := by
            have : a ∈ (a :: l).filter (r.tied a) := List.mem_filter.mpr ⟨by simp, tied_self a⟩
            rw [rankA] at this
            exact (List.mem_filter.mp this).1
          have bIn : b ∈ a :: l := by
            have rankB := same b (.inr List.mem_cons_self)
            have : b ∈ (b :: m).filter (r.tied b) := List.mem_filter.mpr ⟨by simp, tied_self b⟩
            rw [← rankB] at this
            exact (List.mem_filter.mp this).1
          have ab : r.le a b = true := by
            rcases List.mem_cons.mp bIn with rfl | hb
            · exact le_refl b
            · exact leastA b hb
          have ba : r.le b a = true := by
            rcases List.mem_cons.mp aIn with rfl | ha
            · exact le_refl a
            · exact leastB a ha
          rw [List.filter_cons_of_pos (tied_self a),
            List.filter_cons_of_pos (tied_iff.mpr ⟨ab, ba⟩)] at rankA
          obtain ⟨rfl, -⟩ := List.cons.inj rankA
          have rest : l = m := by
            refine ih restA restB fun x hx => ?_
            have whole := same x (hx.imp (List.mem_cons_of_mem a) (List.mem_cons_of_mem a))
            rw [List.filter_cons, List.filter_cons] at whole
            split at whole
            · exact (List.cons.inj whole).2
            · exact whole
          rw [rest]

/-- What is in order and keeps elements of one rank in order is the stable sort. -/
theorem eq_sort {l m : List α} (hm : m.Pairwise fun a b => r.le a b = true)
    (same : ∀ x, x ∈ m ∨ x ∈ l → m.filter (r.tied x) = l.filter (r.tied x)) : m = r.sort l := by
  refine eq_of_filter_tied hm (pairwise_sort l) fun x hx => ?_
  rw [filter_tied_sort]
  exact same x (hx.imp_right mem_sort.mp)

/-! ## What a stable sort commutes with -/

theorem sort_level (l : List α) : level.sort l = l :=
  List.mergeSort_of_pairwise (List.pairwise_of_forall fun _ _ => rfl)

/-- Sorting what a function makes of the elements. -/
theorem map_sort {t : Ranking β} {f : α → β} {l : List α}
    (h : ∀ a ∈ l, ∀ b ∈ l, r.le a b = t.le (f a) (f b)) :
    (r.sort l).map f = t.sort (l.map f) :=
  List.map_mergeSort h

theorem filter_sort (p : α → Bool) (l : List α) : (r.sort l).filter p = r.sort (l.filter p) := by
  refine eq_sort ((pairwise_sort l).filter p) fun x _ => ?_
  calc ((r.sort l).filter p).filter (r.tied x)
      = ((r.sort l).filter (r.tied x)).filter p := List.filter_comm ..
    _ = (l.filter (r.tied x)).filter p := by rw [filter_tied_sort]
    _ = (l.filter p).filter (r.tied x) := List.filter_comm ..

/-- Elements of one rank in the first ranking are in order by the second. -/
theorem pairwise_before {l : List α} (hr : l.Pairwise fun a b => r.le a b = true)
    (hs : ∀ x ∈ l, (l.filter (r.tied x)).Pairwise fun a b => s.le a b = true) :
    l.Pairwise fun a b => (r.before s).le a b = true := by
  induction l with
  | nil => exact .nil
  | cons a l ih =>
      obtain ⟨least, hr⟩ := List.pairwise_cons.mp hr
      refine List.pairwise_cons.mpr ⟨?_, ih hr ?_⟩
      · intro b hb
        have ab := least b hb
        cases ba : r.le b a with
        | false => simp [before, ab, ba]
        | true =>
            have rank := hs a List.mem_cons_self
            rw [List.filter_cons_of_pos (tied_self a)] at rank
            have inRank : b ∈ l.filter (r.tied a) :=
              List.mem_filter.mpr ⟨hb, tied_iff.mpr ⟨ab, ba⟩⟩
            simp [before, ab, (List.pairwise_cons.mp rank).1 b inRank]
      · intro x hx
        exact (hs x (List.mem_cons_of_mem a hx)).sublist ((List.sublist_cons_self a l).filter _)

theorem tied_before (a b : α) : (r.before s).tied a b = (r.tied a b && s.tied a b) := by
  simp only [tied, before]
  cases r.le a b <;> cases r.le b a <;> simp

/-- The later sort is the more significant one. -/
theorem sort_sort (l : List α) : r.sort (s.sort l) = (r.before s).sort l := by
  refine eq_sort (pairwise_before (pairwise_sort _) fun x _ => ?_) fun x _ => ?_
  · rw [filter_tied_sort]
    exact (pairwise_sort l).filter _
  · have split (m : List α) : m.filter ((r.before s).tied x) =
        (m.filter (s.tied x)).filter (r.tied x) := by
      rw [List.filter_filter]
      exact List.filter_congr fun a _ => tied_before x a
    calc (r.sort (s.sort l)).filter ((r.before s).tied x)
        = ((r.sort (s.sort l)).filter (s.tied x)).filter (r.tied x) := split _
      _ = ((r.sort (s.sort l)).filter (r.tied x)).filter (s.tied x) := List.filter_comm ..
      _ = ((s.sort l).filter (r.tied x)).filter (s.tied x) := by rw [filter_tied_sort]
      _ = ((s.sort l).filter (s.tied x)).filter (r.tied x) := List.filter_comm ..
      _ = (l.filter (s.tied x)).filter (r.tied x) := by rw [filter_tied_sort]
      _ = l.filter ((r.before s).tied x) := (split l).symm

/-- A loop inside sorted rows gives rows that are sorted as their outer rows are. -/
theorem flatMap_sort {t : Ranking β} {f : α → List β} {l : List α}
    (h : ∀ a ∈ l, ∀ b ∈ l, ∀ x ∈ f a, ∀ y ∈ f b, t.le x y = r.le a b) :
    (r.sort l).flatMap f = t.sort (l.flatMap f) := by
  refine eq_sort ?_ ?_
  · rw [List.pairwise_flatMap]
    constructor
    · intro a ha
      have ha := mem_sort.mp ha
      exact List.pairwise_of_forall_mem_list fun x hx y hy => by
        rw [h a ha a ha x hx y hy, le_refl]
    · refine (pairwise_sort l).imp_of_mem ?_
      intro a b ha hb hab x hx y hy
      rw [h a (mem_sort.mp ha) b (mem_sort.mp hb) x hx y hy, hab]
  · intro x hx
    obtain ⟨a, ha, hx⟩ : ∃ a ∈ l, x ∈ f a := by
      rcases hx with hx | hx
      · obtain ⟨a, ha, hx⟩ := List.mem_flatMap.mp hx
        exact ⟨a, mem_sort.mp ha, hx⟩
      · exact List.mem_flatMap.mp hx
    -- Inner rows are of the rank of `x` if their outer rows are of the rank of `a`.
    have rank (m : List α) (hm : ∀ b ∈ m, b ∈ l) :
        (m.flatMap f).filter (t.tied x) = (m.filter (r.tied a)).flatMap f := by
      induction m with
      | nil => rfl
      | cons b m ih =>
          have hb := hm b List.mem_cons_self
          have rest := ih fun c hc => hm c (List.mem_cons_of_mem b hc)
          have inner : ∀ y ∈ f b, t.tied x y = r.tied a b := by
            intro y hy
            rw [tied, tied, h a ha b hb x hx y hy, h b hb a ha y hy x hx]
          rw [List.flatMap_cons, List.filter_append, rest, List.filter_congr inner,
            List.filter_cons]
          cases r.tied a b <;> simp
    rw [rank _ fun b hb => mem_sort.mp hb, filter_tied_sort, rank l fun b hb => hb]

end Ranking

/-! ## Leaving out repeated elements -/

section

variable {α : Type} [BEq α]

/-- Induction along the leaving out of repeated elements. -/
@[elab_as_elim]
theorem eraseDupsInduction {motive : List α → Prop} (nil : motive [])
    (cons : ∀ a l, motive (l.filter fun b => !b == a) → motive (a :: l)) (l : List α) :
    motive l := by
  induction hn : l.length using Nat.strongRecOn generalizing l with
  | ind n ih =>
      cases l with
      | nil => exact nil
      | cons a l =>
          have shorter := List.length_filter_le (fun b => !b == a) l
          rw [List.length_cons] at hn
          exact cons a l (ih _ (by omega) _ rfl)

theorem eraseDups_sublist (l : List α) : l.eraseDups.Sublist l := by
  induction l using eraseDupsInduction with
  | nil => exact .slnil
  | cons a l ih =>
      rw [List.eraseDups_cons]
      exact (ih.trans List.filter_sublist).cons_cons a

variable [LawfulBEq α]

theorem filter_eraseDups (p : α → Bool) (l : List α) :
    l.eraseDups.filter p = (l.filter p).eraseDups := by
  induction l using eraseDupsInduction with
  | nil => rfl
  | cons a l ih =>
      rw [List.eraseDups_cons, List.filter_cons, List.filter_cons, ih, List.filter_comm]
      split
      · rw [List.eraseDups_cons]
      · next hp =>
          have same : (l.filter p).filter (fun b => !b == a) = l.filter p := by
            refine List.filter_eq_self.mpr fun b hb => ?_
            have hb := (List.mem_filter.mp hb).2
            have : b ≠ a := by
              rintro rfl
              exact hp hb
            simpa using this
          rw [same]

theorem eraseDups_eraseDups (l : List α) : l.eraseDups.eraseDups = l.eraseDups := by
  induction l using eraseDupsInduction with
  | nil => rfl
  | cons a l ih =>
      rw [List.eraseDups_cons, List.eraseDups_cons, filter_eraseDups, List.filter_filter]
      simp only [Bool.and_self]
      rw [ih]

/-- Repeated elements are of one rank, so the first of them stays the first. -/
theorem Ranking.eraseDups_sort {r : Ranking α} (l : List α) :
    (r.sort l).eraseDups = r.sort l.eraseDups := by
  refine eq_sort ((pairwise_sort l).sublist (eraseDups_sublist _)) fun x _ => ?_
  rw [filter_eraseDups, filter_tied_sort, filter_eraseDups]

end

end StreamQuery
