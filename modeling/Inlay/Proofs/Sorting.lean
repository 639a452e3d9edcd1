import Mathlib.Data.List.Basic

/-!
Sorting by a number keeps the order of members with the same number. A list
that is sorted and that keeps this order is the sorted list.
-/

namespace Inlay.Sorting

variable {α : Type} (key : α → Nat)

theorem key_trans (a b c : α) (hab : decide (key a ≤ key b) = true)
    (hbc : decide (key b ≤ key c) = true) : decide (key a ≤ key c) = true := by
  simp only [decide_eq_true_eq] at hab hbc ⊢
  omega

theorem key_total (a b : α) : (decide (key a ≤ key b) || decide (key b ≤ key a)) = true := by
  simp only [Bool.or_eq_true, decide_eq_true_eq]
  omega

/-- Members that stand in order already are not moved against each other. -/
theorem filter_mergeSort {p : α → Bool} {l : List α}
    (hp : (l.filter p).Pairwise fun a b => key a ≤ key b) :
    (l.mergeSort fun a b => key a ≤ key b).filter p = l.filter p := by
  have hsub : (l.filter p).Sublist (l.mergeSort fun a b => key a ≤ key b) :=
    List.sublist_mergeSort (key_trans key) (key_total key) (by simpa using hp) List.filter_sublist
  have hlength : ((l.mergeSort fun a b => key a ≤ key b).filter p).length = (l.filter p).length :=
    ((List.mergeSort_perm l _).filter p).length_eq
  have hfilter := hsub.filter p
  simp only [List.filter_filter, Bool.and_self] at hfilter
  exact (hfilter.eq_of_length hlength.symm).symm

/-- What holds between members of rising numbers, and in the order of the list
between those of one number, holds along the sorted list. -/
theorem pairwise_mergeSort {R : α → α → Prop} {l : List α}
    (hlt : ∀ a ∈ l, ∀ b ∈ l, key a < key b → R a b)
    (heq : l.Pairwise fun a b => key a = key b → R a b) :
    (l.mergeSort fun a b => key a ≤ key b).Pairwise R := by
  have hsorted := List.pairwise_mergeSort (key_trans key) (key_total key) l
  rw [List.pairwise_iff_forall_sublist] at hsorted heq ⊢
  intro a b hab
  have hmem : ∀ x ∈ [a, b], x ∈ l := fun x hx => List.mem_mergeSort.mp (hab.subset hx)
  have hle : key a ≤ key b := by simpa using hsorted hab
  rcases Nat.lt_or_eq_of_le hle with hkey | hkey
  · exact hlt a (hmem a (by simp)) b (hmem b (by simp)) hkey
  · -- members of one number stand in the list as they do in the sorted one
    have hsame : (l.filter (key · = key a)).Pairwise fun x y => key x ≤ key y := by
      refine List.pairwise_of_forall_mem_list fun x hx y hy => ?_
      simp only [List.mem_filter, decide_eq_true_eq] at hx hy
      omega
    have hpair := hab.filter (key · = key a)
    rw [filter_mergeSort key hsame, List.filter_cons_of_pos (by simp),
      List.filter_cons_of_pos (by simp [hkey]), List.filter_nil] at hpair
    exact heq (hpair.trans List.filter_sublist) hkey

/-- Two sorted lists are the same if they have the same members of each number,
in the same order. -/
theorem eq_of_filter_eq {a b : List α} (ha : a.Pairwise fun x y => key x ≤ key y)
    (hb : b.Pairwise fun x y => key x ≤ key y)
    (h : ∀ n, a.filter (key · = n) = b.filter (key · = n)) : a = b := by
  have hmem : ∀ x, x ∈ a ↔ x ∈ b := by
    intro x
    have hx := congrArg (x ∈ ·) (h (key x))
    simpa using hx
  induction a generalizing b with
  | nil =>
      cases b with
      | nil => rfl
      | cons y b => simpa using hmem y
  | cons x a ih =>
      cases b with
      | nil => simpa using hmem x
      | cons y b =>
          rw [List.pairwise_cons] at ha hb
          -- each head is among the least of the other list
          have hxy : key x ≤ key y := by
            rcases List.mem_cons.mp ((hmem y).mpr List.mem_cons_self) with rfl | hy
            · exact Nat.le_refl _
            · exact ha.1 y hy
          have hyx : key y ≤ key x := by
            rcases List.mem_cons.mp ((hmem x).mp List.mem_cons_self) with rfl | hx
            · exact Nat.le_refl _
            · exact hb.1 x hx
          have hkey : key y = key x := by omega
          have hhead := h (key x)
          simp only [List.filter_cons, hkey, decide_true, if_true, List.cons.injEq] at hhead
          obtain ⟨rfl, -⟩ := hhead
          have htail : ∀ n, a.filter (key · = n) = b.filter (key · = n) := by
            intro n
            have hn := h n
            simp only [List.filter_cons] at hn
            split at hn
            · exact (List.cons.inj hn).2
            · exact hn
          rw [ih ha.2 hb.2 htail fun z => ?_]
          have hz := congrArg (z ∈ ·) (htail (key z))
          simpa using hz

theorem filter_flatMap_range (l : List α) (n bound : Nat) :
    (((List.range bound).flatMap fun m => l.filter (key · = m)).filter (key · = n)) =
      if n < bound then l.filter (key · = n) else [] := by
  induction bound with
  | zero => simp
  | succ bound ih =>
      rw [List.range_succ, List.flatMap_append, List.filter_append, ih, List.flatMap_singleton,
        List.filter_filter]
      by_cases hn : n = bound
      · subst hn
        simp
      · have hnone : (l.filter fun x => decide (key x = n) && decide (key x = bound)) = [] := by
          simp only [List.filter_eq_nil_iff, Bool.and_eq_true, decide_eq_true_eq]
          omega
        rw [hnone, List.append_nil]
        congr 1
        simp only [eq_iff_iff]
        omega

/-- Sorting is taking the members number by number. -/
theorem flatMap_filter_eq_mergeSort {l : List α} {bound : Nat} (hbound : ∀ x ∈ l, key x < bound) :
    ((List.range bound).flatMap fun n => l.filter (key · = n)) =
      l.mergeSort fun a b => key a ≤ key b := by
  have hsame : ∀ n, (l.filter (key · = n)).Pairwise fun a b => key a ≤ key b := by
    intro n
    refine List.pairwise_of_forall_mem_list fun x hx y hy => ?_
    simp only [List.mem_filter, decide_eq_true_eq] at hx hy
    omega
  apply eq_of_filter_eq key
  · rw [List.pairwise_flatMap]
    refine ⟨fun n _ => hsame n, List.pairwise_lt_range.imp ?_⟩
    intro m n hmn x hx y hy
    simp only [List.mem_filter, decide_eq_true_eq] at hx hy
    omega
  · simpa using List.pairwise_mergeSort (key_trans key) (key_total key) l
  · intro n
    rw [filter_mergeSort key (hsame n), filter_flatMap_range]
    split
    · rfl
    · rename_i hn
      refine (List.filter_eq_nil_iff.mpr fun x hx => ?_).symm
      have hx := hbound x hx
      simp only [decide_eq_true_eq]
      omega

end Inlay.Sorting
