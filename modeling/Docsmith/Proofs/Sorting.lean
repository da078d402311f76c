import Mathlib.Data.List.Nodup

namespace Docsmith

/-!
# Lists sorted by name

Files are told in the order of their names.  Sorting by a name keeps what has one name in its order, so
that a sorted list is known by what it has under each name.

* `pairwise_mergeSort_name`: sorting by name gives a list in the order of the names.
* `filter_mergeSort`: what is true of elements that the order does not tell apart stays in its order, and
  `filter_mergeSort_name`: so does what has one name.
* `eq_of_filter_name`: a list in the order of the names is known by what it has under each of them.
* `eq_mergeSort_name`: so it is the sorted one of any list with the same under each name.
-/

variable {α : Type} (name : α → String)

theorem name_trans (a b c : α) (hab : decide (name a ≤ name b) = true)
    (hbc : decide (name b ≤ name c) = true) : decide (name a ≤ name c) = true := by
  simp only [decide_eq_true_eq] at hab hbc ⊢
  exact String.le_trans hab hbc

theorem name_total (a b : α) : (decide (name a ≤ name b) || decide (name b ≤ name a)) = true := by
  simp only [Bool.or_eq_true, decide_eq_true_eq]
  exact String.le_total (name a) (name b)

/-- Sorting by name gives a list in the order of the names. -/
theorem pairwise_mergeSort_name (xs : List α) :
    (xs.mergeSort fun a b => name a ≤ name b).Pairwise fun a b => name a ≤ name b := by
  have hsorted : (xs.mergeSort fun a b => name a ≤ name b).Pairwise
      fun a b => decide (name a ≤ name b) = true :=
    List.pairwise_mergeSort (name_trans name) (name_total name) xs
  exact hsorted.imp fun h => of_decide_eq_true h

/-- What is true of elements that are no later than one another in either direction stays in its order when
    a list is sorted. -/
theorem filter_mergeSort {α : Type} {le : α → α → Bool} {p : α → Bool}
    (htrans : ∀ a b c, le a b = true → le b c = true → le a c = true)
    (htotal : ∀ a b, (le a b || le b a) = true) (hsame : ∀ a b, p a = true → p b = true → le a b = true)
    (xs : List α) : (xs.mergeSort le).filter p = xs.filter p := by
  have hpairwise : (xs.filter p).Pairwise fun a b => le a b = true :=
    List.pairwise_of_forall_mem_list fun a ha b hb =>
      hsame a b (List.mem_filter.mp ha).2 (List.mem_filter.mp hb).2
  have hsub : (xs.filter p).Sublist (xs.mergeSort le) :=
    List.sublist_mergeSort htrans htotal hpairwise List.filter_sublist
  have hfiltered := hsub.filter p
  rw [List.filter_filter] at hfiltered
  simp only [Bool.and_self] at hfiltered
  refine (hfiltered.eq_of_length ?_).symm
  exact ((List.mergeSort_perm xs _).filter _).length_eq.symm

/-- What has one name stays in its order when a list is sorted by name. -/
theorem filter_mergeSort_name (xs : List α) (k : String) :
    (xs.mergeSort fun a b => name a ≤ name b).filter (name · == k)
      = xs.filter (name · == k) := by
  refine filter_mergeSort (name_trans name) (name_total name) (fun a b ha hb => ?_) xs
  rw [beq_iff_eq.mp ha, beq_iff_eq.mp hb]
  exact decide_eq_true (String.le_refl k)

/-- A list in the order of the names is known by what it has under each of them. -/
theorem eq_of_filter_name {xs ys : List α} (hxs : xs.Pairwise fun a b => name a ≤ name b)
    (hys : ys.Pairwise fun a b => name a ≤ name b)
    (h : ∀ k, xs.filter (name · == k) = ys.filter (name · == k)) : xs = ys := by
  induction xs generalizing ys with
  | nil =>
    refine (List.eq_nil_iff_forall_not_mem.mpr fun y hy => ?_).symm
    have hmem : y ∈ ys.filter (name · == name y) := List.mem_filter.mpr ⟨hy, by simp⟩
    rw [← h (name y)] at hmem
    cases hmem
  | cons x xs ih =>
    obtain ⟨hx, hrest⟩ := List.pairwise_cons.mp hxs
    have hfirst : x ∈ ys := by
      have hmem : x ∈ (x :: xs).filter (name · == name x) :=
        List.mem_filter.mpr ⟨List.mem_cons_self, by simp⟩
      rw [h (name x)] at hmem
      exact (List.mem_filter.mp hmem).1
    cases ys with
    | nil => cases hfirst
    | cons y ys =>
      obtain ⟨hy, hrest'⟩ := List.pairwise_cons.mp hys
      have hother : y ∈ x :: xs := by
        have hmem : y ∈ (y :: ys).filter (name · == name y) :=
          List.mem_filter.mpr ⟨List.mem_cons_self, by simp⟩
        rw [← h (name y)] at hmem
        exact (List.mem_filter.mp hmem).1
      -- each of the first two is no later than the other
      have hname : name x = name y := by
        refine String.le_antisymm ?_ ?_
        · rcases List.mem_cons.mp hother with heq | hmem
          · exact heq ▸ String.le_refl _
          · exact hx y hmem
        · rcases List.mem_cons.mp hfirst with heq | hmem
          · exact heq ▸ String.le_refl _
          · exact hy x hmem
      have hheads := h (name x)
      rw [List.filter_cons_of_pos (by simp), List.filter_cons_of_pos (by simp [hname])] at hheads
      obtain ⟨rfl, -⟩ := List.cons.inj hheads
      refine congrArg (x :: ·) (ih hrest hrest' fun k => ?_)
      have hk := h k
      by_cases hxk : name x = k
      · simpa [List.filter_cons, hxk] using hk
      · simpa [List.filter_cons, hxk] using hk

/-- A list in the order of the names is the sorted one of any list with the same under each name. -/
theorem eq_mergeSort_name {xs ys : List α} (hxs : xs.Pairwise fun a b => name a ≤ name b)
    (h : ∀ k, xs.filter (name · == k) = ys.filter (name · == k)) :
    xs = ys.mergeSort fun a b => name a ≤ name b :=
  eq_of_filter_name name hxs (pairwise_mergeSort_name name ys) fun k => by
    rw [h, filter_mergeSort_name]

end Docsmith
