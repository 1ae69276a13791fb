import Mathlib

/-! # Lists of half-open intervals

A list of separated intervals is a normal form of the set that it covers: it is sorted, its
intervals are non-empty, and between two of them there is a gap. -/

namespace Intervals

variable {α : Type*} [LinearOrder α]

/-- The intervals are sorted and non-empty, and no two of them overlap or touch. -/
structure Separated (ranges : List (α × α)) : Prop where
  nonempty : ∀ r ∈ ranges, r.1 < r.2
  apart : ranges.Pairwise fun r r' => r.2 < r'.1

theorem Separated.nil : Separated ([] : List (α × α)) := ⟨by simp, .nil⟩

theorem Separated.singleton {r : α × α} (h : r.1 < r.2) : Separated [r] :=
  ⟨by simpa using h, List.pairwise_singleton ..⟩

theorem Separated.tail {r : α × α} {ranges : List (α × α)} (h : Separated (r :: ranges)) :
    Separated ranges :=
  ⟨(List.forall_mem_cons.mp h.nonempty).2, (List.pairwise_cons.mp h.apart).2⟩

/-- The last interval may end later. -/
theorem Separated.extend {front : List (α × α)} {last : α × α} {b : α}
    (h : Separated (front ++ [last])) (hb : last.2 ≤ b) : Separated (front ++ [(last.1, b)]) := by
  obtain ⟨hfront, -, hapart⟩ := List.pairwise_append.mp h.apart
  refine ⟨fun r hr => ?_, List.pairwise_append.mpr ⟨hfront, List.pairwise_singleton .., ?_⟩⟩
  · rcases List.mem_append.mp hr with hr | hr
    · exact h.nonempty r (List.mem_append_left _ hr)
    · obtain rfl := List.mem_singleton.mp hr
      exact (h.nonempty last (by simp)).trans_le hb
  · intro r hr r' hr'
    obtain rfl := List.mem_singleton.mp hr'
    exact hapart r hr last (List.mem_singleton_self last)

/-- A later interval may follow behind a gap. -/
theorem Separated.snoc {front : List (α × α)} {last r : α × α}
    (h : Separated (front ++ [last])) (hgap : last.2 < r.1) (hr : r.1 < r.2) :
    Separated (front ++ [last] ++ [r]) := by
  refine ⟨fun r' hr' => ?_, List.pairwise_append.mpr ⟨h.apart, List.pairwise_singleton .., ?_⟩⟩
  · rcases List.mem_append.mp hr' with hr' | hr'
    · exact h.nonempty r' hr'
    · obtain rfl := List.mem_singleton.mp hr'
      exact hr
  · intro r' hr' r'' hr''
    obtain rfl := List.mem_singleton.mp hr''
    rcases List.mem_append.mp hr' with hr' | hr'
    · -- The last interval lies between them.
      have hbefore := (List.pairwise_append.mp h.apart).2.2 r' hr' last (List.mem_singleton_self last)
      exact (hbefore.trans (h.nonempty last (by simp))).trans hgap
    · obtain rfl := List.mem_singleton.mp hr'
      exact hgap

/-! ## The set that is covered -/

section Covered

variable [LocallyFiniteOrder α] {ranges : List (α × α)} {r : α × α} {p : α}

/-- The points of the intervals. -/
def covered (ranges : List (α × α)) : Finset α :=
  ranges.toFinset.biUnion fun r => Finset.Ico r.1 r.2

@[simp] theorem mem_covered : p ∈ covered ranges ↔ ∃ r ∈ ranges, r.1 ≤ p ∧ p < r.2 := by
  simp [covered]

@[simp] theorem covered_nil : covered ([] : List (α × α)) = ∅ := rfl

theorem covered_cons : covered (r :: ranges) = Finset.Ico r.1 r.2 ∪ covered ranges := by
  ext p
  simp

theorem covered_append {ranges' : List (α × α)} :
    covered (ranges ++ ranges') = covered ranges ∪ covered ranges' := by
  ext p
  simp [or_and_right, exists_or]

theorem covered_perm {ranges' : List (α × α)} (h : ranges.Perm ranges') :
    covered ranges = covered ranges' := by
  ext p
  simp [h.mem_iff]

/-- The first of the intervals and the others have no point in common. -/
theorem Separated.disjoint (h : Separated (r :: ranges)) :
    Disjoint (Finset.Ico r.1 r.2) (covered ranges) := by
  rw [Finset.disjoint_left]
  intro p hp hcovered
  obtain ⟨r', hr', hle, -⟩ := mem_covered.mp hcovered
  have hlt := (List.pairwise_cons.mp h.apart).1 r' hr'
  exact absurd ((Finset.mem_Ico.mp hp).2.trans hlt) (not_lt.mpr hle)

/-- The overlaps with one more interval count every point once. -/
theorem Separated.sum_overlap (h : Separated ranges) (a b : α) :
    (ranges.map fun r => (Finset.Ico (max a r.1) (min b r.2)).card).sum =
      (covered ranges ∩ Finset.Ico a b).card := by
  induction ranges with
  | nil => simp
  | cons r ranges ih =>
      have hhead : Finset.Ico (max a r.1) (min b r.2) = Finset.Ico r.1 r.2 ∩ Finset.Ico a b := by
        rw [Finset.inter_comm]
        exact Finset.Ico_inter_Ico.symm
      have hdisjoint : Disjoint (Finset.Ico r.1 r.2 ∩ Finset.Ico a b)
          (covered ranges ∩ Finset.Ico a b) :=
        h.disjoint.mono Finset.inter_subset_left Finset.inter_subset_left
      rw [List.map_cons, List.sum_cons, ih h.tail, covered_cons, Finset.union_inter_distrib_right,
        hhead]
      exact (Finset.card_union_of_disjoint hdisjoint).symm

end Covered

end Intervals
