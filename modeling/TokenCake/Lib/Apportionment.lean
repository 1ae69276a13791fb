import Mathlib.Algebra.BigOperators.Field
import Mathlib.Algebra.Order.Floor.Semiring
import Mathlib.Algebra.Order.BigOperators.Group.Finset

/-! # Largest remainders

Shares that add up to a whole number are rounded down, and the units that are then missing go to
the largest fractional parts, one each. Every share is rounded to a neighbour, and nothing is lost
or invented. -/

namespace Apportionment

open Finset

variable {ι α : Type*} [Field α] [LinearOrder α] [IsStrictOrderedRing α] [FloorSemiring α]
  {s extra : Finset ι} {share : ι → α} {total : ℕ}

/-- What a share loses when it is rounded down. -/
def loss (share : ι → α) (i : ι) : α := share i - ⌊share i⌋₊

theorem loss_nonneg {i : ι} (h : 0 ≤ share i) : 0 ≤ loss share i :=
  sub_nonneg.mpr (Nat.floor_le h)

theorem loss_lt_one (share : ι → α) (i : ι) : loss share i < 1 := by
  exact sub_lt_iff_lt_add'.mpr (Nat.lt_floor_add_one (share i))

omit [IsStrictOrderedRing α] in
/-- The losses add up to the missing units. -/
theorem sum_loss (htotal : ∑ i ∈ s, share i = total) :
    ∑ i ∈ s, loss share i = total - (∑ i ∈ s, ⌊share i⌋₊ : ℕ) := by
  simp only [loss, sum_sub_distrib, htotal, Nat.cast_sum]

/-- Rounding down gives away no more than there is. -/
theorem sum_floor_le (hshare : ∀ i ∈ s, 0 ≤ share i) (htotal : ∑ i ∈ s, share i = total) :
    ∑ i ∈ s, ⌊share i⌋₊ ≤ total := by
  have hnonneg : 0 ≤ ∑ i ∈ s, loss share i := sum_nonneg fun i hi => loss_nonneg (hshare i hi)
  rw [sum_loss htotal] at hnonneg
  exact_mod_cast sub_nonneg.mp hnonneg

/-- There is at most one missing unit for each share. -/
theorem total_le (htotal : ∑ i ∈ s, share i = total) :
    total ≤ ∑ i ∈ s, ⌊share i⌋₊ + s.card := by
  have hle : ∑ i ∈ s, loss share i ≤ s.card := by
    calc ∑ i ∈ s, loss share i ≤ ∑ _i ∈ s, 1 :=
          sum_le_sum fun i _ => (loss_lt_one share i).le
      _ = s.card := by simp
  rw [sum_loss htotal] at hle
  exact_mod_cast (sub_le_iff_le_add'.mp hle)

/-- The missing units go to the largest losses. -/
structure Largest (s : Finset ι) (share : ι → α) (total : ℕ) (extra : Finset ι) : Prop where
  subset : extra ⊆ s
  card_eq : ∑ i ∈ s, ⌊share i⌋₊ + extra.card = total
  largest : ∀ i ∈ extra, ∀ j ∈ s, j ∉ extra → loss share j ≤ loss share i

/-- A share that gets a unit was not whole. -/
theorem Largest.loss_pos (h : Largest s share total extra) (hshare : ∀ i ∈ s, 0 ≤ share i)
    (htotal : ∑ i ∈ s, share i = total) {i : ι} (hi : i ∈ extra) : 0 < loss share i := by
  classical
  by_contra hwhole
  have hzero : loss share i = 0 :=
    le_antisymm (not_lt.mp hwhole) (loss_nonneg (hshare i (h.subset hi)))
  -- Then nothing is lost outside of `extra`, and less than a unit for each share in it.
  have houtside : ∑ j ∈ s \ extra, loss share j = 0 := by
    refine sum_eq_zero fun j hj => ?_
    obtain ⟨hjs, hje⟩ := mem_sdiff.mp hj
    exact le_antisymm ((h.largest i hi j hjs hje).trans hzero.le) (loss_nonneg (hshare j hjs))
  have hinside : ∑ j ∈ extra, loss share j < extra.card := by
    calc ∑ j ∈ extra, loss share j < ∑ _j ∈ extra, (1 : α) :=
          sum_lt_sum_of_nonempty ⟨i, hi⟩ fun j _ => loss_lt_one share j
      _ = extra.card := by simp
  have hloss := sum_loss htotal
  rw [← sum_sdiff h.subset, houtside, zero_add, ← h.card_eq, Nat.cast_add, add_sub_cancel_left]
    at hloss
  exact hinside.ne hloss

/-- Every rounded share is the floor or the ceiling of the share. -/
theorem Largest.ceil_eq (h : Largest s share total extra) (hshare : ∀ i ∈ s, 0 ≤ share i)
    (htotal : ∑ i ∈ s, share i = total) {i : ι} (hi : i ∈ extra) : ⌊share i⌋₊ + 1 = ⌈share i⌉₊ := by
  have hpos := h.loss_pos hshare htotal hi
  have hlt : (⌊share i⌋₊ : α) < share i := sub_pos.mp hpos
  exact le_antisymm (Nat.lt_ceil.mpr hlt) (Nat.ceil_le_floor_add_one _)

end Apportionment
