import TokenCake.Verification.Control.Charges

/-! # Available capacity

`_update_available` leaves what the plan does not use, cut down to the uncommitted blocks: shared
capacity goes first, then the reservations. -/

namespace TokenCake.Control

open Capacity KV

namespace SchedulingController

variable {η : Type} {c c' : SchedulingController} {m : KVCacheManager η} {d : OrdDict String ℤ}

/-- The entry of a type. -/
def entryOf (reserved : OrdDict String ℤ) (k : String) : ℤ := (reserved.get? k).getD 0

theorem sum_entryOf (d : OrdDict String ℤ) :
    (d.keys.map (entryOf d)).sum = d.sum fun _ n => n := by
  rw [OrdDict.sum, OrdDict.keys, List.map_map]
  refine congrArg List.sum (List.map_congr_left fun e he => ?_)
  rw [Function.comp_apply, entryOf, OrdDict.get?_eq_some_iff.mpr he, Option.getD_some]

theorem entryOf_modify {k : String} (hk : k ∈ d.keys) (f : ℤ → ℤ) (k' : String) :
    entryOf (d.modify k f) k' = if k' = k then f (entryOf d k') else entryOf d k' := by
  unfold entryOf
  rw [OrdDict.get?_modify]
  split
  · next heq =>
      obtain ⟨v, hv⟩ := OrdDict.mem_keys_iff.mp hk
      rw [heq, hv]
      rfl
  · rfl

theorem sum_modify {k : String} (hk : k ∈ d.keys) (f : ℤ → ℤ) :
    ((d.modify k f).sum fun _ n => n) + entryOf d k = (d.sum fun _ n => n) + f (entryOf d k) := by
  obtain ⟨v, hv⟩ := OrdDict.mem_keys_iff.mp hk
  have hvalue : entryOf d k = v := by
    rw [entryOf, hv]
    rfl
  rw [hvalue]
  exact OrdDict.sum_modify_add hv f fun _ n => n

/-- The reservations lose the excess, as far as they reach. -/
theorem reduceReserved_spec (l : List String) (e : ℤ) (hnodup : l.Nodup)
    (hkeys : ∀ k ∈ l, k ∈ d.keys) (hnonneg : ∀ k, 0 ≤ entryOf d k) (he : 0 ≤ e) :
    (∀ k, 0 ≤ entryOf (reduceReserved l e d) k ∧
      entryOf (reduceReserved l e d) k ≤ entryOf d k) ∧
    ((reduceReserved l e d).sum fun _ n => n) + min e ((l.map (entryOf d)).sum) =
      d.sum fun _ n => n := by
  induction l generalizing e d with
  | nil =>
      refine ⟨fun k => ⟨hnonneg k, le_rfl⟩, ?_⟩
      rw [List.map_nil, List.sum_nil, min_eq_right he, add_zero]
      rfl
  | cons k l ih =>
      obtain ⟨hk, hnodup⟩ := List.nodup_cons.mp hnodup
      obtain ⟨hmem, hkeys⟩ := List.forall_mem_cons.mp hkeys
      unfold reduceReserved
      dsimp only
      -- The dictionary after the first type has lost its part.
      have hentry := hnonneg k
      have hpart : min e (entryOf d k) ≤ entryOf d k := min_le_right ..
      have hmodify := entryOf_modify hmem (· - min e (entryOf d k))
      have hsum := sum_modify hmem (· - min e (entryOf d k))
      have hkeys' : ∀ k' ∈ l, k' ∈ (d.modify k (· - min e (entryOf d k))).keys :=
        fun k' hk' => OrdDict.mem_keys_modify.mpr (hkeys k' hk')
      have hrest : 0 ≤ (l.map (entryOf d)).sum := List.sum_nonneg fun n hn => by
        obtain ⟨k', -, rfl⟩ := List.mem_map.mp hn
        exact hnonneg k'
      have hthen := ih (d := d.modify k (· - min e (entryOf d k))) (e - min e (entryOf d k)) hnodup
        hkeys' (fun k' => by
          rw [hmodify]
          split
          · next heq =>
              subst heq
              omega
          · exact hnonneg k') (by omega)
      obtain ⟨hbounds, htotal⟩ := hthen
      have hothers : l.map (entryOf (d.modify k (· - min e (entryOf d k)))) =
          l.map (entryOf d) := by
        refine List.map_congr_left fun k' hk' => ?_
        rw [hmodify, if_neg]
        rintro rfl
        exact hk hk'
      rw [hothers] at htotal
      refine ⟨fun k' => ⟨(hbounds k').1, (hbounds k').2.trans ?_⟩, ?_⟩
      · rw [hmodify]
        split
        · next heq =>
            subst heq
            omega
        · exact le_rfl
      · rw [List.map_cons, List.sum_cons]
        change ((reduceReserved l (e - min e (entryOf d k)) (d.modify k
          (· - min e (entryOf d k)))).sum fun _ n => n) + _ = _
        omega

/-! ## Bounds -/

/-- What is available lies within the plan, less what is charged. -/
structure Bounded (c : SchedulingController) : Prop where
  shared_nonneg : 0 ≤ c.sharedAvailable
  shared_le : c.sharedAvailable ≤ c.unusedShared
  mem_keys : ∀ k, k ∈ c.reservedAvailable.keys ↔ k ∈ c.plan.reserved.keys
  reserved_nonneg : ∀ k, 0 ≤ entryOf c.reservedAvailable k
  reserved_le : ∀ k, entryOf c.reservedAvailable k ≤ entryOf c.unusedReserved k

/-- The capacity that is available to all requests together. -/
def totalAvailable (c : SchedulingController) : ℤ :=
  c.sharedAvailable + c.reservedAvailable.sum fun _ n => n

/-- The capacity that the plan gives and no block is charged for. -/
def totalUnused (c : SchedulingController) : ℤ :=
  c.unusedShared + c.unusedReserved.sum fun _ n => n

theorem unusedReserved_nonneg (k : String) : 0 ≤ entryOf c.unusedReserved k := by
  unfold entryOf unusedReserved
  rw [OrdDict.get?_mapValues]
  cases c.plan.reserved.get? k with
  | none => exact le_rfl
  | some count => exact le_max_left ..

theorem mem_keys_unusedReserved (k : String) :
    k ∈ c.unusedReserved.keys ↔ k ∈ c.plan.reserved.keys := by
  simp [unusedReserved, OrdDict.mapValues, OrdDict.keys]

theorem reservedByScore_perm (c : SchedulingController) :
    c.reservedByScore.Perm c.unusedReserved.keys := List.perm_insertionSort ..

/-- `_update_available` leaves all that is neither used nor committed. -/
theorem updateAvailable_bounded (c : SchedulingController) (m : KVCacheManager η) :
    (c.updateAvailable m).Bounded ∧
      (c.updateAvailable m).totalAvailable =
        min c.totalUnused (max 0 (c.uncommittedBlocks m)) := by
  have hshared : 0 ≤ c.unusedShared := le_max_left ..
  obtain ⟨hbounds, htotal⟩ := reduceReserved_spec c.reservedByScore
    (max 0 (c.totalUnused - max 0 (c.uncommittedBlocks m)) -
      min (max 0 (c.totalUnused - max 0 (c.uncommittedBlocks m))) c.unusedShared)
    ((reservedByScore_perm c).nodup_iff.mpr c.unusedReserved.nodupKeys)
    (fun k hk => (reservedByScore_perm c).mem_iff.mp hk) unusedReserved_nonneg (by omega)
  rw [((reservedByScore_perm c).map _).sum_eq, sum_entryOf] at htotal
  have hreserved : 0 ≤ c.unusedReserved.sum fun _ n => n := by
    rw [← sum_entryOf]
    refine List.sum_nonneg fun n hn => ?_
    obtain ⟨k, -, rfl⟩ := List.mem_map.mp hn
    exact unusedReserved_nonneg k
  constructor
  · constructor
    case shared_nonneg =>
      change 0 ≤ c.unusedShared - min _ c.unusedShared
      omega
    case shared_le =>
      change c.unusedShared - min (max 0 _) c.unusedShared ≤ c.unusedShared
      omega
    case mem_keys =>
      intro k
      change k ∈ (reduceReserved _ _ c.unusedReserved).keys ↔ _
      rw [keys_reduceReserved]
      exact mem_keys_unusedReserved k
    case reserved_nonneg => exact fun k => (hbounds k).1
    case reserved_le => exact fun k => (hbounds k).2
  · have hshared' : (c.updateAvailable m).sharedAvailable = c.unusedShared -
        min (max 0 (c.totalUnused - max 0 (c.uncommittedBlocks m))) c.unusedShared := rfl
    have hreserved' : (c.updateAvailable m).reservedAvailable = reduceReserved c.reservedByScore
        (max 0 (c.totalUnused - max 0 (c.uncommittedBlocks m)) -
          min (max 0 (c.totalUnused - max 0 (c.uncommittedBlocks m))) c.unusedShared)
        c.unusedReserved := rfl
    rw [totalAvailable, hshared', hreserved']
    have hunused : c.totalUnused = c.unusedShared + c.unusedReserved.sum fun _ n => n := rfl
    omega

theorem updateAvailable_sameBooks (c : SchedulingController) (m : KVCacheManager η) :
    SameBooks c (c.updateAvailable m) :=
  ⟨c.charges, c.used, _, _, (c.updateAvailable m).scored, rfl⟩

theorem updateAvailable_charges (c : SchedulingController) (m : KVCacheManager η) :
    (c.updateAvailable m).charges = c.charges := rfl

theorem Counted.updateAvailable (h : c.Counted) (m : KVCacheManager η) :
    (c.updateAvailable m).Counted := h

/-- What is available can be consumed. -/
theorem Bounded.nonneg (h : c.Bounded) : c.capacity.Nonneg :=
  ⟨h.shared_nonneg, h.reserved_nonneg⟩

/-! ## Releasing -/

theorem release_sameBooks (c : SchedulingController) (m : KVCacheManager η) :
    SameBooks c (c.release m) := by
  unfold release
  split
  · exact SameBooks.trans ⟨_, _, _, _, c.scored, rfl⟩ (updateAvailable_sameBooks _ m)
  · exact .refl c

theorem release_inactive (h : c.accountingActive = false) : c.release m = c := by
  unfold release
  rw [if_neg (by simp [h])]

/-- The accounts after `release`. -/
structure Released (c : SchedulingController) (m : KVCacheManager η) (c' : SchedulingController) :
    Prop where
  same : SameBooks c c'
  counted : c'.Counted
  bounded : c'.Bounded
  total_eq : c'.totalAvailable = min c'.totalUnused (max 0 (c'.uncommittedBlocks m))
  mem_charges : ∀ b, b ∈ c'.charges.keys ↔
    b ∈ c.charges.keys ∧ 0 < (m.blockPool.blocks b).refCnt

theorem release_released (h : c.accountingActive = true) : Released c m (c.release m) := by
  have hsame := release_sameBooks c m
  unfold release at hsame ⊢
  rw [if_pos h] at hsame ⊢
  obtain ⟨hbounded, htotal⟩ := updateAvailable_bounded
    { c with
      charges := c.charges.filter fun b _ => decide (0 < (m.blockPool.blocks b).refCnt)
      used := fun owner => (c.charges.filter fun b _ =>
        decide (0 < (m.blockPool.blocks b).refCnt)).values.count owner } m
  refine ⟨hsame, fun owner => rfl, hbounded, htotal, fun b => ?_⟩
  rw [updateAvailable_charges]
  simp only [OrdDict.mem_keys_iff, OrdDict.get?_filter_eq_some, decide_eq_true_iff,
    exists_and_right]

end SchedulingController

end TokenCake.Control
