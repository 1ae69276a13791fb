import TokenCake.Lib.Apportionment
import TokenCake.Model.Capacity

/-! # The plan of the reservations

`partition_capacity` is an exact apportionment: it reserves the blocks of the plan for the greatest
agent types, by their weights, and neither loses a block nor invents one. -/

namespace TokenCake.Capacity

open Apportionment

variable {scores importance : OrdDict String ℚ} {used : OrdDict String ℕ} {critical : List String}
  {reserved total : ℕ} {reserveRatio criticalRatio : ℚ} {k : String}

/-! ## The critical types -/

section Critical

/-- The agent types, greatest first. -/
def orderedTypes (scores importance : OrdDict String ℚ) : List String :=
  scores.keys.mergeSort fun a b =>
    decide (typeKey scores importance b ≤ typeKey scores importance a)

theorem orderedTypes_perm (scores importance : OrdDict String ℚ) :
    (orderedTypes scores importance).Perm scores.keys := List.mergeSort_perm ..

theorem orderedTypes_pairwise (scores importance : OrdDict String ℚ) :
    (orderedTypes scores importance).Pairwise
      fun a b => typeKey scores importance b ≤ typeKey scores importance a := by
  refine (List.pairwise_mergeSort ?_ ?_ scores.keys).imp fun {a b} h => of_decide_eq_true h
  · intro a b c hab hbc
    exact decide_eq_true ((of_decide_eq_true hbc).trans (of_decide_eq_true hab))
  · intro a b
    rw [Bool.or_eq_true, decide_eq_true_eq, decide_eq_true_eq]
    exact le_total ..

theorem typeKey_injective (scores importance : OrdDict String ℚ) :
    Function.Injective (typeKey scores importance) := by
  intro a b h
  have hkeys := congrArg (fun x => (ofLex (ofLex x).2).2) h
  exact hkeys

theorem criticalTypes_eq (scores importance : OrdDict String ℚ) (criticalRatio : ℚ) :
    criticalTypes scores importance criticalRatio = (orderedTypes scores importance).take
      (max 1 ⌊(orderedTypes scores importance).length * criticalRatio⌋₊) := rfl

theorem criticalTypes_nodup (scores importance : OrdDict String ℚ) (criticalRatio : ℚ) :
    (criticalTypes scores importance criticalRatio).Nodup :=
  ((orderedTypes_perm scores importance).nodup_iff.mpr scores.nodupKeys).sublist
    (List.take_sublist ..)

theorem mem_keys_of_mem_criticalTypes
    (h : k ∈ criticalTypes scores importance criticalRatio) : k ∈ scores.keys :=
  (orderedTypes_perm scores importance).mem_iff.mp (List.mem_of_mem_take h)

theorem length_criticalTypes (scores importance : OrdDict String ℚ) (criticalRatio : ℚ) :
    (criticalTypes scores importance criticalRatio).length =
      min scores.size (max 1 ⌊scores.size * criticalRatio⌋₊) := by
  have hlength : (orderedTypes scores importance).length = scores.size := by
    rw [(orderedTypes_perm scores importance).length_eq, OrdDict.keys, List.length_map, OrdDict.size]
  rw [criticalTypes_eq, List.length_take, hlength, Nat.min_comm]

/-- No other type is as great as a critical one. -/
theorem criticalTypes_greatest {a b : String}
    (ha : a ∈ criticalTypes scores importance criticalRatio) (hb : b ∈ scores.keys)
    (hother : b ∉ criticalTypes scores importance criticalRatio) :
    typeKey scores importance b < typeKey scores importance a := by
  have hpairwise := orderedTypes_pairwise scores importance
  have hb := (orderedTypes_perm scores importance).mem_iff.mpr hb
  rw [criticalTypes_eq] at ha hother
  generalize max 1 ⌊(orderedTypes scores importance).length * criticalRatio⌋₊ = n at ha hother
  rw [← List.take_append_drop n (orderedTypes scores importance)] at hpairwise hb
  have hdrop := (List.mem_append.mp hb).resolve_left hother
  have hle := (List.pairwise_append.mp hpairwise).2.2 a ha b hdrop
  refine hle.lt_of_ne fun heq => hother ?_
  rwa [typeKey_injective scores importance heq]

end Critical

/-! ## Sums over dictionaries -/

section Sums

theorem sum_eq_sum_keys {ν M : Type*} [AddCommMonoid M] (d : OrdDict String ν) (f : ν → M)
    (default : ν) :
    d.sum (fun _ v => f v) = ∑ k ∈ d.keys.toFinset, f ((d.get? k).getD default) := by
  have hsum : (d.keys.map fun k => f ((d.get? k).getD default)).sum = d.sum (fun _ v => f v) := by
    rw [OrdDict.sum, OrdDict.keys, List.map_map]
    refine congrArg List.sum (List.map_congr_left fun e he => ?_)
    rw [Function.comp_apply, OrdDict.get?_eq_some_iff.mpr he, Option.getD_some]
  exact hsum.symm.trans (List.sum_toFinset _ (d.nodupKeys : d.keys.Nodup)).symm

/-- Adding one to some of the entries. -/
theorem get?_foldl_modify (extra : List String) (hextra : extra.Nodup) (counts : OrdDict String ℕ) :
    (extra.foldl (fun counts k => counts.modify k (· + 1)) counts).get? k =
      (counts.get? k).map (· + if k ∈ extra then 1 else 0) := by
  induction extra generalizing counts with
  | nil => simp
  | cons a extra ih =>
      obtain ⟨ha, hextra⟩ := List.nodup_cons.mp hextra
      rw [List.foldl_cons, ih hextra, OrdDict.get?_modify]
      by_cases hk : k = a
      · subst hk
        simp [ha, Function.comp_def]
      · simp [hk]

end Sums

/-! ## Rounding -/

section Rounding

variable {exact : OrdDict String ℚ}

/-- The share of a type. -/
def shareOf (exact : OrdDict String ℚ) (k : String) : ℚ := (exact.get? k).getD 0

theorem sum_shareOf (exact : OrdDict String ℚ) :
    exact.sum (fun _ v => v) = ∑ k ∈ exact.keys.toFinset, shareOf exact k :=
  sum_eq_sum_keys exact id 0

theorem fraction_eq (exact : OrdDict String ℚ) (k : String) :
    (exact.get? k).getD 0 - (((exact.mapValues fun _ v => ⌊v⌋₊).get? k).getD 0 : ℕ) =
      loss (shareOf exact) k := by
  unfold loss shareOf
  rw [OrdDict.get?_mapValues]
  cases exact.get? k <;> simp

/-- The missing blocks go to the shares that lose most. -/
theorem roundShares_largest (hnonneg : ∀ k, 0 ≤ shareOf exact k)
    (hsum : exact.sum (fun _ v => v) = reserved) :
    ∃ extra : Finset String, Largest exact.keys.toFinset (shareOf exact) reserved extra ∧
      ∀ k, (roundShares exact reserved).get? k =
        (exact.get? k).map fun v => ⌊v⌋₊ + if k ∈ extra then 1 else 0 := by
  have htotal := (sum_shareOf exact).symm.trans hsum
  have hcounts : (exact.mapValues fun _ v => ⌊v⌋₊).sum (fun _ n => n) =
      ∑ k ∈ exact.keys.toFinset, ⌊shareOf exact k⌋₊ := by
    rw [OrdDict.sum_mapValues]
    exact sum_eq_sum_keys exact Nat.floor 0
  have hnodup : exact.keys.Nodup := exact.nodupKeys
  have hle := total_le htotal
  have hge := sum_floor_le (fun k _ => hnonneg k) htotal
  rw [List.toFinset_card_of_nodup hnodup] at hle
  unfold roundShares
  dsimp only
  rw [hcounts]
  simp only [fraction_eq]
  generalize hordered : exact.keys.mergeSort (fun a b => decide
    ((toLex (loss (shareOf exact) b, b) : ℚ ×ₗ String) ≤ toLex (loss (shareOf exact) a, a))) = ordered
  have hperm : ordered.Perm exact.keys := hordered ▸ List.mergeSort_perm ..
  have hsorted : ordered.Pairwise fun a b => loss (shareOf exact) b ≤ loss (shareOf exact) a := by
    rw [← hordered]
    refine (List.pairwise_mergeSort ?_ ?_ exact.keys).imp fun {a b} h => ?_
    · intro a b c hab hbc
      exact decide_eq_true ((of_decide_eq_true hbc).trans (of_decide_eq_true hab))
    · intro a b
      rw [Bool.or_eq_true, decide_eq_true_eq, decide_eq_true_eq]
      exact le_total ..
    · rcases Prod.Lex.toLex_le_toLex.mp (of_decide_eq_true h) with hlt | ⟨heq, -⟩
      · exact hlt.le
      · exact heq.le
  generalize hremainder : reserved - ∑ k ∈ exact.keys.toFinset, ⌊shareOf exact k⌋₊ = remainder
  have hextra : (ordered.take remainder).Nodup :=
    (hperm.nodup_iff.mpr hnodup).sublist (List.take_sublist ..)
  refine ⟨(ordered.take remainder).toFinset, ⟨?_, ?_, ?_⟩, fun k => ?_⟩
  · intro k hk
    exact List.mem_toFinset.mpr (hperm.mem_iff.mp (List.mem_of_mem_take (List.mem_toFinset.mp hk)))
  · rw [List.toFinset_card_of_nodup hextra, List.length_take, hperm.length_eq]
    omega
  · intro i hi j hj hother
    rw [List.mem_toFinset] at hi hj hother
    rw [← List.take_append_drop remainder ordered] at hsorted
    have hdrop := (List.mem_append.mp ((List.take_append_drop remainder ordered).symm ▸
      hperm.mem_iff.mpr hj)).resolve_left hother
    exact (List.pairwise_append.mp hsorted).2.2 i hi j hdrop
  · rw [get?_foldl_modify _ hextra, OrdDict.get?_mapValues, Option.map_map]
    simp [Function.comp_def]

/-- The rounded shares add up to what was shared. -/
theorem sum_roundShares (hnonneg : ∀ k, 0 ≤ shareOf exact k)
    (hsum : exact.sum (fun _ v => v) = reserved) :
    (roundShares exact reserved).sum (fun _ n => n) = reserved := by
  obtain ⟨extra, hlargest, hget⟩ := roundShares_largest hnonneg hsum
  have hkeys : (roundShares exact reserved).keys.toFinset = exact.keys.toFinset := by
    ext k
    rw [List.mem_toFinset, List.mem_toFinset, OrdDict.mem_keys_iff, OrdDict.mem_keys_iff, hget]
    simp
  have hsplit : ∀ k ∈ exact.keys.toFinset, ((roundShares exact reserved).get? k).getD 0 =
      ⌊shareOf exact k⌋₊ + if k ∈ extra then 1 else 0 := by
    intro k hk
    obtain ⟨v, hv⟩ := OrdDict.mem_keys_iff.mp (List.mem_toFinset.mp hk)
    rw [hget, shareOf, hv, Option.map_some, Option.getD_some, Option.getD_some]
  refine (sum_eq_sum_keys _ id 0).trans ?_
  rw [hkeys]
  refine (Finset.sum_congr rfl hsplit).trans ?_
  rw [Finset.sum_add_distrib, Finset.sum_ite_mem, Finset.inter_eq_right.mpr hlargest.subset,
    Finset.sum_const, nsmul_one, Nat.cast_id]
  exact hlargest.card_eq

end Rounding

/-! ## The shares -/

section Shares

/-- The sum of the scores of the critical types. -/
def scoreSum (scores : OrdDict String ℚ) (critical : List String) : ℚ :=
  (critical.map fun k => (scores.get? k).getD 0).sum

/-- The sum of their weights. -/
def weightSum (scores : OrdDict String ℚ) (used : OrdDict String ℕ) (critical : List String) : ℚ :=
  (critical.map (typeWeight scores used (scoreSum scores critical))).sum

/-- The exact weighted share of a critical type. -/
def exactShare (scores : OrdDict String ℚ) (used : OrdDict String ℕ) (critical : List String)
    (reserved : ℕ) (k : String) : ℚ :=
  reserved * typeWeight scores used (scoreSum scores critical) k / weightSum scores used critical

theorem typeWeight_pos (used : OrdDict String ℕ) (sum : ℚ) (k : String) :
    0 < typeWeight scores used sum k := by
  unfold typeWeight
  dsimp only
  exact lt_max_of_lt_right (by norm_num)

theorem weightSum_pos (hcritical : critical ≠ []) : 0 < weightSum scores used critical := by
  refine List.sum_pos _ (fun w hw => ?_) (by simpa using hcritical)
  obtain ⟨k, -, rfl⟩ := List.mem_map.mp hw
  exact typeWeight_pos used _ k

theorem scoreSum_pos (hscores : ∀ k v, scores.get? k = some v → 1 ≤ v)
    (hkeys : ∀ k ∈ critical, k ∈ scores.keys) (hcritical : critical ≠ []) :
    0 < scoreSum scores critical := by
  refine List.sum_pos _ (fun v hv => ?_) (by simpa using hcritical)
  obtain ⟨k, hk, rfl⟩ := List.mem_map.mp hv
  obtain ⟨v, hv⟩ := OrdDict.mem_keys_iff.mp (hkeys k hk)
  rw [hv, Option.getD_some]
  exact one_pos.trans_le (hscores k v hv)

/-- A comprehension over the sorted critical types. -/
theorem get?_sortedTypes (f : String → ℚ) (k : String) :
    (OrdDict.ofList ((critical.mergeSort (· ≤ ·)).map fun k => (k, f k))).get? k =
      if k ∈ critical then some (f k) else none := by
  rw [OrdDict.get?_ofList_map]
  simp only [List.mem_mergeSort]

theorem sum_sortedTypes (hnodup : critical.Nodup) (f : String → ℚ) :
    (OrdDict.ofList ((critical.mergeSort (· ≤ ·)).map fun k => (k, f k))).sum (fun _ v => v) =
      (critical.map f).sum := by
  have hkeys : (OrdDict.ofList ((critical.mergeSort (· ≤ ·)).map fun k => (k, f k))).keys.toFinset =
      critical.toFinset := by
    ext k
    rw [List.mem_toFinset, List.mem_toFinset, OrdDict.mem_keys_iff, get?_sortedTypes]
    by_cases hk : k ∈ critical <;> simp [hk]
  refine (sum_eq_sum_keys _ id 0).trans ?_
  rw [hkeys, ← List.sum_toFinset _ hnodup]
  refine Finset.sum_congr rfl fun k hk => ?_
  rw [get?_sortedTypes, if_pos (List.mem_toFinset.mp hk), Option.getD_some, id]

theorem get?_exactShares (hnodup : critical.Nodup) (k : String) :
    (exactShares scores used critical reserved).get? k =
      if k ∈ critical then some (exactShare scores used critical reserved k) else none := by
  unfold exactShares
  dsimp only
  rw [OrdDict.get?_mapValues, sum_sortedTypes hnodup, get?_sortedTypes]
  split <;> rfl

theorem keys_exactShares (hnodup : critical.Nodup) :
    (exactShares scores used critical reserved).keys.toFinset = critical.toFinset := by
  ext k
  rw [List.mem_toFinset, List.mem_toFinset, OrdDict.mem_keys_iff, get?_exactShares hnodup]
  by_cases hk : k ∈ critical <;> simp [hk]

theorem shareOf_exactShares (hnodup : critical.Nodup) (hk : k ∈ critical) :
    shareOf (exactShares scores used critical reserved) k =
      exactShare scores used critical reserved k := by
  rw [shareOf, get?_exactShares hnodup, if_pos hk, Option.getD_some]

theorem shareOf_exactShares_nonneg (hnodup : critical.Nodup) (k : String) :
    0 ≤ shareOf (exactShares scores used critical reserved) k := by
  by_cases hk : k ∈ critical
  · rw [shareOf_exactShares hnodup hk]
    have hsum : 0 < weightSum scores used critical := weightSum_pos (List.ne_nil_of_mem hk)
    exact div_nonneg (mul_nonneg (Nat.cast_nonneg _) (typeWeight_pos used _ k).le) hsum.le
  · rw [shareOf, get?_exactShares hnodup, if_neg hk, Option.getD_none]

/-- The exact shares add up to the reservation. -/
theorem sum_exactShares (hnodup : critical.Nodup) (hcritical : critical ≠ []) :
    (exactShares scores used critical reserved).sum (fun _ v => v) = reserved := by
  have hpos : 0 < weightSum scores used critical := weightSum_pos hcritical
  have hweights : ∑ k ∈ critical.toFinset, typeWeight scores used (scoreSum scores critical) k =
      weightSum scores used critical := List.sum_toFinset _ hnodup
  calc (exactShares scores used critical reserved).sum (fun _ v => v)
      = ∑ k ∈ critical.toFinset, shareOf (exactShares scores used critical reserved) k := by
        rw [sum_shareOf, keys_exactShares hnodup]
    _ = ∑ k ∈ critical.toFinset, exactShare scores used critical reserved k :=
        Finset.sum_congr rfl fun k hk => shareOf_exactShares hnodup (List.mem_toFinset.mp hk)
    _ = reserved * weightSum scores used critical / weightSum scores used critical := by
        rw [← hweights, Finset.mul_sum, Finset.sum_div, hweights]
        rfl
    _ = reserved := mul_div_cancel_right₀ _ hpos.ne'

/-! ### The plan -/

/-- What a plan for `total` blocks has to be. -/
structure Apportioned (scores importance : OrdDict String ℚ) (used : OrdDict String ℕ) (total : ℕ)
    (reserveRatio criticalRatio : ℚ) (plan : CapacityPlan) : Prop where
  critical_nodup : plan.critical.Nodup
  critical_length : plan.critical.length = min scores.size (max 1 ⌊scores.size * criticalRatio⌋₊)
  critical_subset : ∀ k ∈ plan.critical, k ∈ scores.keys
  critical_greatest : ∀ a ∈ plan.critical, ∀ b ∈ scores.keys, b ∉ plan.critical →
    typeKey scores importance b < typeKey scores importance a
  reserved_keys : ∀ k, k ∈ plan.reserved.keys ↔ k ∈ plan.critical
  reserved_sum : plan.reserved.sum (fun _ n => n) =
    if scores.size = 0 then 0 else ⌊total * reserveRatio⌋₊
  shared_add : plan.shared + plan.reserved.sum (fun _ n => n) = total
  rounded : ∀ k n, plan.reserved.get? k = some n →
    n = ⌊exactShare scores used plan.critical (plan.reserved.sum fun _ n => n) k⌋₊ ∨
      n = ⌈exactShare scores used plan.critical (plan.reserved.sum fun _ n => n) k⌉₊
  largest : ∀ a b m n, plan.reserved.get? a = some m → plan.reserved.get? b = some n →
    ⌊exactShare scores used plan.critical (plan.reserved.sum fun _ n => n) a⌋₊ < m →
    n = ⌊exactShare scores used plan.critical (plan.reserved.sum fun _ n => n) b⌋₊ →
    loss (exactShare scores used plan.critical (plan.reserved.sum fun _ n => n)) b ≤
      loss (exactShare scores used plan.critical (plan.reserved.sum fun _ n => n)) a

theorem loss_congr {share share' : String → ℚ} (h : share k = share' k) :
    loss share k = loss share' k := by
  rw [loss, loss, h]

/-- The rounded shares of the critical types. -/
theorem roundShares_exactShares (hnodup : critical.Nodup)
    (hsum : (exactShares scores used critical reserved).sum (fun _ v => v) = reserved) :
    (∀ k, k ∈ (roundShares (exactShares scores used critical reserved) reserved).keys ↔
      k ∈ critical) ∧
    (∀ k n, (roundShares (exactShares scores used critical reserved) reserved).get? k = some n →
      n = ⌊exactShare scores used critical reserved k⌋₊ ∨
        n = ⌈exactShare scores used critical reserved k⌉₊) ∧
    ∀ a b m n, (roundShares (exactShares scores used critical reserved) reserved).get? a = some m →
      (roundShares (exactShares scores used critical reserved) reserved).get? b = some n →
      ⌊exactShare scores used critical reserved a⌋₊ < m →
      n = ⌊exactShare scores used critical reserved b⌋₊ →
      loss (exactShare scores used critical reserved) b ≤
        loss (exactShare scores used critical reserved) a := by
  have hnonneg : ∀ k, 0 ≤ shareOf (exactShares scores used critical reserved) k :=
    shareOf_exactShares_nonneg hnodup
  obtain ⟨extra, hlargest, hget⟩ := roundShares_largest hnonneg hsum
  have htotal := (sum_shareOf (exactShares scores used critical reserved)).symm.trans hsum
  have hvalue : ∀ k n, (roundShares (exactShares scores used critical reserved) reserved).get? k =
      some n → k ∈ critical ∧
        n = ⌊exactShare scores used critical reserved k⌋₊ + if k ∈ extra then 1 else 0 := by
    intro k n hn
    rw [hget, get?_exactShares hnodup] at hn
    by_cases hk : k ∈ critical
    · rw [if_pos hk] at hn
      exact ⟨hk, (Option.some.inj hn).symm⟩
    · rw [if_neg hk] at hn
      cases hn
  refine ⟨fun k => ?_, fun k n hn => ?_, fun a b m n ha hb hm hn => ?_⟩
  · rw [OrdDict.mem_keys_iff, hget, get?_exactShares hnodup]
    by_cases hk : k ∈ critical <;> simp [hk]
  · obtain ⟨hk, rfl⟩ := hvalue k n hn
    by_cases hextra : k ∈ extra
    · have hceil := hlargest.ceil_eq (fun k _ => hnonneg k) htotal hextra
      rw [shareOf_exactShares hnodup hk] at hceil
      rw [if_pos hextra]
      exact .inr hceil
    · rw [if_neg hextra]
      exact .inl rfl
  · obtain ⟨hacritical, rfl⟩ := hvalue a m ha
    obtain ⟨hbcritical, rfl⟩ := hvalue b n hb
    have hin : a ∈ extra := by
      by_contra hout
      rw [if_neg hout] at hm
      exact lt_irrefl _ hm
    have hout : b ∉ extra := by
      intro hin
      rw [if_pos hin] at hn
      exact absurd hn (Nat.succ_ne_self _)
    have hmem : b ∈ (exactShares scores used critical reserved).keys.toFinset := by
      rw [keys_exactShares hnodup]
      exact List.mem_toFinset.mpr hbcritical
    have hle := hlargest.largest a hin b hmem hout
    rwa [loss_congr (shareOf_exactShares hnodup hbcritical),
      loss_congr (shareOf_exactShares hnodup hacritical)] at hle

/-- For scores of at least one and ratios of at most one the plan exists and is an exact
apportionment. -/
theorem partitionCapacity_apportioned (hscores : ∀ k v, scores.get? k = some v → 1 ≤ v)
    (himportance : ∀ k ∈ scores.keys, k ∈ importance.keys) (hreserve : reserveRatio ≤ 1) :
    ∃ plan, partitionCapacity scores importance used total reserveRatio criticalRatio = some plan ∧
      Apportioned scores importance used total reserveRatio criticalRatio plan := by
  have hnodup := criticalTypes_nodup scores importance criticalRatio
  have hlength := length_criticalTypes scores importance criticalRatio
  have hkeys : ∀ k ∈ criticalTypes scores importance criticalRatio, k ∈ scores.keys :=
    fun k hk => mem_keys_of_mem_criticalTypes hk
  have hgreatest := @criticalTypes_greatest scores importance criticalRatio
  unfold partitionCapacity
  dsimp only
  rw [if_neg (by simpa using himportance)]
  generalize criticalTypes scores importance criticalRatio = critical at *
  -- Neither division raises.
  have hdivides : ¬(critical ≠ [] ∧ ((critical.map fun k => (scores.get? k).getD 0).sum = 0 ∨
      (critical.map (typeWeight scores used
        (critical.map fun k => (scores.get? k).getD 0).sum)).sum = 0)) := by
    rintro ⟨hcritical, hzero | hzero⟩
    · exact (scoreSum_pos hscores hkeys hcritical).ne' hzero
    · exact (weightSum_pos hcritical).ne' hzero
  rw [if_neg hdivides]
  generalize hreserved : (if critical ≠ [] then ⌊(total : ℚ) * reserveRatio⌋₊ else 0) = reserved
  have hsum : (exactShares scores used critical reserved).sum (fun _ v => v) = reserved := by
    by_cases hcritical : critical = []
    · subst hcritical
      rw [if_neg (not_not.mpr rfl)] at hreserved
      rw [← hreserved, sum_shareOf, keys_exactShares hnodup]
      rfl
    · exact sum_exactShares hnodup hcritical
  have hrounded := sum_roundShares (shareOf_exactShares_nonneg hnodup) hsum
  obtain ⟨hreservedKeys, hround, hlargest⟩ := roundShares_exactShares hnodup hsum
  have hle : reserved ≤ total := by
    rw [← hreserved]
    split
    · refine Nat.floor_le_of_le ?_
      exact mul_le_of_le_one_right (Nat.cast_nonneg total) hreserve
    · exact Nat.zero_le total
  refine ⟨_, rfl, hnodup, hlength, hkeys, fun a ha b hb hother => hgreatest ha hb hother,
    hreservedKeys, ?_, ?_, ?_, ?_⟩
  · -- There are critical types as soon as there is any type.
    rw [hrounded, ← hreserved]
    by_cases hsize : scores.size = 0
    · have hnil : critical = [] := List.length_eq_zero_iff.mp (by omega)
      rw [if_neg (not_not.mpr hnil), if_pos hsize]
    · have hcritical : critical ≠ [] := fun hnil => by
        rw [hnil, List.length_nil] at hlength
        omega
      rw [if_pos hcritical, if_neg hsize]
  · dsimp only
    rw [hrounded]
    exact Nat.sub_add_cancel hle
  · dsimp only
    rw [hrounded]
    exact hround
  · dsimp only
    rw [hrounded]
    exact hlargest

def threeScores : OrdDict String ℚ := .ofList [("a", 2), ("b", 1), ("c", 1)]

def threeImportances : OrdDict String ℚ := .ofList [("a", 0), ("b", 1), ("c", 0)]

theorem threeTypes_critical : criticalTypes threeScores threeImportances (2 / 3) = ["a", "b"] := by
  rw [criticalTypes, List.mergeSort_of_pairwise (by decide +kernel)]
  decide +kernel

theorem threeTypes_exact : exactShares threeScores .empty ["a", "b"] 10 =
    .ofList [("a", 20 / 3), ("b", 10 / 3)] := by
  rw [exactShares, List.mergeSort_of_pairwise (by decide +kernel)]
  decide +kernel

theorem threeTypes_rounded : (roundShares (.ofList [("a", 20 / 3), ("b", 10 / 3)]) 10).entries =
    [("a", 7), ("b", 3)] := by
  rw [roundShares, List.mergeSort_of_pairwise (by decide +kernel)]
  decide +kernel

/-- Three types of which two are critical: the more important one of those with the same score is
critical, and the block that is left over goes to the largest fraction. -/
theorem threeTypes_apportioned : ∃ plan : CapacityPlan,
    partitionCapacity threeScores threeImportances .empty 21 (1 / 2) (2 / 3) = some plan ∧
    Apportioned threeScores threeImportances .empty 21 (1 / 2) (2 / 3) plan ∧
    plan.critical = ["a", "b"] ∧ plan.reserved.entries = [("a", 7), ("b", 3)] ∧
    plan.shared = 11 := by
  have hexists : ∃ plan,
      partitionCapacity threeScores threeImportances .empty 21 (1 / 2) (2 / 3) = some plan ∧
      Apportioned threeScores threeImportances .empty 21 (1 / 2) (2 / 3) plan := by
    refine partitionCapacity_apportioned (fun k v hv => ?_) (fun k hk => ?_) (by norm_num)
    · have hmem : (k, v) ∈ [("a", (2 : ℚ)), ("b", 1), ("c", 1)] := OrdDict.get?_eq_some_iff.mp hv
      simp only [List.mem_cons, Prod.mk.injEq, List.not_mem_nil, or_false] at hmem
      rcases hmem with ⟨-, rfl⟩ | ⟨-, rfl⟩ | ⟨-, rfl⟩ <;> norm_num
    · exact hk
  obtain ⟨plan, hplan, happortioned⟩ := hexists
  refine ⟨plan, hplan, happortioned, ?_⟩
  have hreserved : (if ["a", "b"] ≠ [] then ⌊((21 : ℕ) : ℚ) * (1 / 2)⌋₊ else 0) = 10 := by
    decide +kernel
  unfold partitionCapacity at hplan
  rw [if_neg (by decide +kernel)] at hplan
  dsimp only at hplan
  rw [threeTypes_critical, hreserved, threeTypes_exact] at hplan
  split at hplan
  · cases hplan
  · obtain rfl := Option.some.inj hplan
    exact ⟨rfl, threeTypes_rounded, rfl⟩

end Shares

end TokenCake.Capacity
