import TokenCake.Verification.Capacity.Partition
import TokenCake.Verification.Control.Available
import TokenCake.Verification.Growth.Calls

/-! # The start of a step

`begin_step` does not fail: it adopts the blocks that are in use when the accounts become active,
and its plans share out all blocks. -/

namespace TokenCake.Control

open Capacity KV

/-- A plan for `total` blocks that reserves at most `limit` of them. -/
structure Planned (plan : CapacityPlan) (total limit : ℕ) : Prop where
  shared_add : plan.shared + plan.reserved.sum (fun _ n => n) = total
  reserved_le : plan.reserved.sum (fun _ n => n) ≤ limit
  critical : ∀ k, k ∈ plan.reserved.keys ↔ k ∈ plan.critical

section Partition

variable {scores importance : OrdDict String ℚ} {total limit : ℕ} {reserveRatio : ℚ}

/-- For scores of at least one there is a plan. -/
theorem partitionCapacity_planned (used : OrdDict String ℕ) (criticalRatio : ℚ)
    (hscores : ∀ k v, scores.get? k = some v → 1 ≤ v)
    (himportance : ∀ k ∈ scores.keys, k ∈ importance.keys)
    (hlimit : ⌊(total : ℚ) * reserveRatio⌋₊ ≤ limit) (hle : limit ≤ total) :
    ∃ plan, partitionCapacity scores importance used total reserveRatio criticalRatio = some plan ∧
      Planned plan total limit ∧ (∀ k ∈ plan.reserved.keys, k ∈ plan.scores.keys) ∧
      plan.scores = scores := by
  have hnodup := criticalTypes_nodup scores importance criticalRatio
  have hkeys : ∀ k ∈ criticalTypes scores importance criticalRatio, k ∈ scores.keys :=
    fun k hk => mem_keys_of_mem_criticalTypes hk
  unfold partitionCapacity
  dsimp only
  rw [if_neg (by simpa using himportance)]
  generalize criticalTypes scores importance criticalRatio = critical at hnodup hkeys ⊢
  rw [if_neg]
  · generalize hreserved : (if critical ≠ [] then ⌊(total : ℚ) * reserveRatio⌋₊ else 0) = reserved
    have hreserved' : reserved ≤ limit := by
      rw [← hreserved]
      split
      · exact hlimit
      · exact Nat.zero_le _
    have hsum : (exactShares scores used critical reserved).sum (fun _ v => v) = reserved := by
      by_cases hcritical : critical = []
      · subst hcritical
        rw [if_neg (not_not.mpr rfl)] at hreserved
        rw [← hreserved, sum_shareOf, keys_exactShares hnodup]
        rfl
      · exact sum_exactShares hnodup hcritical
    have hrounded := sum_roundShares (shareOf_exactShares_nonneg hnodup) hsum
    have hcritical := (roundShares_exactShares hnodup hsum).1
    refine ⟨_, rfl, ⟨?_, ?_, hcritical⟩, fun k hk => hkeys k ((hcritical k).mp hk), rfl⟩
    · dsimp only
      omega
    · dsimp only
      omega
  · -- Neither division raises.
    rintro ⟨hcritical, hzero | hzero⟩
    · exact (scoreSum_pos hscores hkeys hcritical).ne' hzero
    · exact (weightSum_pos hcritical).ne' hzero

end Partition

section Growth

variable {η : Type} {m : KVCacheManager η}

/-- Without hits the number of blocks to allocate is defined. -/
theorem getNumBlocksToAllocate_ok (m : KVCacheManager η) (requestId : String) (numTokens : ℕ)
    (numComputed : ℕ) (cap : Bool) :
    ∃ n, m.getNumBlocksToAllocate requestId numTokens (m.singleTypeManagers.map fun _ => [])
      numComputed cap = .ok n := by
  unfold KVCacheManager.getNumBlocksToAllocate
  generalize (0 : ℕ) = sum
  induction m.singleTypeManagers generalizing sum with
  | nil => exact ⟨sum, rfl⟩
  | cons group groups ih =>
      rw [List.map_cons, List.zip_cons_cons, List.foldlM_cons]
      have hone : ∃ n, group.getNumBlocksToAllocate m.blockPool requestId numTokens [] numComputed
          cap = .ok n := by
        unfold SingleTypeKVCacheManager.getNumBlocksToAllocate
        dsimp only
        split
        · exact ⟨_, rfl⟩
        · exact ⟨_, rfl⟩
      obtain ⟨n, hn⟩ := hone
      obtain ⟨total, htotal⟩ := ih (sum + n)
      refine ⟨total, ?_⟩
      dsimp only
      rw [hn]
      exact htotal

theorem growthTo_ok (m : KVCacheManager η) (settings : GrowthSettings) (request : GrowthRequest η)
    (fullTokens : ℕ) : ∃ n, m.growthTo settings request fullTokens = .ok n := by
  unfold KVCacheManager.growthTo
  split
  · exact ⟨0, rfl⟩
  · exact getNumBlocksToAllocate_ok ..

end Growth

namespace SchedulingController

variable {η : Type} {c : SchedulingController} {m : KVCacheManager η}

theorem growths_ok (c : SchedulingController) (m : KVCacheManager η)
    (fullTokens : GrowthRequest η → ℕ) (requests : List (GrowthRequest η)) :
    ∃ growths, c.growths m fullTokens requests = .ok growths := by
  unfold growths
  generalize OrdDict.empty = growths
  induction requests.filter fun request => c.admitted.contains request.requestId
    generalizing growths with
  | nil => exact ⟨growths, rfl⟩
  | cons request requests ih =>
      obtain ⟨n, hn⟩ := growthTo_ok m c.growthSettings request (fullTokens request)
      obtain ⟨result, hresult⟩ := ih (growths.insert request.requestId n)
      refine ⟨result, ?_⟩
      rw [List.foldlM_cons, hn]
      exact hresult

theorem recommit_ok (c : SchedulingController) (m : KVCacheManager η)
    (requests : List (GrowthRequest η)) :
    ∃ growthCommitments prefillGrowth, c.recommit m requests = .ok { c with
        growthCommitments := growthCommitments, prefillGrowth := prefillGrowth } ∧
      c.growths m (m.admissionTokens c.growthSettings) requests = .ok growthCommitments := by
  obtain ⟨growthCommitments, hgrowth⟩ := growths_ok c m (m.admissionTokens c.growthSettings)
    requests
  obtain ⟨inputs, hinputs⟩ := growths_ok c m (c.inputTokens m) requests
  refine ⟨growthCommitments,
    if c.progressReservation || c.reclaimReservation then inputs else c.prefillGrowth, ?_, hgrowth⟩
  unfold recommit
  rw [hgrowth, hinputs]
  dsimp only [bind, Except.bind]
  split <;> rfl

theorem recordGrowth_ok (c : SchedulingController) (m : KVCacheManager η)
    (request : GrowthRequest η) :
    ∃ growth prefillGrowth, c.recordGrowth m request = .ok { c with
        growthCommitments := c.growthCommitments.insert request.requestId growth
        prefillGrowth := prefillGrowth } ∧
      m.remainingGrowth c.growthSettings request = .ok growth := by
  obtain ⟨growth, hgrowth⟩ := growthTo_ok m c.growthSettings request
    (m.admissionTokens c.growthSettings request)
  obtain ⟨input, hinput⟩ := growthTo_ok m c.growthSettings request (c.inputTokens m request)
  have hremaining : m.remainingGrowth c.growthSettings request = .ok growth := hgrowth
  refine ⟨growth, if c.progressReservation || c.reclaimReservation then
    c.prefillGrowth.insert request.requestId input else c.prefillGrowth, ?_, hremaining⟩
  unfold recordGrowth
  rw [hremaining, hinput]
  dsimp only [bind, Except.bind, Except.mapError, Except.map]
  split <;> rfl

/-! ## The stages of a step -/

theorem admitRunning_eq (c : SchedulingController) (running : List (GrowthRequest η)) :
    c.admitRunning running = { c with
      admitted := running.foldl (fun admitted request =>
        if admitted.contains request.requestId then admitted
        else admitted.insert request.requestId 0) c.admitted
      prefillLimits := running.foldl (fun limits request =>
        if limits.contains request.requestId then limits
        else limits.insert request.requestId request.numTokens) c.prefillLimits } := by
  unfold admitRunning
  induction running generalizing c with
  | nil => rfl
  | cons request running ih => exact ih _

/-- The limit of all reservations. -/
def reservedLimit (c : SchedulingController) (m : KVCacheManager η) : ℕ :=
  ⌊((m.blockPool.numGpuBlocks - 1 : ℕ) : ℚ) * c.settings.reserveRatioMax⌋₊

theorem reservedLimit_le (c : SchedulingController) (m : KVCacheManager η) :
    c.reservedLimit m ≤ m.blockPool.numGpuBlocks - 1 := by
  refine Nat.floor_le_of_le ?_
  exact mul_le_of_le_one_right (Nat.cast_nonneg _) c.settings.reserveRatioMax_le

theorem adjustedRatio_bounds (c : SchedulingController) (m : KVCacheManager η) :
    c.settings.reserveRatioMin ≤ c.adjustedRatio m ∧
      c.adjustedRatio m ≤ c.settings.reserveRatioMax :=
  ⟨le_min c.settings.reserveRatio_le (le_max_left ..), min_le_left ..⟩

/-- A new plan shares out all blocks within the limit. -/
theorem replan_ok (c : SchedulingController) (m : KVCacheManager η) (inputs : StepInputs)
    (requests : List (GrowthRequest η)) :
    ∃ plan reserveRatio planned scored, c.replan m inputs requests = .ok { c with
        plan := plan, reserveRatio := reserveRatio, reservedAvailable := .empty
        planned := planned, scored := scored } ∧
      Planned plan (m.blockPool.numGpuBlocks - 1) (c.reservedLimit m) ∧
      c.settings.reserveRatioMin ≤ reserveRatio ∧ reserveRatio ≤ c.settings.reserveRatioMax := by
  obtain ⟨hmin, hmax⟩ := adjustedRatio_bounds c m
  have hlimit : ⌊((m.blockPool.numGpuBlocks - 1 : ℕ) : ℚ) * c.adjustedRatio m⌋₊ ≤
      c.reservedLimit m :=
    Nat.floor_le_floor (mul_le_mul_of_nonneg_left hmax (Nat.cast_nonneg _))
  have hscores : ∀ k v, ((c.typeStatistics m inputs requests).1.mapValues inputs.typeScore).get? k =
      some v → 1 ≤ v := by
    intro k v hv
    rw [OrdDict.get?_mapValues] at hv
    obtain ⟨importance, -, rfl⟩ := Option.map_eq_some_iff.mp hv
    exact inputs.typeScore_ge k importance
  have himportance : ∀ k ∈ ((c.typeStatistics m inputs requests).1.mapValues
      inputs.typeScore).keys, k ∈ (c.typeStatistics m inputs requests).1.keys := by
    intro k hk
    simpa [OrdDict.mapValues, OrdDict.keys] using hk
  obtain ⟨plan, hplan, hplanned, hscored, -⟩ := partitionCapacity_planned
    (c.typeStatistics m inputs requests).2 c.settings.criticalRatio hscores himportance hlimit
    (reservedLimit_le c m)
  unfold replan
  dsimp only
  rw [hplan]
  dsimp only
  rw [dif_pos hscored]
  exact ⟨plan, c.adjustedRatio m, hscored, _, rfl, hplanned, hmin, hmax⟩

/-- The controller before a step releases what is not in use. -/
structure Begun (c : SchedulingController) (m : KVCacheManager η)
    (waiting running : List (GrowthRequest η)) (x : SchedulingController) : Prop where
  active : x.accountingActive = true
  charges_eq : x.charges = (c.adopt m (waiting ++ running)).charges
  settings_eq : x.settings = c.settings
  precheck_eq : x.cacheCapacityPrecheck = c.cacheCapacityPrecheck
  lookahead_eq : x.numLookaheadTokens = c.numLookaheadTokens
  ratio : x.reserveRatio = c.reserveRatio ∨
    c.settings.reserveRatioMin ≤ x.reserveRatio ∧ x.reserveRatio ≤ c.settings.reserveRatioMax
  plan : x.plan = c.plan ∧ c.plan.scores.keys ≠ [] ∨
    Planned x.plan (m.blockPool.numGpuBlocks - 1) (c.reservedLimit m)
  admitted_eq : x.admitted = (c.admitRunning running).admitted
  growth : (c.admitRunning running).growths m (m.admissionTokens c.growthSettings)
    (waiting ++ running) = .ok x.growthCommitments

theorem adopt_eq (c : SchedulingController) (m : KVCacheManager η)
    (requests : List (GrowthRequest η)) : c.adopt m requests = { c with
      charges := (c.adopt m requests).charges
      accountingActive := true } := by
  unfold adopt
  split
  · next hactive =>
      rw [← hactive]
  · rfl

theorem adopt_charges_congr {c c' : SchedulingController}
    (hactive : c'.accountingActive = c.accountingActive) (hcharges : c'.charges = c.charges)
    (m : KVCacheManager η) (requests : List (GrowthRequest η)) :
    (c'.adopt m requests).charges = (c.adopt m requests).charges := by
  unfold adopt
  rw [hactive]
  split
  · exact hcharges
  · dsimp only
    rw [hcharges]

/-- The stage that may make a plan. -/
theorem planStep_ok (c : SchedulingController) (m : KVCacheManager η) (inputs : StepInputs)
    (requests : List (GrowthRequest η)) :
    ∃ plan reserveRatio reserved planned scored, c.planStep m inputs requests = .ok { c with
        plan := plan, reserveRatio := reserveRatio, reservedAvailable := reserved
        planned := planned, scored := scored } ∧
      (reserveRatio = c.reserveRatio ∨ c.settings.reserveRatioMin ≤ reserveRatio ∧
        reserveRatio ≤ c.settings.reserveRatioMax) ∧
      (plan = c.plan ∧ c.plan.scores.keys ≠ [] ∨
        Planned plan (m.blockPool.numGpuBlocks - 1) (c.reservedLimit m)) := by
  unfold planStep
  split
  · obtain ⟨plan, reserveRatio, planned, scored, hplan, hplanned, hbounds⟩ :=
      replan_ok c m inputs requests
    exact ⟨plan, reserveRatio, .empty, planned, scored, hplan, .inr hbounds, .inr hplanned⟩
  · next hkeep =>
      rw [not_or] at hkeep
      exact ⟨c.plan, c.reserveRatio, c.reservedAvailable, c.planned, c.scored, rfl, .inl rfl,
        .inl ⟨rfl, hkeep.1⟩⟩

theorem beginStep_idle (inputs : StepInputs) (waiting running : List (GrowthRequest η))
    (h : c.metadata.keys = []) :
    c.beginStep m inputs waiting running = .ok (c.startStep.clear, false) := by
  unfold beginStep
  rw [if_pos h]
  rfl

/-- A step with annotated work does not fail. -/
theorem beginStep_begun (inputs : StepInputs) (waiting running : List (GrowthRequest η))
    (h : c.metadata.keys ≠ []) : ∃ x, c.beginStep m inputs waiting running =
      .ok (x.release m, true) ∧ Begun c m waiting running x := by
  unfold beginStep
  rw [if_neg h]
  dsimp only
  obtain ⟨growth, prefill, hrecommit, hgrowth⟩ :=
    recommit_ok (c.startStep.admitRunning running) m (waiting ++ running)
  rw [hrecommit]
  have hstart := admitRunning_eq c.startStep running
  have hadmit := admitRunning_eq c running
  dsimp only [Except.mapError, bind, Except.bind]
  generalize c.startStep.admitRunning running = started at *
  -- The stages before the adoption leave the accounts and the plan alone.
  generalize hcounted : (({ started with
    growthCommitments := growth, prefillGrowth := prefill } : SchedulingController).scoreRequests
      inputs (waiting ++ running)).countStep = counted
  have hsettings : counted.settings = c.settings := by
    rw [← hcounted]
    exact congrArg (·.settings) hstart
  have hprecheck : counted.cacheCapacityPrecheck = c.cacheCapacityPrecheck := by
    rw [← hcounted]
    exact congrArg (·.cacheCapacityPrecheck) hstart
  have hlookahead : counted.numLookaheadTokens = c.numLookaheadTokens := by
    rw [← hcounted]
    exact congrArg (·.numLookaheadTokens) hstart
  have hactive : counted.accountingActive = c.accountingActive := by
    rw [← hcounted]
    exact congrArg (·.accountingActive) hstart
  have hcharges : counted.charges = c.charges := by
    rw [← hcounted]
    exact congrArg (·.charges) hstart
  have hplan : counted.plan = c.plan := by
    rw [← hcounted]
    exact congrArg (·.plan) hstart
  have hratio : counted.reserveRatio = c.reserveRatio := by
    rw [← hcounted]
    exact congrArg (·.reserveRatio) hstart
  have hadmitted : counted.admitted = (c.admitRunning running).admitted := by
    rw [← hcounted, hadmit]
    exact congrArg (·.admitted) hstart
  have hgrowth' : (c.admitRunning running).growths m (m.admissionTokens c.growthSettings)
      (waiting ++ running) = .ok counted.growthCommitments := by
    rw [← hcounted, hadmit]
    rw [hstart] at hgrowth
    exact hgrowth
  rw [adopt_eq counted]
  obtain ⟨plan, reserveRatio, reserved, planned, scored, hplanned, hratio', hplan'⟩ := planStep_ok
    (collectWaiting { counted with
      charges := (counted.adopt m (waiting ++ running)).charges
      accountingActive := true } waiting) m inputs (waiting ++ running)
  rw [hplanned]
  refine ⟨_, rfl, rfl, adopt_charges_congr hactive hcharges m (waiting ++ running), hsettings,
    hprecheck, hlookahead, ?_, ?_, hadmitted, hgrowth'⟩
  · rw [← hratio, ← hsettings]
    exact hratio'
  · unfold reservedLimit at hplan' ⊢
    rw [← hplan, ← hsettings]
    exact hplan'

end SchedulingController

end TokenCake.Control
