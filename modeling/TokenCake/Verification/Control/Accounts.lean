import TokenCake.Verification.Control.Calls

/-! # The accounts of the controller

`release` and `commit` bring the accounts up to date with the blocks that are in use; what the
manager frees in between leaves charges behind. A block without a charge comes only from a step that
starts the accounts and does not see its request. -/

namespace TokenCake.Control

open Capacity KV KVCacheManager

namespace SchedulingController

variable {η : Type} {c c' : SchedulingController} {m m' : KVCacheManager η}

/-- The accounts add up and lie within the plan. -/
structure Accounts (c : SchedulingController) (m : KVCacheManager η) : Prop where
  counted : c.Counted
  idle : c.accountingActive = false → c.charges.keys = []
  charged : ∀ b ∈ c.charges.keys, b ≠ nullBlock
  bounded : c.accountingActive = true → c.Bounded
  planned : c.accountingActive = true ∨ c.plan.scores.keys ≠ [] →
    Planned c.plan (m.blockPool.numGpuBlocks - 1) (c.reservedLimit m)
  ratio_ge : c.settings.reserveRatioMin ≤ c.reserveRatio
  ratio_le : c.reserveRatio ≤ c.settings.reserveRatioMax

/-- Every block in use is charged. -/
def Covers (c : SchedulingController) (m : KVCacheManager η) : Prop :=
  c.accountingActive = true → ∀ b, Occupied m.blockPool b → b ∈ c.charges.keys

/-- What is available has just been computed. -/
def Settled (c : SchedulingController) (m : KVCacheManager η) : Prop :=
  c.totalAvailable = min c.totalUnused (max 0 (c.uncommittedBlocks m))

/-- Exactly the blocks in use are charged. -/
def Exact (c : SchedulingController) (m : KVCacheManager η) : Prop :=
  ∀ b, b ∈ c.charges.keys ↔ Occupied m.blockPool b

/-! ## Calls that leave the accounts alone -/

/-- What a controller keeps for its whole life. -/
structure SameSetup (c c' : SchedulingController) : Prop where
  settings_eq : c'.settings = c.settings
  precheck_eq : c'.cacheCapacityPrecheck = c.cacheCapacityPrecheck
  lookahead_eq : c'.numLookaheadTokens = c.numLookaheadTokens

theorem SameSetup.trans {c'' : SchedulingController} (h : SameSetup c c') (h' : SameSetup c' c'') :
    SameSetup c c'' :=
  ⟨h'.settings_eq.trans h.settings_eq, h'.precheck_eq.trans h.precheck_eq,
    h'.lookahead_eq.trans h.lookahead_eq⟩

theorem SameSetup.progress_eq (h : SameSetup c c') :
    c'.progressReservation = c.progressReservation := by
  unfold progressReservation
  rw [h.settings_eq, h.precheck_eq]

theorem Begun.setup {waiting running : List (GrowthRequest η)} (h : Begun c m waiting running c') :
    SameSetup c c' :=
  ⟨h.settings_eq, h.precheck_eq, h.lookahead_eq⟩

theorem SameBooks.setup (h : SameBooks c c') : SameSetup c c' := by
  obtain ⟨_, _, _, _, _, rfl⟩ := h
  exact ⟨rfl, rfl, rfl⟩

/-- The two controllers have the same accounts. -/
structure SameAccounts (c c' : SchedulingController) : Prop extends SameSetup c c' where
  charges_eq : c'.charges = c.charges
  used_eq : c'.used = c.used
  plan_eq : c'.plan = c.plan
  ratio_eq : c'.reserveRatio = c.reserveRatio
  active_eq : c'.accountingActive = c.accountingActive
  shared_eq : c'.sharedAvailable = c.sharedAvailable
  reserved_eq : c'.reservedAvailable = c.reservedAvailable

theorem SameAccounts.refl (c : SchedulingController) : SameAccounts c c :=
  ⟨⟨rfl, rfl, rfl⟩, rfl, rfl, rfl, rfl, rfl, rfl, rfl⟩

theorem SameAccounts.bounded (h : SameAccounts c c') (hbounded : c.Bounded) : c'.Bounded := by
  have hshared : c'.unusedShared = c.unusedShared := by
    unfold unusedShared
    rw [h.plan_eq, h.used_eq]
  have hreserved : c'.unusedReserved = c.unusedReserved := by
    unfold unusedReserved
    rw [h.plan_eq, h.used_eq]
  constructor
  case shared_nonneg => exact h.shared_eq ▸ hbounded.shared_nonneg
  case shared_le => exact h.shared_eq ▸ hshared ▸ hbounded.shared_le
  case mem_keys => exact h.reserved_eq ▸ h.plan_eq ▸ hbounded.mem_keys
  case reserved_nonneg => exact h.reserved_eq ▸ hbounded.reserved_nonneg
  case reserved_le => exact h.reserved_eq ▸ hreserved ▸ hbounded.reserved_le

theorem SameAccounts.reservedLimit_eq (h : SameAccounts c c') (m : KVCacheManager η) :
    c'.reservedLimit m = c.reservedLimit m := by
  unfold reservedLimit
  rw [h.settings_eq]

theorem Accounts.same (h : Accounts c m) (hsame : SameAccounts c c') : Accounts c' m where
  counted := by
    intro owner
    rw [hsame.used_eq, hsame.charges_eq]
    exact h.counted owner
  idle hactive := by
    rw [hsame.charges_eq]
    exact h.idle (hsame.active_eq ▸ hactive)
  charged := hsame.charges_eq ▸ h.charged
  bounded hactive := hsame.bounded (h.bounded (hsame.active_eq ▸ hactive))
  planned hplan := by
    rw [hsame.active_eq, hsame.plan_eq] at hplan
    rw [hsame.plan_eq, hsame.reservedLimit_eq]
    exact h.planned hplan
  ratio_ge := hsame.ratio_eq ▸ hsame.settings_eq ▸ h.ratio_ge
  ratio_le := hsame.ratio_eq ▸ hsame.settings_eq ▸ h.ratio_le

theorem Covers.same (h : Covers c m) (hsame : SameAccounts c c') : Covers c' m := by
  intro hactive b hb
  rw [hsame.charges_eq]
  exact h (hsame.active_eq ▸ hactive) b hb

/-- The accounts do not depend on what the manager does with its blocks. -/
theorem Accounts.manager (h : Accounts c m)
    (hnum : m'.blockPool.numGpuBlocks = m.blockPool.numGpuBlocks) : Accounts c m' where
  counted := h.counted
  idle := h.idle
  charged := h.charged
  bounded := h.bounded
  planned := by
    unfold reservedLimit
    rw [hnum]
    exact h.planned
  ratio_ge := h.ratio_ge
  ratio_le := h.ratio_le

/-- The manager may free blocks. -/
theorem Covers.returned (h : Covers c m) (hreturned : Returned m.blockPool m'.blockPool) :
    Covers c m' :=
  fun hactive b hb => h hactive b (hreturned.occupied hb)

/-! ## Committed accounts -/

theorem mem_chargeable {blocks : List BlockId} {b : BlockId} :
    b ∈ c.chargeable blocks ↔ b ∈ blocks ∧ b ≠ nullBlock ∧ b ∉ c.charges.keys := by
  unfold chargeable
  rw [List.mem_insertionSort, List.mem_filter, List.mem_dedup, Bool.and_eq_true,
    decide_eq_true_iff, OrdDict.contains, Bool.not_eq_true', decide_eq_false_iff_not]

theorem nodup_chargeable (blocks : List BlockId) : (c.chargeable blocks).Nodup := by
  unfold chargeable
  exact (List.perm_insertionSort ..).nodup_iff.mpr ((List.nodup_dedup _).filter _)

/-- There is capacity for so many new blocks of a request, or the request goes on without. -/
def Affords (c : SchedulingController) (requestId : String) (running borrowReserved : Bool)
    (count : ℕ) : Prop :=
  (c.capacity.consumption requestId borrowReserved count).isSome = true ∨
    running = true ∨ c.admitted.contains requestId = true

/-- What `commit` charges adds up and can be charged. -/
theorem usageOf_spec (hbounded : c.Bounded) {total limit : ℕ}
    (hplanned : Planned c.plan total limit) (requestId : String)
    (running borrowReserved : Bool) (count : ℕ) :
    Ensures (fun e => e = .exceededCapacity ∧ ¬c.Affords requestId running borrowReserved count)
      (fun usage => (∀ e ∈ usage, 0 ≤ e.2) ∧ (usage.map Prod.snd).sum = (count : ℤ) ∧
        ∀ e ∈ usage, ∀ k, e.1 = some k → k ∈ c.reservedAvailable.keys)
      (c.usageOf requestId running borrowReserved count) := by
  unfold usageOf Affords
  have hsettled := CapacityState.settled_consumption hbounded.nonneg requestId borrowReserved count
  cases hconsumption : c.capacity.consumption requestId borrowReserved count with
  | none =>
      dsimp only
      split
      · exact Ensures.ok ⟨by simp, by simp, by simp⟩
      · next hrefused =>
          rw [Bool.or_eq_true] at hrefused
          exact Ensures.error ⟨rfl, fun hor => hor.elim (by simp) hrefused⟩
  | some usage =>
      rw [hconsumption] at hsettled
      have husage := hsettled.1 usage rfl
      refine Ensures.ok ⟨fun e he => (husage.bounds e he).1, husage.sum_eq, fun e he k hk => ?_⟩
      rcases consumption_owners hconsumption e he k hk with hreserved | hcritical
      · exact hreserved
      · exact (hbounded.mem_keys k).mpr ((hplanned.critical k).mpr hcritical)

/-- The controller after `commit`. -/
structure Committed (c : SchedulingController) (m : KVCacheManager η) (request : GrowthRequest η)
    (blockIds : List BlockId) (c' : SchedulingController) : Prop where
  counted : c'.Counted
  bounded : c'.Bounded
  settled : c'.Settled m
  mem_charges : ∀ b, b ∈ c'.charges.keys ↔ b ∈ c.chargeable blockIds ∨ b ∈ c.charges.keys
  setup : SameSetup c c'
  plan_eq : c'.plan = c.plan
  ratio_eq : c'.reserveRatio = c.reserveRatio
  active_eq : c'.accountingActive = c.accountingActive
  admitted : ∃ n, c'.admitted = c.admitted.insert request.requestId n
  growth : ∃ n, c'.growthCommitments = c.growthCommitments.insert request.requestId n ∧
    m.remainingGrowth c.growthSettings request = .ok n

/-- `commit` charges the new blocks, or there is no capacity for them. -/
theorem commit_committed (hcounted : c.Counted) (hbounded : c.Bounded) {total limit : ℕ}
    (hplanned : Planned c.plan total limit) (m : KVCacheManager η) (request : GrowthRequest η)
    (newBlocks : Option (List (List BlockId))) (borrowReserved : Bool) :
    Ensures (fun e => e = .exceededCapacity ∧
        ¬c.Affords request.requestId newBlocks.isSome borrowReserved
          (c.chargeable (committedIds m request.requestId newBlocks)).length)
      (Committed c m request (committedIds m request.requestId newBlocks))
      (c.commit m request newBlocks borrowReserved) := by
  unfold commit
  generalize committedIds m request.requestId newBlocks = blockIds
  have hspec := usageOf_spec hbounded hplanned request.requestId newBlocks.isSome borrowReserved
    (c.chargeable blockIds).length
  dsimp only
  cases husage : c.usageOf request.requestId newBlocks.isSome borrowReserved
      (c.chargeable blockIds).length with
  | error e => exact Ensures.error (hspec.of_eq_error husage)
  | ok usage =>
      obtain ⟨hnonneg, hsum, howners⟩ := hspec.of_eq_ok husage
      obtain ⟨charged, hcharged, hsame, hcharges, hmem⟩ := charge_spec hcounted hnonneg hsum howners
        (nodup_chargeable blockIds) fun b hb => (mem_chargeable.mp hb).2.2
      obtain ⟨growth, prefillGrowth, hrecorded, hgrowth⟩ :=
        recordGrowth_ok (charged.recordAdmission request) m request
      dsimp only [bind, Except.bind]
      rw [hcharged]
      dsimp only
      rw [hrecorded]
      obtain ⟨_, _, _, _, _, rfl⟩ := hsame
      obtain ⟨hfinal, htotal⟩ := updateAvailable_bounded _ m
      exact Ensures.ok ⟨hcharges, hfinal, htotal, hmem, ⟨rfl, rfl, rfl⟩, rfl, rfl, rfl, ⟨_, rfl⟩,
        growth, rfl, hgrowth⟩

/-- The accounts after `commit`. -/
theorem Accounts.commit (h : Accounts c m) (hactive : c.accountingActive = true)
    (hnum : m'.blockPool.numGpuBlocks = m.blockPool.numGpuBlocks) {request : GrowthRequest η}
    {blockIds : List BlockId} (hcommitted : Committed c m' request blockIds c') :
    Accounts c' m' where
  counted := hcommitted.counted
  idle hidle := by
    rw [hcommitted.active_eq, hactive] at hidle
    cases hidle
  charged b hb := by
    rcases (hcommitted.mem_charges b).mp hb with hnew | hold
    · exact (mem_chargeable.mp hnew).2.1
    · exact h.charged b hold
  bounded _ := hcommitted.bounded
  planned _ := by
    unfold reservedLimit
    rw [hcommitted.plan_eq, hcommitted.setup.settings_eq, hnum]
    exact h.planned (.inl hactive)
  ratio_ge := by
    rw [hcommitted.setup.settings_eq, hcommitted.ratio_eq]
    exact h.ratio_ge
  ratio_le := by
    rw [hcommitted.setup.settings_eq, hcommitted.ratio_eq]
    exact h.ratio_le

/-- `commit` has seen every block that came into use. -/
theorem Committed.covers {request : GrowthRequest η} {blockIds : List BlockId}
    (h : Committed c m request blockIds c')
    (hseen : ∀ b, Occupied m.blockPool b → b ∈ c.charges.keys ∨ b ∈ blockIds) : c'.Covers m := by
  intro _ b hb
  rw [h.mem_charges, mem_chargeable]
  have := hseen b hb
  have := hb.1
  tauto

/-! ## Released accounts -/

theorem SameBooks.reservedLimit_eq (h : SameBooks c c') (m : KVCacheManager η) :
    c'.reservedLimit m = c.reservedLimit m := by
  unfold reservedLimit
  rw [h.setup.settings_eq]

theorem Accounts.update (h : Accounts c m) :
    Accounts (c.updateAvailable m) m ∧ (c.updateAvailable m).Settled m := by
  obtain ⟨hbounded, htotal⟩ := updateAvailable_bounded c m
  exact ⟨⟨h.counted, h.idle, h.charged, fun _ => hbounded, h.planned, h.ratio_ge, h.ratio_le⟩,
    htotal⟩

/-- `release` makes accounts that add up. -/
theorem release_accounts (hactive : c.accountingActive = true)
    (hcharged : ∀ b ∈ c.charges.keys, b ≠ nullBlock)
    (hplanned : Planned c.plan (m.blockPool.numGpuBlocks - 1) (c.reservedLimit m))
    (hmin : c.settings.reserveRatioMin ≤ c.reserveRatio)
    (hmax : c.reserveRatio ≤ c.settings.reserveRatioMax) :
    Accounts (c.release m) m ∧ (c.release m).Settled m := by
  obtain ⟨hsame, hcounted, hbounded, htotal, hmem⟩ := release_released (m := m) hactive
  refine ⟨⟨hcounted, fun hidle => ?_, fun b hb => hcharged b ((hmem b).mp hb).1,
    fun _ => hbounded, fun _ => ?_, ?_, ?_⟩, htotal⟩
  · rw [hsame.active_eq, hactive] at hidle
    cases hidle
  · rw [hsame.plan_eq, hsame.reservedLimit_eq]
    exact hplanned
  · rw [hsame.setup.settings_eq, hsame.ratio_eq]
    exact hmin
  · rw [hsame.setup.settings_eq, hsame.ratio_eq]
    exact hmax

theorem Accounts.release (h : Accounts c m) : Accounts (c.release m) m ∧
    (c.accountingActive = true → (c.release m).Settled m) := by
  cases hactive : c.accountingActive with
  | false =>
      rw [release_inactive hactive]
      exact ⟨h, fun hfalse => Bool.noConfusion hfalse⟩
  | true =>
      obtain ⟨haccounts, hsettled⟩ := release_accounts hactive h.charged (h.planned (.inl hactive))
        h.ratio_ge h.ratio_le
      exact ⟨haccounts, fun _ => hsettled⟩

theorem Exact.covers (h : Exact c m) : Covers c m := fun _ b hb => (h b).mpr hb

variable [DecidableEq η]

/-- Charges for every block in use are enough for `release` to make exact accounts. -/
theorem Covers.release_exact (h : Covers c m) (hmanaged : m.Managed)
    (hcharged : ∀ b ∈ c.charges.keys, b ≠ nullBlock) (hactive : c.accountingActive = true) :
    (c.release m).Exact m := by
  obtain ⟨-, -, -, -, hmem⟩ := release_released (m := m) hactive
  intro b
  rw [hmem]
  constructor
  · rintro ⟨hb, hpos⟩
    exact (hmanaged.occupied_iff (hcharged b hb)).mpr hpos
  · intro hb
    exact ⟨h hactive b hb, (hmanaged.occupied_iff hb.1).mp hb⟩

theorem Covers.release (h : Covers c m) (hmanaged : m.Managed)
    (hcharged : ∀ b ∈ c.charges.keys, b ≠ nullBlock) : (c.release m).Covers m := by
  cases hactive : c.accountingActive with
  | false =>
      rw [release_inactive hactive]
      exact h
  | true => exact (h.release_exact hmanaged hcharged hactive).covers

end SchedulingController

end TokenCake.Control
