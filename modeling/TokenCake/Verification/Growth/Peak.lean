import Mathlib
import TokenCake.Verification.Growth.Serving

/-! # The commitment of a request and its peak

Blocks and growth of a request cover every later call as long as the caps of its groups hold. -/

namespace TokenCake.KV

variable {η : Type} [DecidableEq η]

open KVCacheManager

/-! ## Managers in use -/

section InUse

variable {config : KVCacheConfig} {m₀ M M' : KVCacheManager η}

theorem new_inUse (hnew : KVCacheManager.new config = .ok M)
    (hpositive : ∀ spec ∈ config.kvCacheGroups, spec.Positive) : InUse config M := by
  unfold KVCacheManager.new at hnew
  dsimp only at hnew
  split at hnew
  · obtain rfl := Except.ok.inj hnew
    refine ⟨?_, rfl, fun m hm => ?_⟩
    · exact ⟨by simp [BlockPool.new, nullBlock], fun key => by simp [BlockPool.new, cachedAt]⟩
    · obtain ⟨⟨spec, i⟩, hspec, rfl⟩ := List.mem_map.mp hm
      exact ⟨hpositive spec (List.fst_mem_of_mem_zipIdx hspec), rfl⟩
  · cases hnew

theorem InUse.perform (h : InUse config M) {op : CacheOp η} (hop : M.perform op = .ok M') :
    InUse config M' := by
  -- Every call spares some request.
  obtain ⟨id, hspares⟩ : ∃ id, op.Spares id := by
    cases op with
    | allocateSlots request args => exact (exists_ne request.requestId).imp fun _ h => h.symm
    | free request => exact (exists_ne request.requestId).imp fun _ h => h.symm
    | cacheBlocks | removeSkippedBlocks | evictBlocks | resetPrefixCache => exact ⟨"", trivial⟩
  obtain ⟨hpool, hlen, hrested⟩ := perform_rested h.reserved hspares hop
  refine ⟨hpool, hlen.trans h.maxModelLen_eq, ?_⟩
  exact forall₂_right hrested (fun m m' hm hm' => hm.same hm'.sameSpec) h.groups

/-- The request has been given its first slots, by a manager in use. -/
structure Admitted (config : KVCacheConfig) (s : ServedState η) : Prop where
  called : ∃ m₀ ops M args blocks, KVCacheManager.new config = .ok m₀ ∧
    Run (fun (m : KVCacheManager η) op m' => m.perform op = .ok m') m₀ ops M ∧
    M.allocateSlots s.request.toRequest args = .ok (s.manager, some blocks) ∧
    s.numAllocatedTokens = M.numTokensNeedSlot s.request.toRequest args
  computed_le : s.request.numComputedTokens ≤ s.numAllocatedTokens
  tokens_le : s.request.numTokens ≤ s.request.numPromptTokens + s.request.maxTokens

theorem Admitted.serving {s : ServedState η} (h : Admitted config s)
    (hpositive : ∀ spec ∈ config.kvCacheGroups, spec.Positive) : Serving config s := by
  obtain ⟨m₀, ops, M, args, blocks, hnew, hrun, hslots, hallocated⟩ := h.called
  have hinUse : InUse config M :=
    hrun.invariant (fun _ _ _ _ h hop => h.perform hop) (new_inUse hnew hpositive)
  obtain ⟨hpool, hlen, hcovers⟩ := allocateSlots_covers hinUse.reserved hslots
  refine ⟨⟨hpool, hlen.trans hinUse.maxModelLen_eq, ?_⟩, ?_, h.computed_le, h.tokens_le⟩
  · exact forall₂_right hcovers (fun m m' hm hm' => hm.same hm'.1.sameSpec) hinUse.groups
  · refine forall₂_right (P := fun _ => True) hcovers (fun m m' _ hm' => ?_) fun _ _ => trivial
    rw [hm'.1.sameSpec.blockSize_eq, hallocated]
    exact hm'.2

end InUse

/-! ## The blocks of a request -/

section Blocks

variable {M : KVCacheManager η} {id : String}

/-- No block is in two places of the tables of the request. -/
def Unshared (M : KVCacheManager η) (id : String) : Prop :=
  ((M.singleTypeManagers.flatMap (·.table id)).filter (· ≠ nullBlock)).Nodup

omit [DecidableEq η] in
theorem blockIds_eq : M.blockIds id =
    ((M.singleTypeManagers.flatMap (·.table id)).filter (· ≠ nullBlock)).toFinset := by
  ext b
  simp [blockIds, and_comm]

omit [DecidableEq η] in
theorem length_held : ((M.singleTypeManagers.flatMap (·.table id)).filter (· ≠ nullBlock)).length =
    (M.singleTypeManagers.map fun m => numHeld (m.table id)).sum := by
  rw [← List.countP_eq_length_filter, List.countP_flatMap]
  rfl

omit [DecidableEq η] in
theorem card_blockIds_le :
    (M.blockIds id).card ≤ (M.singleTypeManagers.map fun m => numHeld (m.table id)).sum := by
  rw [blockIds_eq, ← length_held]
  exact List.toFinset_card_le _

omit [DecidableEq η] in
theorem card_blockIds (h : Unshared M id) :
    (M.blockIds id).card = (M.singleTypeManagers.map fun m => numHeld (m.table id)).sum := by
  rw [blockIds_eq, ← length_held]
  exact List.toFinset_card_of_nodup h

end Blocks

/-! ## The commitment -/

section Commitment

variable {config : KVCacheConfig} {settings : GrowthSettings} {s₀ s s' : ServedState η}
  {before after : List (ServeAction η)}

/-- The commitment can be trusted: no block counts twice, and the cap of every group holds. -/
structure Committed (settings : GrowthSettings) (s : ServedState η) : Prop where
  unshared : Unshared s.manager s.request.requestId
  capHolds : ∀ m ∈ s.manager.singleTypeManagers,
    CapHolds m s.request.requestId (s.manager.admissionTokens settings s.request)

/-- The growth is the sum over the groups, also when it is not computed. -/
theorem Serving.remainingGrowth_eq (h : Serving config s)
    (hlookahead : settings.numLookaheadTokens = 0) :
    s.manager.remainingGrowth settings s.request =
      .ok (s.manager.singleTypeManagers.map fun m => groupGrowth m s.request.requestId
        (s.manager.admissionTokens settings s.request)).sum := by
  have hlimit : s.manager.admissionTokens settings s.request ≤ s.manager.maxModelLen :=
    Nat.min_le_right ..
  unfold remainingGrowth growthTo
  split
  · next hle =>
      -- All tokens are computed, and the tables have slots for them.
      refine congrArg Except.ok (List.sum_eq_zero fun n hn => ?_).symm
      obtain ⟨m, hm, rfl⟩ := List.mem_map.mp hn
      have hrequired : numRequired m (s.manager.admissionTokens settings s.request) ≤
          s.manager.admissionTokens settings s.request ⌈/⌉ m.blockSize := by
        unfold numRequired
        split
        · exact Nat.min_le_left ..
        · exact le_rfl
      have hmono : s.manager.admissionTokens settings s.request ⌈/⌉ m.blockSize ≤
          s.numAllocatedTokens ⌈/⌉ m.blockSize :=
        (gc_mul_ceilDiv m.spec.blockSize_pos).monotone_l (hle.trans h.computed_le)
      have hcovered := h.covered m hm
      unfold groupGrowth
      omega
  · rw [hlookahead, Nat.add_zero, Nat.min_eq_left hlimit]
    refine (growth_loop s.manager.blockPool s.manager.singleTypeManagers (fun m hm => ?_) 0).trans ?_
    · exact (h.inUse.groups m hm).slid_le h.computed_le (h.covered m hm)
    · rw [Nat.zero_add]

/-- What later calls leave true of the groups. -/
theorem Serving.within (h : Serving config s)
    (hreserve : settings.reserveGenerationTokens = true)
    (hafter : Run (fun s a t => serve settings config.maxNumBatchedTokens s a = some t) s after s') :
    s'.request.requestId = s.request.requestId ∧
      List.Forall₂ (Within s.request.requestId (s.manager.admissionTokens settings s.request))
        s.manager.singleTypeManagers s'.manager.singleTypeManagers := by
  have hmodel : s.manager.admissionTokens settings s.request ≤ config.maxModelLen :=
    h.inUse.maxModelLen_eq ▸ Nat.min_le_right ..
  have hrun := hafter.invariant (I := fun t => Serving config t ∧
      t.request.requestId = s.request.requestId ∧
      t.manager.admissionTokens settings t.request = s.manager.admissionTokens settings s.request ∧
      List.Forall₂ (Within s.request.requestId (s.manager.admissionTokens settings s.request))
        s.manager.singleTypeManagers t.manager.singleTypeManagers)
    (fun t a u _ ht hstep => by
      obtain ⟨hserving, hid, htokens, hwithin⟩ := ht
      obtain ⟨hserving', hstepped⟩ := hserving.step hreserve hstep
      have hmoved := hstepped.moved
      rw [hid, htokens] at hmoved
      refine ⟨hserving', hstepped.requestId_eq.trans hid, hstepped.tokens_eq.trans htokens, ?_⟩
      have hboth := (List.forall₂_and_left ..).mpr ⟨h.inUse.groups, hwithin⟩
      refine forall₂_comp (fun m₀ m m' hm hmove => ?_) hboth hmoved
      rcases hmove with hrested | ⟨computed, total, hserved, htotal, hbudget, hslid⟩
      · exact hm.2.rested hrested
      · exact hm.2.served hserved htotal hbudget hmodel hslid hm.1.positive hm.1.cap_eq)
    ⟨h, rfl, rfl, List.forall₂_same.mpr fun m _ => .refl m⟩
  exact ⟨hrun.2.1, hrun.2.2.2⟩

/-- If the commitment of an admitted request can be trusted, the blocks it holds and its growth
cover the blocks that it holds after any later calls. -/
theorem growth_covers_peak (hpositive : ∀ spec ∈ config.kvCacheGroups, spec.Positive)
    (hreserve : settings.reserveGenerationTokens = true)
    (hlookahead : settings.numLookaheadTokens = 0) (hadmitted : Admitted config s₀)
    (hbefore : Run (fun s a t => serve settings config.maxNumBatchedTokens s a = some t) s₀ before s)
    (hcommitted : Committed settings s)
    (hafter : Run (fun s a t => serve settings config.maxNumBatchedTokens s a = some t) s after s') :
    ∃ growth, s.manager.remainingGrowth settings s.request = .ok growth ∧
      (s'.manager.blockIds s'.request.requestId).card ≤
        (s.manager.blockIds s.request.requestId).card + growth := by
  have hserving : Serving config s := hbefore.invariant
    (fun _ _ _ _ h hstep => (h.step hreserve hstep).1) (hadmitted.serving hpositive)
  refine ⟨_, hserving.remainingGrowth_eq hlookahead, ?_⟩
  obtain ⟨hid, hwithin⟩ := hserving.within hreserve hafter
  rw [hid, card_blockIds hcommitted.unshared, ← List.sum_map_add]
  refine card_blockIds_le.trans ?_
  have hboth := (List.forall₂_and_left ..).mpr ⟨hcommitted.capHolds, hwithin⟩
  generalize s.manager.singleTypeManagers = ms at hboth
  generalize s'.manager.singleTypeManagers = ms' at hboth
  induction hboth with
  | nil => exact le_rfl
  | cons hm _ ih =>
      rw [List.map_cons, List.map_cons, List.sum_cons, List.sum_cons]
      exact Nat.add_le_add (hm.2.held_le_growth hm.1) ih

end Commitment

/-! ## A window that has slid -/

section Window

/-- A window of two tokens over blocks of two tokens; its cap is three blocks. -/
def slidingConfig : KVCacheConfig where
  numBlocks := 16
  kvCacheGroups := [⟨.slidingWindow 2, 2, Nat.zero_lt_two, 0⟩]
  maxModelLen := 64
  maxNumBatchedTokens := 2
  enableCaching := false
  hashBlockSize := 2

def fullReserve : GrowthSettings := { reserveGenerationTokens := true }

/-- A prompt of six tokens that generates up to four. -/
def sixTokens (numComputedTokens numTokens : ℕ) : GrowthRequest ℕ where
  requestId := "r"
  numComputedTokens := numComputedTokens
  numTokens := numTokens
  blockHashes := []
  numPromptTokens := 6
  maxTokens := 4

def callFor (numNewTokens : ℕ) : SlotArgs :=
  { numNewTokens := numNewTokens, newComputedBlocks := [[]] }

/-- The state after the first call. -/
def slidingStart : Option (ServedState ℕ) :=
  match KVCacheManager.new slidingConfig with
  | .ok m₀ =>
      match m₀.allocateSlots (sixTokens 0 6).toRequest (callFor 2) with
      | .ok (manager, some _) => some
          { manager := manager
            request := sixTokens 0 6
            numAllocatedTokens := m₀.numTokensNeedSlot (sixTokens 0 6).toRequest (callFor 2) }
      | _ => none
  | .error _ => none

/-- Two more chunks of the prompt and the first tokens of the output. -/
def slidingCalls : List (ServeAction ℕ) :=
  [.update (sixTokens 2 6), .allocate (callFor 2), .update (sixTokens 4 6), .allocate (callFor 2),
    .update (sixTokens 6 7), .allocate (callFor 1), .update (sixTokens 7 8), .allocate (callFor 1),
    .update (sixTokens 8 9)]

theorem slidingStart_admitted {s : ServedState ℕ} (h : slidingStart = some s) :
    Admitted slidingConfig s := by
  unfold slidingStart at h
  cases hnew : KVCacheManager.new (η := ℕ) slidingConfig with
  | error e => simp [hnew] at h
  | ok m₀ =>
      rw [hnew] at h
      dsimp only at h
      split at h
      · next hslots =>
          obtain rfl := Option.some.inj h
          exact ⟨⟨m₀, [], m₀, _, _, hnew, .nil _, hslots, rfl⟩, Nat.zero_le _, Nat.le_add_right 6 4⟩
      · cases h

/-- The run, with the blocks that the request holds at its points. -/
theorem sliding_run : ∃ s₀ s s' : ServedState ℕ, Admitted slidingConfig s₀ ∧
    Run (fun s a t => serve fullReserve 2 s a = some t) s₀ slidingCalls s ∧
    Run (fun s a t => serve fullReserve 2 s a = some t) s [.allocate (callFor 1)] s' ∧
    Committed fullReserve s₀ ∧
    (s.manager.remainingGrowth fullReserve s.request).toOption = some 0 ∧
    (s.manager.blockIds s.request.requestId).card = 1 ∧
    (s'.manager.blockIds s'.request.requestId).card = 2 := by
  have hrun : slidingStart.any (fun s₀ => (slidingCalls.foldlM (serve fullReserve 2) s₀).any
      fun s => ([ServeAction.allocate (callFor 1)].foldlM (serve fullReserve 2) s).any fun s' =>
        decide (s₀.manager.singleTypeManagers.map
            (fun m => (m.spec.kind, m.table s₀.request.requestId)) =
            [(.slidingWindow 2, [1])] ∧
          (s.manager.remainingGrowth fullReserve s.request).toOption = some 0 ∧
          (s.manager.blockIds s.request.requestId).card = 1 ∧
          (s'.manager.blockIds s'.request.requestId).card = 2)) = true := by
    decide +kernel
  obtain ⟨s₀, hs₀, hrest⟩ := (Option.any_eq_true ..).mp hrun
  obtain ⟨s, hs, hrest⟩ := (Option.any_eq_true ..).mp hrest
  obtain ⟨s', hs', hfacts⟩ := (Option.any_eq_true ..).mp hrest
  obtain ⟨hgroups, hgrowth, hcard, hcard'⟩ := of_decide_eq_true hfacts
  refine ⟨s₀, s, s', slidingStart_admitted hs₀, .of_foldlM (fun _ _ _ h => h) hs,
    .of_foldlM (fun _ _ _ h => h) hs', ⟨?_, fun m hm => ?_⟩, hgrowth, hcard, hcard'⟩
  · have htables := congrArg (List.map Prod.snd) hgroups
    rw [List.map_map] at htables
    rw [Unshared, List.flatMap, show s₀.manager.singleTypeManagers.map
      (fun m => m.table s₀.request.requestId) = [[1]] from htables]
    decide
  · have hgroup : (m.spec.kind, m.table s₀.request.requestId) ∈
        [(AttentionKind.slidingWindow 2, [1])] := hgroups ▸ List.mem_map_of_mem hm
    obtain ⟨hkind, htable⟩ := Prod.mk.inj (List.mem_singleton.mp hgroup)
    refine .inr (.inr ⟨?_, fun c hc => ?_⟩)
    · rw [htable]
      decide
    · rw [hkind] at hc
      cases hc

/-- The table of four blocks has one left, the cap of three leaves no growth, and the next token
takes a second block. -/
theorem slidWindow_exceeds_commitment : ∃ s₀ s s' : ServedState ℕ,
    Admitted slidingConfig s₀ ∧
    Run (fun s a t => serve fullReserve slidingConfig.maxNumBatchedTokens s a = some t) s₀
      slidingCalls s ∧
    Run (fun s a t => serve fullReserve slidingConfig.maxNumBatchedTokens s a = some t) s
      [.allocate (callFor 1)] s' ∧
    ¬∃ growth, s.manager.remainingGrowth fullReserve s.request = .ok growth ∧
      (s'.manager.blockIds s'.request.requestId).card ≤
        (s.manager.blockIds s.request.requestId).card + growth := by
  obtain ⟨s₀, s, s', hadmitted, hbefore, hafter, -, hzero, hcard, hcard'⟩ := sliding_run
  refine ⟨s₀, s, s', hadmitted, hbefore, hafter, ?_⟩
  rintro ⟨growth, hgrowth, hle⟩
  rw [hgrowth] at hzero
  obtain rfl : growth = 0 := Option.some.inj hzero
  omega

/-- After the first call nothing has slid yet, and the commitment covers the same run. -/
theorem firstBlock_covers_peak : ∃ s₀ s' : ServedState ℕ, Admitted slidingConfig s₀ ∧
    ∃ growth, s₀.manager.remainingGrowth fullReserve s₀.request = .ok growth ∧
      (s'.manager.blockIds s'.request.requestId).card = 2 ∧
      (s'.manager.blockIds s'.request.requestId).card ≤
        (s₀.manager.blockIds s₀.request.requestId).card + growth := by
  obtain ⟨s₀, s, s', hadmitted, hbefore, hafter, hcommitted, -, -, hcard'⟩ := sliding_run
  have hpositive : ∀ spec ∈ slidingConfig.kvCacheGroups, spec.Positive := by
    intro spec hspec
    obtain rfl := List.mem_singleton.mp hspec
    exact Nat.zero_lt_two
  obtain ⟨growth, hgrowth, hle⟩ := growth_covers_peak hpositive rfl rfl hadmitted (.nil s₀)
    hcommitted (hbefore.append hafter)
  exact ⟨s₀, s', hadmitted, growth, hgrowth, hcard', hle⟩

end Window

end TokenCake.KV
