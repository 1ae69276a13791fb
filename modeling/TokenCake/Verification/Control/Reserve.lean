import TokenCake.Verification.Control.Correctness
import TokenCake.Verification.Control.Outstanding

/-! # The reserve of the admitted requests

With full attention only, while the whole generation of every admitted request is committed, the
free blocks cover all commitments, and no admitted request is refused a block. -/

namespace TokenCake.Control

open Capacity KV KVCacheManager SchedulingController

variable {η β : Type} {hash : η → β → η} {base : η}

/-! ## Commitments -/

namespace SchedulingController

variable {c c' : SchedulingController} {m m' : KVCacheManager η} {request : GrowthRequest η}
  {limit : ℕ} {id : String}

/-- The settings under which the whole generation is committed. -/
structure ReservesAll (c : SchedulingController) : Prop where
  reserves : c.settings.reserveGenerationTokens = true
  mode_eq : c.settings.generationReserveMode = .all
  lookahead_eq : c.numLookaheadTokens = 0

theorem ReservesAll.setup (h : ReservesAll c) (hsetup : SameSetup c c') : ReservesAll c' where
  reserves := hsetup.settings_eq ▸ h.reserves
  mode_eq := hsetup.settings_eq ▸ h.mode_eq
  lookahead_eq := hsetup.lookahead_eq.trans h.lookahead_eq

theorem ReservesAll.progress_eq (h : ReservesAll c) : c.progressReservation = false := by
  simp [progressReservation, h.mode_eq]

theorem ReservesAll.reclaim_eq (h : ReservesAll c) : c.reclaimReservation = false := by
  simp [reclaimReservation, h.mode_eq]

theorem ReservesAll.committedBlocks_eq (h : ReservesAll c) :
    c.committedBlocks = c.growthCommitments.sum fun _ n => n := by
  simp [committedBlocks, h.progress_eq, h.reclaim_eq]

theorem admissionTokens_le (m : KVCacheManager η) (settings : GrowthSettings)
    (request : GrowthRequest η) : m.admissionTokens settings request ≤ m.maxModelLen :=
  min_le_right ..

/-- What a request with slots for its computed tokens commits is what it lacks. -/
theorem ReservesAll.growthTo_eq (h : ReservesAll c)
    (hfull : ∀ g ∈ m.singleTypeManagers, FullAttention g)
    (hmodel : limit ≤ m.maxModelLen)
    (hcovered : limit ≤ request.numComputedTokens → ∀ g ∈ m.singleTypeManagers,
      limit ⌈/⌉ g.blockSize ≤ (g.table request.requestId).length) :
    m.growthTo c.growthSettings request limit = .ok (m.outstanding request.requestId limit) := by
  unfold growthTo
  split
  · next hle =>
      have hzero : m.outstanding request.requestId limit = 0 := by
        refine List.sum_eq_zero fun n hn => ?_
        obtain ⟨g, hg, rfl⟩ := List.mem_map.mp hn
        exact Nat.sub_eq_zero_of_le (hcovered hle g hg)
      rw [hzero]
  · have htokens : min (limit + c.growthSettings.numLookaheadTokens) m.maxModelLen = limit := by
      unfold growthSettings
      rw [h.lookahead_eq, Nat.add_zero]
      exact min_eq_left hmodel
    rw [htokens, getNumBlocksToAllocate_total (.nil m request.requestId), totalNeeded_nil hfull]

/-- A comprehension of growths has an entry for every admitted request of the list. -/
theorem growths_get? {fullTokens : GrowthRequest η → ℕ} {requests : List (GrowthRequest η)}
    {f : String → ℕ} (hgrowth : ∀ request ∈ requests, c.admitted.contains request.requestId = true →
      m.growthTo c.growthSettings request (fullTokens request) = .ok (f request.requestId))
    {done : OrdDict String ℕ} (h : c.growths m fullTokens requests = .ok done) (id : String) :
    done.get? id = if id ∈ (requests.filter fun request =>
      c.admitted.contains request.requestId).map (·.requestId) then some (f id) else none := by
  have hloop : ∀ (requests : List (GrowthRequest η)) (done : OrdDict String ℕ),
      (∀ request ∈ requests, m.growthTo c.growthSettings request (fullTokens request) =
        .ok (f request.requestId)) →
      requests.foldlM (fun growths request => (m.growthTo c.growthSettings request
        (fullTokens request)).map (growths.insert request.requestId)) done =
        (.ok ((requests.map fun request => (request.requestId, f request.requestId)).foldl
          (fun growths e => growths.insert e.1 e.2) done) : Except KVError _) := by
    intro requests
    induction requests with
    | nil => exact fun done _ => rfl
    | cons request requests ih =>
        intro done hall
        obtain ⟨hfirst, hrest⟩ := List.forall_mem_cons.mp hall
        rw [List.foldlM_cons, hfirst]
        exact ih (done.insert request.requestId (f request.requestId)) hrest
  unfold growths at h
  rw [hloop _ _ fun request hrequest => ?_] at h
  · obtain rfl := Except.ok.inj h
    have hofList := OrdDict.get?_ofList_map ((requests.filter fun request =>
      c.admitted.contains request.requestId).map (·.requestId)) f id
    rw [List.map_map] at hofList
    exact hofList
  · obtain ⟨hmem, hadmitted⟩ := List.mem_filter.mp hrequest
    exact hgrowth request hmem hadmitted

/-- Running requests that are admitted add nothing. -/
theorem admitRunning_admitted {running : List (GrowthRequest η)}
    (h : ∀ request ∈ running, request.requestId ∈ c.admitted.keys) :
    (c.admitRunning running).admitted = c.admitted := by
  rw [admitRunning_eq]
  dsimp only
  induction running with
  | nil => rfl
  | cons request running ih =>
      obtain ⟨hfirst, hrest⟩ := List.forall_mem_cons.mp h
      rw [List.foldl_cons, if_pos (by simpa [OrdDict.contains] using hfirst)]
      exact ih hrest

theorem release_commitments (c : SchedulingController) (m : KVCacheManager η) :
    (c.release m).growthCommitments = c.growthCommitments ∧
      (c.release m).admitted = c.admitted := by
  unfold release
  split <;> exact ⟨rfl, rfl⟩

end SchedulingController

theorem outstanding_framed {M M' : KVCacheManager η} {r id : String} (hne : id ≠ r)
    (h : List.Forall₂ (Framed r) M.singleTypeManagers M'.singleTypeManagers) (n : ℕ) :
    M'.outstanding id n = M.outstanding id n :=
  outstanding_congr (h.imp fun m m' hm => ⟨hm.sameSpec, by rw [hm.other_eq id hne]⟩) n

namespace ControlState

variable [DecidableEq η] {s t : ControlState η} {call : ControlCall η}
  {calls : List (ControlCall η)} {request : GrowthRequest η} {args : SlotArgs}
  {limits : String → ℕ} {id : String}

/-! ## The order of calls -/

/-- The limit of a request is what it was admitted for. -/
def Limited (limits : String → ℕ) (s : ControlState η) (request : GrowthRequest η) : Prop :=
  s.manager.admissionTokens s.controller.growthSettings request = limits request.requestId

/-- A request has slots for the tokens that it has computed. -/
def HasSlots (s : ControlState η) (request : GrowthRequest η) : Prop :=
  ∀ g ∈ s.manager.singleTypeManagers,
    request.numComputedTokens ⌈/⌉ g.blockSize ≤ (g.table request.requestId).length

/-- In every step there is annotated work, and the step sees all admitted requests, which have
slots for what they have computed. What a call asks for lies within the limit of its request; the
call for an admitted request brings no hits. The blocks of a request are freed after it has
finished. -/
def Orderly (limits : String → ℕ) (s : ControlState η) : ControlCall η → Prop
  | .beginStep _ waiting running => s.controller.metadata.keys ≠ [] ∧
      (∀ request ∈ running, request.requestId ∈ s.controller.admitted.keys) ∧
      (∀ id ∈ s.controller.admitted.keys, ∃ request ∈ waiting ++ running,
        request.requestId = id) ∧
      ∀ request ∈ waiting ++ running, request.requestId ∈ s.controller.admitted.keys →
        s.Limited limits request ∧ s.HasSlots request
  | .grow request numNewTokens numLookaheadTokens
  | .retry request numNewTokens numLookaheadTokens => s.Limited limits request ∧
      numLookaheadTokens = 0 ∧ request.numComputedTokens + numNewTokens ≤ limits request.requestId
  | .admitWaiting request args _ => s.Limited limits request ∧ args.numLookaheadTokens = 0 ∧
      computedTokens request.toRequest args + args.numNewTokens ≤ limits request.requestId ∧
      (request.requestId ∈ s.controller.admitted.keys →
        args.newComputedBlocks = s.manager.singleTypeManagers.map fun _ => [])
  | .freeBlocks request => request.requestId ∉ s.controller.admitted.keys
  | .native (.free request) => request.requestId ∉ s.controller.admitted.keys
  | .native (.allocateSlots ..) => False
  | _ => True

/-! ## The invariant -/

/-- Every admitted request has committed what it lacks, and the free blocks cover it. -/
structure Reserved (limits : String → ℕ) (s : ControlState η) : Prop extends s.Coherent where
  mode : ReservesAll s.controller
  full : ∀ g ∈ s.manager.singleTypeManagers, FullAttention g
  mem_keys : ∀ id, id ∈ s.controller.growthCommitments.keys ↔ id ∈ s.controller.admitted.keys
  stored : ∀ id n, s.controller.growthCommitments.get? id = some n →
    n = s.manager.outstanding id (limits id)
  backed : ((s.controller.growthCommitments.sum fun _ n => n : ℕ) : ℤ) ≤
    s.manager.blockPool.numFreeBlocks

theorem Reserved.uncommitted_eq (h : s.Reserved limits) :
    s.controller.uncommittedBlocks s.manager = s.manager.blockPool.numFreeBlocks -
      ((s.controller.growthCommitments.sum fun _ n => n : ℕ) : ℤ) := by
  unfold uncommittedBlocks
  rw [h.mode.committedBlocks_eq]

/-- The commitments of a state are those of another one, or some of them, and it has no fewer
free blocks. -/
theorem Reserved.keep (h : s.Reserved limits) (ht : t.Coherent)
    (hsetup : SameSetup s.controller t.controller)
    (hfull : ∀ g ∈ t.manager.singleTypeManagers, FullAttention g)
    (hkeys : ∀ id, id ∈ t.controller.growthCommitments.keys ↔ id ∈ t.controller.admitted.keys)
    (hget : ∀ id n, t.controller.growthCommitments.get? id = some n →
      s.controller.growthCommitments.get? id = some n)
    (hsum : (t.controller.growthCommitments.sum fun _ n => n) ≤
      s.controller.growthCommitments.sum fun _ n => n)
    (hsame : ∀ id ∈ t.controller.growthCommitments.keys,
      t.manager.outstanding id (limits id) = s.manager.outstanding id (limits id))
    (hle : s.manager.blockPool.numFreeBlocks ≤ t.manager.blockPool.numFreeBlocks) :
    t.Reserved limits where
  toCoherent := ht
  mode := h.mode.setup hsetup
  full := hfull
  mem_keys := hkeys
  stored id n hn := by
    rw [hsame id (OrdDict.mem_keys_iff.mpr ⟨n, hn⟩)]
    exact h.stored id n (hget id n hn)
  backed := by
    have hbacked := h.backed
    omega

/-- A call that leaves the commitments and the manager alone. -/
theorem Reserved.keepAll (h : s.Reserved limits) (ht : t.Coherent)
    (hsetup : SameSetup s.controller t.controller) (hmanager : t.manager = s.manager)
    (hgrowth : t.controller.growthCommitments = s.controller.growthCommitments)
    (hadmitted : t.controller.admitted = s.controller.admitted) : t.Reserved limits := by
  refine h.keep ht hsetup (hmanager ▸ h.full) (fun id => ?_) (fun id n hn => ?_) ?_
    (fun id _ => ?_) ?_
  · rw [hgrowth, hadmitted]
    exact h.mem_keys id
  · rwa [hgrowth] at hn
  · rw [hgrowth]
  · rw [hmanager]
  · rw [hmanager]

/-- An allocation that is committed: what the request lacks afterwards and what was taken are
within a budget that the free blocks cover next to the commitments of the others. -/
theorem Reserved.committed (h : s.Reserved limits) (ht : t.Coherent) {blockIds : List BlockId}
    (hcommitted : Committed s.controller t.manager request blockIds t.controller)
    (hframed : List.Forall₂ (Framed request.requestId) s.manager.singleTypeManagers
      t.manager.singleTypeManagers)
    (hgrowth : t.manager.remainingGrowth s.controller.growthSettings request =
      .ok (t.manager.outstanding request.requestId (limits request.requestId)))
    {k budget : ℕ} (hbudget : t.manager.outstanding request.requestId (limits request.requestId) +
      k ≤ budget)
    (hroom : (budget : ℤ) + ((s.controller.growthCommitments.erase request.requestId).sum
      fun _ n => n : ℕ) ≤ s.manager.blockPool.numFreeBlocks)
    (htaken : s.manager.blockPool.numFreeBlocks ≤ t.manager.blockPool.numFreeBlocks + k) :
    t.Reserved limits := by
  obtain ⟨n, hinsert, hn⟩ := hcommitted.growth
  obtain ⟨entry, hadmitted⟩ := hcommitted.admitted
  obtain rfl := Except.ok.inj (hgrowth.symm.trans hn)
  refine ⟨ht, h.mode.setup hcommitted.setup, ?_, fun id => ?_, fun id n hn => ?_, ?_⟩
  · exact forall₂_right hframed (fun g g' hg hg' => hg.same hg'.sameSpec) h.full
  · rw [hinsert, hadmitted, OrdDict.mem_keys_insert, OrdDict.mem_keys_insert, h.mem_keys]
  · rw [hinsert, OrdDict.get?_insert] at hn
    split at hn
    · next hid =>
        subst hid
        exact (Option.some.inj hn).symm
    · next hid =>
        rw [outstanding_framed hid hframed]
        exact h.stored id n hn
  · rw [hinsert, OrdDict.sum_insert]
    omega

/-! ## Allocations -/

omit [DecidableEq η] in
/-- The slots that a call within its limit asks for. -/
theorem numTokensNeedSlot_eq {m : KVCacheManager η} {request : Request η} {limit : ℕ}
    (hmodel : limit ≤ m.maxModelLen) (hlookahead : args.numLookaheadTokens = 0)
    (hlimit : computedTokens request args + args.numNewTokens ≤ limit) :
    m.numTokensNeedSlot request args = computedTokens request args + args.numNewTokens := by
  unfold computedTokens at hlimit ⊢
  unfold numTokensNeedSlot totalComputedTokens
  omega

omit [DecidableEq η] in
theorem Limited.le (h : s.Limited limits request) :
    limits request.requestId ≤ s.manager.maxModelLen :=
  h ▸ admissionTokens_le ..

/-- No window slides before a call. -/
theorem Reserved.prepared_eq (h : s.Reserved limits) (r : String) (n : ℕ) :
    s.prepared r n = s := by
  unfold prepared
  dsimp only
  rw [removeSkippedBlocks_eq h.full, if_neg (by simp)]

theorem Reserved.hasSlid (h : s.Reserved limits) (r : String) (n : ℕ) :
    ∀ g ∈ s.manager.singleTypeManagers, HasSlid r n g := by
  have hslid := allHaveSlid s.manager r n
  rwa [removeSkippedBlocks_eq h.full] at hslid

/-- A refused call changes nothing. -/
theorem Reserved.refused (h : s.Reserved limits) {manager : KVCacheManager η}
    (hslots : s.manager.allocateSlots request.toRequest args = .ok (manager, none)) :
    manager = s.manager := by
  rcases allocateSlots_verdict hslots with ⟨-, hsame, -⟩ | ⟨k, -, ⟨-, hsame, -⟩ | ⟨_, hsome, -⟩⟩
  · exact hsame
  · rw [hsame, removeSkippedBlocks_eq h.full]
  · cases hsome

/-- What a request commits once its tables have slots for all tokens of a call. -/
theorem Reserved.remainingGrowth_eq (h : s.Reserved limits) (hlimited : s.Limited limits request)
    {manager : KVCacheManager η} {numTokens : ℕ}
    {items : List (SingleTypeKVCacheManager × List BlockId)}
    (hlen : manager.maxModelLen = s.manager.maxModelLen)
    (hfull : ∀ g ∈ manager.singleTypeManagers, FullAttention g)
    (hholds : List.Forall₂ (Holds request.requestId numTokens) items manager.singleTypeManagers)
    (hcomputed : request.numComputedTokens ≤ numTokens)
    (hlimit : numTokens ≤ limits request.requestId) :
    manager.remainingGrowth s.controller.growthSettings request =
      .ok (manager.outstanding request.requestId (limits request.requestId)) := by
  have htokens : manager.admissionTokens s.controller.growthSettings request =
      limits request.requestId := by
    rw [← hlimited]
    unfold KVCacheManager.admissionTokens
    rw [hlen]
  unfold remainingGrowth
  rw [htokens]
  refine h.mode.growthTo_eq hfull (hlen ▸ hlimited.le) fun hle => ?_
  obtain rfl : numTokens = limits request.requestId := le_antisymm hlimit (hle.trans hcomputed)
  refine forall₂_right hholds (P := fun _ => True) (fun item g _ hitem => ?_) fun _ _ => trivial
  rw [hitem.1.sameSpec.blockSize_eq]
  exact (le_max_left ..).trans hitem.2

/-- An allocation within a budget that the free blocks cover keeps the reserve. -/
theorem Reserved.allocated (h : s.Reserved limits) (hlimited : s.Limited limits request)
    (hissued : s.toCacheState.Issued hash base (.perform (.allocateSlots request.toRequest args)))
    (hready : s.manager.Ready request.toRequest args) (hlookahead : args.numLookaheadTokens = 0)
    (hlimit : computedTokens request.toRequest args + args.numNewTokens ≤ limits request.requestId)
    (hallocated : s.Allocated request args t) {budget : ℕ}
    (hbudget : s.manager.totalNeeded request.requestId (limits request.requestId)
      args.newComputedBlocks (computedTokens request.toRequest args) true ≤ budget)
    (hroom : (budget : ℤ) + ((s.controller.growthCommitments.erase request.requestId).sum
      fun _ n => n : ℕ) ≤ s.manager.blockPool.numFreeBlocks) : t.Reserved limits := by
  rcases hallocated.verdict with ⟨manager, hslots, -, rfl⟩ | ⟨blocks, blockIds, hslots, hcommitted⟩
  · exact h.keepAll hallocated.coherent hallocated.setup (h.refused hslots) rfl rfl
  · have hmodel := hlimited.le
    have hneed := numTokensNeedSlot_eq (m := s.manager) hmodel hlookahead hlimit
    obtain ⟨⟨hlength, -⟩, -⟩ := h.consistent.toInOrder.lists hissued
    have hholds := allocateSlots_holds h.consistent.reserved h.full hlength hready hslots
    obtain ⟨-, hlen, hframed⟩ := allocateSlots_framed h.consistent.reserved hslots
    rw [hneed] at hholds
    obtain ⟨k, hk, -, htaken⟩ := h.consistent.allocate hissued hready
      (h.hasSlid _ _) hslots
    have hpredicted : k = s.manager.totalNeeded request.requestId
        (computedTokens request.toRequest args + args.numNewTokens) args.newComputedBlocks
        (computedTokens request.toRequest args) false := by
      unfold numBlocksToAllocate at hk
      rw [getNumBlocksToAllocate_total hready.hitsForNew, hneed] at hk
      exact (Except.ok.inj hk).symm
    have hspent : t.manager.outstanding request.requestId (limits request.requestId) +
        s.manager.totalNeeded request.requestId (computedTokens request.toRequest args +
          args.numNewTokens) args.newComputedBlocks (computedTokens request.toRequest args) false ≤
        s.manager.totalNeeded request.requestId (limits request.requestId) args.newComputedBlocks
          (computedTokens request.toRequest args) true :=
      outstanding_add_totalNeeded h.full hready.hitsForNew hholds hlimit
    rw [← hpredicted] at hspent
    refine h.committed hallocated.coherent hcommitted hframed ?_ (hspent.trans hbudget) hroom ?_
    · refine h.remainingGrowth_eq hlimited hlen
        (forall₂_right hframed (fun g g' hg hg' => hg.same hg'.sameSpec) h.full) hholds ?_ hlimit
      unfold computedTokens numLocalComputedTokens
      omega
    · have hdrift := h.consistent.drift_eq
      have hdrift' := hallocated.coherent.consistent.drift_eq
      unfold drift at hdrift hdrift'
      omega

/-- What an admitted request has committed is a budget. -/
theorem Reserved.room (h : s.Reserved limits)
    (hkey : id ∈ s.controller.growthCommitments.keys) :
    (s.manager.outstanding id (limits id) : ℤ) +
      ((s.controller.growthCommitments.erase id).sum fun _ n => n : ℕ) ≤
        s.manager.blockPool.numFreeBlocks := by
  obtain ⟨n, hn⟩ := OrdDict.mem_keys_iff.mp hkey
  have hstored := h.stored id n hn
  have hsum := OrdDict.sum_erase_add hn fun _ n => n
  have hbacked := h.backed
  omega

/-- The free blocks cover what an admitted request is predicted to take within its limit. -/
theorem Reserved.covers (h : s.Reserved limits) (hkey : id ∈ s.controller.growthCommitments.keys)
    {numTokens : ℕ} (hlimit : numTokens ≤ limits id) (computed : ℕ) (cap : Bool) :
    ∃ n, s.manager.getNumBlocksToAllocate id numTokens
      (s.manager.singleTypeManagers.map fun _ => []) computed cap = .ok n ∧
        (n : ℤ) ≤ s.manager.blockPool.numFreeBlocks := by
  have hroom := h.room hkey
  have hmono := outstanding_mono (M := s.manager) (r := id) hlimit
  rw [getNumBlocksToAllocate_total (.nil s.manager id), totalNeeded_nil h.full]
  exact ⟨_, rfl, by omega⟩

/-- An admitted request gets all blocks that it asks for within its limit. -/
theorem Reserved.serves (h : s.Reserved limits)
    (hkey : request.requestId ∈ s.controller.growthCommitments.keys)
    (hlimited : s.Limited limits request)
    (hnil : args.newComputedBlocks = s.manager.singleTypeManagers.map fun _ => [])
    (hlookahead : args.numLookaheadTokens = 0)
    (hlimit : computedTokens request.toRequest args + args.numNewTokens ≤ limits request.requestId)
    {manager : KVCacheManager η} {result : Option (List (List BlockId))}
    (hslots : s.manager.allocateSlots request.toRequest args = .ok (manager, result)) :
    result.isSome = true := by
  rcases allocateSlots_verdict hslots with ⟨-, -, hfits⟩ | ⟨k, hk, ⟨-, rfl, hshort⟩ | ⟨_, rfl, -⟩⟩
  · exfalso
    have hinput : min request.numTokens s.manager.maxModelLen ≤ limits request.requestId := by
      rw [← hlimited]
      unfold KVCacheManager.admissionTokens
      dsimp only
      split <;> omega
    obtain ⟨n, hn, hfree⟩ := h.covers hkey hinput
      (s.manager.totalComputedTokens request.toRequest args) true
    unfold fullSequenceFits at hfits
    rw [hnil, hn] at hfits
    split at hfits
    · have hfalse := of_decide_eq_false (Except.ok.inj hfits)
      omega
    · cases hfits
  · exfalso
    rw [removeSkippedBlocks_eq h.full] at hk hshort
    have hneed := numTokensNeedSlot_eq (m := s.manager) hlimited.le hlookahead hlimit
    obtain ⟨n, hn, hfree⟩ := h.covers hkey hlimit (computedTokens request.toRequest args) false
    unfold numBlocksToAllocate at hk
    rw [hneed, hnil] at hk
    obtain rfl : n = k := Except.ok.inj (hn.symm.trans hk)
    omega
  · rfl

/-! ## One call -/

/-- A request that leaves takes its commitment along. -/
theorem Reserved.withdrawn (h : s.Reserved limits) (ht : t.Coherent)
    (hsetup : SameSetup s.controller t.controller) {r : String}
    (hgrowth : t.controller.growthCommitments = s.controller.growthCommitments.erase r)
    (hadmitted : t.controller.admitted = s.controller.admitted.erase r)
    (hframed : List.Forall₂ (Framed r) s.manager.singleTypeManagers t.manager.singleTypeManagers)
    (hle : s.manager.blockPool.numFreeBlocks ≤ t.manager.blockPool.numFreeBlocks) :
    t.Reserved limits := by
  refine h.keep ht hsetup (forall₂_right hframed (fun g g' hg hg' => hg.same hg'.sameSpec) h.full)
    (fun id => ?_) (fun id n hn => ?_) ?_ (fun id hid => ?_) hle
  · rw [hgrowth, hadmitted, OrdDict.mem_keys_erase, OrdDict.mem_keys_erase, h.mem_keys]
  · rw [hgrowth, OrdDict.get?_erase] at hn
    split at hn
    · cases hn
    · exact hn
  · rw [hgrowth]
    exact sum_erase_le ..
  · rw [hgrowth, OrdDict.mem_keys_erase] at hid
    exact outstanding_framed hid.1 hframed _

/-- A call of the manager that neither allocates nor frees blocks of an admitted request. -/
theorem Reserved.performed (h : s.Reserved limits) (ht : t.Coherent)
    (hsetup : SameSetup s.controller t.controller) {op : CacheOp η}
    (hop : s.manager.perform op = .ok t.manager)
    (hspares : ∀ id ∈ s.controller.admitted.keys, op.Spares id)
    (hgrowth : t.controller.growthCommitments = s.controller.growthCommitments)
    (hadmitted : t.controller.admitted = s.controller.admitted)
    (hle : s.manager.blockPool.numFreeBlocks ≤ t.manager.blockPool.numFreeBlocks) :
    t.Reserved limits := by
  obtain ⟨other, hother⟩ := exists_bypasses op
  obtain ⟨-, -, hbypassed⟩ := perform_bypassed h.consistent.reserved hother hop
  refine h.keep ht hsetup
    (forall₂_right hbypassed (fun g g' hg hg' => hg.same hg'.sameSpec) h.full)
    (fun id => ?_) (fun id n hn => ?_) ?_ (fun id hid => ?_) hle
  · rw [hgrowth, hadmitted, h.mem_keys]
  · rwa [hgrowth] at hn
  · rw [hgrowth]
  · rw [hgrowth, h.mem_keys] at hid
    obtain ⟨-, -, hrested⟩ := perform_rested h.consistent.reserved (hspares id hid) hop
    exact outstanding_congr (hrested.imp fun g g' hg => ⟨hg.sameSpec, hg.length_eq⟩) _

/-- A step commits the same blocks anew. -/
theorem Reserved.recommitted (h : s.Reserved limits) {waiting running : List (GrowthRequest η)}
    {inputs : StepInputs} (horderly : s.Orderly limits (.beginStep inputs waiting running))
    {done : OrdDict String ℕ}
    (hdone : (s.controller.admitRunning running).growths s.manager
      (s.manager.admissionTokens s.controller.growthSettings) (waiting ++ running) = .ok done)
    (id : String) : done.get? id = s.controller.growthCommitments.get? id := by
  obtain ⟨-, hrunning, hseen, hrequests⟩ := horderly
  have hadmitted := admitRunning_admitted hrunning
  have hsettings : (s.controller.admitRunning running).growthSettings =
      s.controller.growthSettings := by
    rw [admitRunning_eq]
    rfl
  have hgrown := growths_get? (f := fun id => s.manager.outstanding id (limits id))
    (fun request hrequest hcontains => ?_) hdone id
  · rw [hgrown, hadmitted]
    cases hget : s.controller.growthCommitments.get? id with
    | none =>
        have hfresh : id ∉ s.controller.admitted.keys := by
          rw [← h.mem_keys]
          exact OrdDict.get?_eq_none_iff.mp hget
        refine if_neg fun hmem => hfresh ?_
        obtain ⟨request, hrequest, rfl⟩ := List.mem_map.mp hmem
        exact of_decide_eq_true (List.mem_filter.mp hrequest).2
    | some n =>
        have hmem : id ∈ s.controller.admitted.keys :=
          (h.mem_keys id).mp (OrdDict.mem_keys_iff.mpr ⟨n, hget⟩)
        obtain ⟨request, hrequest, rfl⟩ := hseen id hmem
        rw [if_pos (List.mem_map.mpr ⟨request, List.mem_filter.mpr
          ⟨hrequest, decide_eq_true hmem⟩, rfl⟩), h.stored _ n hget]
  · rw [hadmitted] at hcontains
    obtain ⟨hlimited, hslots⟩ := hrequests request hrequest (of_decide_eq_true hcontains)
    have htokens : s.manager.admissionTokens s.controller.growthSettings request =
        limits request.requestId := hlimited
    rw [hsettings, htokens]
    refine h.mode.growthTo_eq h.full hlimited.le fun hle g hg => ?_
    exact ((gc_mul_ceilDiv g.spec.blockSize_pos).monotone_l hle).trans (hslots g hg)

theorem Reserved.begun (h : s.Reserved limits) (ht : t.Coherent)
    (hsetup : SameSetup s.controller t.controller) {waiting running : List (GrowthRequest η)}
    {inputs : StepInputs} (horderly : s.Orderly limits (.beginStep inputs waiting running))
    {x : SchedulingController} (hx : Begun s.controller s.manager waiting running x)
    (hcontroller : t.controller = x.release s.manager) (hmanager : t.manager = s.manager) :
    t.Reserved limits := by
  obtain ⟨hgrowth, hadmitted⟩ := release_commitments x s.manager
  rw [← hcontroller] at hgrowth hadmitted
  rw [hx.admitted_eq, admitRunning_admitted horderly.2.1] at hadmitted
  have hsame : ∀ id, t.controller.growthCommitments.get? id =
      s.controller.growthCommitments.get? id := by
    rw [hgrowth]
    exact h.recommitted horderly hx.growth
  refine h.keep ht hsetup (hmanager ▸ h.full) (fun id => ?_) (fun id n hn => ?_) ?_
    (fun id _ => ?_) ?_
  · rw [hadmitted, ← h.mem_keys, OrdDict.mem_keys_iff, OrdDict.mem_keys_iff, hsame]
  · rwa [hsame] at hn
  · exact (OrdDict.sum_eq_of_get? hsame _).le
  · rw [hmanager]
  · rw [hmanager]

/-- A running request gets the slots of its next tokens. -/
theorem Reserved.allocateRunning (h : s.Reserved limits) (hfree : CollisionFree hash base)
    {numNewTokens numLookaheadTokens : ℕ}
    (hadmissible : s.Admissible hash base (.retry request numNewTokens numLookaheadTokens))
    (horderly : s.Orderly limits (.retry request numNewTokens numLookaheadTokens))
    (hstep : s.step (.retry request numNewTokens numLookaheadTokens) = .ok t) :
    t.Reserved limits := by
  obtain ⟨hactive, hkey⟩ := hadmissible
  obtain ⟨hlimited, hlookahead, hlimit⟩ := horderly
  have hallocated := (h.toCoherent.allocateRunning hfree hactive request numNewTokens
    numLookaheadTokens).of_eq_ok hstep
  have hready : s.manager.Ready request.toRequest
      (runningArgs s.manager numNewTokens numLookaheadTokens) := by
    constructor
    case within =>
      have hmodel := hlimited.le
      unfold numLocalComputedTokens runningArgs
      dsimp only
      omega
    case hitsForNew => exact .nil s.manager request.requestId
    case first =>
      rintro (⟨hits, hmem, hne⟩ | hpos)
      · obtain ⟨_, -, rfl⟩ := List.mem_map.mp hmem
        exact absurd rfl hne
      · exact absurd hpos (lt_irrefl 0)
    case slots =>
      intro _ g hg _
      rw [(h.full g hg).numSkippedBlocks_eq]
      exact Nat.zero_le _
  have hissued : s.toCacheState.Issued hash base (.perform (.allocateSlots request.toRequest
      (runningArgs s.manager numNewTokens numLookaheadTokens))) :=
    (Serves.running s request.toRequest numNewTokens numLookaheadTokens).issued
  refine h.allocated hlimited hissued hready hlookahead hlimit hallocated (le_of_eq ?_)
    (h.room hkey)
  exact totalNeeded_nil h.full true

/-- A running request grows. -/
theorem Reserved.grow (h : s.Reserved limits) (hfree : CollisionFree hash base)
    {numNewTokens numLookaheadTokens : ℕ}
    (hadmissible : s.Admissible hash base (.grow request numNewTokens numLookaheadTokens))
    (horderly : s.Orderly limits (.grow request numNewTokens numLookaheadTokens))
    (hstep : s.step (.grow request numNewTokens numLookaheadTokens) = .ok t) :
    t.Reserved limits := by
  have hgrows : s.controller.canGrow s.manager request numNewTokens = .ok true := by
    unfold canGrow
    rw [if_pos h.mode.progress_eq]
    rfl
  change (s.controller.canGrow s.manager request numNewTokens >>= _) = _ at hstep
  rw [hgrows] at hstep
  exact h.allocateRunning hfree hadmissible horderly hstep

/-- A request of the queue is admitted, or goes on. -/
theorem Reserved.admitWaiting (h : s.Reserved limits) (hcovers : s.controller.Covers s.manager)
    (hfree : CollisionFree hash base) {borrowReserved : Bool}
    (hadmissible : s.Admissible hash base (.admitWaiting request args borrowReserved))
    (horderly : s.Orderly limits (.admitWaiting request args borrowReserved))
    (ht : t.Coherent) (hsetup : SameSetup s.controller t.controller)
    (hstep : s.step (.admitWaiting request args borrowReserved) = .ok t) : t.Reserved limits := by
  obtain ⟨hactive, hserves, hready⟩ := hadmissible
  obtain ⟨hlimited, hlookahead, hlimit, hnil⟩ := horderly
  rcases admitWaiting_cases hstep with ⟨hadmitted, hallocate⟩ | ⟨hfresh, u, hu, hcases⟩
  · have hkey : request.requestId ∈ s.controller.admitted.keys := of_decide_eq_true hadmitted
    have hallocated := (h.toCoherent.allocateWaiting hfree hactive request hserves borrowReserved
      fun _ _ _ _ => .inr (.inr hadmitted)).of_eq_ok hallocate
    refine h.allocated hlimited hserves.issued hready hlookahead hlimit hallocated
      (le_of_eq ?_) (h.room ((h.mem_keys _).mpr hkey))
    rw [hnil hkey]
    exact totalNeeded_nil h.full true
  · rw [h.prepared_eq] at hu
    subst hu
    rcases hcases with ⟨deferred, rfl⟩ | ⟨n, full, hadmits, hallocate⟩
    · exact h.keepAll ht hsetup rfl rfl rfl
    · have hallocated := (h.toCoherent.allocateWaiting hfree hactive request hserves borrowReserved
        fun _ _ _ hslots => h.toCoherent.finds_capacity hfree hcovers hactive hserves hready
          (h.hasSlid _ _) hadmits hslots).of_eq_ok hallocate
      have hdemand : u.manager.totalNeeded request.requestId (limits request.requestId)
          args.newComputedBlocks (computedTokens request.toRequest args) true = full := by
        have hrequired : u.manager.getNumBlocksToAllocate request.requestId
            (min (u.manager.admissionTokens u.controller.growthSettings request +
              u.controller.numLookaheadTokens) u.manager.maxModelLen) args.newComputedBlocks
            (computedTokens request.toRequest args) true = .ok (u.manager.totalNeeded
              request.requestId (limits request.requestId) args.newComputedBlocks
              (computedTokens request.toRequest args) true) := by
          rw [h.mode.lookahead_eq, Nat.add_zero, min_eq_left (admissionTokens_le ..), hlimited]
          exact getNumBlocksToAllocate_total hready.hitsForNew
        have hdemand := hadmits.demand
        unfold admissionDemand at hdemand
        dsimp only at hdemand
        rw [h.mode.reclaim_eq, hrequired, h.mode.progress_eq] at hdemand
        exact Except.ok.inj hdemand
      refine h.allocated hlimited hserves.issued hready hlookahead hlimit hallocated hdemand.le ?_
      have hroom := hadmits.room
      have habsent : u.controller.growthCommitments.get? request.requestId = none := by
        rw [OrdDict.get?_eq_none_iff, h.mem_keys]
        exact of_decide_eq_false hfresh
      rw [h.uncommitted_eq] at hroom
      rw [OrdDict.erase_of_get?_eq_none habsent]
      omega

/-- Every call keeps the reserve. -/
theorem Reserved.step (h : s.Reserved limits) (hcovers : s.controller.Covers s.manager)
    (hfree : CollisionFree hash base) (hnext : Next hash base s call t)
    (horderly : s.Orderly limits call) : t.Reserved limits := by
  have hafter := (h.toCoherent.step hfree hnext.1).of_eq_ok hnext.2
  obtain ⟨hadmissible, hstep⟩ := hnext
  cases call with
  | getComputedBlocks request =>
      obtain ⟨result, -, hreported⟩ := Ensures.exists_of_mapError_bind hstep
      obtain rfl := Except.ok.inj hreported
      exact h.keepAll hafter.coherent hafter.setup rfl rfl rfl
  | associate requestId metadata =>
      obtain rfl := Except.ok.inj hstep
      exact h.keepAll hafter.coherent hafter.setup rfl rfl rfl
  | beginStep inputs waiting running =>
      obtain ⟨x, hbegin, hx⟩ := beginStep_begun (m := s.manager) inputs waiting running horderly.1
      change (s.controller.beginStep s.manager inputs waiting running >>= _) = _ at hstep
      rw [hbegin] at hstep
      obtain rfl := Except.ok.inj hstep
      exact h.begun hafter.coherent hafter.setup horderly hx rfl rfl
  | prepareRunning request =>
      have hprepared : s.prepared request.requestId request.numComputedTokens = t :=
        Except.ok.inj hstep
      rw [h.prepared_eq] at hprepared
      exact hprepared ▸ h
  | grow request numNewTokens numLookaheadTokens => exact h.grow hfree hadmissible horderly hstep
  | retry request numNewTokens numLookaheadTokens =>
      exact h.allocateRunning hfree hadmissible horderly hstep
  | admitWaiting request args borrowReserved =>
      exact h.admitWaiting hcovers hfree hadmissible horderly hafter.coherent hafter.setup hstep
  | reclaimFor requestId =>
      obtain rfl := Except.ok.inj hstep
      have hsame : s.controller.reclaimFor s.manager requestId = s.controller := by
        unfold reclaimFor
        rw [h.mode.reclaim_eq, if_neg (by simp)]
      exact h.keepAll hafter.coherent hafter.setup rfl (by rw [hsame]) (by rw [hsame])
  | preempt request physical =>
      obtain ⟨hconsistent, hreturned⟩ := h.consistent.free hfree request
      obtain rfl := Except.ok.inj hstep
      obtain ⟨hgrowth, hadmitted⟩ := release_commitments
        (s.controller.withdraw request.requestId) (s.manager.free request)
      refine h.withdrawn hafter.coherent hafter.setup (r := request.requestId) ?_ ?_
        (free_framed h.consistent.reserved request).2
        (hreturned.numFree_le h.consistent.drift_eq hconsistent.drift_eq)
      · cases physical <;> exact hgrowth
      · cases physical <;> exact hadmitted
  | finish requestId =>
      obtain rfl := Except.ok.inj hstep
      exact h.withdrawn hafter.coherent hafter.setup (r := requestId) rfl rfl
        (List.forall₂_same.mpr fun g _ => .refl _ g) le_rfl
  | freeBlocks request =>
      obtain ⟨hconsistent, hreturned⟩ := h.consistent.free hfree request
      obtain rfl := Except.ok.inj hstep
      obtain ⟨hgrowth, hadmitted⟩ := release_commitments s.controller (s.manager.free request)
      have hspares : ∀ id ∈ s.controller.admitted.keys, (CacheOp.free request).Spares id := by
        rintro id hid rfl
        exact horderly hid
      have hop : s.manager.perform (.free request) = .ok (s.manager.free request) := rfl
      exact h.performed hafter.coherent hafter.setup hop hspares hgrowth hadmitted
        (hreturned.numFree_le h.consistent.drift_eq hconsistent.drift_eq)
  | native op =>
      obtain ⟨manager, hop, hperformed⟩ := Ensures.exists_of_mapError_bind hstep
      obtain rfl := Except.ok.inj hperformed
      have hreturned := h.toCoherent.returned hfree hop (by
        rintro request args rfl
        exact horderly)
      refine h.performed hafter.coherent hafter.setup hop (fun id hid => ?_) rfl rfl
        (hreturned.numFree_le h.consistent.drift_eq hafter.coherent.consistent.drift_eq)
      cases op with
      | free request =>
          rintro rfl
          exact horderly hid
      | allocateSlots request args => exact horderly.elim
      | _ => trivial

/-! ## Before the first step -/

/-- While the accounts are not active, no block is in use. -/
def Unused (s : ControlState η) : Prop :=
  s.controller.accountingActive = false → ∀ b, ¬Occupied s.manager.blockPool b

theorem Unused.start {config : KVCacheConfig} {m : KVCacheManager η}
    (hnew : KVCacheManager.new config = .ok m) (settings : SchedulingConfig) :
    Unused (ControlState.start settings m 0) := by
  intro _ b hb
  have hs := Coherent.start hnew settings 0
  obtain ⟨g, hg, r, hr⟩ := (hs.consistent.managed.occupied_iff_held hb.1).mp hb
  unfold KVCacheManager.new at hnew
  dsimp only at hnew
  split at hnew
  · obtain rfl := Except.ok.inj hnew
    obtain ⟨item, -, rfl⟩ := List.mem_map.mp hg
    cases hr
  · cases hnew

/-- So the first step overlooks no block. -/
theorem Unused.adopts (h : s.Unused) (hs : s.Coherent) (call : ControlCall η) :
    s.Adopts call := by
  cases call with
  | beginStep inputs waiting running =>
      intro hidle _ g hg r b hb hnull
      exact absurd ((hs.consistent.managed.occupied_iff_held hnull).mpr ⟨g, hg, r, hb⟩)
        (h hidle b)
  | _ => trivial

/-- In order, blocks are allocated with active accounts only, and the accounts stay active. -/
theorem Unused.step (h : s.Unused) (hs : s.Coherent) (hfree : CollisionFree hash base)
    (hnext : Next hash base s call t) (horderly : s.Orderly limits call) : t.Unused := by
  have hafter := (hs.step hfree hnext.1).of_eq_ok hnext.2
  obtain ⟨hadmissible, hstep⟩ := hnext
  -- A call before the first step takes no blocks.
  have hquiet : ¬call.Begins → (s.controller.accountingActive = false →
      Returned s.manager.blockPool t.manager.blockPool) → t.Unused := by
    intro hbegins hreturned hidle b hb
    rw [hafter.active_eq hbegins] at hidle
    exact h hidle b ((hreturned hidle).occupied hb)
  have hsame : ¬call.Begins → t.manager = s.manager → t.Unused := fun hbegins hmanager =>
    hquiet hbegins fun _ => hmanager ▸ ⟨rfl, [], (List.append_nil _).symm⟩
  have hactive : ¬call.Begins → s.controller.accountingActive = true → t.Unused :=
    fun hbegins hactive => hquiet hbegins fun hidle => by
      rw [hactive] at hidle
      cases hidle
  cases call with
  | getComputedBlocks request =>
      obtain ⟨result, -, hreported⟩ := Ensures.exists_of_mapError_bind hstep
      obtain rfl := Except.ok.inj hreported
      exact hsame id rfl
  | associate requestId metadata =>
      obtain rfl := Except.ok.inj hstep
      exact hsame id rfl
  | beginStep inputs waiting running =>
      obtain ⟨x, hbegin, hx⟩ := beginStep_begun (m := s.manager) inputs waiting running horderly.1
      change (s.controller.beginStep s.manager inputs waiting running >>= _) = _ at hstep
      rw [hbegin] at hstep
      obtain rfl := Except.ok.inj hstep
      intro hidle
      have hrunning := (release_sameBooks x s.manager).active_eq.trans hx.active
      rw [hrunning] at hidle
      cases hidle
  | prepareRunning request => exact hactive id hadmissible
  | grow request numNewTokens numLookaheadTokens => exact hactive id hadmissible.1
  | retry request numNewTokens numLookaheadTokens => exact hactive id hadmissible.1
  | admitWaiting request args borrowReserved => exact hactive id hadmissible.1
  | reclaimFor requestId =>
      obtain rfl := Except.ok.inj hstep
      exact hsame id rfl
  | preempt request physical =>
      obtain rfl := Except.ok.inj hstep
      exact hquiet id fun _ => (hs.consistent.free hfree request).2
  | finish requestId =>
      obtain rfl := Except.ok.inj hstep
      exact hsame id rfl
  | freeBlocks request =>
      obtain rfl := Except.ok.inj hstep
      exact hquiet id fun _ => (hs.consistent.free hfree request).2
  | native op =>
      obtain ⟨manager, hop, hperformed⟩ := Ensures.exists_of_mapError_bind hstep
      obtain rfl := Except.ok.inj hperformed
      refine hquiet id fun _ => hs.returned hfree hop ?_
      rintro request args rfl
      exact horderly

theorem Reserved.start {config : KVCacheConfig} {m : KVCacheManager η}
    (hnew : KVCacheManager.new config = .ok m)
    (hkinds : ∀ spec ∈ config.kvCacheGroups, spec.kind = .fullAttention)
    {settings : SchedulingConfig} (hreserve : settings.reserveGenerationTokens = true)
    (hmode : settings.generationReserveMode = .all) (limits : String → ℕ) :
    Reserved limits (start settings m 0) where
  toCoherent := .start hnew settings 0
  mode := ⟨hreserve, hmode, by simp [ControlState.start, SchedulingController.new]⟩
  full := by
    unfold KVCacheManager.new at hnew
    dsimp only at hnew
    split at hnew
    · obtain rfl := Except.ok.inj hnew
      intro g hg
      obtain ⟨item, hitem, rfl⟩ := List.mem_map.mp hg
      have hkind := hkinds item.1 (List.fst_mem_of_mem_zipIdx hitem)
      exact ⟨hkind, by simp [KVCacheSpec.maxAdmissionBlocksPerRequest, hkind]⟩
    · cases hnew
  mem_keys _ := Iff.rfl
  stored id n hn := by cases hn
  backed := by
    have hdrift := (KVCacheManager.new_managed hnew).2
    unfold drift at hdrift
    change ((0 : ℕ) : ℤ) ≤ m.blockPool.numFreeBlocks
    omega

/-! ## Runs -/

/-- With full attention only and the whole generation reserved, in every orderly run: every
admitted request has committed exactly the blocks that it lacks for its limit, the free blocks
cover all commitments, and no admitted request is refused a block within its limit. -/
theorem generation_reserved {config : KVCacheConfig} {m : KVCacheManager η}
    (hfree : CollisionFree hash base) (hnew : KVCacheManager.new config = .ok m)
    (hkinds : ∀ spec ∈ config.kvCacheGroups, spec.kind = .fullAttention)
    {settings : SchedulingConfig} (hreserve : settings.reserveGenerationTokens = true)
    (hmode : settings.generationReserveMode = .all) (limits : String → ℕ)
    (hrun : Run (fun s call t => Next hash base s call t ∧ s.Orderly limits call)
      (start settings m 0) calls s) :
    0 ≤ s.controller.uncommittedBlocks s.manager ∧
    (∀ id ∈ s.controller.admitted.keys, s.controller.growthCommitments.get? id =
      some (s.manager.outstanding id (limits id))) ∧
    ∀ request args manager result, request.requestId ∈ s.controller.admitted.keys →
      s.Limited limits request →
      args.newComputedBlocks = (s.manager.singleTypeManagers.map fun _ => []) →
      args.numLookaheadTokens = 0 →
      computedTokens request.toRequest args + args.numNewTokens ≤ limits request.requestId →
      s.manager.allocateSlots request.toRequest args = .ok (manager, result) →
      result.isSome = true := by
  obtain ⟨hs, -, -⟩ : s.Reserved limits ∧ s.controller.Covers s.manager ∧ s.Unused := by
    refine hrun.invariant (I := fun s => s.Reserved limits ∧ s.controller.Covers s.manager ∧
      s.Unused) ?_ ⟨.start hnew hkinds hreserve hmode limits,
        (Covered.start hnew settings 0).covers, .start hnew settings⟩
    rintro s call t - ⟨hs, hcovers, hunused⟩ ⟨hnext, horderly⟩
    have hafter := (hs.toCoherent.step hfree hnext.1).of_eq_ok hnext.2
    exact ⟨hs.step hcovers hfree hnext horderly,
      hafter.covers hcovers (hunused.adopts hs.toCoherent call),
      hunused.step hs.toCoherent hfree hnext horderly⟩
  refine ⟨?_, fun id hid => ?_, ?_⟩
  · have hbacked := hs.backed
    rw [hs.uncommitted_eq]
    omega
  · obtain ⟨n, hn⟩ := OrdDict.mem_keys_iff.mp ((hs.mem_keys id).mpr hid)
    rw [hn, hs.stored id n hn]
  · intro request args manager result hkey hlimited hnil hlookahead hlimit hslots
    exact hs.serves ((hs.mem_keys _).mpr hkey) hlimited hnil hlookahead hlimit hslots

/-! ## An orderly run -/

section Sample

instance (limits : String → ℕ) (s : ControlState (List ℕ)) (request : GrowthRequest (List ℕ)) :
    Decidable (s.Limited limits request) :=
  inferInstanceAs (Decidable (s.manager.admissionTokens s.controller.growthSettings request = _))

instance (s : ControlState (List ℕ)) (request : GrowthRequest (List ℕ)) :
    Decidable (s.HasSlots request) :=
  inferInstanceAs (Decidable (∀ g ∈ s.manager.singleTypeManagers,
    request.numComputedTokens ⌈/⌉ g.blockSize ≤ (g.table request.requestId).length))

instance (limits : String → ℕ) (s : ControlState (List ℕ)) (call : ControlCall (List ℕ)) :
    Decidable (s.Orderly limits call) :=
  match call with
  | .beginStep .. | .grow .. | .retry .. | .admitWaiting .. | .freeBlocks _
  | .native (.free _) => by
      unfold Orderly; infer_instance
  | .native (.allocateSlots ..) => isFalse not_false
  | .native (.removeSkippedBlocks ..) | .native (.cacheBlocks ..) | .native (.evictBlocks _)
  | .native .resetPrefixCache | .getComputedBlocks _ | .associate .. | .prepareRunning _
  | .reclaimFor _ | .preempt .. | .finish _ => isTrue trivial

/-- The state after a call that is checked and in order. -/
def followOrderly (limits : String → ℕ) (s : ControlState (List ℕ))
    (call : ControlCall (List ℕ)) : Option (ControlState (List ℕ)) :=
  if s.Orderly limits call then follow s call else none

theorem followOrderly_next {limits : String → ℕ} {s t : ControlState (List ℕ)}
    {call : ControlCall (List ℕ)} (h : followOrderly limits s call = some t) :
    Next listHash [] s call t ∧ s.Orderly limits call := by
  unfold followOrderly at h
  split at h
  · next horderly => exact ⟨(follow_next h).1, horderly⟩
  · cases h

/-- The last token of `a`. -/
def lastArgs : SlotArgs where
  numNewTokens := 1
  newComputedBlocks := [[]]

/-- Both requests are admitted, and `a` gets the block of its last token. -/
theorem sampleRun_reserved : ∃ m s manager result, KVCacheManager.new sampleConfig = .ok m ∧
    Run (fun s call t => Next listHash [] s call t ∧ s.Orderly (fun _ => 6) call)
      (start (sampleSettings .all) m 0) sampleCalls s ∧
    s.manager.allocateSlots (sampleRequest "a" [1, 2, 3, 4, 5, 6] 5).toRequest lastArgs =
      .ok (manager, result) ∧
    0 ≤ s.controller.uncommittedBlocks s.manager ∧
    s.controller.growthCommitments.get? "a" = some (s.manager.outstanding "a" 6) ∧
    result.isSome = true := by
  have hcomputed : (KVCacheManager.new (η := List ℕ) sampleConfig).toOption.any (fun m =>
      (sampleCalls.foldlM (followOrderly fun _ => 6) (start (sampleSettings .all) m 0)).any fun s =>
        (s.manager.allocateSlots (sampleRequest "a" [1, 2, 3, 4, 5, 6] 5).toRequest
          lastArgs).toOption.any fun _ =>
            decide ("a" ∈ s.controller.admitted.keys ∧
              s.Limited (fun _ => 6) (sampleRequest "a" [1, 2, 3, 4, 5, 6] 5) ∧
              lastArgs.newComputedBlocks = (s.manager.singleTypeManagers.map fun _ => []) ∧
              computedTokens (sampleRequest "a" [1, 2, 3, 4, 5, 6] 5).toRequest lastArgs +
                lastArgs.numNewTokens ≤ 6)) = true := by decide +kernel
  obtain ⟨m, hm, hrest⟩ := (Option.any_eq_true _ _).mp hcomputed
  obtain ⟨s, hs, hrest⟩ := (Option.any_eq_true _ _).mp hrest
  obtain ⟨⟨manager, result⟩, hslots, hfacts⟩ := (Option.any_eq_true _ _).mp hrest
  obtain ⟨hadmitted, hlimited, hnil, hlimit⟩ := of_decide_eq_true hfacts
  have hnew := Ensures.eq_ok_of_toOption_eq_some hm
  have hserved := Ensures.eq_ok_of_toOption_eq_some hslots
  have hrun : Run (fun s call t => Next listHash [] s call t ∧ s.Orderly (fun _ => 6) call)
      (start (sampleSettings .all) m 0) sampleCalls s :=
    .of_foldlM (fun _ _ _ h => followOrderly_next h) hs
  have hkinds : ∀ spec ∈ sampleConfig.kvCacheGroups, spec.kind = .fullAttention :=
    List.forall_mem_singleton.mpr rfl
  obtain ⟨huncommitted, hcommitted, hserves⟩ := generation_reserved listHash_collisionFree hnew
    hkinds rfl rfl (fun _ => 6) hrun
  exact ⟨m, s, manager, result, hnew, hrun, hserved, huncommitted, hcommitted "a" hadmitted,
    hserves _ _ _ _ hadmitted hlimited hnil rfl hlimit hserved⟩

end Sample

end ControlState

end TokenCake.Control
