import TokenCake.Verification.Control.Demand
import TokenCake.Verification.Control.Ledger

/-! # Admission

What `can_allocate` accepts, `allocate_slots` serves, and `commit` finds the capacity for it. -/

namespace TokenCake.Control

open Capacity KV KVCacheManager

variable {η β : Type} {hash : η → β → η} {base : η}

namespace SchedulingController

variable {c : SchedulingController} {m : KVCacheManager η} {request : GrowthRequest η}
  {args : SlotArgs} {borrowReserved : Bool}

/-! ## The checks -/

/-- The computed tokens of a call. -/
def computedTokens (request : Request η) (args : SlotArgs) : ℕ :=
  numLocalComputedTokens request args + args.numExternalComputedTokens

/-- What `can_allocate` has checked for a request that it accepts. -/
structure Admits (c : SchedulingController) (m : KVCacheManager η) (request : GrowthRequest η)
    (args : SlotArgs) (borrowReserved : Bool) (n full : ℕ) : Prop where
  predicted : m.numBlocksToAllocate request.toRequest args = .ok n
  demand : c.admissionDemand m request (computedTokens request.toRequest args)
    args.newComputedBlocks = .ok full
  room : ((max n full : ℕ) : ℤ) ≤ c.uncommittedBlocks m
  capacity : (c.capacity.consumption request.requestId borrowReserved (max n full)).isSome = true

theorem admits_spec (c : SchedulingController) (m : KVCacheManager η) (request : GrowthRequest η)
    (args : SlotArgs) (borrowReserved : Bool) :
    Ensures (fun _ => True) (fun result =>
        (∃ deferred, result.2 = { c with reservationDeferred := deferred }) ∧ (result.1 = true →
          result.2 = c ∧ ∃ n full, Admits c m request args borrowReserved n full))
      (c.admits m request args borrowReserved) := by
  have hrefused : Ensures (fun _ : KVError => True) (fun result : Bool × SchedulingController =>
      (∃ deferred, result.2 = { c with reservationDeferred := deferred }) ∧ (result.1 = true →
        result.2 = c ∧ ∃ n full, Admits c m request args borrowReserved n full))
      (.ok (false, c)) := Ensures.ok ⟨⟨_, rfl⟩, fun h => Bool.noConfusion h⟩
  unfold admits
  cases hpredicted : m.numBlocksToAllocate request.toRequest args with
  | error e =>
      change Ensures _ _ (m.numBlocksToAllocate request.toRequest args >>= _)
      rw [hpredicted]
      exact Ensures.error trivial
  | ok n =>
      change Ensures _ _ (m.numBlocksToAllocate request.toRequest args >>= _)
      rw [hpredicted]
      cases hdemand : c.admissionDemand m request (computedTokens request.toRequest args)
          args.newComputedBlocks with
      | error e =>
          change Ensures _ _ (c.admissionDemand m request (computedTokens request.toRequest args)
            args.newComputedBlocks >>= _)
          rw [hdemand]
          exact Ensures.error trivial
      | ok full =>
          change Ensures _ _ (c.admissionDemand m request (computedTokens request.toRequest args)
            args.newComputedBlocks >>= _)
          rw [hdemand]
          dsimp only [bind, Except.bind]
          split
          · exact hrefused
          · next hroom =>
              split
              · exact hrefused
              · cases hcapacity : c.capacity.consumption request.requestId borrowReserved
                    (max n full) with
                | none =>
                    dsimp only
                    split
                    · exact Ensures.ok ⟨⟨_, rfl⟩, fun h => Bool.noConfusion h⟩
                    · exact hrefused
                | some usage =>
                    refine Ensures.ok
                      ⟨⟨_, rfl⟩, fun _ => ⟨rfl, n, full, hpredicted, hdemand, ?_, ?_⟩⟩
                    · exact not_lt.mp hroom
                    · rw [hcapacity]
                      rfl

/-- What is enough for a demand is enough for a smaller one. -/
theorem consumption_mono {cs : CapacityState} (hnonneg : cs.Nonneg) {requestId : String}
    {count demand : ℕ} (hle : count ≤ demand)
    (h : (cs.consumption requestId borrowReserved demand).isSome = true) :
    (cs.consumption requestId borrowReserved count).isSome = true := by
  obtain ⟨-, hdemand⟩ :=
    CapacityState.settled_consumption hnonneg requestId borrowReserved demand
  obtain ⟨-, hcount⟩ := CapacityState.settled_consumption hnonneg requestId borrowReserved count
  rw [Option.isSome_iff_ne_none, ne_eq] at h ⊢
  rw [hdemand] at h
  rw [hcount]
  omega

/-- A running request that is committed is judged. -/
theorem canGrow_ok (hcommitted : request.requestId ∈ c.growthCommitments.keys) (numNewTokens : ℕ) :
    ∃ allowed, c.canGrow m request numNewTokens = .ok allowed := by
  obtain ⟨demand, hdemand⟩ := getNumBlocksToAllocate_ok m request.requestId
    (request.numComputedTokens + numNewTokens) request.numComputedTokens false
  unfold canGrow
  dsimp only
  rw [hdemand]
  dsimp only [Except.mapError, bind, Except.bind]
  split
  · exact ⟨true, rfl⟩
  · split
    · exact ⟨true, rfl⟩
    · split
      · cases hfirst : c.beneficiary with
        | none =>
            have hnil := List.head?_eq_none_iff.mp hfirst
            rw [← List.length_eq_zero_iff, List.length_mergeSort, List.length_eq_zero_iff] at hnil
            rw [hnil] at hcommitted
            exact absurd hcommitted List.not_mem_nil
        | some k => exact ⟨_, rfl⟩
      · cases hleast : (c.growthCommitments.keys.map
            (c.growthAfter request.requestId demand)).min? with
        | none =>
            rw [List.min?_eq_none_iff, List.map_eq_nil_iff] at hleast
            rw [hleast] at hcommitted
            exact absurd hcommitted List.not_mem_nil
        | some remaining => exact ⟨_, rfl⟩

end SchedulingController

/-! ## What an allocation takes -/

theorem length_le_of_taken {l queue queue' : List BlockId} {k : ℕ} (hnodup : l.Nodup)
    (hqueue : queue.Nodup) (htaken : ∀ b ∈ l, b ∈ queue ∧ b ∉ queue')
    (hsublist : queue'.Sublist queue) (hlength : queue.length ≤ queue'.length + k) :
    l.length ≤ k := by
  have hdisjoint : (l ++ queue').Nodup := by
    refine List.nodup_append.mpr ⟨hnodup, hsublist.nodup hqueue, fun b hb b' hb' heq => ?_⟩
    exact (htaken b hb).2 (heq ▸ hb')
  have hsubset : l ++ queue' ⊆ queue := by
    intro b hb
    rcases List.mem_append.mp hb with hb | hb
    · exact (htaken b hb).1
    · exact hsublist.subset hb
  have hle := (hdisjoint.subperm hsubset).length_le
  rw [List.length_append] at hle
  omega

namespace SchedulingController

variable {c : SchedulingController} {m : KVCacheManager η} {request : GrowthRequest η}
  {args : SlotArgs} {borrowReserved : Bool} {n full : ℕ}

theorem uncommittedBlocks_add :
    c.uncommittedBlocks m + c.committedBlocks = m.blockPool.numFreeBlocks := by
  unfold uncommittedBlocks
  omega

theorem generationHeadroom_le (h : c.progressReservation = true) :
    c.generationHeadroom ≤ c.committedBlocks := by
  unfold committedBlocks
  rw [if_pos h]
  omega

/-- The whole input of an admitted request fits, whatever the generation mode. -/
theorem admissionDemand_covers (hhits : m.HitsForNew request.requestId args.newComputedBlocks)
    (h : c.admissionDemand m request (computedTokens request.toRequest args)
      args.newComputedBlocks = .ok full) :
    m.totalNeeded request.requestId (min request.numTokens m.maxModelLen) args.newComputedBlocks
      (computedTokens request.toRequest args) true ≤ full + c.committedBlocks := by
  have hrequired : ∀ tokens, m.getNumBlocksToAllocate request.requestId
      (min (tokens + c.numLookaheadTokens) m.maxModelLen) args.newComputedBlocks
      (computedTokens request.toRequest args) true = .ok (m.totalNeeded request.requestId
        (min (tokens + c.numLookaheadTokens) m.maxModelLen) args.newComputedBlocks
        (computedTokens request.toRequest args) true) :=
    fun tokens => getNumBlocksToAllocate_total hhits
  have hcovers : ∀ tokens, min request.numTokens m.maxModelLen ≤ tokens →
      m.totalNeeded request.requestId (min request.numTokens m.maxModelLen) args.newComputedBlocks
        (computedTokens request.toRequest args) true ≤ m.totalNeeded request.requestId
        (min (tokens + c.numLookaheadTokens) m.maxModelLen) args.newComputedBlocks
        (computedTokens request.toRequest args) true :=
    fun tokens htokens => totalNeeded_mono (by omega)
  have hfull : min request.numTokens m.maxModelLen ≤
      m.admissionTokens c.growthSettings request := by
    unfold KVCacheManager.admissionTokens
    dsimp only
    split <;> omega
  have hinput := hcovers (min request.numTokens m.maxModelLen) le_rfl
  have hwhole := hcovers (m.admissionTokens c.growthSettings request) hfull
  unfold admissionDemand at h
  dsimp only at h
  rw [hrequired, hrequired] at h
  dsimp only [bind, Except.bind, pure, Except.pure] at h
  split at h
  · obtain rfl := Except.ok.inj h
    omega
  · split at h
    · next hprogress =>
        have hheadroom := generationHeadroom_le (c := c) hprogress
        split at h
        · obtain rfl := Except.ok.inj h
          omega
        · obtain rfl := Except.ok.inj h
          omega
    · obtain rfl := Except.ok.inj h
      omega

end SchedulingController

namespace ControlState

open SchedulingController

variable [DecidableEq η] {s : ControlState η} {request : GrowthRequest η} {args : SlotArgs}
  {borrowReserved : Bool} {n full : ℕ}

/-- The state after the windows of a request have slid, in `prepare_running` and in
`can_allocate`. -/
def prepared (s : ControlState η) (requestId : String) (numComputedTokens : ℕ) : ControlState η :=
  let next := s.manager.removeSkippedBlocks requestId numComputedTokens
  { s with
    manager := next
    controller :=
      if s.manager.blockPool.numFreeBlocks ≠ next.blockPool.numFreeBlocks then
        s.controller.release next
      else s.controller }

theorem Coherent.prepared (h : s.Coherent) (hfree : CollisionFree hash base) (r : String)
    (numComputedTokens : ℕ) : (s.prepared r numComputedTokens).Coherent ∧
      SameSetup s.controller (s.prepared r numComputedTokens).controller ∧
      Recomputed s (s.prepared r numComputedTokens) ∧
      (s.prepared r numComputedTokens).controller.accountingActive =
        s.controller.accountingActive ∧
      (s.controller.Covers s.manager → (s.prepared r numComputedTokens).controller.Covers
        (s.prepared r numComputedTokens).manager) := by
  obtain ⟨hconsistent, hreturned⟩ := h.consistent.slide hfree r numComputedTokens
  have haccounts := h.accounts.manager hreturned.numGpuBlocks_eq
  unfold ControlState.prepared
  dsimp only
  split
  · obtain ⟨hreleased, hsettled⟩ := haccounts.release
    refine ⟨⟨hconsistent, hreleased⟩, (release_sameBooks ..).setup, ?_,
      (release_sameBooks ..).active_eq, fun hcovers =>
        (hcovers.returned hreturned).release hconsistent.managed haccounts.charged⟩
    cases hactive : s.controller.accountingActive with
    | false =>
        rw [release_inactive hactive]
        exact .inr (.of_returned hreturned h.consistent.drift_eq hconsistent.drift_eq)
    | true => exact .inl (hsettled hactive)
  · exact ⟨⟨hconsistent, haccounts⟩, ⟨rfl, rfl, rfl⟩,
      .inr (.of_returned hreturned h.consistent.drift_eq hconsistent.drift_eq), rfl,
      fun hcovers => hcovers.returned hreturned⟩

/-- Blocks of a request that have no charge come off the queue. -/
theorem Coherent.length_chargeable (h : s.Coherent) (hfree : CollisionFree hash base)
    (hcovers : s.controller.Covers s.manager)
    (hactive : s.controller.accountingActive = true)
    (hserves : s.Serves hash base request.toRequest args)
    (hready : s.manager.Ready request.toRequest args)
    (hslid : ∀ g ∈ s.manager.singleTypeManagers,
      HasSlid request.requestId (s.manager.totalComputedTokens request.toRequest args) g)
    (hpredicted : s.manager.numBlocksToAllocate request.toRequest args = .ok n)
    {manager : KVCacheManager η} {blocks : List (List BlockId)}
    (hslots : s.manager.allocateSlots request.toRequest args = .ok (manager, some blocks)) :
    (s.controller.chargeable (committedIds manager request.requestId none)).length ≤ n := by
  obtain ⟨k, hk, hsublist, hlength⟩ :=
    h.consistent.allocate hserves.issued hready hslid hslots
  obtain rfl : k = n := Except.ok.inj (hk.symm.trans hpredicted)
  have hperform : s.manager.perform (.allocateSlots request.toRequest args) = .ok manager := by
    rw [KVCacheManager.perform, hslots]
    rfl
  obtain ⟨hconsistent, hnum, -⟩ :=
    h.consistent.perform hfree _ hserves.issued hserves.fits hperform
  refine length_le_of_taken (nodup_chargeable _) h.consistent.managed.balanced.ledger.queue_nodup
    (fun b hb => ?_) hsublist hlength
  obtain ⟨hmem, hnull, hcharge⟩ := mem_chargeable.mp hb
  obtain ⟨g, hg, htable⟩ := List.mem_flatMap.mp hmem
  have hoccupied := (hconsistent.managed.occupied_iff_held hnull).mpr ⟨g, hg, _, htable⟩
  refine ⟨?_, hoccupied.2.2⟩
  by_contra hqueue
  exact hcharge (hcovers hactive b ⟨hnull, hnum ▸ hoccupied.2.1, hqueue⟩)

/-- What `can_allocate` has accepted is served and charged. -/
theorem Coherent.finds_capacity (h : s.Coherent) (hfree : CollisionFree hash base)
    (hcovers : s.controller.Covers s.manager)
    (hactive : s.controller.accountingActive = true)
    (hserves : s.Serves hash base request.toRequest args)
    (hready : s.manager.Ready request.toRequest args)
    (hslid : ∀ g ∈ s.manager.singleTypeManagers,
      HasSlid request.requestId (s.manager.totalComputedTokens request.toRequest args) g)
    (hadmits : s.controller.Admits s.manager request args borrowReserved n full)
    {manager : KVCacheManager η} {blocks : List (List BlockId)}
    (hslots : s.manager.allocateSlots request.toRequest args = .ok (manager, some blocks)) :
    s.controller.Affords request.requestId false borrowReserved
      (s.controller.chargeable (committedIds manager request.requestId none)).length := by
  have hlength := h.length_chargeable hfree hcovers hactive hserves hready hslid
    hadmits.predicted hslots
  exact .inl <| consumption_mono (h.accounts.bounded hactive).nonneg (hlength.trans (le_max_left n full))
    hadmits.capacity

/-- `allocate_slots` does not refuse what `can_allocate` has accepted. -/
theorem Coherent.serves (h : s.Coherent) (hready : s.manager.Ready request.toRequest args)
    (hslid : ∀ g ∈ s.manager.singleTypeManagers,
      HasSlid request.requestId (s.manager.totalComputedTokens request.toRequest args) g)
    (hadmits : s.controller.Admits s.manager request args borrowReserved n full)
    {manager : KVCacheManager η} {result : Option (List (List BlockId))}
    (hslots : s.manager.allocateSlots request.toRequest args = .ok (manager, result)) :
    result.isSome = true := by
  have hroom : ((max n full : ℕ) : ℤ) + s.controller.committedBlocks ≤
      s.manager.blockPool.numFreeBlocks := by
    have := hadmits.room
    have := uncommittedBlocks_add (c := s.controller) (m := s.manager)
    omega
  have htotal : s.manager.totalComputedTokens request.toRequest args =
      computedTokens request.toRequest args := min_eq_left hready.within
  rcases allocateSlots_verdict hslots with ⟨-, -, hfits⟩ | ⟨k, hk, ⟨-, rfl, hshort⟩ | ⟨_, rfl, -⟩⟩
  · -- The whole input was counted.
    exfalso
    have hcovers := admissionDemand_covers hready.hitsForNew hadmits.demand
    unfold fullSequenceFits at hfits
    rw [htotal, getNumBlocksToAllocate_total hready.hitsForNew] at hfits
    split at hfits
    · have hfalse := of_decide_eq_false (Except.ok.inj hfits)
      omega
    · cases hfits
  · exfalso
    have hpool : (s.manager.removeSkippedBlocks request.requestId
        (s.manager.totalComputedTokens request.toRequest args)).blockPool = s.manager.blockPool :=
      removeSkippedBlocks_pool _ _ hslid
    have hsame : s.manager.numBlocksToAllocate request.toRequest args = .ok k := by
      rw [← hk]
      exact (getNumBlocksToAllocate_slid hpool
        (h.consistent.toInOrder.slid request.toRequest args).2.groups _ _ _).symm
    obtain rfl : k = n := Except.ok.inj (hsame.symm.trans hadmits.predicted)
    rw [hpool] at hshort
    omega
  · rfl

end ControlState

end TokenCake.Control
