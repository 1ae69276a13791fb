import TokenCake.Verification.Control.Accounts

/-! # The ledger of blocks

In every run of the scheduler the accounts of the controller add up. They are those of the blocks in
use as long as no request with blocks is lost sight of. -/

namespace TokenCake.Control

open Capacity KV KVCacheManager SchedulingController

variable {η β : Type} [DecidableEq η] {hash : η → β → η} {base : η}

/-- The calls that end with `release`. -/
def ControlCall.Releases : ControlCall η → Prop
  | .beginStep .. | .preempt .. | .freeBlocks _ => True
  | _ => False

/-- The call that starts a step. -/
def ControlCall.Begins : ControlCall η → Prop
  | .beginStep .. => True
  | _ => False

namespace ControlState

variable {s t : ControlState η} {call : ControlCall η} {calls : List (ControlCall η)}
  {args : SlotArgs}

/-- The cache manager is consistent, and the accounts add up. -/
structure Coherent (s : ControlState η) : Prop where
  consistent : s.toCacheState.Consistent
  accounts : s.controller.Accounts s.manager

/-- What is available is not touched, and no more is committed. -/
structure Kept (s t : ControlState η) : Prop where
  shared_eq : t.controller.sharedAvailable = s.controller.sharedAvailable
  reserved_eq : t.controller.reservedAvailable = s.controller.reservedAvailable
  active : t.controller.accountingActive = true → s.controller.accountingActive = true
  uncommitted_le : s.controller.accountingActive = true →
    s.controller.progressReservation = false →
      s.controller.uncommittedBlocks s.manager ≤ t.controller.uncommittedBlocks t.manager

omit [DecidableEq η] in
theorem Kept.refl (s : ControlState η) : Kept s s := ⟨rfl, rfl, id, fun _ _ => le_rfl⟩

/-- What is available is computed by the call or kept. -/
def Recomputed (s t : ControlState η) : Prop := t.controller.Settled t.manager ∨ Kept s t

omit [DecidableEq η] in
theorem Kept.of_returned {manager : KVCacheManager η}
    (hreturned : Returned s.manager.blockPool manager.blockPool)
    (hdrift : drift s.manager.blockPool = 0) (hdrift' : drift manager.blockPool = 0) :
    Kept s { s with manager := manager } where
  shared_eq := rfl
  reserved_eq := rfl
  active := id
  uncommitted_le _ _ := by
    have hle := hreturned.numFree_le hdrift hdrift'
    unfold uncommittedBlocks
    dsimp only
    omega

/-- The state after a call. -/
structure After (s : ControlState η) (call : ControlCall η) (t : ControlState η) : Prop where
  coherent : t.Coherent
  setup : SameSetup s.controller t.controller
  recomputed : Recomputed s t
  active_eq : ¬call.Begins → t.controller.accountingActive = s.controller.accountingActive
  settled : call.Releases → t.controller.accountingActive = true → t.controller.Settled t.manager
  covers : s.controller.Covers s.manager → s.Adopts call → t.controller.Covers t.manager
  exact : call.Releases → t.controller.accountingActive = true →
    s.controller.Covers s.manager → s.Adopts call → t.controller.Exact t.manager

/-- A call that does not end with `release`. -/
theorem After.quiet (hreleases : ¬call.Releases) (ht : t.Coherent)
    (hsetup : SameSetup s.controller t.controller) (hrecomputed : Recomputed s t)
    (hactive : t.controller.accountingActive = s.controller.accountingActive)
    (hcovers : s.controller.Covers s.manager → t.controller.Covers t.manager) :
    s.After call t where
  coherent := ht
  setup := hsetup
  recomputed := hrecomputed
  active_eq _ := hactive
  settled hcall := absurd hcall hreleases
  covers hs _ := hcovers hs
  exact hcall := absurd hcall hreleases

/-- An error of the cache manager. The controller refuses capacity only where a block in use is not
charged. -/
def Fault (s : ControlState η) (e : ControllerError) : Prop :=
  (∃ k, e = .cache k) ∨ e = .exceededCapacity ∧ ¬s.controller.Covers s.manager

/-! ## The first state -/

theorem Coherent.start {config : KVCacheConfig} {m : KVCacheManager η}
    (hnew : KVCacheManager.new config = .ok m) (settings : SchedulingConfig)
    (numLookaheadTokens : ℕ) : Coherent (start settings m numLookaheadTokens) where
  consistent := .start hnew
  accounts := by
    constructor
    case counted => exact fun owner => rfl
    case idle => exact fun _ => rfl
    case charged => exact fun b hb => absurd hb List.not_mem_nil
    case bounded => exact fun hactive => Bool.noConfusion hactive
    case planned =>
      rintro (hactive | hscores)
      · cases hactive
      · exact absurd rfl hscores
    case ratio_ge => exact le_rfl
    case ratio_le => exact settings.reserveRatio_le

/-! ## Allocation -/

/-- What `allocate_slots` with `commit` leaves. -/
structure Allocated (s : ControlState η) (request : GrowthRequest η) (args : SlotArgs)
    (t : ControlState η) : Prop where
  coherent : t.Coherent
  setup : SameSetup s.controller t.controller
  covers : s.controller.Covers s.manager → t.controller.Covers t.manager
  verdict : (∃ manager, s.manager.allocateSlots request.toRequest args = .ok (manager, none) ∧
      Returned s.manager.blockPool manager.blockPool ∧ t = { s with manager := manager }) ∨
    ∃ blocks blockIds,
      s.manager.allocateSlots request.toRequest args = .ok (t.manager, some blocks) ∧
        Committed s.controller t.manager request blockIds t.controller

theorem Allocated.after {request : GrowthRequest η} (h : s.Allocated request args t)
    (hs : s.Coherent) (hreleases : ¬call.Releases) : s.After call t := by
  rcases h.verdict with ⟨manager, -, hreturned, rfl⟩ | ⟨_, _, -, hcommitted⟩
  · refine .quiet hreleases h.coherent h.setup (.inr ?_) rfl h.covers
    exact .of_returned hreturned hs.consistent.drift_eq h.coherent.consistent.drift_eq
  · exact .quiet hreleases h.coherent h.setup (.inl hcommitted.settled) hcommitted.active_eq
      h.covers

/-- `allocate_slots` with `commit`: the controller does not fail if there is capacity for the new
blocks wherever all blocks in use are charged. -/
theorem Coherent.allocate (h : s.Coherent) (hfree : CollisionFree hash base)
    (hactive : s.controller.accountingActive = true) (request : GrowthRequest η)
    (hserves : s.Serves hash base request.toRequest args) (running borrowReserved : Bool)
    (hcapacity : s.controller.Covers s.manager → ∀ manager blocks,
      s.manager.allocateSlots request.toRequest args = .ok (manager, some blocks) →
        s.controller.Affords request.requestId running borrowReserved
          (s.controller.chargeable (committedIds manager request.requestId
            (if running then some blocks else none))).length)
    (hnew : ∀ manager blocks,
      s.manager.allocateSlots request.toRequest args = .ok (manager, some blocks) →
        ∀ b ∈ s.manager.blockPool.freeBlockQueue, Occupied manager.blockPool b →
          b ∈ committedIds manager request.requestId (if running then some blocks else none)) :
    Ensures s.Fault (s.Allocated request args)
      (s.allocate request args running borrowReserved) := by
  unfold ControlState.allocate
  cases hslots : s.manager.allocateSlots request.toRequest args with
  | error e => exact Ensures.error (.inl ⟨e, rfl⟩)
  | ok result =>
      obtain ⟨manager, newBlocks⟩ := result
      have hperform : s.manager.perform (.allocateSlots request.toRequest args) = .ok manager := by
        rw [KVCacheManager.perform, hslots]
        rfl
      obtain ⟨hconsistent, hnum, -⟩ :=
        h.consistent.perform hfree _ hserves.issued hserves.fits hperform
      cases newBlocks with
      | none =>
          -- A call that is refused has slid the windows at most.
          have hreturned : Returned s.manager.blockPool manager.blockPool := by
            rcases allocateSlots_verdict hslots with
              ⟨-, rfl, -⟩ | ⟨k, -, ⟨-, rfl, -⟩ | ⟨_, hsome, -⟩⟩
            · exact ⟨rfl, [], (List.append_nil _).symm⟩
            · exact (h.consistent.slide hfree ..).2
            · cases hsome
          exact Ensures.ok ⟨⟨hconsistent, h.accounts.manager hnum⟩, ⟨rfl, rfl, rfl⟩,
            fun hcovers => hcovers.returned hreturned, .inl ⟨manager, hslots, hreturned, rfl⟩⟩
      | some blocks =>
          have hspec := commit_committed h.accounts.counted (h.accounts.bounded hactive)
            (h.accounts.planned (.inl hactive)) manager request
            (if running then some blocks else none) borrowReserved
          have hrunning : (if running then some blocks else none).isSome = running := by
            cases running <;> rfl
          rw [hrunning] at hspec
          dsimp only [Except.mapError, bind, Except.bind]
          cases hcommit : s.controller.commit manager request
              (if running then some blocks else none) borrowReserved with
          | error e =>
              obtain ⟨rfl, hcannot⟩ := hspec.of_eq_error hcommit
              exact Ensures.error (.inr ⟨rfl, fun hcovers =>
                hcannot (hcapacity hcovers manager blocks hslots)⟩)
          | ok c' =>
              have hcommitted := hspec.of_eq_ok hcommit
              refine Ensures.ok ⟨⟨hconsistent, h.accounts.commit hactive hnum hcommitted⟩,
                hcommitted.setup, fun hcovers => hcommitted.covers fun b hb => ?_,
                .inr ⟨blocks, _, hslots, hcommitted⟩⟩
              by_cases hfreed : b ∈ s.manager.blockPool.freeBlockQueue
              · exact .inr (hnew manager blocks hslots b hfreed hb)
              · exact .inl (hcovers hactive b ⟨hb.1, hnum ▸ hb.2.1, hfreed⟩)

end ControlState

end TokenCake.Control
