import TokenCake.Verification.Control.Runs

/-! # Correctness of the accounts

The charges, what is available and admission in every run of the scheduler. -/

namespace TokenCake.Control

open Capacity KV KVCacheManager SchedulingController

variable {η β : Type} [DecidableEq η] {hash : η → β → η} {base : η}

namespace ControlState

variable {config : KVCacheConfig} {m : KVCacheManager η} {s t : ControlState η}
  {calls : List (ControlCall η)} {settings : SchedulingConfig} {numLookaheadTokens : ℕ}

/-- A block is held if it lies in the table of a request. -/
def Held (m : KVCacheManager η) (b : BlockId) : Prop :=
  b ≠ nullBlock ∧ ∃ g ∈ m.singleTypeManagers, ∃ r, b ∈ g.table r

theorem Coherent.held_iff (h : s.Coherent) (b : BlockId) :
    Held s.manager b ↔ Occupied s.manager.blockPool b := by
  constructor
  · intro hb
    exact (h.consistent.managed.occupied_iff_held hb.1).mpr hb.2
  · intro hb
    exact ⟨hb.1, (h.consistent.managed.occupied_iff_held hb.1).mp hb⟩

/-- With exact accounts, charges and free blocks add up to all blocks. -/
theorem Coherent.size_charges (h : s.Coherent) (hexact : s.controller.Exact s.manager) :
    (s.controller.charges.size : ℤ) + s.manager.blockPool.numFreeBlocks =
      (s.manager.blockPool.numGpuBlocks - 1 : ℕ) := by
  have hperm : s.controller.charges.keys.Perm (occupiedBlocks s.manager.blockPool) := by
    refine (List.perm_ext_iff_of_nodup s.controller.charges.nodupKeys ?_).mpr fun b => ?_
    · exact List.Nodup.filter _ List.nodup_range'
    · rw [mem_occupiedBlocks]
      exact hexact b
  have hsize : s.controller.charges.size = (occupiedBlocks s.manager.blockPool).length := by
    rw [← hperm.length_eq]
    exact (List.length_map _).symm
  have htotal := h.consistent.managed.length_occupied h.consistent.drift_eq
  omega

/-- In every run in which no request with blocks is lost sight of, each owner is counted for what is
charged to it, and every block that a request holds is charged once. After the calls that release,
nothing else is charged, and the charges and the free blocks are all blocks. -/
theorem charges_exact (hfree : CollisionFree hash base)
    (hnew : KVCacheManager.new config = .ok m)
    (hrun : Run (NextSeen hash base) (start settings m numLookaheadTokens) calls s) :
    (∀ owner, s.controller.used owner = s.controller.charges.values.count owner) ∧
    (s.controller.accountingActive = true → ∀ b, Held s.manager b →
      b ∈ s.controller.charges.keys) ∧
    ∀ call t, NextSeen hash base s call t → call.Releases → t.controller.accountingActive = true →
      (∀ b, b ∈ t.controller.charges.keys ↔ Held t.manager b) ∧
      (t.controller.charges.size : ℤ) + t.manager.blockPool.numFreeBlocks =
        (t.manager.blockPool.numGpuBlocks - 1 : ℕ) := by
  have hs := (Covered.start hnew settings numLookaheadTokens).run hfree hrun
  refine ⟨hs.accounts.counted, fun hactive b hb => ?_, fun call t hnext hreleases hactive => ?_⟩
  · exact hs.covers hactive b ((hs.held_iff b).mp hb)
  · have hafter := (hs.toCoherent.step hfree hnext.1.1).of_eq_ok hnext.1.2
    have hexact := hafter.exact hreleases hactive hs.covers hnext.2
    refine ⟨fun b => ?_, hafter.coherent.size_charges hexact⟩
    rw [hafter.coherent.held_iff]
    exact hexact b

/-- What is available is backed by blocks that are not committed. The progress mode is left out:
there the end of a request may commit more blocks for the others. -/
def Backed (s : ControlState η) : Prop :=
  s.controller.accountingActive = true → s.controller.progressReservation = false →
    s.controller.totalAvailable ≤ max 0 (s.controller.uncommittedBlocks s.manager)

theorem Backed.after {call : ControlCall η} (h : s.Backed) (hafter : s.After call t) :
    t.Backed := by
  intro hactive hprogress
  rcases hafter.recomputed with hsettled | hkept
  · exact hsettled ▸ min_le_right ..
  · rw [hafter.setup.progress_eq] at hprogress
    have hs := hkept.active hactive
    have hle := hkept.uncommitted_le hs hprogress
    have htotal : t.controller.totalAvailable = s.controller.totalAvailable := by
      unfold totalAvailable
      rw [hkept.shared_eq, hkept.reserved_eq]
    rw [htotal]
    exact (h hs hprogress).trans (max_le_max le_rfl hle)

theorem Coherent.run_backed (h : s.Coherent) (hbacked : s.Backed)
    (hfree : CollisionFree hash base) (hrun : Run (Next hash base) s calls t) : t.Backed := by
  suffices hboth : t.Coherent ∧ t.Backed from hboth.2
  refine hrun.invariant (I := fun s => s.Coherent ∧ s.Backed) (fun s call t _ hs hnext => ?_)
    ⟨h, hbacked⟩
  have hafter := (hs.1.step hfree hnext.1).of_eq_ok hnext.2
  exact ⟨hafter.coherent, hs.2.after hafter⟩

/-- In every run with active accounts: the plan shares out all blocks and reserves no more than
the largest ratio; what is available to each owner is not negative and within its part of the plan
less what is charged; together it is backed by uncommitted blocks. Every call computes it anew or
does not touch it. -/
theorem available_within_plan (hfree : CollisionFree hash base)
    (hnew : KVCacheManager.new config = .ok m)
    (hrun : Run (Next hash base) (start settings m numLookaheadTokens) calls s)
    (hactive : s.controller.accountingActive = true) :
    Planned s.controller.plan (s.manager.blockPool.numGpuBlocks - 1)
      (s.controller.reservedLimit s.manager) ∧
    s.controller.Bounded ∧
    (s.controller.progressReservation = false →
      s.controller.totalAvailable ≤ max 0 (s.controller.uncommittedBlocks s.manager)) ∧
    ∀ call t, Next hash base s call t →
      t.controller.totalAvailable =
        min t.controller.totalUnused (max 0 (t.controller.uncommittedBlocks t.manager)) ∨
      t.controller.sharedAvailable = s.controller.sharedAvailable ∧
        t.controller.reservedAvailable = s.controller.reservedAvailable := by
  have hstart := Coherent.start hnew settings numLookaheadTokens
  have hs := hstart.run hfree hrun
  refine ⟨hs.accounts.planned (.inl hactive), hs.accounts.bounded hactive, ?_,
    fun call t hnext => ?_⟩
  · exact hstart.run_backed (fun hidle => Bool.noConfusion hidle) hfree hrun hactive
  · exact ((hs.step hfree hnext.1).of_eq_ok hnext.2).recomputed.imp_right fun hkept =>
      ⟨hkept.shared_eq, hkept.reserved_eq⟩

/-- In every run in which no request with blocks is lost sight of, no call fails in the controller.
What `can_allocate` accepts for a request that is not admitted, `allocate_slots` does not refuse, and
`commit` finds the capacity for it. -/
theorem admission_kept (hfree : CollisionFree hash base)
    (hnew : KVCacheManager.new config = .ok m)
    (hrun : Run (NextSeen hash base) (start settings m numLookaheadTokens) calls s) :
    (∀ call e, s.Admissible hash base call → s.step call = .error e → ∃ k, e = .cache k) ∧
    ∀ request args borrowReserved manager controller next result,
      s.Admissible hash base (.admitWaiting request args borrowReserved) →
      s.controller.admitted.contains request.requestId = false →
      s.controller.canAllocate s.manager request args borrowReserved =
        .ok (true, manager, controller) →
      manager.allocateSlots request.toRequest args = .ok (next, result) →
      result.isSome = true ∧
        ∃ committed, controller.commit next request none borrowReserved = .ok committed := by
  have hs := (Covered.start hnew settings numLookaheadTokens).run hfree hrun
  refine ⟨fun call e hadmissible herror =>
    hs.cache_error ((hs.toCoherent.step hfree hadmissible).of_eq_error herror), ?_⟩
  intro request args borrowReserved manager controller next result hadmissible hfresh haccepted
    hslots
  obtain ⟨hactive, hserves, hready⟩ := hadmissible
  obtain ⟨hserves', hready', hslid⟩ := hserves.prepared hs.toCoherent hready
  obtain ⟨hu, -, -, hactive', hcovers⟩ :=
    hs.prepared hfree request.requestId (computedTokens request.toRequest args)
  have hcovers := hcovers hs.covers
  rw [canAllocate_prepared request args borrowReserved hfresh] at haccepted
  generalize s.prepared request.requestId (computedTokens request.toRequest args) = u at *
  have hspec := admits_spec u.controller u.manager request args borrowReserved
  obtain ⟨checked, hchecked, heq⟩ := Ensures.exists_of_map_eq_ok haccepted
  obtain ⟨htrue, hmanager, hcontroller⟩ : checked.1 = true ∧ u.manager = manager ∧
      checked.2 = controller := by simpa using heq
  obtain ⟨-, hadmits⟩ := hspec.of_eq_ok hchecked
  obtain ⟨hsame, n, full, hadmits⟩ := hadmits htrue
  rw [← hmanager] at hslots
  have hserved := hu.serves hready' hslid hadmits hslots
  obtain ⟨blocks, rfl⟩ := Option.isSome_iff_exists.mp hserved
  have hcapacity := hu.finds_capacity hfree hcovers (hactive'.trans hactive) hserves' hready' hslid
    hadmits hslots
  have hcommit := commit_committed hu.accounts.counted (hu.accounts.bounded
    (hactive'.trans hactive)) (hu.accounts.planned (.inl (hactive'.trans hactive))) next request
    none borrowReserved
  rw [← hcontroller, hsame]
  cases hcommitted : u.controller.commit next request none borrowReserved with
  | error e => exact absurd hcapacity (hcommit.of_eq_error hcommitted).2
  | ok committed => exact ⟨rfl, committed, rfl⟩

/-! ## A run with a shared prefix -/

section Sample

/-- Twenty blocks of one token. -/
def sampleConfig : KVCacheConfig where
  numBlocks := 21
  kvCacheGroups := [⟨.fullAttention, 1, Nat.one_pos, 0⟩]
  maxModelLen := 16
  maxNumBatchedTokens := 8
  enableCaching := true
  hashBlockSize := 1

def sampleSettings (mode : GenerationReserveMode) : SchedulingConfig :=
  { SchedulingConfig.defaults with generationReserveMode := mode }

def planner : AgentMetadata where
  agentType := "planner"
  importance := 1
  joinGroup := ""
  applicationStartedAt := 0

/-- A request with four prompt tokens that generates two more. -/
def sampleRequest (requestId : String) (tokens : List ℕ) (numComputedTokens : ℕ) :
    GrowthRequest (List ℕ) where
  toRequest := CacheState.listRequest requestId tokens numComputedTokens
  numPromptTokens := 4
  maxTokens := 2

/-- Request `a` is admitted and grows; `b` shares two of its blocks. -/
def sampleCalls : List (ControlCall (List ℕ)) :=
  let a := sampleRequest "a" [1, 2, 3, 4] 0
  let extended := sampleRequest "a" [1, 2, 3, 4, 5] 4
  let b := sampleRequest "b" [1, 2, 7, 8] 0
  [.associate "a" planner,
    .beginStep .uniform [a, b] [],
    .getComputedBlocks a.toRequest,
    .admitWaiting a { numNewTokens := 4, newComputedBlocks := [[]] } false,
    .beginStep .uniform [b] [extended],
    .prepareRunning extended,
    .grow extended 1 0,
    .getComputedBlocks b.toRequest,
    .admitWaiting b { numNewTokens := 2, numNewComputedTokens := 2, newComputedBlocks := [[1, 2]] }
      true]

/-- A decidable condition for `Admissible` and `Adopts`. -/
def Checked (s : ControlState (List ℕ)) : ControlCall (List ℕ) → Prop
  | .getComputedBlocks request => request.blockHashes =
      hashChain listHash [] (request.blockHashes.filterMap List.head?)
  | .beginStep _ waiting running => ∀ g ∈ s.manager.singleTypeManagers,
      ∀ r ∈ g.reqToBlocks.keys, ∃ request ∈ waiting ++ running, request.requestId = r
  | .prepareRunning _ => s.controller.accountingActive = true
  | .grow request _ _ | .retry request _ _ => s.controller.accountingActive = true ∧
      request.requestId ∈ s.controller.growthCommitments.keys
  | .admitWaiting request args _ => s.controller.accountingActive = true ∧
      ((args.newComputedBlocks = s.manager.singleTypeManagers.map (fun _ => []) ∨
        args.newComputedBlocks ∈ s.reported) ∧ s.manager.SlotsFit request.toRequest args) ∧
      s.manager.Ready request.toRequest args
  | .native (.allocateSlots ..) => False
  | _ => True

instance (s : ControlState (List ℕ)) (call : ControlCall (List ℕ)) :
    Decidable (s.Checked call) := by
  cases call with
  | native op => cases op <;> unfold Checked <;> infer_instance
  | _ => unfold Checked; infer_instance

theorem Checked.admissible {s : ControlState (List ℕ)} {call : ControlCall (List ℕ)}
    (h : s.Checked call) : s.Admissible listHash [] call := by
  cases call with
  | getComputedBlocks request => exact ⟨_, h⟩
  | prepareRunning request => exact h
  | grow request numNewTokens numLookaheadTokens => exact h
  | retry request numNewTokens numLookaheadTokens => exact h
  | admitWaiting request args borrowReserved => exact ⟨h.1, ⟨h.2.1.1, h.2.1.2⟩, h.2.2⟩
  | native op =>
      cases op with
      | allocateSlots request args => exact h.elim
      | _ => trivial
  | _ => trivial

theorem Checked.adopts {s : ControlState (List ℕ)} {call : ControlCall (List ℕ)}
    (h : s.Checked call) : s.Adopts call := by
  cases call with
  | beginStep inputs waiting running =>
      intro _ _ g hg r b hb _
      refine h g hg r (OrdDict.mem_keys_iff.mpr ?_)
      cases hget : g.reqToBlocks.get? r with
      | some blocks => exact ⟨blocks, rfl⟩
      | none =>
          unfold SingleTypeKVCacheManager.table at hb
          rw [hget] at hb
          cases hb
  | _ => trivial

/-- The state after a call that is checked. -/
def follow (s : ControlState (List ℕ)) (call : ControlCall (List ℕ)) :
    Option (ControlState (List ℕ)) :=
  if s.Checked call then (s.step call).toOption else none

theorem follow_next {s t : ControlState (List ℕ)} {call : ControlCall (List ℕ)}
    (h : follow s call = some t) : NextSeen listHash [] s call t := by
  unfold follow at h
  split at h
  · next hchecked =>
      exact ⟨⟨hchecked.admissible, Ensures.eq_ok_of_toOption_eq_some h⟩, hchecked.adopts⟩
  · cases h

/-- After `a` is preempted, the four blocks of `b` are charged. -/
theorem sampleRun_charges : ∃ m s t, KVCacheManager.new sampleConfig = .ok m ∧
    Run (NextSeen listHash []) (start (sampleSettings .all) m 0) sampleCalls s ∧
    NextSeen listHash [] s (.preempt (sampleRequest "a" [1, 2, 3, 4, 5] 4).toRequest true) t ∧
    t.controller.charges.keys = [1, 2, 6, 7] ∧
    (∀ b, b ∈ t.controller.charges.keys ↔ Held t.manager b) ∧
    (t.controller.charges.size : ℤ) + t.manager.blockPool.numFreeBlocks =
      (t.manager.blockPool.numGpuBlocks - 1 : ℕ) := by
  have hcomputed : (KVCacheManager.new (η := List ℕ) sampleConfig).toOption.any (fun m =>
      (sampleCalls.foldlM follow (start (sampleSettings .all) m 0)).any fun s =>
        (follow s (.preempt (sampleRequest "a" [1, 2, 3, 4, 5] 4).toRequest true)).any fun t =>
          decide (t.controller.accountingActive = true ∧
            t.controller.charges.keys = [1, 2, 6, 7])) = true := by decide +kernel
  obtain ⟨m, hm, hrest⟩ := (Option.any_eq_true _ _).mp hcomputed
  obtain ⟨s, hs, hrest⟩ := (Option.any_eq_true _ _).mp hrest
  obtain ⟨t, ht, hfacts⟩ := (Option.any_eq_true _ _).mp hrest
  obtain ⟨hactive, hkeys⟩ := of_decide_eq_true hfacts
  have hnew := Ensures.eq_ok_of_toOption_eq_some hm
  have hrun : Run (NextSeen listHash []) (start (sampleSettings .all) m 0) sampleCalls s :=
    .of_foldlM (fun _ _ _ h => follow_next h) hs
  obtain ⟨-, -, hreleased⟩ := charges_exact listHash_collisionFree hnew hrun
  obtain ⟨hexact, htotal⟩ := hreleased _ t (follow_next ht) trivial hactive
  exact ⟨m, s, t, hnew, hrun, follow_next ht, hkeys, hexact, htotal⟩

/-- Nineteen blocks are shared and one is reserved; seven are charged and three committed. -/
theorem sampleRun_available : ∃ m s, KVCacheManager.new sampleConfig = .ok m ∧
    Run (Next listHash []) (start (sampleSettings .all) m 0) sampleCalls s ∧
    s.controller.plan.shared = 19 ∧ s.controller.totalAvailable = 10 ∧
    Planned s.controller.plan (s.manager.blockPool.numGpuBlocks - 1)
      (s.controller.reservedLimit s.manager) ∧ s.controller.Bounded := by
  have hcomputed : (KVCacheManager.new (η := List ℕ) sampleConfig).toOption.any (fun m =>
      (sampleCalls.foldlM follow (start (sampleSettings .all) m 0)).any fun s =>
        decide (s.controller.accountingActive = true ∧ s.controller.plan.shared = 19 ∧
          s.controller.totalAvailable = 10)) = true := by decide +kernel
  obtain ⟨m, hm, hrest⟩ := (Option.any_eq_true _ _).mp hcomputed
  obtain ⟨s, hs, hfacts⟩ := (Option.any_eq_true _ _).mp hrest
  obtain ⟨hactive, hshared, htotal⟩ := of_decide_eq_true hfacts
  have hnew := Ensures.eq_ok_of_toOption_eq_some hm
  have hrun : Run (Next listHash []) (start (sampleSettings .all) m 0) sampleCalls s :=
    .of_foldlM (fun _ _ _ h => (follow_next h).1) hs
  obtain ⟨hplanned, hbounded, -⟩ :=
    available_within_plan listHash_collisionFree hnew hrun hactive
  exact ⟨m, s, hnew, hrun, hshared, htotal, hplanned, hbounded⟩

/-- The last call of `sampleCalls`. -/
def sampleArgs : SlotArgs where
  numNewTokens := 2
  numNewComputedTokens := 2
  newComputedBlocks := [[1, 2]]

/-- Request `b` is accepted, served and charged. -/
theorem sampleRun_admitted : ∃ m s manager controller next result,
    KVCacheManager.new sampleConfig = .ok m ∧
    Run (NextSeen listHash []) (start (sampleSettings .all) m 0) (sampleCalls.take 8) s ∧
    s.controller.canAllocate s.manager (sampleRequest "b" [1, 2, 7, 8] 0) sampleArgs true =
      .ok (true, manager, controller) ∧
    manager.allocateSlots (sampleRequest "b" [1, 2, 7, 8] 0).toRequest sampleArgs =
      .ok (next, result) ∧ result.isSome = true ∧
    ∃ committed, controller.commit next (sampleRequest "b" [1, 2, 7, 8] 0) none true =
      .ok committed := by
  have hcomputed : (KVCacheManager.new (η := List ℕ) sampleConfig).toOption.any (fun m =>
      ((sampleCalls.take 8).foldlM follow (start (sampleSettings .all) m 0)).any fun s =>
        (s.controller.canAllocate s.manager (sampleRequest "b" [1, 2, 7, 8] 0) sampleArgs
          true).toOption.any fun allowed =>
            (allowed.2.1.allocateSlots (sampleRequest "b" [1, 2, 7, 8] 0).toRequest
              sampleArgs).toOption.any fun _ =>
                decide (s.Checked (.admitWaiting (sampleRequest "b" [1, 2, 7, 8] 0) sampleArgs
                  true) ∧ s.controller.admitted.contains "b" = false ∧ allowed.1 = true)) =
      true := by decide +kernel
  obtain ⟨m, hm, hrest⟩ := (Option.any_eq_true _ _).mp hcomputed
  obtain ⟨s, hs, hrest⟩ := (Option.any_eq_true _ _).mp hrest
  obtain ⟨⟨allowed, manager, controller⟩, hallowed, hrest⟩ := (Option.any_eq_true _ _).mp hrest
  obtain ⟨⟨next, result⟩, hslots, hfacts⟩ := (Option.any_eq_true _ _).mp hrest
  obtain ⟨hchecked, hfresh, rfl⟩ := of_decide_eq_true hfacts
  have hnew := Ensures.eq_ok_of_toOption_eq_some hm
  have hrun : Run (NextSeen listHash []) (start (sampleSettings .all) m 0) (sampleCalls.take 8) s :=
    .of_foldlM (fun _ _ _ h => follow_next h) hs
  have haccepted := Ensures.eq_ok_of_toOption_eq_some hallowed
  have hserved := Ensures.eq_ok_of_toOption_eq_some hslots
  obtain ⟨-, hkept⟩ := admission_kept listHash_collisionFree hnew hrun
  obtain ⟨hsome, hcommit⟩ := hkept _ _ _ _ _ _ _ hchecked.admissible hfresh haccepted hserved
  exact ⟨m, s, manager, controller, next, result, hnew, hrun, haccepted, hserved, hsome, hcommit⟩

end Sample

end ControlState

end TokenCake.Control
