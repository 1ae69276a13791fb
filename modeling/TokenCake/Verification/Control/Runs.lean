import TokenCake.Verification.Control.Admission

/-! # Runs of the scheduler

Every call keeps the accounts. While no request with blocks is lost sight of, every block in use
stays charged, and no call fails in the controller. -/

namespace TokenCake.Control

open Capacity KV KVCacheManager

variable {η β : Type} {hash : η → β → η} {base : η}

/-! ## The start of a step -/

namespace SchedulingController

variable {c : SchedulingController} {m : KVCacheManager η}
  {waiting running : List (GrowthRequest η)}

theorem adopt_of_active (h : c.accountingActive = true) (requests : List (GrowthRequest η)) :
    c.adopt m requests = c := by
  unfold adopt
  rw [if_pos h]

/-- The blocks of all requests that a step sees are adopted. -/
theorem mem_adopt (h : c.accountingActive = false) (requests : List (GrowthRequest η))
    {b : BlockId} : b ∈ (c.adopt m requests).charges.keys ↔ b ∈ c.charges.keys ∨
      b ≠ nullBlock ∧ ∃ request ∈ requests, ∃ g ∈ m.singleTypeManagers,
        b ∈ g.table request.requestId := by
  have hloop : ∀ (held : List BlockId) (charges : OrdDict BlockId Owner),
      b ∈ (held.foldl (fun charges b =>
        if charges.contains b then charges else charges.insert b none) charges).keys ↔
      b ∈ charges.keys ∨ b ∈ held := by
    intro held
    induction held with
    | nil => simp
    | cons b' held ih =>
        intro charges
        rw [List.foldl_cons, ih, List.mem_cons]
        by_cases hmem : b' ∈ charges.keys
        · rw [if_pos (by simpa [OrdDict.contains] using hmem)]
          by_cases hb : b = b'
          · subst hb
            simp [hmem]
          · simp [hb]
        · rw [if_neg (by simpa [OrdDict.contains] using hmem), OrdDict.mem_keys_insert]
          tauto
  unfold adopt
  rw [if_neg (by simp [h])]
  dsimp only
  rw [hloop]
  simp only [List.mem_flatMap, List.mem_filter, decide_eq_true_iff]
  refine or_congr_right ?_
  constructor
  · rintro ⟨request, hrequest, ⟨g, hg, hb⟩, hnull⟩
    exact ⟨hnull, request, hrequest, g, hg, hb⟩
  · rintro ⟨hnull, request, hrequest, g, hg, hb⟩
    exact ⟨request, hrequest, ⟨g, hg, hb⟩, hnull⟩

/-- The accounts without annotated work. -/
theorem Accounts.clear (h : c.Accounts m) : c.startStep.clear.Accounts m where
  counted := fun owner => rfl
  idle := fun _ => rfl
  charged := fun b hb => absurd hb List.not_mem_nil
  bounded := fun hactive => Bool.noConfusion hactive
  planned := by
    rintro (hactive | hscores)
    · cases hactive
    · exact h.planned (.inr hscores)
  ratio_ge := h.ratio_ge
  ratio_le := h.ratio_le

/-! ## Commitments that are dropped -/

theorem sum_erase_le (d : OrdDict String ℕ) (k : String) :
    ((d.erase k).sum fun _ n => n) ≤ d.sum fun _ n => n := by
  cases hget : d.get? k with
  | none => rw [OrdDict.erase_of_get?_eq_none hget]
  | some n =>
      have := OrdDict.sum_erase_add hget fun _ n => n
      omega

theorem generationGrowth_withdraw {requestId key : String} (hne : key ≠ requestId) :
    (c.withdraw requestId).generationGrowth key = c.generationGrowth key := by
  unfold generationGrowth withdraw
  dsimp only
  rw [OrdDict.get?_erase, OrdDict.get?_erase, if_neg hne, if_neg hne]

/-- A request that leaves takes its commitment along, except for the headroom of the others. -/
theorem withdraw_committedBlocks (hprogress : c.progressReservation = false) (requestId : String) :
    (c.withdraw requestId).committedBlocks ≤ c.committedBlocks := by
  have hprogress' : (c.withdraw requestId).progressReservation = false := hprogress
  have hreclaim : (c.withdraw requestId).reclaimReservation = c.reclaimReservation := rfl
  unfold committedBlocks
  rw [hprogress, hprogress', hreclaim]
  simp only [Bool.false_eq_true, if_false]
  split
  · refine add_le_add (sum_erase_le ..) ?_
    have hfilter : (c.withdraw requestId).reclaimBeneficiaries.filter
        (c.withdraw requestId).growthCommitments.contains =
        (c.reclaimBeneficiaries.filter c.growthCommitments.contains).filter (· ≠ requestId) := by
      unfold withdraw
      dsimp only
      rw [List.filter_filter, List.filter_filter]
      refine List.filter_congr fun key _ => ?_
      by_cases hkey : key = requestId <;> simp [OrdDict.contains, OrdDict.mem_keys_erase, hkey]
    rw [hfilter, List.map_congr_left fun key hkey => generationGrowth_withdraw
      (of_decide_eq_true (List.mem_filter.mp hkey).2)]
    exact (List.filter_sublist.map _).sum_le_sum fun _ _ => Nat.zero_le _
  · exact sum_erase_le ..

theorem uncommittedBlocks_clear :
    c.uncommittedBlocks m ≤ c.startStep.clear.uncommittedBlocks m := by
  have hzero : c.startStep.clear.committedBlocks = 0 := by
    unfold committedBlocks
    split
    · rfl
    · split <;> rfl
  unfold uncommittedBlocks
  rw [hzero]
  change _ ≤ m.blockPool.numFreeBlocks - ((0 : ℕ) : ℤ)
  omega

/-- A step charges the null block to nobody. -/
theorem Accounts.begun_charged (h : c.Accounts m) {x : SchedulingController}
    (hx : Begun c m waiting running x) : ∀ b ∈ x.charges.keys, b ≠ nullBlock := by
  rw [hx.charges_eq]
  cases hactive : c.accountingActive with
  | true =>
      rw [adopt_of_active hactive]
      exact h.charged
  | false =>
      intro b hb
      rcases (mem_adopt hactive (waiting ++ running)).mp hb with hold | hheld
      · exact h.charged b hold
      · exact hheld.1

/-- The accounts of a step with annotated work. -/
theorem Accounts.begun (h : c.Accounts m) {x : SchedulingController}
    (hx : Begun c m waiting running x) : (x.release m).Accounts m ∧ (x.release m).Settled m := by
  have hlimit : x.reservedLimit m = c.reservedLimit m := by
    unfold reservedLimit
    rw [hx.settings_eq]
  refine release_accounts hx.active (h.begun_charged hx) ?_ ?_ ?_
  · rw [hlimit]
    rcases hx.plan with ⟨hplan, hscores⟩ | hplanned
    · rw [hplan]
      exact h.planned (.inr hscores)
    · exact hplanned
  · rw [hx.settings_eq]
    rcases hx.ratio with hratio | hbounds
    · exact hratio ▸ h.ratio_ge
    · exact hbounds.1
  · rw [hx.settings_eq]
    rcases hx.ratio with hratio | hbounds
    · exact hratio ▸ h.ratio_le
    · exact hbounds.2

/-- A step that sees all requests with blocks charges all blocks in use. -/
theorem Covers.begun [DecidableEq η] (h : c.Covers m) (hmanaged : m.Managed)
    (hadopts : c.accountingActive = false → ∀ g ∈ m.singleTypeManagers, ∀ r, ∀ b ∈ g.table r,
      b ≠ nullBlock → ∃ request ∈ waiting ++ running, request.requestId = r)
    {x : SchedulingController} (hx : Begun c m waiting running x) : x.Covers m := by
  intro _ b hb
  rw [hx.charges_eq]
  cases hactive : c.accountingActive with
  | true =>
      rw [adopt_of_active hactive]
      exact h hactive b hb
  | false =>
      obtain ⟨g, hg, r, hr⟩ := (hmanaged.occupied_iff_held hb.1).mp hb
      obtain ⟨request, hrequest, rfl⟩ := hadopts hactive g hg r b hr hb.1
      exact (mem_adopt hactive (waiting ++ running)).mpr
        (.inr ⟨hb.1, request, hrequest, g, hg, hr⟩)

end SchedulingController

/-! ## One call -/

namespace ControlState

open SchedulingController

variable [DecidableEq η] {s t : ControlState η} {call : ControlCall η}
  {calls : List (ControlCall η)} {request : GrowthRequest η} {args : SlotArgs}

/-- A call that leaves the accounts and the manager alone, and commits no more. -/
theorem Coherent.sameAccounts (h : s.Coherent) {c : SchedulingController}
    (hsame : SameAccounts s.controller c) (hreleases : ¬call.Releases)
    (hcommitted : s.controller.progressReservation = false →
      c.committedBlocks ≤ s.controller.committedBlocks) :
    s.After call { s with controller := c } := by
  refine .quiet hreleases ⟨h.consistent, h.accounts.same hsame⟩ hsame.toSameSetup ?_
    hsame.active_eq fun hcovers => hcovers.same hsame
  refine .inr ⟨hsame.shared_eq, hsame.reserved_eq, fun hactive => ?_, fun _ hprogress => ?_⟩
  · exact hsame.active_eq ▸ hactive
  · have hle := hcommitted hprogress
    unfold uncommittedBlocks
    dsimp only
    omega

/-- A call after which the accounts are released. -/
theorem Coherent.releaseAll (h : s.Coherent) (call : ControlCall η) {manager : KVCacheManager η}
    {c c' : SchedulingController}
    (hconsistent : CacheState.Consistent { s.toCacheState with manager := manager })
    (hreturned : Returned s.manager.blockPool manager.blockPool)
    (hsame : SameAccounts s.controller c) (hafter : SameAccounts (c.release manager) c')
    (hcommitted : c'.committedBlocks = (c.release manager).committedBlocks) :
    s.After call { s with manager := manager, controller := c' } := by
  have haccounts : c.Accounts manager :=
    (h.accounts.same hsame).manager hreturned.numGpuBlocks_eq
  have hcovers : s.controller.Covers s.manager → c.Covers manager :=
    fun hs => (hs.same hsame).returned hreturned
  have hmanaged : manager.Managed := hconsistent.managed
  obtain ⟨hreleased, hsettled⟩ := haccounts.release
  have hsettled' : c.accountingActive = true → c'.Settled manager := by
    intro hactive
    have htotal := hsettled hactive
    unfold SchedulingController.Settled totalAvailable totalUnused unusedShared unusedReserved
      uncommittedBlocks at htotal ⊢
    rw [hafter.shared_eq, hafter.reserved_eq, hafter.plan_eq, hafter.used_eq, hcommitted]
    exact htotal
  have hactive_eq : c'.accountingActive = c.accountingActive :=
    hafter.active_eq.trans (release_sameBooks c manager).active_eq
  constructor
  case coherent => exact ⟨hconsistent, hreleased.same hafter⟩
  case setup =>
    exact (hsame.toSameSetup.trans (release_sameBooks c manager).setup).trans hafter.toSameSetup
  case recomputed =>
    cases hactive : c.accountingActive with
    | true => exact .inl (hsettled' hactive)
    | false =>
        rw [release_inactive hactive] at hafter
        refine .inr ⟨hafter.shared_eq.trans hsame.shared_eq,
          hafter.reserved_eq.trans hsame.reserved_eq, fun ht => ?_, fun hs => ?_⟩
        · rw [hactive_eq, hactive] at ht
          cases ht
        · rw [← hsame.active_eq, hactive] at hs
          cases hs
  case active_eq => exact fun _ => hactive_eq.trans hsame.active_eq
  case settled => exact fun _ hactive => hsettled' (hactive_eq.symm.trans hactive)
  case covers =>
    exact fun hs _ => ((hcovers hs).release hmanaged haccounts.charged).same hafter
  case exact =>
    intro _ hactive hs _ b
    rw [hafter.charges_eq]
    exact (hcovers hs).release_exact hmanaged haccounts.charged (hactive_eq.symm.trans hactive) b

/-- A native call of the manager that is no allocation takes no blocks. -/
theorem Coherent.returned (h : s.Coherent) (hfree : CollisionFree hash base) {op : CacheOp η}
    {manager : KVCacheManager η} (hop : s.manager.perform op = .ok manager)
    (hno : ∀ request args, op ≠ .allocateSlots request args) :
    Returned s.manager.blockPool manager.blockPool := by
  cases op with
  | allocateSlots request args => exact absurd rfl (hno request args)
  | cacheBlocks request n =>
      obtain ⟨-, hnum, -⟩ := h.consistent.perform hfree (.cacheBlocks request n) trivial trivial hop
      refine ⟨hnum, [], ?_⟩
      rw [List.append_nil]
      unfold KVCacheManager.perform KVCacheManager.cacheBlocks at hop
      dsimp only at hop
      split at hop
      · exact cacheCoordinatedBlocks_queue hop
      · obtain rfl := Except.ok.inj hop
        rfl
  | removeSkippedBlocks r n =>
      obtain rfl := Except.ok.inj hop
      exact (h.consistent.slide hfree r n).2
  | free request =>
      obtain rfl := Except.ok.inj hop
      exact (h.consistent.free hfree request).2
  | evictBlocks blockIds =>
      obtain ⟨-, hnum, -⟩ := h.consistent.perform hfree (.evictBlocks blockIds) trivial trivial hop
      obtain ⟨pool, hevict, rfl⟩ := Ensures.exists_of_map_eq_ok hop
      refine ⟨hnum, [], ?_⟩
      rw [List.append_nil]
      exact ((evictBlocks_sameNull _ _).of_eq_ok hevict).queue_eq
  | resetPrefixCache =>
      obtain ⟨-, hnum, -⟩ := h.consistent.perform hfree .resetPrefixCache trivial trivial hop
      obtain rfl := Except.ok.inj hop
      refine ⟨hnum, [], ?_⟩
      rw [List.append_nil]
      exact (resetPrefixCache_sameNull _).queue_eq

/-- A native call of the manager. -/
theorem Coherent.native (h : s.Coherent) (hfree : CollisionFree hash base) (op : CacheOp η)
    (hadmissible : s.Admissible hash base (.native op)) :
    Ensures s.Fault (s.After (.native op)) (s.step (.native op)) := by
  change Ensures _ _ ((s.manager.perform op).mapError ControllerError.cache >>= _)
  cases hop : s.manager.perform op with
  | error e => exact Ensures.error (.inl ⟨e, rfl⟩)
  | ok manager =>
      have hissued : s.toCacheState.Issued hash base (.perform op) := by
        cases op with
        | allocateSlots request args => exact hadmissible.2.issued
        | _ => trivial
      have hfits : s.toCacheState.Fits (.perform op) := by
        cases op with
        | allocateSlots request args => exact hadmissible.2.fits
        | _ => trivial
      obtain ⟨hconsistent, hnum, -⟩ := h.consistent.perform hfree op hissued hfits hop
      -- While the accounts are active, native calls do not take blocks.
      have hreturned : s.controller.accountingActive = true →
          Returned s.manager.blockPool manager.blockPool := by
        intro hactive
        refine h.returned hfree hop ?_
        rintro request args rfl
        have hidle := hadmissible.1
        rw [hactive] at hidle
        cases hidle
      refine Ensures.ok (.quiet False.elim ⟨hconsistent, h.accounts.manager hnum⟩ ⟨rfl, rfl, rfl⟩
        (.inr ⟨rfl, rfl, id, fun hactive => ?_⟩) rfl fun hcovers hactive b hb =>
          hcovers hactive b ((hreturned hactive).occupied hb))
      exact (Kept.of_returned (hreturned hactive) h.consistent.drift_eq
        hconsistent.drift_eq).uncommitted_le hactive

omit [DecidableEq η] in
theorem Serves.running (s : ControlState η) (request : Request η)
    (numNewTokens numLookaheadTokens : ℕ) :
    s.Serves hash base request (runningArgs s.manager numNewTokens numLookaheadTokens) where
  issued := .inl rfl
  fits := by
    intro item _ _ hused
    unfold Sound.usedExternal runningArgs at hused
    dsimp only at hused
    split at hused <;> omega

/-- `allocate_slots` and `commit` for a running request. -/
theorem Coherent.allocateRunning (h : s.Coherent) (hfree : CollisionFree hash base)
    (hactive : s.controller.accountingActive = true) (request : GrowthRequest η)
    (numNewTokens numLookaheadTokens : ℕ) :
    Ensures s.Fault
      (s.Allocated request (runningArgs s.manager numNewTokens numLookaheadTokens))
      (s.allocate request (runningArgs s.manager numNewTokens numLookaheadTokens) true false) := by
  refine h.allocate hfree hactive request
    (Serves.running s request.toRequest numNewTokens numLookaheadTokens) true false
    (fun _ _ _ _ => .inr (.inl rfl)) fun manager blocks hslots b hb hoccupied => ?_
  -- The queue has lost the new blocks only.
  have hqueue := allocateSlots_queue (by simp [runningArgs]) rfl hslots
  obtain ⟨freed, hslid⟩ := (h.consistent.slide hfree request.requestId
    (s.manager.totalComputedTokens request.toRequest
      (runningArgs s.manager numNewTokens numLookaheadTokens))).2.queue_eq
  have hmem : b ∈ blocks.flatten ++ manager.blockPool.freeBlockQueue := by
    rw [← hqueue, hslid]
    exact List.mem_append_left _ hb
  exact (List.mem_append.mp hmem).resolve_right hoccupied.2.2

/-- The loop over the running requests. -/
theorem Coherent.grow (h : s.Coherent) (hfree : CollisionFree hash base)
    (request : GrowthRequest η) (numNewTokens numLookaheadTokens : ℕ)
    (hadmissible : s.Admissible hash base (.grow request numNewTokens numLookaheadTokens)) :
    Ensures s.Fault (s.After (.grow request numNewTokens numLookaheadTokens))
      (s.step (.grow request numNewTokens numLookaheadTokens)) := by
  obtain ⟨hactive, hcommitted⟩ := hadmissible
  obtain ⟨allowed, hallowed⟩ := canGrow_ok (m := s.manager) hcommitted numNewTokens
  change Ensures _ _ (s.controller.canGrow s.manager request numNewTokens >>= _)
  rw [hallowed]
  cases allowed with
  | false =>
      exact Ensures.ok (.quiet False.elim h ⟨rfl, rfl, rfl⟩ (.inr (.refl s)) rfl id)
  | true =>
      exact (h.allocateRunning hfree hactive request numNewTokens numLookaheadTokens).mono
        fun t ht => ht.after h False.elim

omit [DecidableEq η] in
/-- `can_allocate`, for a request that was not admitted before. -/
theorem canAllocate_prepared (request : GrowthRequest η) (args : SlotArgs) (borrowReserved : Bool)
    (hnew : s.controller.admitted.contains request.requestId = false) :
    s.controller.canAllocate s.manager request args borrowReserved =
      ((s.prepared request.requestId (computedTokens request.toRequest args)).controller.admits
        (s.prepared request.requestId (computedTokens request.toRequest args)).manager request args
        borrowReserved).map fun result => (result.1,
          (s.prepared request.requestId (computedTokens request.toRequest args)).manager,
          result.2) := by
  unfold canAllocate
  rw [if_neg (by simp [hnew])]
  rfl

omit [DecidableEq η] in
theorem canAllocate_admitted (request : GrowthRequest η) (args : SlotArgs) (borrowReserved : Bool)
    (hadmitted : s.controller.admitted.contains request.requestId = true) :
    s.controller.canAllocate s.manager request args borrowReserved =
      .ok (true, s.manager, s.controller) := by
  unfold canAllocate
  rw [if_pos hadmitted]

/-- The loop over the waiting requests does not judge an admitted request again. -/
theorem step_admitWaiting_admitted (request : GrowthRequest η) (args : SlotArgs)
    (borrowReserved : Bool) (hadmitted : s.controller.admitted.contains request.requestId = true) :
    s.step (.admitWaiting request args borrowReserved) =
      s.allocate request args false borrowReserved := by
  change (Except.mapError ControllerError.cache
    (s.controller.canAllocate s.manager request args borrowReserved) >>= _) = _
  rw [canAllocate_admitted request args borrowReserved hadmitted]
  rfl

theorem step_admitWaiting (request : GrowthRequest η) (args : SlotArgs) (borrowReserved : Bool)
    (hnew : s.controller.admitted.contains request.requestId = false) :
    s.step (.admitWaiting request args borrowReserved) =
      (((s.prepared request.requestId (computedTokens request.toRequest args)).controller.admits
        (s.prepared request.requestId (computedTokens request.toRequest args)).manager request args
        borrowReserved).mapError ControllerError.cache).bind fun result =>
          let next := { s.prepared request.requestId (computedTokens request.toRequest args) with
            controller := result.2 }
          if result.1 then next.allocate request args false borrowReserved else .ok next := by
  change (Except.mapError ControllerError.cache
    (s.controller.canAllocate s.manager request args borrowReserved) >>= _) = _
  rw [canAllocate_prepared request args borrowReserved hnew]
  cases (s.prepared request.requestId (computedTokens request.toRequest args)).controller.admits
      (s.prepared request.requestId (computedTokens request.toRequest args)).manager request args
      borrowReserved with
  | error e => rfl
  | ok result => rfl

/-- The calls of `can_allocate` and `allocate_slots` are those of the scheduler before and after
the windows have slid. -/
theorem Serves.prepared (h : s.Coherent) {request : Request η} {args : SlotArgs}
    (hserves : s.Serves hash base request args) (hready : s.manager.Ready request args) :
    (s.prepared request.requestId (computedTokens request args)).Serves hash base request args ∧
      (s.prepared request.requestId (computedTokens request args)).manager.Ready request args ∧
      ∀ g ∈ (s.prepared request.requestId (computedTokens request args)).manager.singleTypeManagers,
        HasSlid request.requestId ((s.prepared request.requestId
          (computedTokens request args)).manager.totalComputedTokens request args) g := by
  obtain ⟨hadvanced, hsame⟩ := h.consistent.managed.removeSkippedBlocks (P := True)
    request.requestId (computedTokens request args)
  have hslid := removeSkippedBlocks_slidOnly s.manager request.requestId
    (computedTokens request args)
  have hready' : (s.manager.removeSkippedBlocks request.requestId
      (computedTokens request args)).Ready request args :=
    hready.slid hslid rfl hadvanced.enableCaching_eq
  refine ⟨⟨?_, hserves.fits.same hsame⟩, hready', ?_⟩
  · rcases hserves.issued with hnil | hreported
    · refine .inl (hnil.trans ?_)
      rw [List.map_const', List.map_const', hsame.length_eq]
      rfl
    · exact .inr hreported
  · have htotal : (s.prepared request.requestId
        (computedTokens request args)).manager.totalComputedTokens request args =
        computedTokens request args := min_eq_left hready'.within
    rw [htotal]
    exact allHaveSlid s.manager request.requestId _

/-- `allocate_slots` and `commit` for a request in the queue. -/
theorem Coherent.allocateWaiting (h : s.Coherent) (hfree : CollisionFree hash base)
    (hactive : s.controller.accountingActive = true) (request : GrowthRequest η)
    (hserves : s.Serves hash base request.toRequest args) (borrowReserved : Bool)
    (hcapacity : s.controller.Covers s.manager → ∀ manager blocks,
      s.manager.allocateSlots request.toRequest args = .ok (manager, some blocks) →
        s.controller.Affords request.requestId false borrowReserved
          (s.controller.chargeable (committedIds manager request.requestId none)).length) :
    Ensures s.Fault (s.Allocated request args)
      (s.allocate request args false borrowReserved) :=
  h.allocate hfree hactive request hserves false borrowReserved hcapacity
    fun _ _ hslots _ hb hoccupied =>
      h.consistent.taken_held hfree hserves.issued hserves.fits hslots hb hoccupied

/-- The loop over the waiting requests goes on with an admitted request, or refuses a new one, or
accepts it. -/
theorem admitWaiting_cases {borrowReserved : Bool}
    (h : s.step (.admitWaiting request args borrowReserved) = .ok t) :
    (s.controller.admitted.contains request.requestId = true ∧
        s.allocate request args false borrowReserved = .ok t) ∨
      s.controller.admitted.contains request.requestId = false ∧
        ∃ u, u = s.prepared request.requestId (computedTokens request.toRequest args) ∧
          ((∃ deferred, t = { u with
              controller := { u.controller with reservationDeferred := deferred } }) ∨
            ∃ n full, Admits u.controller u.manager request args borrowReserved n full ∧
              u.allocate request args false borrowReserved = .ok t) := by
  cases hadmitted : s.controller.admitted.contains request.requestId with
  | true =>
      rw [step_admitWaiting_admitted request args borrowReserved hadmitted] at h
      exact .inl ⟨rfl, h⟩
  | false =>
      refine .inr ⟨rfl, _, rfl, ?_⟩
      rw [step_admitWaiting request args borrowReserved hadmitted] at h
      generalize s.prepared request.requestId (computedTokens request.toRequest args) = u at *
      have hspec := admits_spec u.controller u.manager request args borrowReserved
      cases hadmits : u.controller.admits u.manager request args borrowReserved with
      | error e =>
          rw [hadmits] at h
          cases h
      | ok result =>
          rw [hadmits] at h hspec
          obtain ⟨⟨deferred, hdeferred⟩, haccepted⟩ := hspec
          obtain ⟨allowed, controller⟩ := result
          dsimp only at hdeferred haccepted
          cases allowed with
          | false =>
              subst hdeferred
              exact .inl ⟨deferred, (Except.ok.inj h).symm⟩
          | true =>
              obtain ⟨rfl, n, full, hchecked⟩ := haccepted rfl
              exact .inr ⟨n, full, hchecked, h⟩

/-- The loop over the waiting requests. -/
theorem Coherent.admitWaiting (h : s.Coherent) (hfree : CollisionFree hash base)
    (request : GrowthRequest η) (args : SlotArgs) (borrowReserved : Bool)
    (hadmissible : s.Admissible hash base (.admitWaiting request args borrowReserved)) :
    Ensures s.Fault (s.After (.admitWaiting request args borrowReserved))
      (s.step (.admitWaiting request args borrowReserved)) := by
  obtain ⟨hactive, hserves, hready⟩ := hadmissible
  cases hadmitted : s.controller.admitted.contains request.requestId with
  | true =>
      rw [step_admitWaiting_admitted request args borrowReserved hadmitted]
      exact (h.allocateWaiting hfree hactive request hserves borrowReserved
        fun _ _ _ _ => .inr (.inr hadmitted)).mono fun t ht => ht.after h False.elim
  | false =>
      obtain ⟨hserves', hready', hslid⟩ := hserves.prepared h hready
      obtain ⟨hu, hsetup, hrecomputed, hactive', hcovers⟩ :=
        h.prepared hfree request.requestId (computedTokens request.toRequest args)
      rw [step_admitWaiting request args borrowReserved hadmitted]
      generalize s.prepared request.requestId (computedTokens request.toRequest args) = u at *
      have hspec := admits_spec u.controller u.manager request args borrowReserved
      cases hadmits : u.controller.admits u.manager request args borrowReserved with
      | error e => exact Ensures.error (.inl ⟨e, rfl⟩)
      | ok result =>
          rw [hadmits] at hspec
          obtain ⟨⟨deferred, hdeferred⟩, haccepted⟩ := hspec
          obtain ⟨allowed, controller⟩ := result
          dsimp only at hdeferred haccepted
          cases allowed with
          | false =>
              subst hdeferred
              have hsame : SameAccounts u.controller
                  { u.controller with reservationDeferred := deferred } :=
                ⟨⟨rfl, rfl, rfl⟩, rfl, rfl, rfl, rfl, rfl, rfl, rfl⟩
              refine Ensures.ok (.quiet False.elim ⟨hu.consistent, hu.accounts.same hsame⟩
                (hsetup.trans ⟨rfl, rfl, rfl⟩) ?_ hactive' fun hs => (hcovers hs).same hsame)
              rcases hrecomputed with hsettled | hkept
              · exact .inl hsettled
              · exact .inr ⟨hkept.shared_eq, hkept.reserved_eq, hkept.active, hkept.uncommitted_le⟩
          | true =>
              obtain ⟨rfl, n, full, hchecked⟩ := haccepted rfl
              have hallocated := hu.allocateWaiting hfree (hactive'.trans hactive) request hserves'
                borrowReserved (fun hcovered manager blocks hslots => hu.finds_capacity hfree
                  hcovered (hactive'.trans hactive) hserves' hready' hslid hchecked hslots)
              refine (hallocated.imp_error fun e he => he.imp_right fun hrefused =>
                ⟨hrefused.1, fun hs => hrefused.2 (hcovers hs)⟩).mono fun t ht => ?_
              rcases ht.verdict with ⟨manager, hslots, -⟩ | ⟨_, _, -, hcommitted⟩
              · cases hu.serves hready' hslid hchecked hslots
              · exact .quiet False.elim ht.coherent (hsetup.trans ht.setup)
                  (.inl hcommitted.settled) (hcommitted.active_eq.trans hactive')
                  fun hs => ht.covers (hcovers hs)

/-- A step starts. -/
theorem Coherent.beginStep (h : s.Coherent) (inputs : StepInputs)
    (waiting running : List (GrowthRequest η)) :
    Ensures s.Fault (s.After (.beginStep inputs waiting running))
      (s.step (.beginStep inputs waiting running)) := by
  change Ensures _ _ (s.controller.beginStep s.manager inputs waiting running >>= _)
  by_cases hmetadata : s.controller.metadata.keys = []
  · rw [beginStep_idle inputs waiting running hmetadata]
    exact Ensures.ok ⟨⟨h.consistent, h.accounts.clear⟩, ⟨rfl, rfl, rfl⟩,
      .inr ⟨rfl, rfl, fun hactive => Bool.noConfusion hactive, fun _ _ => uncommittedBlocks_clear⟩,
      fun hbegins => absurd trivial hbegins, fun _ hactive => Bool.noConfusion hactive,
      fun _ _ hactive => Bool.noConfusion hactive, fun _ hactive => Bool.noConfusion hactive⟩
  · obtain ⟨x, hbegin, hx⟩ := beginStep_begun (m := s.manager) inputs waiting running hmetadata
    obtain ⟨haccounts, hsettled⟩ := h.accounts.begun hx
    have hexact : s.controller.Covers s.manager → s.Adopts (.beginStep inputs waiting running) →
        (x.release s.manager).Exact s.manager := fun hcovers hadopts =>
      (hcovers.begun h.consistent.managed (fun hidle => hadopts hidle hmetadata) hx).release_exact
        h.consistent.managed (h.accounts.begun_charged hx) hx.active
    rw [hbegin]
    exact Ensures.ok ⟨⟨h.consistent, haccounts⟩, hx.setup.trans (release_sameBooks ..).setup,
      .inl hsettled, fun hbegins => absurd trivial hbegins, fun _ _ => hsettled,
      fun hcovers hadopts => (hexact hcovers hadopts).covers, fun _ _ => hexact⟩

/-- Every call keeps the accounts, and only the cache manager can make it fail while all blocks in
use are charged. -/
theorem Coherent.step (h : s.Coherent) (hfree : CollisionFree hash base)
    (hadmissible : s.Admissible hash base call) :
    Ensures s.Fault (s.After call) (s.step call) := by
  cases call with
  | getComputedBlocks request =>
      cases hlookup : s.manager.getComputedBlocks request with
      | error e =>
          change Ensures _ _ (Except.mapError ControllerError.cache
            (s.manager.getComputedBlocks request) >>= _)
          rw [hlookup]
          exact Ensures.error (.inl ⟨e, rfl⟩)
      | ok result =>
          change Ensures _ _ (Except.mapError ControllerError.cache
            (s.manager.getComputedBlocks request) >>= _)
          rw [hlookup]
          have hstep : s.toCacheState.step (.getComputedBlocks request) =
              .ok { s.toCacheState with reported := result.1 :: s.reported } := by
            change (s.manager.getComputedBlocks request >>= _) = _
            rw [hlookup]
            rfl
          have hissued : s.toCacheState.Issued hash base (.getComputedBlocks request) := hadmissible
          refine Ensures.ok (.quiet False.elim ⟨?_, h.accounts⟩ ⟨rfl, rfl, rfl⟩
            (.inr ⟨rfl, rfl, id, fun _ _ => le_rfl⟩) rfl id)
          exact h.consistent.step hfree hissued trivial hstep
  | associate requestId metadata =>
      exact Ensures.ok (h.sameAccounts ⟨⟨rfl, rfl, rfl⟩, rfl, rfl, rfl, rfl, rfl, rfl, rfl⟩
        False.elim fun _ => le_rfl)
  | beginStep inputs waiting running => exact h.beginStep inputs waiting running
  | prepareRunning request =>
      obtain ⟨ht, hsetup, hrecomputed, hactive, hcovers⟩ :=
        h.prepared hfree request.requestId request.numComputedTokens
      exact Ensures.ok (.quiet False.elim ht hsetup hrecomputed hactive hcovers)
  | grow request numNewTokens numLookaheadTokens =>
      exact h.grow hfree request numNewTokens numLookaheadTokens hadmissible
  | retry request numNewTokens numLookaheadTokens =>
      exact (h.allocateRunning hfree hadmissible.1 request numNewTokens numLookaheadTokens).mono
        fun t ht => ht.after h False.elim
  | admitWaiting request args borrowReserved =>
      exact h.admitWaiting hfree request args borrowReserved hadmissible
  | reclaimFor requestId =>
      refine Ensures.ok ?_
      unfold reclaimFor
      split
      · have hsame : SameAccounts s.controller { s.controller with
            reclaimBeneficiaries := requestId :: s.controller.reclaimBeneficiaries } :=
          ⟨⟨rfl, rfl, rfl⟩, rfl, rfl, rfl, rfl, rfl, rfl, rfl⟩
        obtain ⟨haccounts, hsettled⟩ := (h.accounts.same hsame).update
        exact .quiet False.elim ⟨h.consistent, haccounts⟩ ⟨rfl, rfl, rfl⟩ (.inl hsettled) rfl id
      · exact .quiet False.elim h ⟨rfl, rfl, rfl⟩ (.inr (.refl s)) rfl id
  | preempt request physical =>
      obtain ⟨hconsistent, hreturned⟩ := h.consistent.free hfree request
      have hafter : SameAccounts ((s.controller.withdraw request.requestId).release
          (s.manager.free request)) (s.controller.preempt (s.manager.free request)
            request.requestId physical) := by
        unfold SchedulingController.preempt
        cases physical <;> exact ⟨⟨rfl, rfl, rfl⟩, rfl, rfl, rfl, rfl, rfl, rfl, rfl⟩
      refine Ensures.ok (h.releaseAll (.preempt request physical) hconsistent hreturned
        (c := s.controller.withdraw request.requestId)
        ⟨⟨rfl, rfl, rfl⟩, rfl, rfl, rfl, rfl, rfl, rfl, rfl⟩ hafter ?_)
      unfold SchedulingController.preempt
      cases physical <;> rfl
  | finish requestId =>
      exact Ensures.ok (h.sameAccounts ⟨⟨rfl, rfl, rfl⟩, rfl, rfl, rfl, rfl, rfl, rfl, rfl⟩
        False.elim fun hprogress => withdraw_committedBlocks hprogress requestId)
  | freeBlocks request =>
      obtain ⟨hconsistent, hreturned⟩ := h.consistent.free hfree request
      exact Ensures.ok (h.releaseAll (.freeBlocks request) hconsistent hreturned (.refl _)
        (.refl _) rfl)
  | native op => exact h.native hfree op hadmissible

theorem Coherent.run (h : s.Coherent) (hfree : CollisionFree hash base)
    (hrun : Run (Next hash base) s calls t) : t.Coherent :=
  hrun.invariant (fun _ _ _ _ hs hnext => ((hs.step hfree hnext.1).of_eq_ok hnext.2).coherent) h

/-- The accounts add up, and every block in use is charged. -/
structure Covered (s : ControlState η) : Prop extends s.Coherent where
  covers : s.controller.Covers s.manager

theorem Covered.start {config : KVCacheConfig} {m : KVCacheManager η}
    (hnew : KVCacheManager.new config = .ok m) (settings : SchedulingConfig)
    (numLookaheadTokens : ℕ) : Covered (ControlState.start settings m numLookaheadTokens) where
  toCoherent := .start hnew settings numLookaheadTokens
  covers hactive := Bool.noConfusion hactive

theorem Covered.step (h : s.Covered) (hfree : CollisionFree hash base)
    (hnext : NextSeen hash base s call t) : t.Covered := by
  have hafter := (h.toCoherent.step hfree hnext.1.1).of_eq_ok hnext.1.2
  exact ⟨hafter.coherent, hafter.covers h.covers hnext.2⟩

theorem Covered.run (h : s.Covered) (hfree : CollisionFree hash base)
    (hrun : Run (NextSeen hash base) s calls t) : t.Covered :=
  hrun.invariant (fun _ _ _ _ hs hnext => hs.step hfree hnext) h

/-- With all blocks in use charged, only the cache manager can fail. -/
theorem Covered.cache_error (h : s.Covered) {e : ControllerError} (hfault : s.Fault e) :
    ∃ k, e = .cache k := by
  rcases hfault with hcache | ⟨-, hcovers⟩
  · exact hcache
  · exact absurd h.covers hcovers

end ControlState

end TokenCake.Control
