import TokenCake.Verification.Availability.Jobs
import TokenCake.Verification.Awaited.Correctness

/-! # The tallies over the operations of the connector

Loads begin, reports complete jobs of both kinds, and a reset forgets them all. -/

namespace TokenCake.Offload.TokenCakeOffloadingScheduler

open LifecycleRegistry (Returns)
open OffloadState (Backing)

variable {κ σ : Type} [DecidableEq κ]
variable {c c' : TokenCakeOffloadingScheduler κ σ} {kind : ℕ × Bool × Bool}

/-! ## Loads begin -/

omit [DecidableEq κ] in
/-- The keys of a load are keys of its request, in their order. -/
theorem loadGroup_sublist {factor numLocal numCached : ℕ} {g : GroupOffloadConfig}
    {keys : List κ} {blocks : List KVBlock} {group : LoadGroup κ}
    (h : loadGroup factor numLocal numCached g keys blocks = .ok group) :
    group.keys.Sublist keys := by
  unfold loadGroup at h
  dsimp only at h
  split at h
  · cases h
  · rw [← Except.ok.inj h]
    dsimp only
    split
    · exact List.nil_sublist _
    · exact (List.drop_sublist ..).trans (List.take_sublist ..)

omit [DecidableEq κ] in
theorem loadGroups_sublist {factor numLocal numCached : ℕ} {configs : List GroupOffloadConfig}
    {offloadKeys : List (List κ)} {blocks : List (List KVBlock)} :
    ∀ {groups : List (LoadGroup κ)},
      ((configs.zip (offloadKeys.zip blocks)).mapM fun (g, keys, blocks) =>
        loadGroup factor numLocal numCached g keys blocks) = .ok groups →
      (groups.flatMap (·.keys)).Sublist offloadKeys.flatten := by
  induction configs generalizing offloadKeys blocks with
  | nil =>
      intro groups h
      obtain rfl : [] = groups := Except.ok.inj h
      exact List.nil_sublist _
  | cons g configs ih =>
      intro groups h
      cases offloadKeys with
      | nil =>
          obtain rfl : [] = groups := Except.ok.inj h
          exact List.nil_sublist _
      | cons keys offloadKeys =>
          cases blocks with
          | nil =>
              obtain rfl : [] = groups := Except.ok.inj h
              exact List.nil_sublist _
          | cons blocks rest =>
              rw [List.zip_cons_cons, List.zip_cons_cons, List.mapM_cons] at h
              dsimp only at h
              cases hgroup : loadGroup factor numLocal numCached g keys blocks with
              | error e =>
                  rw [hgroup] at h
                  cases h
              | ok group =>
                  cases hgroups : (configs.zip (offloadKeys.zip rest)).mapM
                      fun (g, keys, blocks) =>
                        loadGroup factor numLocal numCached g keys blocks with
                  | error e =>
                      rw [hgroup, hgroups] at h
                      cases h
                  | ok groups' =>
                      rw [hgroup, hgroups] at h
                      obtain rfl : group :: groups' = groups := Except.ok.inj h
                      exact (loadGroup_sublist hgroup).append (ih hgroups)

theorem Tallied.updateStateAfterAlloc (h : Tallied kind [] c) {reqId : String}
    (hkeys : ∀ status, c.reqStatus.get? reqId = some status → status.offloadKeys.flatten.Nodup)
    (blocks : List (List KVBlock)) (external : ℕ) :
    Yields (Tallied kind []) (c.updateStateAfterAlloc reqId blocks external) := by
  unfold TokenCakeOffloadingScheduler.updateStateAfterAlloc
  split
  · exact Ensures.ok h
  · split
    · exact Ensures.error trivial
    · next status hstatus =>
      dsimp only
      refine Ensures.bind (Ensures.of_forall_ok fun groups hgroups => loadGroups_sublist hgroups) ?_
      intro groups hsublist
      generalize groups.flatMap (·.keys) = keys at hsublist ⊢
      have hnodup : keys.Nodup := hsublist.nodup (hkeys status hstatus)
      have hfence : Tallied kind [] (c.fence (groups.flatMap (·.dstBlockIds))) :=
        h.congr rfl rfl rfl rfl
      have hloads : Returns (fun out => out.1.loads = keys :: c.offload.loads)
          (c.offload.step (.prepareLoad keys)) := by
        simp only [OffloadState.step, OffloadState.onManager]
        split
        · exact Ensures.error trivial
        · refine Ensures.map (Ensures.map (Q := fun out => out.1.loads = c.offload.loads)
            (Ensures.of_forall_ok fun _ _ => trivial) fun _ _ => rfl) ?_
          intro out hout
          exact congrArg (keys :: ·) hout
      have hcall := ((hfence.backing.step (.prepareLoad keys) hnodup trivial
        fun _ h => by cases h).and (hloads.and
          ((OffloadState.step_quiet h.backing.wf (.prepareLoad keys) rfl).mono fun _ h => h.status)))
      refine Ensures.bind (Ensures.bind (call_returns hcall) (Q := fun out =>
        ∃ offload, out.1 = { c.fence (groups.flatMap (·.dstBlockIds)) with offload := offload } ∧
          offload.Backing kind ∧ offload.loads = keys :: c.offload.loads ∧
          ∀ k, offload.registry.status k = c.offload.registry.status k) ?_) ?_
      · rintro ⟨c₁, answer⟩ ⟨offload, hc₁, hspec⟩
        dsimp only at hc₁ hspec ⊢
        split
        · exact Ensures.ok ⟨offload, hc₁, hspec⟩
        · exact Ensures.error trivial
      · rintro ⟨c₁, src⟩ ⟨offload, hc₁, hbacking, hloads, hstatus⟩
        dsimp only at hc₁ ⊢
        subst hc₁
        split
        · refine Ensures.ok (hfence.insertJob ⟨reqId,
            c.config.numWorkers, keys, false, [], []⟩ hbacking hstatus rfl ?_ rfl rfl (.inl rfl))
          change (offload.loads : Multiset (List κ)) = (c.offload.loads : Multiset (List κ)) + {keys}
          rw [hloads, ← Multiset.cons_coe, ← Multiset.singleton_add, add_comm]
        · exact Ensures.error trivial

/-! ## Jobs complete -/

/-- A worker reports a job that others have not completed. -/
theorem Tallied.modifyJob (h : Tallied kind [] c) (job count : ℕ) :
    Tallied kind [] { c with jobs := c.jobs.modify job fun status =>
      { status with pendingCount := status.pendingCount - count } } := by
  have hstore : ∀ (f : JobId → TransferJobStatus κ → Multiset κ),
      (∀ job status n, f job { status with pendingCount := n } = f job status) →
      (c.jobs.modify job fun status =>
        { status with pendingCount := status.pendingCount - count }).sum f = c.jobs.sum f :=
    fun f hf => OrdDict.sum_modify_of_eq fun status => hf job status _
  have hload : ∀ (f : JobId → TransferJobStatus κ → Multiset (List κ)),
      (∀ job status n, f job { status with pendingCount := n } = f job status) →
      (c.jobs.modify job fun status =>
        { status with pendingCount := status.pendingCount - count }).sum f = c.jobs.sum f :=
    fun f hf => OrdDict.sum_modify_of_eq fun status => hf job status _
  have hold : ∀ job' status, (c.jobs.modify job fun status =>
      { status with pendingCount := status.pendingCount - count }).get? job' = some status →
      ∃ old, c.jobs.get? job' = some old ∧ status.isStore = old.isStore := by
    intro job' status hstatus
    rw [OrdDict.get?_modify] at hstatus
    split at hstatus
    · obtain ⟨old, hget, rfl⟩ := Option.map_eq_some_iff.mp hstatus
      exact ⟨old, hget, rfl⟩
    · exact ⟨status, hstatus, rfl⟩
  refine ⟨h.backing, ?_, fun k => ?_, ?_, ?_, ?_⟩
  · rw [loadKeys, hload loadOf fun _ _ _ => rfl]
    exact h.loads
  · rw [storeKeys, hstore storeOf fun _ _ _ => rfl]
    exact h.inFlight k
  · rw [storeKeys, hstore storeOf fun _ _ _ => rfl]
    exact h.distinct
  · intro job' status hstatus
    obtain ⟨old, hget, -⟩ := hold job' status hstatus
    exact h.fresh job' old hget
  · intro job' store hdet
    obtain ⟨hlt, hkind⟩ := h.detached job' store hdet
    refine ⟨hlt, fun status hstatus => ?_⟩
    obtain ⟨old, hget, hsame⟩ := hold job' status hstatus
    exact hsame.trans (hkind old hget)

/-- The keys of a completed store are in flight no longer, and a completed load is forgotten. -/
theorem Tallied.eraseJob (h : Tallied kind [] c) {job : JobId} {status : TransferJobStatus κ}
    (hjob : c.jobs.get? job = some status) (hbacking : c'.offload.Backing kind)
    (hloads : (c'.offload.loads : Multiset (List κ)) + loadOf job status = c.offload.loads)
    (hstatus : ∀ k, c'.offload.registry.status k = some false ↔
      c.offload.registry.status k = some false ∧ k ∉ storeOf job status)
    (hjobs : c'.jobs = c.jobs.erase job) (hcounter : c'.jobCounter = c.jobCounter)
    (hdetached : ∀ job' store, c'.detached.get? job' = some store →
      c.detached.get? job' = some store) : Tallied kind [] c' := by
  have hstores : c'.storeKeys + storeOf job status = c.storeKeys := by
    rw [storeKeys, hjobs]
    exact OrdDict.sum_erase_add hjob storeOf
  have hload : c'.loadKeys + loadOf job status = c.loadKeys := by
    rw [loadKeys, hjobs]
    exact OrdDict.sum_erase_add hjob loadOf
  have hdistinct : c.storeKeys.Nodup := by simpa using h.distinct
  rw [← hstores, Multiset.nodup_add] at hdistinct
  obtain ⟨hnodup, -, hdisjoint⟩ := hdistinct
  have hget : ∀ job' status', c'.jobs.get? job' = some status' →
      c.jobs.get? job' = some status' := by
    intro job' status' hget
    rw [hjobs, OrdDict.get?_erase] at hget
    split at hget
    · cases hget
    · exact hget
  refine ⟨hbacking, ?_, fun k => ?_, by simpa using hnodup, ?_, ?_⟩
  · rw [← add_left_inj (loadOf job status), hloads, hload, h.loads]
  · have hflight := h.inFlight k
    rw [hstatus, hflight, ← hstores]
    simp only [Multiset.coe_nil, add_zero, Multiset.mem_add]
    constructor
    · rintro ⟨hmem, hnot⟩
      exact hmem.resolve_right hnot
    · exact fun hmem => ⟨.inl hmem, Multiset.disjoint_left.mp hdisjoint hmem⟩
  · intro job' status' hstatus'
    rw [hcounter]
    exact h.fresh job' status' (hget job' status' hstatus')
  · intro job' store hdet
    obtain ⟨hlt, hkind⟩ := h.detached job' store (hdetached job' store hdet)
    exact ⟨hcounter ▸ hlt, fun status' hstatus' => hkind status' (hget job' status' hstatus')⟩

/-- The manager completes a store. -/
theorem Tallied.completeStore (h : Tallied kind [] c) (keys : List κ) :
    Yields (fun c₁ => ∃ offload, c₁ = { c with offload := offload } ∧ offload.Backing kind ∧
        offload.loads = c.offload.loads ∧ ∀ k, offload.registry.status k = some false ↔
          c.offload.registry.status k = some false ∧ k ∉ keys)
      (c.run (.completeStore keys true)) := by
  have hloads : Returns (fun out => out.1.loads = c.offload.loads)
      (c.offload.step (.completeStore keys true)) := by
    simp only [OffloadState.step, OffloadState.onManager]
    split
    · exact Ensures.error trivial
    · exact Ensures.ok rfl
  refine run_returns (P := fun offload => offload.Backing kind ∧
    offload.loads = c.offload.loads ∧ ∀ k, offload.registry.status k = some false ↔
      c.offload.registry.status k = some false ∧ k ∉ keys)
    ((h.backing.step (.completeStore keys true) trivial trivial fun _ h => by cases h).and
      (hloads.and ((OffloadState.step_completeStore h.backing.wf keys true).mono ?_)))
  rintro out ⟨_, _, hstatus⟩ k
  rw [hstatus]
  by_cases hmem : k ∈ keys
  · cases c.offload.registry.status k <;> simp [OffloadState.landed, hmem]
  · simp [OffloadState.landed, hmem]

/-- The manager completes a load that was prepared. -/
theorem Tallied.completeLoad (h : Tallied kind [] c) {keys : List κ}
    (hkeys : keys ∈ c.offload.loads) :
    Yields (fun c₁ => ∃ offload, c₁ = { c with offload := offload } ∧ offload.Backing kind ∧
        offload.loads = c.offload.loads.erase keys ∧
        ∀ k, offload.registry.status k = c.offload.registry.status k)
      (c.run (.completeLoad keys)) := by
  have hloads : Returns (fun out => out.1.loads = c.offload.loads.erase keys)
      (c.offload.step (.completeLoad keys)) := by
    simp only [OffloadState.step, OffloadState.onManager]
    split
    · exact Ensures.error trivial
    · refine Ensures.map (Ensures.map (Q := fun out => out.1.loads = c.offload.loads)
        (Ensures.of_forall_ok fun _ _ => trivial) fun _ _ => rfl) ?_
      intro out hout
      exact congrArg (List.erase · keys) hout
  exact run_returns (P := fun offload => offload.Backing kind ∧
    offload.loads = c.offload.loads.erase keys ∧
    ∀ k, offload.registry.status k = c.offload.registry.status k)
    ((h.backing.step (.completeLoad keys) hkeys trivial fun _ h => by cases h).and
      (hloads.and ((OffloadState.step_quiet h.backing.wf (.completeLoad keys) rfl).mono
        fun _ h => h.status)))

theorem Tallied.completeDetached (h : Tallied kind [] c) (done : Completion κ)
    (p : JobId × ℕ) : Yields (fun out => Tallied kind [] out.1)
      (TokenCakeOffloadingScheduler.completeDetached (c, done) p) := by
  obtain ⟨job, count⟩ := p
  unfold TokenCakeOffloadingScheduler.completeDetached
  dsimp only
  split
  · exact Ensures.ok h
  · next store hstore =>
    split
    · exact Ensures.error trivial
    · next status hstatus =>
      split
      · exact Ensures.error trivial
      · split
        · exact Ensures.ok (h.modifyJob job count)
        · refine Ensures.bind (h.completeStore status.keys) ?_
          rintro c₁ ⟨offload, hc₁, hbacking, hloads, hflight⟩
          subst hc₁
          refine Ensures.bind (removePendingJob_spec _ job _) ?_
          rintro c₂ ⟨⟨pending, hc₂⟩, _⟩
          subst hc₂
          have hisStore := (h.detached job store hstore).2 status hstatus
          refine Ensures.ok (h.eraseJob hstatus hbacking ?_ ?_ rfl rfl ?_)
          · simp [loadOf, hisStore, hloads]
          · simpa [storeOf, hisStore] using hflight
          · intro job' store' hdet
            dsimp only at hdet
            rw [OrdDict.get?_erase] at hdet
            split at hdet
            · cases hdet
            · exact hdet

theorem Tallied.completeNative (h : Tallied kind [] c) (p : JobId × ℕ) :
    Yields (Tallied kind []) (c.completeNative p) := by
  obtain ⟨job, count⟩ := p
  unfold TokenCakeOffloadingScheduler.completeNative
  dsimp only
  split
  · exact Ensures.error trivial
  · split
    · exact Ensures.ok h
    · split
      · exact Ensures.error trivial
      · next status hstatus =>
        split
        · exact Ensures.error trivial
        · split
          · exact Ensures.ok (h.modifyJob job count)
          · split
            · exact Ensures.error trivial
            · next request _ =>
              by_cases hisStore : status.isStore = true
              · rw [if_pos hisStore]
                refine Ensures.bind (h.completeStore status.keys) ?_
                rintro c₁ ⟨offload, hc₁, hbacking, hloads, hflight⟩
                subst hc₁
                refine (dropTransferJob_spec _ job status request).mono ?_
                rintro c₂ ⟨pending, reqStatus, hc₂⟩
                subst hc₂
                refine h.eraseJob hstatus hbacking ?_ ?_ rfl rfl fun _ _ h => h
                · simp [loadOf, hisStore, hloads]
                · simpa [storeOf, hisStore] using hflight
              · rw [if_neg hisStore]
                have hmem : status.keys ∈ c.offload.loads := by
                  rw [← Multiset.mem_coe, h.loads, loadKeys, ← OrdDict.sum_erase_add hstatus]
                  simp [loadOf, hisStore]
                refine Ensures.bind (h.completeLoad hmem) ?_
                rintro c₁ ⟨offload, hc₁, hbacking, hloads, hsame⟩
                subst hc₁
                refine (dropTransferJob_spec _ job status request).mono ?_
                rintro c₂ ⟨pending, reqStatus, hc₂⟩
                subst hc₂
                refine h.eraseJob hstatus hbacking ?_ ?_ rfl rfl fun _ _ h => h
                · dsimp only
                  rw [hloads, loadOf, if_neg hisStore, add_comm, Multiset.singleton_add,
                    Multiset.cons_coe, Multiset.coe_eq_coe]
                  exact (List.perm_cons_erase hmem).symm
                · intro k
                  simp [storeOf, hisStore, hsame]

theorem Tallied.updateConnectorOutput (h : Tallied kind [] c) (now : ℚ)
    (retainedAt : String → ℚ) (completed : List (JobId × ℕ)) :
    Yields (Tallied kind []) (c.updateConnectorOutput now retainedAt completed) := by
  unfold TokenCakeOffloadingScheduler.updateConnectorOutput
  refine Ensures.bind (Ensures.foldlM (I := fun _ (out : _ × Completion κ) =>
    Tallied kind [] out.1) (fun p _ out h => h.completeDetached out.2 p) completed (c, {}) h) ?_
  rintro ⟨c₁, done⟩ h₁
  refine Ensures.bind (Ensures.foldlM (I := fun _ => Tallied kind [])
    (fun p _ c h => h.completeNative p) done.ordinary c₁ h₁) ?_
  intro c₂ h₂
  refine Ensures.bind (h₂.run rfl) ?_
  rintro c₃ ⟨_, _, h₃⟩
  refine Ensures.foldlM (I := fun _ => Tallied kind []) ?_ _ c₃ h₃
  intro id _ c₄ h₄
  unfold retainCompleted
  split
  · exact Ensures.ok h₄
  · dsimp only
    split
    · exact Ensures.ok h₄
    · refine Ensures.bind (h₄.run rfl) ?_
      rintro c₅ ⟨_, _, h₅⟩
      refine (h₅.run rfl).mono ?_
      rintro c₆ ⟨_, _, h₆⟩
      exact h₆

/-! ## Other operations -/

theorem Tallied.getNumNewMatchedTokens (h : Tallied kind [] c) (reqId : String)
    (offloadKeys : List (List κ)) (tokens : ℕ) (lookups touched : List κ) :
    Yields (Tallied kind [])
      (c.getNumNewMatchedTokens reqId offloadKeys tokens lookups touched) := by
  unfold TokenCakeOffloadingScheduler.getNumNewMatchedTokens
  refine Ensures.bind (Ensures.foldlM (I := fun _ => Tallied kind []) ?_ lookups _
    (h.congr rfl rfl rfl rfl)) ?_
  · exact fun key _ c₁ h₁ => (h₁.run rfl).mono fun _ ⟨_, _, h⟩ => h
  · exact fun c₁ h₁ => (h₁.run rfl).mono fun _ ⟨_, _, h⟩ => h

theorem Tallied.requestFinished (h : Tallied kind [] c) (reqId : String) :
    Yields (Tallied kind []) (c.requestFinished reqId) := by
  unfold TokenCakeOffloadingScheduler.requestFinished
  split
  · exact Ensures.ok h
  · split
    · exact Ensures.ok (h.congr rfl rfl rfl rfl)
    · refine Ensures.foldlM (I := fun _ => Tallied kind []) ?_ _ _ (h.congr rfl rfl rfl rfl)
      intro job _ c₁ h₁
      split
      · exact Ensures.error trivial
      · exact Ensures.ok (h₁.watch _ _)

theorem Tallied.resetCache (h : Tallied kind [] c) (now : ℚ) :
    Yields (Tallied kind []) (c.resetCache now) := by
  have hreset : Returns (fun out => out.1.loads = [] ∧
      ∀ k, out.1.registry.status k = none) (c.offload.step (.resetCache now)) := by
    simp only [OffloadState.step, OffloadState.onManager]
    cases hm : c.offload.registry.manager with
    | none => exact Ensures.error trivial
    | some m =>
        have hstable : LifecycleRegistry.Stable
            fun m : CPUOffloadingManager κ => m.policy.WF ∧ ∀ k, m.status k = none := by
          constructor
          · rintro m keys ⟨hwf, hnone⟩
            have hcalm := CPUOffloadingManager.calm_retain hwf keys
            exact ⟨hcalm.wf, fun k => (hcalm.status k).trans (hnone k)⟩
          · rintro m keys m' ⟨hwf, hnone⟩ hrelease
            have hcalm := CPUOffloadingManager.calm_release hwf hrelease
            exact ⟨hcalm.wf, fun k => (hcalm.status k).trans (hnone k)⟩
        refine Ensures.bind_ok rfl ?_
        refine Ensures.map (LifecycleRegistry.Manages.externalResetSucceeded
          (r := { c.offload.registry with manager := some m.resetCache }) hstable ?_ now) ?_
        · intro m₁ hm₁
          obtain rfl := Option.some.inj hm₁
          exact ⟨CachePolicy.wf_clear _, CPUOffloadingManager.status_resetCache m⟩
        · intro r hr
          refine ⟨rfl, fun k => ?_⟩
          unfold LifecycleRegistry.status
          cases hm' : r.manager with
          | none => rfl
          | some m' => exact (hr m' hm').2 k
  unfold TokenCakeOffloadingScheduler.resetCache
  split
  · exact Ensures.error trivial
  · refine Ensures.bind (run_returns (P := fun offload => offload.Backing kind ∧
      offload.loads = [] ∧ ∀ k, offload.registry.status k = none)
      ((h.backing.step (.resetCache now) trivial trivial fun _ h => by cases h).and hreset)) ?_
    rintro c₁ ⟨offload, hc₁, hbacking, hloads, hstatus⟩
    subst hc₁
    refine Ensures.ok ⟨hbacking, ?_, fun k => ?_, Multiset.nodup_zero, ?_, ?_⟩
    · dsimp only
      rw [hloads]
      rfl
    · dsimp only
      rw [hstatus]
      simp [storeKeys]
    · intro job status hjob
      cases hjob
    · intro job store hstore
      cases hstore

end TokenCake.Offload.TokenCakeOffloadingScheduler
