import TokenCake.Verification.Lifecycle.Steps

/-! # Conservation of the retention references

The reference count of a CPU block is shared by the lifecycle records and the native loads.
It is always exactly what these two hold. -/

namespace TokenCake.Offload.OffloadState

open LifecycleRegistry

variable {κ σ : Type*} [DecidableEq κ]

/-- Some record retains the key. -/
def Retained (s : OffloadState κ σ) (k : κ) : Prop :=
  ∃ id record, s.registry.records.get? id = some record ∧ k ∈ record.retained

/-- Every ready key counts its retaining records and the outstanding loads that contain it,
and every retained key is ready. -/
structure Conserved (s : OffloadState κ σ) (m : CPUOffloadingManager κ) : Prop where
  refCnt : ∀ k b, m.policy.get k = some b → b.isReady = true →
    b.refCnt = s.registry.retainers k + s.loaders k
  ready : ∀ k, s.Retained k → m.isKeyReady k = true

/-! ## What a coherent state promises -/

theorem Coherent.conserved {s : OffloadState κ σ} (h : s.Coherent fun _ => 0)
    {m : CPUOffloadingManager κ} (hm : s.registry.manager = some m) : s.Conserved m := by
  have haccounts := h.backed.accounts m hm
  refine ⟨fun k b hb hready => ?_, ?_⟩
  · simpa using haccounts.refCnt k b hb hready
  · rintro k ⟨id, record, hget, hk⟩
    refine haccounts.ready k ?_
    have := retainers_pos hget hk
    have := loaders_nonneg s k
    omega

theorem prepareLoad_ne_release (m : CPUOffloadingManager κ) (keys : List κ) :
    m.prepareLoad keys ≠ .error .releaseUnreferenced := by
  induction keys generalizing m with
  | nil => simp [CPUOffloadingManager.prepareLoad]
  | cons key keys ih =>
      unfold CPUOffloadingManager.prepareLoad
      split
      · simp
      · split
        · intro h
          cases hrest : (m.addRef key 1).prepareLoad keys with
          | ok result => simp [hrest, Except.map] at h
          | error e =>
              simp only [hrest, Except.map, Except.error.injEq] at h
              exact ih _ (h ▸ hrest)
        · simp

theorem completeLoad_ne_release (m : CPUOffloadingManager κ) (keys : List κ) :
    m.completeLoad keys ≠ .error .releaseUnreferenced := by
  induction keys generalizing m with
  | nil => simp [CPUOffloadingManager.completeLoad]
  | cons key keys ih =>
      unfold CPUOffloadingManager.completeLoad
      split
      · simp
      · split
        · exact ih _
        · simp

theorem prepareStore_ne_release (m : CPUOffloadingManager κ) (keys : List κ) :
    m.prepareStore keys ≠ .error .releaseUnreferenced := by
  intro h
  simp only [CPUOffloadingManager.prepareStore] at h
  split at h
  · cases h
  · split at h
    · cases h
    · simp only [CPUOffloadingManager.allocateBlocks] at h
      split at h <;> simp [bind, Except.bind, pure, Except.pure] at h

omit [DecidableEq κ] in
theorem onManager_ne_release (s : OffloadState κ σ)
    {f : CPUOffloadingManager κ → Except AssertionFailure (CPUOffloadingManager κ × Answer κ)}
    (hf : ∀ m, f m ≠ .error .releaseUnreferenced) :
    s.onManager f ≠ .error .releaseUnreferenced := by
  intro h
  unfold onManager at h
  split at h
  · cases h
  · rename_i m _
    cases hresult : f m with
    | ok result => simp [hresult, Except.map] at h
    | error e =>
        simp only [hresult, Except.map, Except.error.injEq] at h
        exact hf m (h ▸ hresult)

theorem map_ne_release {α β : Type*} {result : Except AssertionFailure α} (f : α → β)
    (h : result ≠ .error .releaseUnreferenced) : result.map f ≠ .error .releaseUnreferenced := by
  cases result with
  | ok a => simp [Except.map]
  | error e => simpa [Except.map] using h

theorem ok_ne_release {α : Type*} {result : Except AssertionFailure α} {a : α}
    (h : result = .ok a) : result ≠ .error .releaseUnreferenced := by
  simp [h]

/-- The assertion of `release` passes whatever the next call is. -/
theorem Coherent.step_ne_release {s : OffloadState κ σ} {slack : κ → ℤ} (h : s.Coherent slack)
    (op : OffloadOp κ σ) : s.step op ≠ .error .releaseUnreferenced := by
  cases op with
  | associate now requestId metadata =>
      obtain ⟨r₁, hexpire, -⟩ := h.backed.expire_advance now
      exact map_ne_release _ (ok_ne_release (associate_eq hexpire requestId metadata))
  | apply expiredAt now now' event =>
      obtain ⟨r₁, r', result, -, -, hok, -⟩ := h.backed.apply expiredAt now now' event
      exact map_ne_release _ (ok_ne_release hok)
  | generationFinished expiredAt now id cause snapshot =>
      obtain ⟨r', hok, -⟩ := h.backed.generationFinished expiredAt now id cause snapshot
      exact map_ne_release _ (ok_ne_release hok)
  | expire now =>
      obtain ⟨r', hok, -⟩ := h.backed.expire_advance now
      exact map_ne_release _ (ok_ne_release hok)
  | setH2dEstimate id seconds now =>
      refine map_ne_release _ ?_
      cases hget : s.registry.records.get? id with
      | none => simp [setH2dEstimate, hget]
      | some record =>
          cases hstarted : record.startedAt with
          | none => simp [setH2dEstimate, hget, hstarted]
          | some startedAt =>
              obtain ⟨r', hok, -⟩ := h.backed.setH2dEstimate hget hstarted seconds now
              exact ok_ne_release hok
  | retainReady now id keys =>
      rcases h.backed.retainReady now id keys with hfail | ⟨retained, r', hok, -⟩
      · exact map_ne_release _ (by simp [hfail])
      · exact map_ne_release _ (ok_ne_release hok)
  | release id =>
      refine map_ne_release _ ?_
      cases hget : s.registry.records.get? id with
      | none => simp [release, hget]
      | some record =>
          obtain ⟨r', hok, -⟩ := h.backed.release hget
          exact ok_ne_release hok
  | addPending id keys =>
      cases hm : s.registry.manager with
      | none => simp [step, hm]
      | some m =>
          simp only [step, hm]
          exact map_ne_release _ (ok_ne_release rfl)
  | dropPending id keys => exact map_ne_release _ (ok_ne_release rfl)
  | consumeEvaluation id => exact map_ne_release _ (ok_ne_release rfl)
  | invalidateSnapshots => exact map_ne_release _ (ok_ne_release rfl)
  | lookup key => exact s.onManager_ne_release fun m => ok_ne_release rfl
  | touch keys => exact s.onManager_ne_release fun m => ok_ne_release rfl
  | prepareLoad keys =>
      exact map_ne_release _ (s.onManager_ne_release fun m =>
        map_ne_release _ (prepareLoad_ne_release m keys))
  | completeLoad keys =>
      exact map_ne_release _ (s.onManager_ne_release fun m =>
        map_ne_release _ (completeLoad_ne_release m keys))
  | prepareStore keys =>
      exact s.onManager_ne_release fun m => map_ne_release _ (prepareStore_ne_release m keys)
  | completeStore keys success => exact s.onManager_ne_release fun m => ok_ne_release rfl
  | resetCache now =>
      cases hm : s.registry.manager with
      | none => simp [step, OffloadState.onManager, hm, bind, Except.bind]
      | some m =>
          simp only [step, OffloadState.onManager, hm, bind, Except.bind, Except.map]
          exact map_ne_release _ (ok_ne_release (externalResetSucceeded_eq _ now))
  | externalResetSucceeded now =>
      exact map_ne_release _ (ok_ne_release (externalResetSucceeded_eq _ now))

/-- A store evicts only keys that nobody retains. -/
theorem Coherent.evicted_not_retained {s s' : OffloadState κ σ} {slack : κ → ℤ}
    (h : s.Coherent slack) {keys : List κ} {output : PrepareStoreOutput κ}
    (hstep : s.step (.prepareStore keys) = .ok (s', .prepared (some output))) :
    ∀ k ∈ output.evictedKeys, ¬ s.Retained k := by
  rintro k hk ⟨id, record, hget, hretained⟩
  simp only [step, OffloadState.onManager] at hstep
  cases hm : s.registry.manager with
  | none => simp [hm] at hstep
  | some m =>
      simp only [hm] at hstep
      cases hstore : m.prepareStore keys with
      | error e => simp [hstore, Except.map] at hstep
      | ok result =>
          obtain ⟨output', m'⟩ := result
          simp only [hstore, Except.map, Except.ok.injEq, Prod.mk.injEq, Answer.prepared.injEq]
            at hstep
          obtain ⟨-, rfl⟩ := hstep
          have hzero := ((h.backed.accounts m hm).prepareStore hstore).2 output rfl k hk
          have := retainers_pos hget hretained
          have := h.backed.nonneg k
          omega

/-! ## Every run -/

/-- Along every run of lifecycle and manager calls the reference counts are exactly the
retaining records and the outstanding loads, releasing never fails its assertion and no
retained key is evicted. -/
theorem retention_references_conserved (settings : OffloadConfig) (numBlocks : ℕ)
    (cachePolicy : PolicyName) (enableEvents : Bool) (storeThreshold maxTrackerSize : ℕ)
    {labels : List (OffloadOp κ σ × Answer κ)} {s : OffloadState κ σ}
    (run : Run Next (initial settings (some (.new numBlocks cachePolicy enableEvents
      storeThreshold maxTrackerSize))) labels s)
    (hpaired : ∀ label ∈ labels, ¬ BareReset label) :
    (∃ m, s.registry.manager = some m ∧ s.Conserved m) ∧
      (∀ op, s.step op ≠ .error .releaseUnreferenced) ∧
      ∀ keys s' output, s.step (.prepareStore keys) = .ok (s', .prepared (some output)) →
        ∀ k ∈ output.evictedKeys, ¬ s.Retained k := by
  have hfresh : FreshManager (some (CPUOffloadingManager.new (κ := κ) numBlocks cachePolicy
      enableEvents storeThreshold maxTrackerSize)) := by
    rintro m ⟨⟩
    exact ⟨_, _, _, _, _, rfl⟩
  have hinitial := coherent_initial (σ := σ) settings hfresh
  have hcoherent := Coherent.run_exact run hpaired hinitial
  obtain ⟨hmanager, -⟩ : s.registry.manager.isSome = true ∧ ∃ slack, s.Coherent slack :=
    run.invariant (I := fun s => s.registry.manager.isSome = true ∧ ∃ slack, s.Coherent slack)
      (fun s label s' _ hs hnext => by
        obtain ⟨hs, slack, hcoherent⟩ := hs
        obtain ⟨hprogress, slack', hcoherent', -⟩ := hcoherent.next hnext
        exact ⟨hprogress.manager.trans hs, slack', hcoherent'⟩) ⟨rfl, _, hinitial⟩
  obtain ⟨m, hm⟩ := Option.isSome_iff_exists.mp hmanager
  exact ⟨⟨m, hm, hcoherent.conserved hm⟩, hcoherent.step_ne_release,
    fun keys s' output hstep => hcoherent.evicted_not_retained hstep⟩

/-- A stall begins, its prefix is stored, retained and loaded back. -/
def preservingCalls : List (OffloadOp ℕ Unit) :=
  [.associate 0 "request" { lifecycleId := "a" },
    .apply 0 0 0 { event := .stallStarted, lifecycleId := "a" },
    .prepareStore [7], .completeStore [7] true, .retainReady 0 "a" [7], .prepareLoad [7]]

/-- The key that is retained once and loaded once counts two references. -/
theorem preserved_key_counts_two :
    ∃ labels, ∃ s : OffloadState ℕ Unit,
      Run Next (initial ⟨true, 1, 1 / 10, 1 / 2⟩ (some (.new 2 .lru false 1 10))) labels s ∧
        s.registry.retainers 7 + s.loaders 7 = 2 ∧
        ∃ m, s.registry.manager = some m ∧ s.Conserved m := by
  have hexecute : ((initial ⟨true, 1, 1 / 10, 1 / 2⟩ (some (.new 2 .lru false 1 10))).execute
      preservingCalls).map (fun p => p.2.registry.retainers 7 + p.2.loaders 7) = some 2 := by
    decide +kernel
  obtain ⟨⟨labels, s⟩, hrun, hcount⟩ := Option.map_eq_some_iff.mp hexecute
  obtain ⟨run, hops⟩ := run_of_execute hrun
  have hpaired : ∀ label ∈ labels, ¬ BareReset label := by
    rintro label hlabel ⟨now, hop⟩
    have hmem : label.1 ∈ preservingCalls := hops ▸ List.mem_map_of_mem hlabel
    simp [hop, preservingCalls] at hmem
  exact ⟨labels, s, run, hcount,
    (retention_references_conserved _ _ _ _ _ _ run hpaired).1⟩

end TokenCake.Offload.OffloadState
