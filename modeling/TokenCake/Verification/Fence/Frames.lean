import TokenCake.Model.Fleet

/-! # What the operations of the connector leave alone

Every operation works on the jobs it creates or completes. `Frame c c'` says that all other
jobs are treated by `c'` as they were by `c`, up to an earlier flush. -/

namespace TokenCake.Offload.TokenCakeOffloadingScheduler

variable {κ σ : Type} [DecidableEq κ]

/-- The computation ends in a value satisfying `P` unless it fails. -/
abbrev Yields {α : Type} (P : α → Prop) : Except ConnectorError α → Prop :=
  Ensures (fun _ => True) P

theorem yields_true {α : Type} (x : Except ConnectorError α) : Yields (fun _ => True) x := by
  cases x <;> trivial

/-! ## The relation -/

/-- The job `j` before and after an operation on other jobs. -/
structure SameAt (j : JobId) (c c' : TokenCakeOffloadingScheduler κ σ) : Prop where
  unpublished : c'.unpublished.get? j = c.unpublished.get? j
  detached : c'.detached.get? j = c.detached.get? j
  flush : j ∈ c.currentBatchJobsToFlush → j ∈ c'.currentBatchJobsToFlush
  loads : j ∉ c.currentBatchLoadJobs.keys → j ∉ c'.currentBatchLoadJobs.keys
  status : c.detached.get? j ≠ none → c'.jobs.get? j = c.jobs.get? j
  watched : c.detached.get? j ≠ none → ∀ b, j ∈ c.pendingJobs b → j ∈ c'.pendingJobs b

/-- Only jobs created on the way from `c` to `c'` are treated differently. -/
structure Frame (c c' : TokenCakeOffloadingScheduler κ σ) : Prop where
  config : c'.config = c.config
  counter : c.jobCounter ≤ c'.jobCounter
  same : ∀ j, j < c.jobCounter ∨ c'.jobCounter ≤ j → SameAt j c c'

/-- No job is created on the way, and the others are treated as before. -/
structure Steady (c c' : TokenCakeOffloadingScheduler κ σ) : Prop where
  config : c'.config = c.config
  counter : c'.jobCounter = c.jobCounter
  same : ∀ j, SameAt j c c'

variable {c c' c'' : TokenCakeOffloadingScheduler κ σ} {j job : JobId}

omit [DecidableEq κ] in
theorem SameAt.refl (j : JobId) (c : TokenCakeOffloadingScheduler κ σ) : SameAt j c c :=
  ⟨rfl, rfl, id, id, fun _ => rfl, fun _ _ => id⟩

omit [DecidableEq κ] in
theorem SameAt.trans (h : SameAt j c c') (h' : SameAt j c' c'') : SameAt j c c'' where
  unpublished := h'.unpublished.trans h.unpublished
  detached := h'.detached.trans h.detached
  flush := h'.flush ∘ h.flush
  loads := h'.loads ∘ h.loads
  status hj := (h'.status (h.detached ▸ hj)).trans (h.status hj)
  watched hj b := h'.watched (h.detached ▸ hj) b ∘ h.watched hj b

omit [DecidableEq κ] in
theorem Frame.refl (c : TokenCakeOffloadingScheduler κ σ) : Frame c c :=
  ⟨rfl, le_refl _, fun j _ => SameAt.refl j c⟩

omit [DecidableEq κ] in
theorem Frame.trans (h : Frame c c') (h' : Frame c' c'') : Frame c c'' where
  config := h'.config.trans h.config
  counter := h.counter.trans h'.counter
  same j hj := by
    refine (h.same j ?_).trans (h'.same j ?_)
    · exact hj.imp_right (le_trans h'.counter)
    · exact hj.imp_left fun hlt => lt_of_lt_of_le hlt h.counter

omit [DecidableEq κ] in
theorem Steady.refl (c : TokenCakeOffloadingScheduler κ σ) : Steady c c :=
  ⟨rfl, rfl, fun j => SameAt.refl j c⟩

omit [DecidableEq κ] in
theorem Steady.trans (h : Steady c c') (h' : Steady c' c'') : Steady c c'' :=
  ⟨h'.config.trans h.config, h'.counter.trans h.counter, fun j => (h.same j).trans (h'.same j)⟩

omit [DecidableEq κ] in
theorem Steady.frame (h : Steady c c') : Frame c c' :=
  ⟨h.config, h.counter.ge, fun j _ => h.same j⟩

omit [DecidableEq κ] in
/-- The rule of a loop that creates no jobs. -/
theorem steady_foldlM {α : Type}
    {step : TokenCakeOffloadingScheduler κ σ → α → Except ConnectorError
      (TokenCakeOffloadingScheduler κ σ)}
    (hstep : ∀ c a, Yields (Steady c) (step c a)) (items : List α)
    (c : TokenCakeOffloadingScheduler κ σ) : Yields (Steady c) (items.foldlM step c) := by
  refine Ensures.foldlM (I := fun _ => Steady c) ?_ items c (Steady.refl c)
  intro a _ c₁ h₁
  exact (hstep c₁ a).mono fun c₂ h₂ => h₁.trans h₂

/-! ## Calls of the registry and the manager -/

omit [DecidableEq κ] in
theorem steady_offload (c : TokenCakeOffloadingScheduler κ σ) (offload : OffloadState κ σ) :
    Steady c { c with offload := offload } :=
  ⟨rfl, rfl, fun _ => ⟨rfl, rfl, id, id, fun _ => rfl, fun _ _ => id⟩⟩

omit [DecidableEq κ] in
theorem frame_offload (c : TokenCakeOffloadingScheduler κ σ) (offload : OffloadState κ σ) :
    Frame c { c with offload := offload } := (steady_offload c offload).frame

theorem call_offload (c : TokenCakeOffloadingScheduler κ σ) (op : OffloadOp κ σ) :
    Yields (fun out => ∃ offload, out.1 = { c with offload := offload }) (c.call op) := by
  rw [call]
  split
  · exact Ensures.error trivial
  · exact Ensures.ok ⟨_, rfl⟩

theorem run_offload (c : TokenCakeOffloadingScheduler κ σ) (op : OffloadOp κ σ) :
    Yields (fun c' => ∃ offload, c' = { c with offload := offload }) (c.run op) :=
  (call_offload c op).map fun _ h => h

theorem steady_run (c : TokenCakeOffloadingScheduler κ σ) (op : OffloadOp κ σ) :
    Yields (Steady c) (c.run op) := by
  refine (run_offload c op).mono ?_
  rintro c' ⟨offload, hc'⟩
  exact hc' ▸ steady_offload c offload

theorem prepareStore_offload (c : TokenCakeOffloadingScheduler κ σ) (keys : List κ) :
    Yields (fun out => ∃ offload, out.1 = { c with offload := offload }) (c.prepareStore keys) := by
  refine Ensures.bind (call_offload c _) ?_
  rintro ⟨c₁, answer⟩ h₁
  dsimp only
  split
  · exact Ensures.ok h₁
  · exact Ensures.error trivial

theorem prepareLoad_offload (c : TokenCakeOffloadingScheduler κ σ) (keys : List κ) :
    Yields (fun out => ∃ offload, out.1 = { c with offload := offload }) (c.prepareLoad keys) := by
  refine Ensures.bind (call_offload c _) ?_
  rintro ⟨c₁, answer⟩ h₁
  dsimp only
  split
  · exact Ensures.ok h₁
  · exact Ensures.error trivial

/-! ## Fences -/

omit [DecidableEq κ] in
theorem mem_pendingJobs_watchBlock (c : TokenCakeOffloadingScheduler κ σ) (job : JobId)
    (bid : BlockId) (j : JobId) (b : BlockId) :
    j ∈ (watchBlock job c bid).pendingJobs b ↔ j ∈ c.pendingJobs b ∨ (j = job ∧ b = bid) := by
  by_cases hb : b = bid
  · subst hb
    have hself : (watchBlock job c b).pendingJobs b =
        if job ∈ c.pendingJobs b then c.pendingJobs b else c.pendingJobs b ++ [job] :=
      congrArg (Option.getD · []) (OrdDict.get?_insert_self ..)
    rw [hself]
    split
    · grind
    · grind
  · have hother : (watchBlock job c bid).pendingJobs b = c.pendingJobs b :=
      congrArg (Option.getD · []) ((OrdDict.get?_insert ..).trans (if_neg hb))
    simp [hother, hb]

omit [DecidableEq κ] in
theorem mem_pendingJobs_watch (c : TokenCakeOffloadingScheduler κ σ) (job : JobId)
    (blockIds : List BlockId) (j : JobId) (b : BlockId) :
    j ∈ (c.watch job blockIds).pendingJobs b ↔
      j ∈ c.pendingJobs b ∨ (j = job ∧ b ∈ blockIds) := by
  induction blockIds generalizing c with
  | nil => simp [watch]
  | cons bid rest ih =>
      have hstep : c.watch job (bid :: rest) = (watchBlock job c bid).watch job rest := rfl
      rw [hstep, ih, mem_pendingJobs_watchBlock, List.mem_cons]
      grind

omit [DecidableEq κ] in
theorem watch_eq (c : TokenCakeOffloadingScheduler κ σ) (job : JobId) (blockIds : List BlockId) :
    ∃ pending, c.watch job blockIds = { c with blockIdToPendingJobs := pending } := by
  induction blockIds generalizing c with
  | nil => exact ⟨c.blockIdToPendingJobs, rfl⟩
  | cons bid rest ih =>
      obtain ⟨pending, hpending⟩ := ih (watchBlock job c bid)
      exact ⟨pending, hpending⟩

omit [DecidableEq κ] in
theorem steady_watch (c : TokenCakeOffloadingScheduler κ σ) (job : JobId)
    (blockIds : List BlockId) : Steady c (c.watch job blockIds) := by
  have hwatched : ∀ j b, j ∈ c.pendingJobs b → j ∈ (c.watch job blockIds).pendingJobs b :=
    fun j b hj => (mem_pendingJobs_watch c job blockIds j b).mpr (.inl hj)
  obtain ⟨pending, hpending⟩ := watch_eq c job blockIds
  rw [hpending] at hwatched ⊢
  exact ⟨rfl, rfl, fun j => ⟨rfl, rfl, id, id, fun _ => rfl, fun _ => hwatched j⟩⟩

omit [DecidableEq κ] in
/-- Only the entries of the job itself go. -/
theorem removePendingJob_spec (c : TokenCakeOffloadingScheduler κ σ) (job : JobId)
    (blockIds : List BlockId) :
    Yields (fun c' => (∃ pending, c' = { c with blockIdToPendingJobs := pending }) ∧
      ∀ j b, j ≠ job → j ∈ c.pendingJobs b → j ∈ c'.pendingJobs b)
      (c.removePendingJob job blockIds) := by
  refine Ensures.foldlM (I := fun _ c' =>
    (∃ pending, c' = { c with blockIdToPendingJobs := pending }) ∧
      ∀ j b, j ≠ job → j ∈ c.pendingJobs b → j ∈ c'.pendingJobs b) ?_ blockIds c
      ⟨⟨_, rfl⟩, fun _ _ _ => id⟩
  rintro bid rest c₁ ⟨⟨pending₁, hc₁⟩, h₁⟩
  split
  · exact Ensures.error trivial
  · next pending hpending =>
    split
    · refine Ensures.ok ⟨⟨_, by rw [hc₁]⟩, ?_⟩
      intro j b hne hj
      have hj₁ := h₁ j b hne hj
      by_cases hb : b = bid
      · subst hb
        have hrest : j ∈ pending.filter (· ≠ job) := by
          simp only [pendingJobs, hpending, Option.getD_some] at hj₁
          simp [hj₁, hne]
        have hnil : (pending.filter (· ≠ job)).isEmpty = false := by
          rw [List.isEmpty_eq_false_iff]
          exact List.ne_nil_of_mem hrest
        simp only [pendingJobs, hnil, Bool.false_eq_true, if_false, OrdDict.get?_insert_self,
          Option.getD_some]
        exact hrest
      · simp only [pendingJobs] at hj₁ ⊢
        split
        · rw [OrdDict.get?_erase, if_neg hb]
          exact hj₁
        · rw [OrdDict.get?_insert, if_neg hb]
          exact hj₁
    · exact Ensures.error trivial

omit [DecidableEq κ] in
theorem frame_fence (c : TokenCakeOffloadingScheduler κ σ) (blockIds : List BlockId) :
    Frame c (c.fence blockIds) :=
  ⟨rfl, le_refl _, fun _ _ =>
    ⟨rfl, rfl, fun hj => List.mem_append_left _ hj, id, fun _ => rfl, fun _ _ => id⟩⟩

omit [DecidableEq κ] in
theorem mem_flush_fence {c : TokenCakeOffloadingScheduler κ σ} {blockIds : List BlockId}
    {j : JobId} {b : BlockId} (hb : b ∈ blockIds) (hj : j ∈ c.pendingJobs b) :
    j ∈ (c.fence blockIds).currentBatchJobsToFlush :=
  List.mem_append_right _ (List.mem_flatMap.mpr ⟨b, hb, hj⟩)

/-! ## Operations that create jobs -/

/-- A job that is not the one an operation creates. -/
theorem ne_of_outside {j counter : ℕ} (h : j < counter ∨ counter + 1 ≤ j) : j ≠ counter := by
  omega

theorem frame_addDetached (c : TokenCakeOffloadingScheduler κ σ) (selection : Selection κ)
    (output : PrepareStoreOutput κ) : Frame c (c.addDetached selection output) := by
  refine Frame.trans ?_ (steady_watch _ _ _).frame
  refine ⟨rfl, Nat.le_succ _, ?_⟩
  intro j hj
  have hne : j ≠ c.jobCounter := ne_of_outside hj
  refine ⟨?_, ?_, id, id, fun _ => ?_, fun _ _ => id⟩
  · exact (OrdDict.get?_insert ..).trans (if_neg hne)
  · exact (OrdDict.get?_insert ..).trans (if_neg hne)
  · exact (OrdDict.get?_insert ..).trans (if_neg hne)

/-- `_register_store` adds at most one detached job. -/
theorem registerStore_spec (c : TokenCakeOffloadingScheduler κ σ) (selection : Selection κ) :
    Yields (fun out => ∃ offload, out.1 = { c with offload := offload } ∨
      ∃ output, out.1 = { c with offload := offload }.addDetached selection output)
      (c.registerStore selection) := by
  refine Ensures.bind (prepareStore_offload c _) ?_
  rintro ⟨c₁, prepared⟩ ⟨offload₁, h₁⟩
  dsimp only at h₁ ⊢
  subst h₁
  split
  · exact Ensures.ok ⟨_, .inl rfl⟩
  · refine Ensures.bind (run_offload _ _) ?_
    rintro c₂ ⟨offload₂, h₂⟩
    subst h₂
    split
    · refine Ensures.bind (run_offload _ _) ?_
      rintro c₃ ⟨offload₃, h₃⟩
      subst h₃
      split
      · exact Ensures.ok ⟨_, .inl rfl⟩
      · exact Ensures.ok ⟨_, .inr ⟨_, rfl⟩⟩
    · refine Ensures.bind (run_offload _ _) ?_
      rintro c₃ ⟨offload₃, h₃⟩
      subst h₃
      exact Ensures.ok ⟨_, .inl rfl⟩

/-- A matched request changes the tracked requests and the manager only. -/
theorem getNumNewMatchedTokens_spec (c : TokenCakeOffloadingScheduler κ σ) (reqId : String)
    (offloadKeys : List (List κ)) (tokens : ℕ) (lookups touched : List κ) :
    Yields (fun c' => ∃ reqStatus offload,
        c' = { c with reqStatus := reqStatus, offload := offload })
      (c.getNumNewMatchedTokens reqId offloadKeys tokens lookups touched) := by
  rw [getNumNewMatchedTokens]
  refine Ensures.bind (Ensures.foldlM (I := fun _ c' => ∃ reqStatus offload,
    c' = { c with reqStatus := reqStatus, offload := offload }) ?_ lookups _
      ⟨_, c.offload, rfl⟩) ?_
  · rintro key rest c₁ ⟨reqStatus, offload, h₁⟩
    refine (run_offload c₁ _).mono ?_
    rintro c₂ ⟨offload₂, h₂⟩
    exact ⟨reqStatus, offload₂, by rw [h₂, h₁]⟩
  · rintro c₁ ⟨reqStatus, offload, h₁⟩
    refine (run_offload c₁ _).mono ?_
    rintro c₂ ⟨offload₂, h₂⟩
    exact ⟨reqStatus, offload₂, by rw [h₂, h₁]⟩

omit [DecidableEq κ] in
theorem frame_matched (c : TokenCakeOffloadingScheduler κ σ)
    (reqStatus : OrdDict String (RequestOffloadState κ)) (offload : OffloadState κ σ) :
    Frame c { c with reqStatus := reqStatus, offload := offload } :=
  ⟨rfl, le_refl _, fun _ _ => ⟨rfl, rfl, id, id, fun _ => rfl, fun _ _ => id⟩⟩

omit [DecidableEq κ] in
theorem frame_addLoad (c : TokenCakeOffloadingScheduler κ σ) (reqId : String)
    (status : RequestOffloadState κ) (keys : List κ) (load : TransferJob) :
    Frame c (c.addLoad reqId status keys load) := by
  refine ⟨rfl, Nat.le_succ _, ?_⟩
  intro j hj
  have hne : j ≠ c.jobCounter := ne_of_outside hj
  refine ⟨rfl, rfl, id, ?_, fun _ => ?_, fun _ _ => id⟩
  · intro habsent hmem
    cases OrdDict.mem_keys_insert.mp hmem with
    | inl heq => exact hne heq
    | inr hold => exact habsent hold
  · exact (OrdDict.get?_insert ..).trans (if_neg hne)

/-- An admitted request that loads fences the destinations of its load. -/
theorem updateStateAfterAlloc_spec (c : TokenCakeOffloadingScheduler κ σ) (reqId : String)
    (blocks : List (List KVBlock)) (external : ℕ) :
    Yields (fun c' => c' = c ∨ ∃ ids offload status keys load, load.gpu.blockIds = ids ∧
        c' = { c.fence ids with offload := offload }.addLoad reqId status keys load)
      (c.updateStateAfterAlloc reqId blocks external) := by
  rw [updateStateAfterAlloc]
  split
  · exact Ensures.ok (.inl rfl)
  · split
    · exact Ensures.error trivial
    · refine Ensures.bind (yields_true _) ?_
      intro groups _
      refine Ensures.bind (prepareLoad_offload _ _) ?_
      rintro ⟨c₁, src⟩ ⟨offload, h₁⟩
      dsimp only at h₁ ⊢
      subst h₁
      split
      · refine Ensures.ok (.inr ⟨_, offload, _, _, _, ?_, rfl⟩)
        rfl
      · exact Ensures.error trivial

omit [DecidableEq κ] in
theorem frame_addStore (c : TokenCakeOffloadingScheduler κ σ) (reqId : String)
    (status : RequestOffloadState κ) (keys : List κ) (blocks : StoreBlocks) :
    Frame c (c.addStore reqId status keys blocks) := by
  refine Frame.trans ?_ (steady_watch _ _ _).frame
  refine ⟨rfl, Nat.le_succ _, ?_⟩
  intro j hj
  have hne : j ≠ c.jobCounter := ne_of_outside hj
  refine ⟨rfl, rfl, id, id, fun _ => ?_, fun _ _ => id⟩
  exact (OrdDict.get?_insert ..).trans (if_neg hne)

/-! ## Operations on the requests -/

omit [DecidableEq κ] in
theorem steady_requestFinished (c : TokenCakeOffloadingScheduler κ σ) (reqId : String) :
    Yields (Steady c) (c.requestFinished reqId) := by
  have hstatus : ∀ reqStatus, Steady c { c with reqStatus := reqStatus } := fun _ =>
    ⟨rfl, rfl, fun _ => ⟨rfl, rfl, id, id, fun _ => rfl, fun _ _ => id⟩⟩
  rw [requestFinished]
  split
  · exact Ensures.ok (Steady.refl c)
  · split
    · exact Ensures.ok (hstatus _)
    · refine (steady_foldlM ?_ _ _).mono fun c' h' => (hstatus _).trans h'
      intro c₁ job
      split
      · exact Ensures.error trivial
      · exact Ensures.ok (steady_watch c₁ job _)

omit [DecidableEq κ] in
theorem frame_flushPreempted (c : TokenCakeOffloadingScheduler κ σ) (reqId : String) :
    Yields (Frame c) (c.flushPreempted reqId) := by
  rw [flushPreempted]
  split
  · exact Ensures.ok (Frame.refl c)
  · refine Ensures.bind (yields_true _) ?_
    intro _ _
    exact Ensures.ok ⟨rfl, le_refl _, fun _ _ =>
      ⟨rfl, rfl, fun hj => List.mem_append_left _ hj, id, fun _ => rfl, fun _ _ => id⟩⟩

omit [DecidableEq κ] in
theorem frame_flushFinished (c : TokenCakeOffloadingScheduler κ σ) : Frame c c.flushFinished := by
  rw [flushFinished]
  split
  · exact ⟨rfl, le_refl _, fun _ _ =>
      ⟨rfl, rfl, fun hj => List.mem_append_left _ hj, id, fun _ => rfl, fun _ _ => id⟩⟩
  · exact Frame.refl c

theorem steady_retainCompleted (retainedAt : String → ℚ) (keys : List κ)
    (c : TokenCakeOffloadingScheduler κ σ) (identifier : String) :
    Yields (Steady c) (retainCompleted retainedAt keys c identifier) := by
  rw [retainCompleted]
  split
  · exact Ensures.ok (Steady.refl c)
  · dsimp only
    split
    · exact Ensures.ok (Steady.refl c)
    · refine Ensures.bind (steady_run c _) ?_
      intro c₁ h₁
      exact (steady_run c₁ _).mono fun c₂ h₂ => h₁.trans h₂

/-! ## Completions -/

omit [DecidableEq κ] in
/-- A change of the status of a job that is not detached. -/
theorem steady_jobs {c : TokenCakeOffloadingScheduler κ σ} {job : JobId}
    (hjob : c.detached.get? job = none) {jobs : OrdDict JobId (TransferJobStatus κ)}
    (hjobs : ∀ j, j ≠ job → jobs.get? j = c.jobs.get? j)
    (reqStatus : OrdDict String (RequestOffloadState κ)) :
    Steady c { c with jobs := jobs, reqStatus := reqStatus } := by
  refine ⟨rfl, rfl, ?_⟩
  intro j
  refine ⟨rfl, rfl, id, id, fun hdetached => hjobs j ?_, fun _ _ => id⟩
  intro heq
  exact hdetached (heq ▸ hjob)

omit [DecidableEq κ] in
theorem steady_removePendingJob {c : TokenCakeOffloadingScheduler κ σ} {job : JobId}
    (hjob : c.detached.get? job = none) (blockIds : List BlockId) :
    Yields (Steady c) (c.removePendingJob job blockIds) := by
  refine (removePendingJob_spec c job blockIds).mono ?_
  intro c' h
  obtain ⟨⟨pending, hc'⟩, hwatched⟩ := h
  subst hc'
  refine ⟨rfl, rfl, fun j => ⟨rfl, rfl, id, id, fun _ => rfl, ?_⟩⟩
  intro hdetached b
  refine hwatched j b ?_
  intro heq
  exact hdetached (heq ▸ hjob)

omit [DecidableEq κ] in
theorem steady_unwatch {c : TokenCakeOffloadingScheduler κ σ} {job : JobId}
    (hjob : c.detached.get? job = none) (finished : Bool) (status : TransferJobStatus κ) :
    Yields (Steady c) (c.unwatch job finished status) := by
  rw [unwatch]
  split
  · exact Ensures.ok (Steady.refl c)
  · refine Ensures.bind (steady_removePendingJob hjob _) ?_
    intro c₁ h₁
    split
    · refine (steady_removePendingJob ?_ _).mono fun c₂ h₂ => h₁.trans h₂
      exact (h₁.same job).detached.trans hjob
    · exact Ensures.ok h₁

theorem steady_completeNative {c : TokenCakeOffloadingScheduler κ σ} {completed : JobId × ℕ}
    (hjob : c.detached.get? completed.1 = none) :
    Yields (Steady c) (c.completeNative completed) := by
  obtain ⟨job, count⟩ := completed
  rw [completeNative]
  dsimp only at hjob ⊢
  split
  · exact Ensures.error trivial
  · split
    · exact Ensures.ok (Steady.refl c)
    · split
      · exact Ensures.error trivial
      · next status hstatus =>
        split
        · exact Ensures.error trivial
        · split
          · refine Ensures.ok (steady_jobs hjob ?_ _)
            intro j hne
            exact (OrdDict.get?_modify ..).trans (if_neg hne)
          · split
            · exact Ensures.error trivial
            · next request hrequest =>
              refine Ensures.bind (steady_run c _) ?_
              intro c₁ h₁
              refine Ensures.bind (steady_unwatch ((h₁.same job).detached.trans hjob) _ status) ?_
              intro c₂ h₂
              rw [dropTransferJob]
              split
              · have hjob₂ := (((h₁.trans h₂).same job).detached).trans hjob
                refine Ensures.ok ((h₁.trans h₂).trans (steady_jobs hjob₂ ?_ _))
                intro j hne
                exact (OrdDict.get?_erase ..).trans (if_neg hne)
              · exact Ensures.error trivial

end TokenCake.Offload.TokenCakeOffloadingScheduler
