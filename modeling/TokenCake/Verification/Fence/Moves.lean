import TokenCake.Verification.Fence.Workers

/-! # What an operation of the system can do

Every operation is one of seven moves. All invariants are proved from the moves. -/

namespace TokenCake.Offload

open TokenCakeOffloadingScheduler

variable {κ σ : Type} [DecidableEq κ]

/-- `reset_cache` forgets every job and flushes those that the workers know. -/
structure ResetTo (c c' : TokenCakeOffloadingScheduler κ σ) : Prop where
  config : c'.config = c.config
  counter : c'.jobCounter = c.jobCounter
  loads : c'.currentBatchLoadJobs = c.currentBatchLoadJobs
  unpublished : c'.unpublished = .empty
  detached : c'.detached = .empty
  noFlush : c.currentBatchJobsToFlush = []
  flush : ∀ j ∈ c.jobs.keys, j ∉ c.unpublished.keys → j ∈ c'.currentBatchJobsToFlush

theorem resetCache_spec (c : TokenCakeOffloadingScheduler κ σ) (now : ℚ) :
    Yields (ResetTo c) (c.resetCache now) := by
  rw [resetCache]
  split
  · exact Ensures.error trivial
  · next hbatch =>
    rw [not_or, not_not, not_not] at hbatch
    refine Ensures.bind (run_offload c _) ?_
    rintro c₁ ⟨offload, h₁⟩
    subst h₁
    refine Ensures.ok ⟨rfl, rfl, rfl, rfl, rfl, hbatch.2, ?_⟩
    intro j hj hnot
    exact List.mem_filter.mpr ⟨hj, by simpa using hnot⟩

omit [DecidableEq κ] in
theorem TokenCakeOffloadingScheduler.Known.settled {c c' : TokenCakeOffloadingScheduler κ σ} (h : Known c)
    (hsettled : Settled c c') : Known c' := by
  refine ⟨?_, ?_, ?_⟩
  · intro k hk
    rw [OrdDict.mem_keys_iff, hsettled.unpublished, ← OrdDict.mem_keys_iff] at hk
    exact hsettled.counter ▸ h.unpublished k hk
  · intro k hk
    by_contra hnot
    have hnone : c.detached.get? k = none := OrdDict.get?_eq_none_iff.mpr fun hmem =>
      hnot (hsettled.counter ▸ h.detached k hmem)
    exact OrdDict.get?_eq_none_iff.mp (hsettled.forgotten k hnone) hk
  · intro k hk
    by_contra hnot
    exact hsettled.loads k (fun hmem => hnot (hsettled.counter ▸ h.loads k hmem)) hk

omit [DecidableEq κ] in
theorem Performed.known {c c₁ c₂ : TokenCakeOffloadingScheduler κ σ} {input : ConnectorInput κ}
    {result : StepResult κ σ} (h : Performed c c₁ c₂ input result) (hknown : Known c) :
    Known c₂ ∧ Known result.connector ∧ c.jobCounter ≤ c₂.jobCounter := by
  have hframe := h.evaluated.frame.trans h.inStep.frame
  have hc₂ := hknown.frame hframe
  refine ⟨hc₂, ⟨?_, ?_, ?_⟩, hframe.counter⟩
  · intro k hk
    by_contra hnot
    exact h.published.unpublished k (.inr (Nat.le_of_not_lt hnot)) hk
  · intro k hk
    by_contra hnot
    have hsame : result.connector.detached = c₂.detached := h.published.detached
    rw [hsame] at hk
    exact hnot (lt_of_lt_of_le (hc₂.detached k hk) h.published.counter)
  · intro k hk
    have hempty : result.connector.currentBatchLoadJobs = .empty := h.published.loads
    rw [hempty] at hk
    exact absurd hk List.not_mem_nil

omit [DecidableEq κ] in
/-- A job with an identifier beyond the counter is not in the message of a step. -/
theorem Performed.absent {c c₁ c₂ : TokenCakeOffloadingScheduler κ σ} {input : ConnectorInput κ}
    {result : StepResult κ σ} (h : Performed c c₁ c₂ input result) (hknown : Known c) {j : JobId}
    (hj : result.connector.jobCounter ≤ j) :
    j ∉ result.metadata.storeJobs.keys ∧ j ∉ result.metadata.loadJobs.keys := by
  obtain ⟨hc₂, -, -⟩ := h.known hknown
  have hcounter : c₂.jobCounter ≤ j := h.published.counter.trans hj
  refine ⟨fun hmem => ?_, fun hmem => ?_⟩
  · cases h.published.bounded j hmem with
    | inl hold => exact absurd (hc₂.unpublished j hold) (Nat.not_lt_of_le hcounter)
    | inr hlt => exact absurd hlt (Nat.not_lt_of_le hj)
  · have hloads : result.metadata.loadJobs = c₂.currentBatchLoadJobs := h.published.loadJobs
    rw [hloads] at hmem
    exact absurd (hc₂.loads j hmem) (Nat.not_lt_of_le hcounter)

namespace Fleet

/-- The moves of the system. -/
inductive Move (s : Fleet κ σ) : Observation → Fleet κ σ → Prop
  | steady {c : TokenCakeOffloadingScheduler κ σ} (h : Steady s.scheduler c) :
      Move s .silent { s with scheduler := c }
  | evaluated {c : TokenCakeOffloadingScheduler κ σ} (h : Evaluated s.scheduler c) :
      Move s (.registered (newStores s.scheduler c)) { s with scheduler := c }
  | stepped {c₁ c₂ : TokenCakeOffloadingScheduler κ σ} {input : ConnectorInput κ}
      {result : StepResult κ σ} (h : Performed s.scheduler c₁ c₂ input result) :
      Move s (.step (newStores s.scheduler result.connector) result.totalNumScheduledTokens
          result.allocated ⟨s.steps, result.metadata, result.newBlocks⟩)
        { scheduler := result.connector
          workers := s.workers.map (·.receive ⟨s.steps, result.metadata, result.newBlocks⟩)
          steps := s.steps + 1 }
  | updated {workers : List Worker} {reports : List (ℕ × List JobId)}
      {c : TokenCakeOffloadingScheduler κ σ} (htaken : Taken s.workers workers reports)
      (hsettled : Settled s.scheduler c)
      (houtcome : ∀ j S n, Tracked j S n s.scheduler →
        Outcome j S n ((reports.map Prod.snd).flatten.count j) c) :
      Move s (.reported (reportedJobs reports)) { s with scheduler := c, workers := workers }
  | reset {c : TokenCakeOffloadingScheduler κ σ} (h : ResetTo s.scheduler c) :
      Move s .reset { s with scheduler := c }
  | worked {i : ℕ} {w : Worker} {m : StepMessage} {rest : List StepMessage}
      (hw : s.workers[i]? = some w) (hinbox : w.inbox = m :: rest) :
      Move s (.executed i m ({ w with inbox := rest }.execute m).2)
        { s with workers := s.workers.set i ({ w with inbox := rest }.execute m).1 }
  | transferred {i : ℕ} {w : Worker} {job : JobId} (hw : s.workers[i]? = some w)
      (hjob : job ∈ w.inFlight) :
      Move s (.transferred i job) { s with workers := s.workers.set i (w.transferred job) }

omit [DecidableEq κ] in
theorem connect_eq_ok {s s' : Fleet κ σ}
    {result : Except ConnectorError (TokenCakeOffloadingScheduler κ σ)}
    {observe : TokenCakeOffloadingScheduler κ σ → Observation} {o : Observation}
    (h : s.connect result observe = .ok (s', o)) :
    ∃ c, result = .ok c ∧ s' = { s with scheduler := c } ∧ o = observe c := by
  cases result with
  | error e => cases h
  | ok c =>
      obtain ⟨rfl, rfl⟩ := Prod.mk.inj (Except.ok.inj h)
      exact ⟨c, rfl, rfl, rfl⟩

/-- One operation makes one move. -/
theorem Next.move {s s' : Fleet κ σ} {o : Observation} (hknown : Known s.scheduler)
    (hloads : s.scheduler.currentBatchLoadJobs = .empty) (h : Next s o s') : Move s o s' := by
  obtain ⟨ρ, op, hstep⟩ := h
  cases op with
  | lifecycle op =>
      obtain ⟨c, hc, rfl, rfl⟩ := connect_eq_ok hstep
      exact .steady ((steady_run s.scheduler op).of_eq_ok hc)
  | evaluate selections =>
      obtain ⟨c, hc, rfl, rfl⟩ := connect_eq_ok hstep
      exact .evaluated ((evaluatePending_spec hknown selections).of_eq_ok hc)
  | schedule call =>
      simp only [step] at hstep
      cases hperform : call.perform s.scheduler with
      | error e =>
          rw [hperform] at hstep
          cases hstep
      | ok result =>
          rw [hperform] at hstep
          obtain ⟨rfl, rfl⟩ := Prod.mk.inj (Except.ok.inj hstep)
          obtain ⟨c₁, c₂, input, h⟩ := perform_spec hknown hloads call hperform
          exact .stepped h
  | requestFinished reqId =>
      obtain ⟨c, hc, rfl, rfl⟩ := connect_eq_ok hstep
      exact .steady ((steady_requestFinished s.scheduler reqId).of_eq_ok hc)
  | update now retainedAt reporters =>
      simp only [step] at hstep
      split at hstep
      · cases hstep
      · next workers reports htake =>
        obtain ⟨c, hc, rfl, rfl⟩ := connect_eq_ok hstep
        obtain ⟨hsettled, houtcome⟩ := (updateConnectorOutput_spec s.scheduler now retainedAt
          (aggregate (reports.map Prod.snd)).entries
          (aggregate (reports.map Prod.snd)).nodupKeys).of_eq_ok hc
        refine .updated (takeReports_spec htake) hsettled ?_
        intro j S n htracked
        rw [← reports_aggregate]
        exact houtcome j S n htracked
  | reset now =>
      obtain ⟨c, hc, rfl, rfl⟩ := connect_eq_ok hstep
      exact .reset ((resetCache_spec s.scheduler now).of_eq_ok hc)
  | work i =>
      simp only [step] at hstep
      split at hstep
      · cases hstep
      · next w hw =>
        split at hstep
        · cases hstep
        · next m rest hinbox =>
          obtain ⟨rfl, rfl⟩ := Prod.mk.inj (Except.ok.inj hstep)
          exact .worked hw hinbox
  | transferred i job =>
      simp only [step] at hstep
      split at hstep
      · cases hstep
      · next w hw =>
        split at hstep
        · next hjob =>
          obtain ⟨rfl, rfl⟩ := Prod.mk.inj (Except.ok.inj hstep)
          exact .transferred hw hjob
        · cases hstep

/-! ## Orderly systems -/

/-- The invariant of every reachable system: identifiers come from the counter, no load is left
over from an earlier step, and the inboxes hold steps in their order. -/
structure Orderly (s : Fleet κ σ) : Prop where
  known : Known s.scheduler
  loads : s.scheduler.currentBatchLoadJobs = .empty
  workers : s.workers.length = s.scheduler.config.numWorkers
  unseen : ∀ w ∈ s.workers, ∀ j, s.scheduler.jobCounter ≤ j → w.due j = 0 ∧ w.NoLoad j
  sorted : ∀ w ∈ s.workers, w.inbox.Pairwise (·.index < ·.index)
  sent : ∀ w ∈ s.workers, ∀ m ∈ w.inbox, m.index < s.steps

omit [DecidableEq κ] in
theorem loads_empty {c c' : TokenCakeOffloadingScheduler κ σ}
    (h : c.currentBatchLoadJobs = .empty)
    (hsub : ∀ j, j ∉ c.currentBatchLoadJobs.keys → j ∉ c'.currentBatchLoadJobs.keys) :
    c'.currentBatchLoadJobs = .empty := by
  have hnone : ∀ j, j ∉ c'.currentBatchLoadJobs.keys := by
    intro j
    refine hsub j ?_
    rw [h]
    exact List.not_mem_nil
  refine OrdDict.ext (List.eq_nil_iff_forall_not_mem.mpr ?_)
  exact fun e he => hnone e.1 (List.mem_map_of_mem he)

omit [DecidableEq κ] in
/-- Changing one worker keeps what holds of every worker. -/
theorem forall_set {s : Fleet κ σ} {P : Worker → Prop} {i : ℕ} {w' : Worker}
    (h : ∀ w ∈ s.workers, P w) (hw' : P w') : ∀ w ∈ s.workers.set i w', P w := by
  intro w hw
  cases List.mem_or_eq_of_mem_set hw with
  | inl hold => exact h w hold
  | inr heq => exact heq ▸ hw'

omit [DecidableEq κ] in
theorem Move.orderly {s s' : Fleet κ σ} {o : Observation} (h : Orderly s) (hmove : Move s o s') :
    Orderly s' := by
  cases hmove with
  | steady hc =>
      refine ⟨h.known.frame hc.frame, loads_empty h.loads fun j => (hc.same j).loads, ?_, ?_,
        h.sorted, h.sent⟩
      · exact h.workers.trans (by rw [hc.config])
      · exact fun w hw j hj => h.unseen w hw j (hc.counter ▸ hj)
  | evaluated hc =>
      refine ⟨h.known.frame hc.frame, hc.loads.trans h.loads, ?_, ?_, h.sorted, h.sent⟩
      · exact h.workers.trans (by rw [hc.frame.config])
      · exact fun w hw j hj => h.unseen w hw j (hc.frame.counter.trans hj)
  | stepped hc =>
      obtain ⟨-, hknown, hcounter⟩ := hc.known h.known
      refine ⟨hknown, hc.published.loads, ?_, ?_, ?_, ?_⟩
      · have hframe := hc.evaluated.frame.trans hc.inStep.frame
        rw [List.length_map, h.workers, hc.published.config, hframe.config]
      · intro w hw j hj
        obtain ⟨w₀, hw₀, rfl⟩ := List.mem_map.mp hw
        obtain ⟨hstores, hloads⟩ := hc.absent h.known hj
        obtain ⟨hdue, hload⟩ := h.unseen w₀ hw₀ j
          ((hcounter.trans hc.published.counter).trans hj)
        refine ⟨?_, fun m hm => ?_⟩
        · rw [Worker.due_receive, hdue, List.count_eq_zero.mpr hstores]
        · cases List.mem_append.mp hm with
          | inl hold => exact hload m hold
          | inr hnew =>
              rw [List.mem_singleton.mp hnew]
              exact hloads
      · intro w hw
        obtain ⟨w₀, hw₀, rfl⟩ := List.mem_map.mp hw
        rw [Worker.receive, List.pairwise_append]
        refine ⟨h.sorted w₀ hw₀, List.pairwise_singleton .., fun m hm m' hm' => ?_⟩
        rw [List.mem_singleton.mp hm']
        exact h.sent w₀ hw₀ m hm
      · intro w hw m hm
        obtain ⟨w₀, hw₀, rfl⟩ := List.mem_map.mp hw
        cases List.mem_append.mp hm with
        | inl hold => exact Nat.lt_succ_of_lt (h.sent w₀ hw₀ m hold)
        | inr hnew =>
            rw [List.mem_singleton.mp hnew]
            exact Nat.lt_succ_self _
  | @updated workers reports c htaken hsettled _ =>
      have heach : ∀ w' ∈ workers, ∃ w ∈ s.workers, w'.inbox = w.inbox ∧ ∀ j, w'.due j ≤ w.due j := by
        intro w' hw'
        obtain ⟨i, hi⟩ := List.mem_iff_getElem?.mp hw'
        obtain ⟨w, hw, htook, hdue⟩ := htaken.each i w' hi
        exact ⟨w, List.mem_of_getElem? hw, htook.inbox, fun j => by rw [hdue j]; omega⟩
      refine ⟨h.known.settled hsettled, loads_empty h.loads hsettled.loads, ?_, ?_, ?_, ?_⟩
      · rw [htaken.length, h.workers, hsettled.config]
      · intro w' hw' j hj
        obtain ⟨w, hw, hinbox, hdue⟩ := heach w' hw'
        obtain ⟨hzero, hload⟩ := h.unseen w hw j (hsettled.counter ▸ hj)
        exact ⟨Nat.le_zero.mp (hzero ▸ hdue j), fun m hm => hload m (hinbox ▸ hm)⟩
      · intro w' hw'
        obtain ⟨w, hw, hinbox, -⟩ := heach w' hw'
        exact hinbox ▸ h.sorted w hw
      · intro w' hw' m hm
        obtain ⟨w, hw, hinbox, -⟩ := heach w' hw'
        exact h.sent w hw m (hinbox ▸ hm)
  | reset hc =>
      refine ⟨⟨?_, ?_, ?_⟩, hc.loads.trans h.loads, ?_, ?_, h.sorted, h.sent⟩
      · rw [hc.unpublished]
        exact fun k hk => absurd hk List.not_mem_nil
      · rw [hc.detached]
        exact fun k hk => absurd hk List.not_mem_nil
      · rw [hc.loads, hc.counter]
        exact h.known.loads
      · exact h.workers.trans (by rw [hc.config])
      · exact fun w hw j hj => h.unseen w hw j (hc.counter ▸ hj)
  | worked hw hinbox =>
      have hmem := List.mem_of_getElem? hw
      have hsorted := h.sorted _ hmem
      rw [hinbox] at hsorted
      refine ⟨h.known, h.loads, ?_, forall_set h.unseen ?_, forall_set h.sorted ?_,
        forall_set h.sent ?_⟩
      · rw [List.length_set]
        exact h.workers
      · intro j hj
        obtain ⟨hdue, hload⟩ := h.unseen _ hmem j hj
        have hspec := Worker.execute_spec hinbox (hload _ (hinbox ▸ List.mem_cons_self ..))
        refine ⟨?_, fun m hm => hload m (hinbox ▸ List.mem_cons_of_mem _ hm)⟩
        rw [hspec.2 (by omega), hdue]
      · exact (List.pairwise_cons.mp hsorted).2
      · exact fun m hm => h.sent _ hmem m (hinbox ▸ List.mem_cons_of_mem _ hm)
  | transferred hw hjob =>
      have hmem := List.mem_of_getElem? hw
      have hsorted := h.sorted _ hmem
      have hsent := h.sent _ hmem
      refine ⟨h.known, h.loads, ?_, forall_set h.unseen ?_, forall_set h.sorted hsorted,
        forall_set h.sent hsent⟩
      · rw [List.length_set]
        exact h.workers
      · intro j hj
        obtain ⟨hdue, hload⟩ := h.unseen _ hmem j hj
        exact ⟨(Worker.transferred_spec hjob (by omega)).1.trans hdue, hload⟩

theorem Next.orderly {s s' : Fleet κ σ} {o : Observation} (h : Orderly s) (hnext : Next s o s') :
    Orderly s' :=
  (hnext.move h.known h.loads).orderly h

omit [DecidableEq κ] in
theorem orderly_initial (config : SchedulerOffloadConfig) (offload : OffloadState κ σ) :
    Orderly (initial config offload) := by
  have hworker : ∀ w ∈ (initial config offload).workers, w = {} := fun w hw =>
    List.eq_of_mem_replicate hw
  refine ⟨⟨?_, ?_, ?_⟩, rfl, List.length_replicate, ?_, ?_, ?_⟩
  · exact fun k hk => absurd hk List.not_mem_nil
  · exact fun k hk => absurd hk List.not_mem_nil
  · exact fun k hk => absurd hk List.not_mem_nil
  · intro w hw j _
    rw [hworker w hw]
    exact ⟨rfl, fun m hm => absurd hm List.not_mem_nil⟩
  · intro w hw
    rw [hworker w hw]
    exact List.Pairwise.nil
  · intro w hw m hm
    rw [hworker w hw] at hm
    exact absurd hm List.not_mem_nil

end Fleet

end TokenCake.Offload
