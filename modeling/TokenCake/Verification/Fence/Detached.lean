import TokenCake.Verification.Fence.Phases

/-! # Detached stores are fenced

Each move of the system takes a store from its phase to the same or the next one. What holds
of all runs follows by induction over the run. -/

namespace TokenCake.Offload

open TokenCakeOffloadingScheduler

/-! ## Registration -/

theorem mem_newStores {κ σ : Type} {c c' : TokenCakeOffloadingScheduler κ σ} {j : JobId}
    {S : List BlockId} (h : (j, S) ∈ newStores c c') :
    c.jobCounter ≤ j ∧ ∃ store, c'.detached.get? j = some store ∧ store.sourceIds = S := by
  rw [newStores, List.mem_map] at h
  obtain ⟨⟨k, store⟩, hmem, heq⟩ := h
  obtain ⟨rfl, rfl⟩ := Prod.mk.inj heq
  rw [List.mem_filter] at hmem
  exact ⟨by simpa using hmem.2, store, OrdDict.get?_eq_some_iff.mpr hmem.1, rfl⟩

namespace Fleet

variable {κ σ : Type} {s s' : Fleet κ σ} {o : Observation} {j : JobId} {S : List BlockId} {p : ℕ}

/-! ## Publication -/

/-- A published job that worker `i` has not reported, with its fence in place. -/
structure Live (j : JobId) (S : List BlockId) (p i : ℕ) (s : Fleet κ σ) : Prop where
  sent : Sent j S p s
  detached : s.scheduler.detached.get? j ≠ none
  due : ∃ w, s.workers[i]? = some w ∧ w.due j = 1

/-- The worker `i` has not finished a job that was published. -/
structure Unread (j : JobId) (S : List BlockId) (p i : ℕ) (s : Fleet κ σ) : Prop where
  sent : Sent j S p s
  owed : ∃ w, s.workers[i]? = some w ∧ w.owed j ≠ 0

/-- The move publishes the job: an idle step that does not name it. -/
structure PublishedBy (j : JobId) (S : List BlockId) (s : Fleet κ σ) (o : Observation)
    (s' : Fleet κ σ) : Prop where
  message : ∃ m, o.message? = some m ∧ m.index = s.steps ∧ j ∈ m.metadata.storeJobs.keys
  idle : o.Idle
  unnamed : ¬o.Names j
  live : ∀ i < s'.scheduler.config.numWorkers, Live j S s.steps i s'
  unread : ∀ i < s'.scheduler.config.numWorkers, Unread j S s.steps i s'
  sent : Sent j S s.steps s'

theorem publishedBy_step (h : Orderly s) {c₁ c₂ : TokenCakeOffloadingScheduler κ σ}
    {input : ConnectorInput κ} {result : StepResult κ σ}
    (hstep : Performed s.scheduler c₁ c₂ input result)
    (htracked : Tracked j S s.scheduler.config.numWorkers c₁) (hwaits : j ∈ c₁.unpublished.keys)
    (habsent : ∀ w ∈ s.workers, w.due j = 0 ∧ w.NoLoad j) :
    PublishedBy j S s
      (.step (newStores s.scheduler result.connector) result.totalNumScheduledTokens
        result.allocated ⟨s.steps, result.metadata, result.newBlocks⟩)
      { scheduler := result.connector
        workers := s.workers.map (·.receive ⟨s.steps, result.metadata, result.newBlocks⟩)
        steps := s.steps + 1 } := by
  generalize hm : (⟨s.steps, result.metadata, result.newBlocks⟩ : StepMessage) = m
  have hindex : m.index = s.steps := by rw [← hm]
  have hmeta : m.metadata = result.metadata := by rw [← hm]
  obtain ⟨htokens, hallocated, hout, hunnamed⟩ := hstep.idle_of_unpublished h.loads hwaits
  have hstore : j ∈ m.metadata.storeJobs.keys := by
    rw [hmeta]
    exact (hstep.storeJobs htracked.below).mpr hwaits
  have hcount : m.metadata.storeJobs.keys.count j = 1 :=
    List.count_eq_one_of_mem m.metadata.storeJobs.nodupKeys hstore
  have hafter := hstep.tracked htracked
  have hdue : ∀ w ∈ s.workers, (w.receive m).due j = 1 := by
    intro w hw
    rw [Worker.due_receive, (habsent w hw).1, hcount]
  have howed : ∀ w ∈ s.workers, (w.receive m).owed j = 1 := by
    intro w hw
    have hle := w.owed_le_due j
    have hzero := (habsent w hw).1
    rw [Worker.owed_receive, hcount]
    omega
  have htotal : totalDue (s.workers.map (·.receive m)) j = s.scheduler.config.numWorkers := by
    have hones : s.workers.map ((·.due j) ∘ (·.receive m)) = s.workers.map fun _ => 1 :=
      List.map_congr_left hdue
    rw [totalDue, List.map_map, hones]
    simp [h.workers]
  have hsent : Sent j S s.steps { scheduler := result.connector
                                  workers := s.workers.map (·.receive m)
                                  steps := s.steps + 1 } := by
    refine ⟨hafter.below, ?_, Nat.lt_succ_self _, ?_, ?_, .inl ?_, ?_⟩
    · exact hstep.published.unpublished j
        (.inl (lt_of_lt_of_le htracked.below hstep.inStep.frame.counter))
    · intro w' hw'
      obtain ⟨w, hw, rfl⟩ := List.mem_map.mp hw'
      refine ⟨(hdue w hw).le, fun m' hm' => ?_⟩
      cases List.mem_append.mp hm' with
      | inl hold => exact (habsent w hw).2 m' hold
      | inr hnew =>
          rw [List.mem_singleton.mp hnew, hmeta]
          exact hstep.loadJobs htracked.below htracked.loads
    · intro w' hw' m' hm' hj
      obtain ⟨w, hw, rfl⟩ := List.mem_map.mp hw'
      cases List.mem_append.mp hm' with
      | inl hold =>
          -- an older message with the job would make it due
          have hle := w.owed_le_due j
          have hpos : 0 < w.announced.count j :=
            List.count_pos_iff.mpr (List.mem_flatMap.mpr ⟨m', hold, hj⟩)
          have hzero := (habsent w hw).1
          rw [Worker.owed] at hle
          omega
      | inr hnew => rw [List.mem_singleton.mp hnew, hindex]
    · rw [htotal]
      exact hafter
    · intro w' hw' _
      obtain ⟨w, hw, rfl⟩ := List.mem_map.mp hw'
      have hnone : (w.receive m).inbox.filter (fun m' => decide (s.steps < m'.index)) = [] := by
        rw [List.filter_eq_nil_iff]
        intro m' hm'
        cases List.mem_append.mp hm' with
        | inl hold => simpa using (h.sent w hw m' hold).le
        | inr hnew => simp [List.mem_singleton.mp hnew, hindex]
      rw [hnone]
      exact .inl hafter.isDetached
  have hworker : ∀ i < result.connector.config.numWorkers, ∃ w ∈ s.workers,
      (s.workers.map (·.receive m))[i]? = some (w.receive m) := by
    intro i hi
    have hconfig : result.connector.config = s.scheduler.config :=
      hstep.published.config.trans (hstep.evaluated.frame.trans hstep.inStep.frame).config
    rw [hconfig, ← h.workers] at hi
    exact ⟨s.workers[i], List.getElem_mem hi, by simp [hi]⟩
  refine ⟨⟨m, rfl, hindex, hstore⟩, ⟨htokens, hallocated, hm ▸ hout s.steps⟩, ?_, ?_, ?_, hsent⟩
  · intro hnames
    obtain ⟨m', hm', hj⟩ := hnames
    obtain rfl := Option.some.inj hm'
    rw [hmeta] at hj
    exact hunnamed hj
  · intro i hi
    obtain ⟨w, hw, hget⟩ := hworker i hi
    exact ⟨hsent, hafter.isDetached, w.receive m, hget, hdue w hw⟩
  · intro i hi
    obtain ⟨w, hw, hget⟩ := hworker i hi
    refine ⟨hsent, w.receive m, hget, ?_⟩
    rw [howed w hw]
    exact Nat.one_ne_zero

/-- A registered job waits for its publication, or the step that registered it has published
it. -/
theorem Move.registers (h : Orderly s) (hmove : Move s o s') (hreg : o.Registers j S) :
    (Waiting j S s' ∧ o.message? = none) ∨ PublishedBy j S s o s' := by
  cases hmove with
  | steady _ => exact hreg.elim
  | @evaluated c hc =>
      obtain ⟨hj, store, hstore, rfl⟩ := mem_newStores hreg
      obtain ⟨htracked, hwaits⟩ := hc.registered j hj store hstore
      exact .inl ⟨⟨htracked, hwaits, fun w hw => h.unseen w hw j hj⟩, rfl⟩
  | @stepped c₁ c₂ input result hc =>
      obtain ⟨hj, store, hstore, rfl⟩ := mem_newStores hreg
      have hsame : result.connector.detached = c₁.detached :=
        Eq.trans hc.published.detached hc.inStep.detached
      rw [hsame] at hstore
      obtain ⟨htracked, hwaits⟩ := hc.evaluated.registered j hj store hstore
      rw [hc.evaluated.frame.config] at htracked
      exact .inr (publishedBy_step h hc htracked hwaits fun w hw => h.unseen w hw j hj)
  | updated _ _ _ => exact hreg.elim
  | reset _ => exact hreg.elim
  | worked _ _ => exact hreg.elim
  | transferred _ _ => exact hreg.elim

/-! ## Waiting and lost jobs -/

theorem absent_receive {workers : List Worker} {m : StepMessage}
    (habsent : ∀ w ∈ workers, w.due j = 0 ∧ w.NoLoad j)
    (hstores : j ∉ m.metadata.storeJobs.keys) (hloads : j ∉ m.metadata.loadJobs.keys) :
    ∀ w ∈ workers.map (·.receive m), w.due j = 0 ∧ w.NoLoad j := by
  intro w' hw'
  obtain ⟨w, hw, rfl⟩ := List.mem_map.mp hw'
  refine ⟨?_, fun m' hm' => ?_⟩
  · rw [Worker.due_receive, (habsent w hw).1, List.count_eq_zero.mpr hstores]
  · cases List.mem_append.mp hm' with
    | inl hold => exact (habsent w hw).2 m' hold
    | inr hnew =>
        rw [List.mem_singleton.mp hnew]
        exact hloads

theorem absent_taken {workers workers' : List Worker} {reports : List (ℕ × List JobId)}
    (htaken : Taken workers workers' reports)
    (habsent : ∀ w ∈ workers, w.due j = 0 ∧ w.NoLoad j) :
    ∀ w ∈ workers', w.due j = 0 ∧ w.NoLoad j := by
  intro w' hw'
  obtain ⟨i, hi⟩ := List.mem_iff_getElem?.mp hw'
  obtain ⟨w, hw, htook, hdue⟩ := htaken.each i w' hi
  obtain ⟨hzero, hload⟩ := habsent w (List.mem_of_getElem? hw)
  have hj := hdue j
  exact ⟨by omega, fun m hm => hload m (htook.inbox ▸ hm)⟩

theorem absent_worked {w : Worker} {m : StepMessage} {rest : List StepMessage}
    (hinbox : w.inbox = m :: rest) (h : w.due j = 0 ∧ w.NoLoad j) :
    ({ w with inbox := rest }.execute m).1.due j = 0 ∧
      ({ w with inbox := rest }.execute m).1.NoLoad j := by
  have hspec := Worker.execute_spec hinbox (h.2 m (hinbox ▸ List.mem_cons_self ..))
  refine ⟨(hspec.2 (by omega)).trans h.1, fun m' hm' => ?_⟩
  exact h.2 m' (hinbox ▸ List.mem_cons_of_mem _ hm')

theorem absent_transferred {w : Worker} {job : JobId} (hjob : job ∈ w.inFlight)
    (h : w.due j = 0 ∧ w.NoLoad j) :
    (w.transferred job).due j = 0 ∧ (w.transferred job).NoLoad j :=
  ⟨(Worker.transferred_spec hjob (by omega)).1.trans h.1, h.2⟩

/-- A lost job stays lost. -/
theorem Lost.move (h : Lost j s) (horderly : Orderly s) (hmove : Move s o s') :
    Lost j s' ∧ ¬o.Publishes j := by
  have hquiet : o.message? = none → ¬o.Publishes j := by
    intro hnone hpublishes
    obtain ⟨m, hm, -⟩ := hpublishes
    rw [hnone] at hm
    cases hm
  cases hmove with
  | steady hc =>
      refine ⟨⟨?_, ?_, h.absent⟩, hquiet rfl⟩
      · exact lt_of_lt_of_le h.below hc.counter.ge
      · exact mt (hc.same j).mem_unpublished.mp h.unpublished
  | evaluated hc =>
      refine ⟨⟨lt_of_lt_of_le h.below hc.frame.counter, ?_, h.absent⟩, hquiet rfl⟩
      exact mt (hc.frame.same j (.inl h.below)).mem_unpublished.mp h.unpublished
  | @stepped c₁ c₂ input result hc =>
      have hbelow := lt_of_lt_of_le h.below hc.evaluated.frame.counter
      have hunpublished := mt (hc.evaluated.frame.same j (.inl h.below)).mem_unpublished.mp
        h.unpublished
      have hstores := mt (hc.storeJobs hbelow).mp hunpublished
      have hnoLoad : j ∉ c₁.currentBatchLoadJobs.keys := by
        rw [hc.evaluated.loads, horderly.loads]
        exact List.not_mem_nil
      have hbelow₂ := lt_of_lt_of_le hbelow hc.inStep.frame.counter
      refine ⟨⟨lt_of_lt_of_le hbelow₂ hc.published.counter, ?_, ?_⟩, ?_⟩
      · exact hc.published.unpublished j (.inl hbelow₂)
      · exact absent_receive h.absent hstores (hc.loadJobs hbelow hnoLoad)
      · intro hpublishes
        obtain ⟨m, hm, hj⟩ := hpublishes
        obtain rfl := Option.some.inj hm
        exact hstores hj
  | updated htaken hsettled _ =>
      refine ⟨⟨hsettled.counter ▸ h.below, ?_, absent_taken htaken h.absent⟩, hquiet rfl⟩
      rw [OrdDict.mem_keys_iff, hsettled.unpublished, ← OrdDict.mem_keys_iff]
      exact h.unpublished
  | reset hc =>
      refine ⟨⟨hc.counter ▸ h.below, ?_, h.absent⟩, hquiet rfl⟩
      rw [hc.unpublished]
      exact List.not_mem_nil
  | worked hw hinbox =>
      refine ⟨⟨h.below, h.unpublished, forall_set h.absent ?_⟩, hquiet rfl⟩
      exact absent_worked hinbox (h.absent _ (List.mem_of_getElem? hw))
  | transferred hw hjob =>
      refine ⟨⟨h.below, h.unpublished, forall_set h.absent ?_⟩, hquiet rfl⟩
      exact absent_transferred hjob (h.absent _ (List.mem_of_getElem? hw))

/-- A waiting job keeps waiting while no step is sent; the next step publishes it unless a reset
discards it before. -/
theorem Waiting.move (h : Waiting j S s) (horderly : Orderly s) (hmove : Move s o s') :
    (Waiting j S s' ∧ o.message? = none) ∨ PublishedBy j S s o s' ∨
      (Lost j s' ∧ o.message? = none) := by
  have hbelow := h.tracked.below
  cases hmove with
  | steady hc =>
      refine .inl ⟨⟨?_, (hc.same j).mem_unpublished.mpr h.unpublished, h.absent⟩, rfl⟩
      rw [hc.config]
      exact h.tracked.frame hc.frame
  | evaluated hc =>
      refine .inl ⟨⟨?_, ?_, h.absent⟩, rfl⟩
      · rw [hc.frame.config]
        exact h.tracked.frame hc.frame
      · exact (hc.frame.same j (.inl hbelow)).mem_unpublished.mpr h.unpublished
  | stepped hc =>
      refine .inr (.inl (publishedBy_step horderly hc (h.tracked.frame hc.evaluated.frame) ?_
        h.absent))
      exact (hc.evaluated.frame.same j (.inl hbelow)).mem_unpublished.mpr h.unpublished
  | @updated workers reports c htaken hsettled houtcome =>
      have habsent := absent_taken htaken h.absent
      -- no worker knows the job, so no report names it
      have hnone : ∀ ws : List Worker, (∀ w ∈ ws, w.due j = 0 ∧ w.NoLoad j) →
          totalDue ws j = 0 := by
        intro ws hws
        rw [totalDue, List.sum_eq_zero_iff]
        intro n hn
        obtain ⟨w, hw, rfl⟩ := List.mem_map.mp hn
        exact (hws w hw).1
      have htotal := htaken.total j
      rw [hnone _ h.absent, hnone _ habsent] at htotal
      have hzero : (reports.map Prod.snd).flatten.count j = 0 := by omega
      have houtcome := (houtcome j S _ h.tracked).2
      rw [hzero, if_pos (.inl rfl), Nat.sub_zero] at houtcome
      refine .inl ⟨⟨?_, ?_, habsent⟩, rfl⟩
      · rw [hsettled.config]
        exact houtcome
      · rw [OrdDict.mem_keys_iff, hsettled.unpublished, ← OrdDict.mem_keys_iff]
        exact h.unpublished
  | reset hc =>
      refine .inr (.inr ⟨⟨hc.counter ▸ hbelow, ?_, h.absent⟩, rfl⟩)
      rw [hc.unpublished]
      exact List.not_mem_nil
  | worked hw hinbox =>
      refine .inl ⟨⟨h.tracked, h.unpublished, forall_set h.absent ?_⟩, rfl⟩
      exact absent_worked hinbox (h.absent _ (List.mem_of_getElem? hw))
  | transferred hw hjob =>
      refine .inl ⟨⟨h.tracked, h.unpublished, forall_set h.absent ?_⟩, rfl⟩
      exact absent_transferred hjob (h.absent _ (List.mem_of_getElem? hw))

/-! ## Published jobs -/

/-- The stores that a step announces to a worker are those of the message that published the
job. -/
theorem Sent.announced_eq_zero (h : Sent j S p s) (horderly : Orderly s) {w : Worker}
    (hw : w ∈ s.workers) {m : StepMessage} {rest : List StepMessage}
    (hinbox : w.inbox = m :: rest) (hm : p < m.index) : w.announced.count j = 0 := by
  refine List.count_eq_zero.mpr fun hmem => ?_
  obtain ⟨m', hm', hj⟩ := List.mem_flatMap.mp hmem
  have hindex := h.publisher w hw m' hm' hj
  have hsorted := horderly.sorted w hw
  rw [hinbox] at hm' hsorted
  cases List.mem_cons.mp hm' with
  | inl heq =>
      rw [heq] at hindex
      omega
  | inr hrest =>
      have := (List.pairwise_cons.mp hsorted).1 m' hrest
      omega

/-- A worker that has to flush the job before a later step has finished it with the step. -/
theorem Sent.waits (h : Sent j S p s) (horderly : Orderly s) {w : Worker} (hw : w ∈ s.workers)
    {m : StepMessage} {rest : List StepMessage} (hinbox : w.inbox = m :: rest) (hm : p < m.index)
    (hnamed : j ∈ m.metadata.jobsToFlush) (howed : w.owed j ≠ 0) :
    j ∈ ({ w with inbox := rest }.execute m).2 := by
  have hzero := h.announced_eq_zero horderly hw hinbox hm
  have hpos : 0 < (w.inFlight ++ w.unsubmittedStoreJobs).count j := by
    rw [List.count_append]
    rw [Worker.owed] at howed
    omega
  exact List.mem_filter.mpr ⟨List.count_pos_iff.mp hpos, by simpa using hnamed⟩

/-- The guard of a worker after it has executed a step. -/
theorem Sent.guarded_worked (h : Sent j S p s) (horderly : Orderly s) {w : Worker}
    (hw : w ∈ s.workers) {m : StepMessage} {rest : List StepMessage}
    (hinbox : w.inbox = m :: rest) (howed : ({ w with inbox := rest }.execute m).1.owed j ≠ 0) :
    Guarded j S
      (s.scheduler.detached.get? j ≠ none ∨ j ∈ s.scheduler.currentBatchJobsToFlush)
      (rest.filter fun m => decide (p < m.index)) := by
  have hload := (h.once w hw).2 m (hinbox ▸ List.mem_cons_self ..)
  obtain ⟨howes, -⟩ := Worker.execute_spec hinbox hload
  have hbefore : w.owed j ≠ 0 := by omega
  have hguard := h.guarded w hw hbefore
  rw [hinbox] at hguard
  by_cases hm : p < m.index
  · rw [List.filter_cons_of_pos (by simpa using hm)] at hguard
    cases hguard with
    | inl hnamed =>
        have hwaited := List.count_pos_iff.mpr (h.waits horderly hw hinbox hm hnamed hbefore)
        have honce := (h.once w hw).1
        have hle := w.owed_le_due j
        omega
    | inr hrest => exact hrest.2
  · rwa [List.filter_cons_of_neg (by simpa using hm)] at hguard

theorem Sent.stepped (h : Sent j S p s) (horderly : Orderly s)
    {c₁ c₂ : TokenCakeOffloadingScheduler κ σ} {input : ConnectorInput κ}
    {result : StepResult κ σ} (hc : Performed s.scheduler c₁ c₂ input result) :
    Sent j S p
      { scheduler := result.connector
        workers := s.workers.map (·.receive ⟨s.steps, result.metadata, result.newBlocks⟩)
        steps := s.steps + 1 } ∧ j ∉ result.metadata.storeJobs.keys := by
  generalize hm : (⟨s.steps, result.metadata, result.newBlocks⟩ : StepMessage) = m
  have hindex : m.index = s.steps := by rw [← hm]
  have hmeta : m.metadata = result.metadata := by rw [← hm]
  have hsame := hc.evaluated.frame.same j (.inl h.below)
  have hbelow := lt_of_lt_of_le h.below hc.evaluated.frame.counter
  have hbelow₂ := lt_of_lt_of_le hbelow hc.inStep.frame.counter
  have hunpublished := mt hsame.mem_unpublished.mp h.unpublished
  have hstores := mt (hc.storeJobs hbelow).mp hunpublished
  have hnoLoad : j ∉ result.metadata.loadJobs.keys := by
    refine hc.loadJobs hbelow ?_
    rw [hc.evaluated.loads, horderly.loads]
    exact List.not_mem_nil
  have hdue : ∀ w : Worker, (w.receive m).due j = w.due j := by
    intro w
    rw [Worker.due_receive, hmeta, List.count_eq_zero.mpr hstores, Nat.add_zero]
  have hdetached : result.connector.detached.get? j = s.scheduler.detached.get? j := by
    rw [show result.connector.detached = c₁.detached from
      Eq.trans hc.published.detached hc.inStep.detached]
    exact hsame.detached
  refine ⟨⟨lt_of_lt_of_le hbelow₂ hc.published.counter, ?_, Nat.lt_succ_of_lt h.past, ?_, ?_, ?_,
    ?_⟩, hstores⟩
  · exact hc.published.unpublished j (.inl hbelow₂)
  · intro w' hw'
    obtain ⟨w, hw, rfl⟩ := List.mem_map.mp hw'
    rw [hdue]
    refine ⟨(h.once w hw).1, fun m' hm' => ?_⟩
    cases List.mem_append.mp hm' with
    | inl hold => exact (h.once w hw).2 m' hold
    | inr hnew =>
        rw [List.mem_singleton.mp hnew, hmeta]
        exact hnoLoad
  · intro w' hw' m' hm' hj
    obtain ⟨w, hw, rfl⟩ := List.mem_map.mp hw'
    cases List.mem_append.mp hm' with
    | inl hold => exact h.publisher w hw m' hold hj
    | inr hnew =>
        rw [List.mem_singleton.mp hnew, hmeta] at hj
        exact absurd hj hstores
  · have htotal : totalDue (s.workers.map (·.receive m)) j = totalDue s.workers j := by
      rw [totalDue, List.map_map, totalDue]
      exact congrArg List.sum (List.map_congr_left fun w _ => hdue w)
    rw [htotal]
    refine h.status.imp (fun htracked => ?_) fun hnone => hdetached.trans hnone
    exact hc.tracked (htracked.frame hc.evaluated.frame)
  · intro w' hw' howed
    obtain ⟨w, hw, rfl⟩ := List.mem_map.mp hw'
    rw [Worker.owed_receive, hmeta, List.count_eq_zero.mpr hstores, Nat.add_zero] at howed
    have hlast : (w.receive m).inbox.filter (fun m' => decide (p < m'.index)) =
        w.inbox.filter (fun m' => decide (p < m'.index)) ++ [m] := by
      rw [Worker.receive, List.filter_append, List.filter_cons_of_pos, List.filter_nil]
      simpa [hindex] using h.past
    rw [hlast]
    refine (h.guarded w hw howed).snoc fun hnext => ?_
    cases hnext with
    | inl hlive =>
        have htracked := h.status.resolve_right hlive
        by_cases hout : ∃ b ∈ m.handedOut, b ∈ S
        · obtain ⟨b, hb, hbS⟩ := hout
          rw [← hm] at hb
          refine .inl ?_
          rw [hmeta]
          exact hc.fenced (htracked.frame hc.evaluated.frame) hunpublished hbS hb
        · refine .inr ⟨fun b hb hbS => hout ⟨b, hb, hbS⟩, .inl ?_⟩
          rw [hdetached]
          exact hlive
    | inr hflush =>
        refine .inl ?_
        rw [hmeta]
        exact hc.named h.below h.unpublished hflush

/-- The reports that the scheduler processes. -/
theorem Sent.updated (h : Sent j S p s) {workers : List Worker}
    {reports : List (ℕ × List JobId)} {c : TokenCakeOffloadingScheduler κ σ}
    (htaken : Taken s.workers workers reports) (hsettled : Settled s.scheduler c)
    (houtcome : ∀ j S n, Tracked j S n s.scheduler →
      Outcome j S n ((reports.map Prod.snd).flatten.count j) c) :
    Sent j S p { s with scheduler := c, workers := workers } := by
  have heach : ∀ w' ∈ workers, ∃ w ∈ s.workers, Took w w' ∧ w'.due j ≤ w.due j := by
    intro w' hw'
    obtain ⟨i, hi⟩ := List.mem_iff_getElem?.mp hw'
    obtain ⟨w, hw, htook, hdue⟩ := htaken.each i w' hi
    have hj := hdue j
    exact ⟨w, List.mem_of_getElem? hw, htook, by omega⟩
  have htotal := htaken.total j
  have hstatus : Tracked j S (totalDue workers j) c ∨
      (c.detached.get? j = none ∧ (s.scheduler.detached.get? j = none ∨ totalDue workers j = 0)) := by
    cases h.status with
    | inr hnone => exact .inr ⟨hsettled.forgotten j hnone, .inl hnone⟩
    | inl htracked =>
        obtain ⟨hle, hcase⟩ := houtcome j S _ htracked
        split at hcase
        · have heq : totalDue workers j =
              totalDue s.workers j - (reports.map Prod.snd).flatten.count j := by omega
          rw [heq]
          exact .inl hcase
        · exact .inr ⟨hcase, .inr (by omega)⟩
  refine ⟨hsettled.counter ▸ h.below, ?_, h.past, ?_, ?_, hstatus.imp_right And.left, ?_⟩
  · rw [OrdDict.mem_keys_iff, hsettled.unpublished, ← OrdDict.mem_keys_iff]
    exact h.unpublished
  · intro w' hw'
    obtain ⟨w, hw, htook, hdue⟩ := heach w' hw'
    exact ⟨hdue.trans (h.once w hw).1, fun m hm => (h.once w hw).2 m (htook.inbox ▸ hm)⟩
  · intro w' hw' m hm
    obtain ⟨w, hw, htook, -⟩ := heach w' hw'
    exact h.publisher w hw m (htook.inbox ▸ hm)
  · intro w' hw' howed
    obtain ⟨w, hw, htook, -⟩ := heach w' hw'
    have hguard := h.guarded w hw (by rwa [htook.owed] at howed)
    rw [htook.inbox]
    refine hguard.mono ?_
    cases hstatus with
    | inl htracked => exact fun _ => .inl htracked.isDetached
    | inr hgone =>
        intro hnext
        cases hnext with
        | inr hflush => exact .inr (hsettled.flush j hflush)
        | inl hlive =>
            -- the last report of the job: this worker would not owe it any more
            have hzero := hgone.2.resolve_left hlive
            rw [totalDue, List.sum_eq_zero_iff] at hzero
            have := hzero _ (List.mem_map_of_mem hw')
            have := w'.owed_le_due j
            omega

theorem Sent.reset (h : Sent j S p s) {c : TokenCakeOffloadingScheduler κ σ}
    (hc : ResetTo s.scheduler c) : Sent j S p { s with scheduler := c } := by
  have hnone : c.detached.get? j = none := by
    rw [hc.detached]
    rfl
  refine ⟨hc.counter ▸ h.below, ?_, h.past, h.once, h.publisher, .inr hnone, ?_⟩
  · rw [hc.unpublished]
    exact List.not_mem_nil
  · intro w hw howed
    refine (h.guarded w hw howed).mono fun hnext => .inr ?_
    cases hnext with
    | inl hlive =>
        obtain ⟨status, hstatus, -⟩ := (h.status.resolve_right hlive).status
        exact hc.flush j (OrdDict.mem_keys_iff.mpr ⟨status, hstatus⟩) h.unpublished
    | inr hflush =>
        rw [hc.noFlush] at hflush
        exact absurd hflush List.not_mem_nil

theorem Sent.worked (h : Sent j S p s) (horderly : Orderly s) {i : ℕ} {w : Worker}
    {m : StepMessage} {rest : List StepMessage} (hw : s.workers[i]? = some w)
    (hinbox : w.inbox = m :: rest) :
    Sent j S p { s with workers := s.workers.set i ({ w with inbox := rest }.execute m).1 } := by
  have hmem := List.mem_of_getElem? hw
  obtain ⟨honce, hload⟩ := h.once w hmem
  obtain ⟨-, hdue⟩ := Worker.execute_spec hinbox (hload m (hinbox ▸ List.mem_cons_self ..))
  have hdue := hdue honce
  refine ⟨h.below, h.unpublished, h.past, forall_set h.once ?_, forall_set h.publisher ?_, ?_,
    forall_set h.guarded (h.guarded_worked horderly hmem hinbox)⟩
  · exact ⟨hdue ▸ honce, fun m' hm' => hload m' (hinbox ▸ List.mem_cons_of_mem _ hm')⟩
  · exact fun m' hm' => h.publisher w hmem m' (hinbox ▸ List.mem_cons_of_mem _ hm')
  · have hsum := sum_map_set (·.due j) hw ({ w with inbox := rest }.execute m).1
    have htotal : totalDue (s.workers.set i ({ w with inbox := rest }.execute m).1) j =
        totalDue s.workers j := by
      simp only [totalDue]
      omega
    rw [htotal]
    exact h.status

theorem Sent.transferred (h : Sent j S p s) {i : ℕ} {w : Worker} {job : JobId}
    (hw : s.workers[i]? = some w) (hjob : job ∈ w.inFlight) :
    Sent j S p { s with workers := s.workers.set i (w.transferred job) } := by
  have hmem := List.mem_of_getElem? hw
  obtain ⟨honce, hload⟩ := h.once w hmem
  obtain ⟨hdue, howed, -⟩ := Worker.transferred_spec hjob honce
  have hpublisher := h.publisher w hmem
  refine ⟨h.below, h.unpublished, h.past, forall_set h.once ⟨hdue ▸ honce, hload⟩,
    forall_set h.publisher hpublisher, ?_, forall_set h.guarded ?_⟩
  · have hsum := sum_map_set (·.due j) hw (w.transferred job)
    have htotal : totalDue (s.workers.set i (w.transferred job)) j = totalDue s.workers j := by
      simp only [totalDue]
      omega
    rw [htotal]
    exact h.status
  · intro hne
    exact h.guarded w hmem (by omega)

/-- A published job stays published and is not published again. -/
theorem Sent.move (h : Sent j S p s) (horderly : Orderly s) (hmove : Move s o s') :
    Sent j S p s' ∧ ¬o.Publishes j := by
  have hquiet : o.message? = none → ¬o.Publishes j := by
    intro hnone hpublishes
    obtain ⟨m, hm, -⟩ := hpublishes
    rw [hnone] at hm
    cases hm
  have hframe : ∀ c : TokenCakeOffloadingScheduler κ σ, Frame s.scheduler c →
      Sent j S p { s with scheduler := c } := by
    intro c hc
    have hsame := hc.same j (.inl h.below)
    refine ⟨lt_of_lt_of_le h.below hc.counter, mt hsame.mem_unpublished.mp h.unpublished, h.past,
      h.once, h.publisher, ?_, ?_⟩
    · exact h.status.imp (fun htracked => htracked.frame hc) hsame.detached.trans
    · intro w hw howed
      refine (h.guarded w hw howed).mono ?_
      rw [← hsame.detached]
      exact Or.imp_right hsame.flush
  cases hmove with
  | steady hc => exact ⟨hframe _ hc.frame, hquiet rfl⟩
  | evaluated hc => exact ⟨hframe _ hc.frame, hquiet rfl⟩
  | stepped hc =>
      obtain ⟨hsent, hstores⟩ := h.stepped horderly hc
      refine ⟨hsent, fun hpublishes => ?_⟩
      obtain ⟨m, hm, hj⟩ := hpublishes
      obtain rfl := Option.some.inj hm
      exact hstores hj
  | updated htaken hsettled houtcome => exact ⟨h.updated htaken hsettled houtcome, hquiet rfl⟩
  | reset hc => exact ⟨h.reset hc, hquiet rfl⟩
  | worked hw hinbox => exact ⟨h.worked horderly hw hinbox, hquiet rfl⟩
  | transferred hw hjob => exact ⟨h.transferred hw hjob, hquiet rfl⟩

end Fleet

end TokenCake.Offload
