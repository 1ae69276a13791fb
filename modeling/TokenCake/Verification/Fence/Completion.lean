import TokenCake.Verification.Fence.Publication

/-! # Reports of completed jobs

A report of a detached job lowers its pending count; the job is forgotten when the count is
used up. -/

namespace TokenCake.Offload.TokenCakeOffloadingScheduler

variable {κ σ : Type} [DecidableEq κ]
variable {c c' : TokenCakeOffloadingScheduler κ σ} {j : JobId} {S : List BlockId} {n : ℕ}

/-- The tracked job after `k` of its `n` missing reports. -/
def Outcome (j : JobId) (S : List BlockId) (n k : ℕ) (c : TokenCakeOffloadingScheduler κ σ) :
    Prop :=
  k ≤ n ∧ if k = 0 ∨ k < n then Tracked j S (n - k) c else c.detached.get? j = none

omit [DecidableEq κ] in
theorem Tracked.sameAt (h : Tracked j S n c) (hsame : SameAt j c c')
    (hcounter : c'.jobCounter = c.jobCounter) : Tracked j S n c' := by
  refine ⟨hcounter ▸ h.below, ?_, ?_, ?_, hsame.loads h.loads⟩
  · rw [hsame.detached]
    exact h.detached
  · rw [hsame.status h.isDetached]
    exact h.status
  · exact fun b hb => hsame.watched h.isDetached b (h.watched b hb)

omit [DecidableEq κ] in
theorem Outcome.sameAt {k : ℕ} (h : Outcome j S n k c) (hsame : SameAt j c c')
    (hcounter : c'.jobCounter = c.jobCounter) : Outcome j S n k c' := by
  refine ⟨h.1, ?_⟩
  have h₂ := h.2
  split at h₂
  · next hk =>
    rw [if_pos hk]
    exact h₂.sameAt hsame hcounter
  · next hk =>
    rw [if_neg hk, hsame.detached]
    exact h₂

/-! ## One report -/

/-- What the report of `job` leaves of the other jobs. -/
structure Reported (job : JobId) (c c' : TokenCakeOffloadingScheduler κ σ) : Prop where
  config : c'.config = c.config
  counter : c'.jobCounter = c.jobCounter
  unpublished : c'.unpublished = c.unpublished
  flush : c'.currentBatchJobsToFlush = c.currentBatchJobsToFlush
  loads : c'.currentBatchLoadJobs = c.currentBatchLoadJobs
  same : ∀ j, j ≠ job → SameAt j c c'
  forgotten : ∀ j, c.detached.get? j = none → c'.detached.get? j = none

/-- A detached job loses as many missing reports as it is reported. -/
theorem completeDetached_spec (c : TokenCakeOffloadingScheduler κ σ) (done : Completion κ)
    (completed : JobId × ℕ) :
    Yields (fun out => Reported completed.1 c out.1 ∧
        (∀ p ∈ out.2.ordinary, p ∈ done.ordinary ∨ c.detached.get? p.1 = none) ∧
        ∀ S n, Tracked completed.1 S n c → Outcome completed.1 S n completed.2 out.1)
      (completeDetached (c, done) completed) := by
  obtain ⟨job, count⟩ := completed
  rw [completeDetached]
  dsimp only
  split
  · next hnone =>
    refine Ensures.ok ⟨⟨rfl, rfl, rfl, rfl, rfl, fun j _ => SameAt.refl j c, fun _ => id⟩, ?_, ?_⟩
    · intro p hp
      cases List.mem_append.mp hp with
      | inl hold => exact .inl hold
      | inr hnew =>
          rw [List.mem_singleton.mp hnew]
          exact .inr hnone
    · exact fun S n htracked => absurd hnone htracked.isDetached
  · next store hstore =>
    split
    · exact Ensures.error trivial
    · next status hstatus =>
      have hcount : ∀ S n, Tracked job S n c → status.pendingCount = n := by
        intro S n htracked
        obtain ⟨status', hstatus', hn⟩ := htracked.status
        rw [hstatus] at hstatus'
        exact (Option.some.inj hstatus') ▸ hn
      split
      · exact Ensures.error trivial
      · next hvalid =>
        rw [not_or] at hvalid
        split
        · next hne =>
          -- some workers have not reported the job yet
          refine Ensures.ok ⟨⟨rfl, rfl, rfl, rfl, rfl, ?_, fun _ => id⟩, fun p hp => .inl hp, ?_⟩
          · intro j hj
            refine ⟨rfl, rfl, id, id, fun _ => ?_, fun _ _ => id⟩
            exact (OrdDict.get?_modify ..).trans (if_neg hj)
          · intro S n htracked
            have hn := hcount S n htracked
            refine ⟨by omega, ?_⟩
            rw [if_pos (by omega)]
            refine ⟨htracked.below, htracked.detached, ?_, htracked.watched, htracked.loads⟩
            refine ⟨{ status with pendingCount := status.pendingCount - count }, ?_, by rw [← hn]⟩
            rw [OrdDict.get?_modify, if_pos rfl, hstatus, Option.map_some]
        · next heq =>
          -- the last report: the job is forgotten
          refine Ensures.bind (run_offload c _) ?_
          rintro c₁ ⟨offload, h₁⟩
          subst h₁
          refine Ensures.bind (removePendingJob_spec _ job store.sourceIds) ?_
          rintro c₂ ⟨⟨pending, h₂⟩, hwatched⟩
          subst h₂
          refine Ensures.ok ⟨⟨rfl, rfl, rfl, rfl, rfl, ?_, ?_⟩, fun p hp => .inl hp, ?_⟩
          · intro j hj
            refine ⟨rfl, ?_, id, id, fun _ => ?_, fun _ b hb => hwatched j b hj hb⟩
            · exact (OrdDict.get?_erase ..).trans (if_neg hj)
            · exact (OrdDict.get?_erase ..).trans (if_neg hj)
          · intro j hj
            rw [OrdDict.get?_erase]
            split
            · rfl
            · exact hj
          · intro S n htracked
            have hn := hcount S n htracked
            refine ⟨by omega, ?_⟩
            rw [if_neg (by omega), OrdDict.get?_erase, if_pos rfl]

/-! ## All reports of an output -/

/-- What a whole output leaves of the connector. -/
structure Settled (c c' : TokenCakeOffloadingScheduler κ σ) : Prop where
  config : c'.config = c.config
  counter : c'.jobCounter = c.jobCounter
  unpublished : ∀ j, c'.unpublished.get? j = c.unpublished.get? j
  flush : ∀ j, j ∈ c.currentBatchJobsToFlush → j ∈ c'.currentBatchJobsToFlush
  loads : ∀ j, j ∉ c.currentBatchLoadJobs.keys → j ∉ c'.currentBatchLoadJobs.keys
  forgotten : ∀ j, c.detached.get? j = none → c'.detached.get? j = none

omit [DecidableEq κ] in
theorem Settled.refl (c : TokenCakeOffloadingScheduler κ σ) : Settled c c :=
  ⟨rfl, rfl, fun _ => rfl, fun _ => id, fun _ => id, fun _ => id⟩

omit [DecidableEq κ] in
theorem Settled.trans {c'' : TokenCakeOffloadingScheduler κ σ} (h : Settled c c')
    (h' : Settled c' c'') : Settled c c'' :=
  ⟨h'.config.trans h.config, h'.counter.trans h.counter,
    fun j => (h'.unpublished j).trans (h.unpublished j), fun j => h'.flush j ∘ h.flush j,
    fun j => h'.loads j ∘ h.loads j, fun j => h'.forgotten j ∘ h.forgotten j⟩

omit [DecidableEq κ] in
theorem Reported.settled {job : JobId} (h : Reported job c c') : Settled c c' :=
  ⟨h.config, h.counter, fun j => by rw [h.unpublished], fun j hj => h.flush ▸ hj,
    fun j hj => h.loads ▸ hj, h.forgotten⟩

omit [DecidableEq κ] in
theorem Steady.settled (h : Steady c c') : Settled c c' :=
  ⟨h.config, h.counter, fun j => (h.same j).unpublished, fun j => (h.same j).flush,
    fun j => (h.same j).loads, fun j hj => (h.same j).detached.trans hj⟩

/-- How often a job is reported. -/
def reports (completed : List (JobId × ℕ)) (j : JobId) : ℕ :=
  ((completed.find? fun e => decide (e.1 = j)).map Prod.snd).getD 0

theorem reports_cons_self (job : JobId) (count : ℕ) (rest : List (JobId × ℕ)) :
    reports ((job, count) :: rest) job = count := by
  simp [reports]

theorem reports_cons_of_ne {job : JobId} (hne : job ≠ j) (count : ℕ) (rest : List (JobId × ℕ)) :
    reports ((job, count) :: rest) j = reports rest j := by
  simp [reports, hne]

theorem completeDetached_foldlM (completed : List (JobId × ℕ))
    (hnodup : (completed.map Prod.fst).Nodup) (c : TokenCakeOffloadingScheduler κ σ) :
    Yields (fun out => Settled c out.1 ∧ (∀ p ∈ out.2.ordinary, out.1.detached.get? p.1 = none) ∧
        ∀ j S n, Tracked j S n c → Outcome j S n (reports completed j) out.1)
      (completed.foldlM completeDetached (c, {})) := by
  have hloop : ∀ (items : List (JobId × ℕ)) (c : TokenCakeOffloadingScheduler κ σ)
      (done : Completion κ), (items.map Prod.fst).Nodup →
      (∀ p ∈ done.ordinary, c.detached.get? p.1 = none) →
      Yields (fun out => Settled c out.1 ∧
          (∀ p ∈ out.2.ordinary, out.1.detached.get? p.1 = none) ∧
          ∀ j S n, (Tracked j S n c → Outcome j S n (reports items j) out.1) ∧
            (j ∉ items.map Prod.fst → SameAt j c out.1))
        (items.foldlM completeDetached (c, done)) := by
    intro items
    induction items with
    | nil =>
        intro c done _ hordinary
        refine Ensures.ok ⟨Settled.refl c, hordinary, fun j S n => ⟨fun h => ?_, fun _ => .refl j c⟩⟩
        exact ⟨Nat.zero_le n, by simpa [reports] using h⟩
    | cons item rest ih =>
        obtain ⟨job, count⟩ := item
        intro c done hnodup hordinary
        rw [List.map_cons, List.nodup_cons] at hnodup
        rw [List.foldlM_cons]
        refine Ensures.bind (completeDetached_spec c done (job, count)) ?_
        rintro ⟨c₁, done₁⟩ ⟨hreported, hordinary₁, houtcome⟩
        have hforgotten : ∀ p ∈ done₁.ordinary, c₁.detached.get? p.1 = none := by
          intro p hp
          refine hreported.forgotten p.1 ?_
          cases hordinary₁ p hp with
          | inl hold => exact hordinary p hold
          | inr hnone => exact hnone
        refine (ih c₁ done₁ hnodup.2 hforgotten).mono ?_
        rintro out ⟨hsettled, hdone, hjobs⟩
        refine ⟨hreported.settled.trans hsettled, hdone, fun j S n => ⟨fun htracked => ?_, ?_⟩⟩
        · by_cases hj : job = j
          · subst hj
            rw [reports_cons_self]
            exact (houtcome S n htracked).sameAt ((hjobs job S n).2 hnodup.1) hsettled.counter
          · rw [reports_cons_of_ne hj]
            exact (hjobs j S n).1 (htracked.sameAt (hreported.same j (Ne.symm hj))
              hreported.counter)
        · intro hj
          rw [List.map_cons, List.mem_cons, not_or] at hj
          exact (hreported.same j hj.1).trans ((hjobs j S n).2 hj.2)
  refine (hloop completed c {} hnodup (fun p hp => absurd hp List.not_mem_nil)).mono ?_
  exact fun out ⟨hsettled, hdone, hjobs⟩ => ⟨hsettled, hdone, fun j S n => (hjobs j S n).1⟩

theorem updateConnectorOutput_spec (c : TokenCakeOffloadingScheduler κ σ) (now : ℚ)
    (retainedAt : String → ℚ)
    (completed : List (JobId × ℕ)) (hnodup : (completed.map Prod.fst).Nodup) :
    Yields (fun c' => Settled c c' ∧
        ∀ j S n, Tracked j S n c → Outcome j S n (reports completed j) c')
      (c.updateConnectorOutput now retainedAt completed) := by
  refine Ensures.bind (completeDetached_foldlM completed hnodup c) ?_
  rintro ⟨c₁, done⟩ ⟨h₁, hordinary, hjobs⟩
  have hnative : Yields (Steady c₁) (done.ordinary.foldlM completeNative c₁) := by
    refine Ensures.mono (Ensures.foldlM (I := fun rest c₂ => Steady c₁ c₂ ∧
      ∀ p ∈ rest, c₁.detached.get? p.1 = none) ?_ done.ordinary c₁
      ⟨Steady.refl c₁, hordinary⟩) fun c₂ h₂ => h₂.1
    rintro p rest c₂ ⟨h₂, hrest⟩
    have hp := ((h₂.same p.1).detached).trans (hrest p (List.mem_cons_self ..))
    refine (steady_completeNative hp).mono ?_
    exact fun c₃ h₃ => ⟨h₂.trans h₃, fun q hq => hrest q (List.mem_cons_of_mem _ hq)⟩
  refine Ensures.bind hnative ?_
  intro c₂ h₂
  refine Ensures.bind (steady_run c₂ _) ?_
  intro c₃ h₃
  refine (steady_foldlM (steady_retainCompleted retainedAt done.keys) _ c₃).mono ?_
  intro c₄ h₄
  have hsteady := (h₂.trans h₃).trans h₄
  refine ⟨h₁.trans hsteady.settled, fun j S n htracked => ?_⟩
  exact (hjobs j S n htracked).sameAt (hsteady.same j) hsteady.counter

end TokenCake.Offload.TokenCakeOffloadingScheduler
