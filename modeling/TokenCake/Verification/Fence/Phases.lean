import TokenCake.Verification.Fence.Moves

/-! # The life of a detached store

A registered store waits for its publication or is lost in a reset. A published one is guarded
at every worker that has not finished it: the steps ahead of the worker hand out none of its
blocks before one of them names it, or the scheduler still watches it. -/

namespace TokenCake.Offload

open TokenCakeOffloadingScheduler

/-! ## Observations -/

namespace Observation

/-- The step that the scheduler sends. -/
def message? : Observation → Option StepMessage
  | .step _ _ _ m => some m
  | _ => none

def Registers (o : Observation) (j : JobId) (S : List BlockId) : Prop :=
  match o with
  | .registered stores => (j, S) ∈ stores
  | .step stores _ _ _ => (j, S) ∈ stores
  | _ => False

def Publishes (o : Observation) (j : JobId) : Prop :=
  ∃ m, o.message? = some m ∧ j ∈ m.metadata.storeJobs.keys

/-- The step hands out the block, as a new block of a scheduled request or to a load. -/
def HandsOut (o : Observation) (b : BlockId) : Prop :=
  ∃ m, o.message? = some m ∧ b ∈ m.handedOut

/-- The job is in the `jobs_to_flush` of the step. -/
def Names (o : Observation) (j : JobId) : Prop :=
  ∃ m, o.message? = some m ∧ j ∈ m.metadata.jobsToFlush

/-- The step schedules no token and allocates no block. -/
def Idle : Observation → Prop
  | .step _ tokens allocated m => tokens = 0 ∧ allocated = [] ∧ m.handedOut = []
  | _ => False

/-- The scheduler processes the report of the job by a worker. -/
def Reports (o : Observation) (w : ℕ) (j : JobId) : Prop :=
  match o with
  | .reported completed => (w, j) ∈ completed
  | _ => False

/-- The worker finishes the job: it waits for it before it executes a step, or the transfer
ends by itself. -/
def Finishes (o : Observation) (w : ℕ) (j : JobId) : Prop :=
  match o with
  | .executed w' _ waited => w' = w ∧ j ∈ waited
  | .transferred w' job => w' = w ∧ job = j
  | _ => False

end Observation

/-! ## Guarded inboxes -/

/-- No step hands out a block of `S` before one names `j`; if none does, `next` holds. -/
def Guarded (j : JobId) (S : List BlockId) (next : Prop) : List StepMessage → Prop
  | [] => next
  | m :: rest => j ∈ m.metadata.jobsToFlush ∨
      ((∀ b ∈ m.handedOut, b ∉ S) ∧ Guarded j S next rest)

theorem Guarded.mono {j : JobId} {S : List BlockId} {next next' : Prop}
    {messages : List StepMessage} (h : Guarded j S next messages) (himp : next → next') :
    Guarded j S next' messages := by
  induction messages with
  | nil => exact himp h
  | cons m rest ih => exact h.imp_right fun hrest => ⟨hrest.1, ih hrest.2⟩

/-- One more step. -/
theorem Guarded.snoc {j : JobId} {S : List BlockId} {next next' : Prop}
    {messages : List StepMessage} {m : StepMessage} (h : Guarded j S next messages)
    (hm : next → j ∈ m.metadata.jobsToFlush ∨ ((∀ b ∈ m.handedOut, b ∉ S) ∧ next')) :
    Guarded j S next' (messages ++ [m]) := by
  induction messages with
  | nil => exact hm h
  | cons m' rest ih => exact h.imp_right fun hrest => ⟨hrest.1, ih hrest.2⟩

namespace Fleet

variable {κ σ : Type}

/-! ## The phases -/

/-- Registered and not yet published. -/
structure Waiting (j : JobId) (S : List BlockId) (s : Fleet κ σ) : Prop where
  tracked : Tracked j S s.scheduler.config.numWorkers s.scheduler
  unpublished : j ∈ s.scheduler.unpublished.keys
  absent : ∀ w ∈ s.workers, w.due j = 0 ∧ w.NoLoad j

/-- Published by the step `p`. -/
structure Sent (j : JobId) (S : List BlockId) (p : ℕ) (s : Fleet κ σ) : Prop where
  below : j < s.scheduler.jobCounter
  unpublished : j ∉ s.scheduler.unpublished.keys
  past : p < s.steps
  once : ∀ w ∈ s.workers, w.due j ≤ 1 ∧ w.NoLoad j
  publisher : ∀ w ∈ s.workers, ∀ m ∈ w.inbox, j ∈ m.metadata.storeJobs.keys → m.index = p
  status : Tracked j S (totalDue s.workers j) s.scheduler ∨ s.scheduler.detached.get? j = none
  guarded : ∀ w ∈ s.workers, w.owed j ≠ 0 → Guarded j S
    (s.scheduler.detached.get? j ≠ none ∨ j ∈ s.scheduler.currentBatchJobsToFlush)
    (w.inbox.filter fun m => decide (p < m.index))

/-- Discarded by a reset before its publication. -/
structure Lost (j : JobId) (s : Fleet κ σ) : Prop where
  below : j < s.scheduler.jobCounter
  unpublished : j ∉ s.scheduler.unpublished.keys
  absent : ∀ w ∈ s.workers, w.due j = 0 ∧ w.NoLoad j

end Fleet

/-! ## What a step does to a job -/

section Performed

variable {κ σ : Type} {c c₁ c₂ : TokenCakeOffloadingScheduler κ σ} {input : ConnectorInput κ}
variable {result : StepResult κ σ} {j : JobId} {S : List BlockId} {n : ℕ}

/-- A tracked job stays tracked. -/
theorem Performed.tracked (h : Performed c c₁ c₂ input result) (htracked : Tracked j S n c₁) :
    Tracked j S n result.connector := by
  have h₂ := htracked.frame h.inStep.frame
  refine ⟨lt_of_lt_of_le h₂.below h.published.counter, ?_, ?_, ?_, ?_⟩
  · rw [show result.connector.detached = c₂.detached from h.published.detached]
    exact h₂.detached
  · rw [h.published.status j h₂.below h₂.isDetached]
    exact h₂.status
  · exact fun b hb => h.published.watched j h₂.below h₂.isDetached b (h₂.watched b hb)
  · rw [show result.connector.currentBatchLoadJobs = .empty from h.published.loads]
    exact List.not_mem_nil

/-- A known job is in the message only if it waited for its publication. -/
theorem Performed.storeJobs (h : Performed c c₁ c₂ input result) (hj : j < c₁.jobCounter) :
    j ∈ result.metadata.storeJobs.keys ↔ j ∈ c₁.unpublished.keys := by
  have hsame := h.inStep.frame.same j (.inl hj)
  exact (h.published.stores j (lt_of_lt_of_le hj h.inStep.frame.counter)).trans
    hsame.mem_unpublished

theorem Performed.loadJobs (h : Performed c c₁ c₂ input result) (hj : j < c₁.jobCounter)
    (hloads : j ∉ c₁.currentBatchLoadJobs.keys) : j ∉ result.metadata.loadJobs.keys := by
  rw [show result.metadata.loadJobs = c₂.currentBatchLoadJobs from h.published.loadJobs]
  exact (h.inStep.frame.same j (.inl hj)).loads hloads

/-- A job that waits for its publication makes the step idle and is not named by it. -/
theorem Performed.idle_of_unpublished (h : Performed c c₁ c₂ input result)
    (hloads : c.currentBatchLoadJobs = .empty) (hj : j ∈ c₁.unpublished.keys) :
    result.totalNumScheduledTokens = 0 ∧ result.allocated = [] ∧
      (∀ i, (⟨i, result.metadata, result.newBlocks⟩ : StepMessage).handedOut = []) ∧
      j ∉ result.metadata.jobsToFlush := by
  have hne := List.ne_nil_of_mem hj
  obtain ⟨hc₂, hscheduled, hallocated⟩ := h.idle hne
  have hpublished := h.published
  rw [hc₂] at hpublished
  refine ⟨h.tokens.trans (hpublished.quiet hne), hallocated, fun i => ?_, hpublished.unnamed j hj⟩
  have hjobs : result.metadata.loadJobs = .empty :=
    (hpublished.loadJobs.trans h.evaluated.loads).trans hloads
  simp only [StepMessage.handedOut, h.newBlocks, hscheduled, hjobs]
  rfl

/-- A published job that is still watched is named before one of its blocks is handed out. -/
theorem Performed.fenced (h : Performed c c₁ c₂ input result) (htracked : Tracked j S n c₁)
    (hj : j ∉ c₁.unpublished.keys) {b : BlockId} (hb : b ∈ S) {i : ℕ}
    (hout : b ∈ (⟨i, result.metadata, result.newBlocks⟩ : StepMessage).handedOut) :
    j ∈ result.metadata.jobsToFlush := by
  have h₂ := htracked.frame h.inStep.frame
  have hunpublished := mt (h.inStep.frame.same j (.inl htracked.below)).mem_unpublished.mp hj
  rw [StepMessage.handedOut, List.mem_append] at hout
  cases hout with
  | inl hnew =>
      have hnew : b ∈ result.newBlocks := hnew
      rw [h.newBlocks, List.mem_flatMap] at hnew
      obtain ⟨r, hr, hbr⟩ := hnew
      exact h.published.fenced r hr b hbr j h₂.below h₂.isDetached hunpublished (h₂.watched b hb)
  | inr hload =>
      rw [show (⟨i, result.metadata, result.newBlocks⟩ : StepMessage).metadata.loadJobs =
        c₂.currentBatchLoadJobs from h.published.loadJobs, List.mem_flatMap] at hload
      obtain ⟨load, hload, hbload⟩ := hload
      exact h.published.flushed j h₂.below hunpublished (h.inStep.fenced load hload b hbload j
        htracked.below htracked.isDetached (htracked.watched b hb))

/-- A job that was to be flushed is named. -/
theorem Performed.named (h : Performed c c₁ c₂ input result) (hbelow : j < c.jobCounter)
    (hunpublished : j ∉ c.unpublished.keys) (hj : j ∈ c.currentBatchJobsToFlush) :
    j ∈ result.metadata.jobsToFlush := by
  have hframe := h.evaluated.frame.trans h.inStep.frame
  have hsame := hframe.same j (.inl hbelow)
  exact h.published.flushed j (lt_of_lt_of_le hbelow hframe.counter)
    (mt hsame.mem_unpublished.mp hunpublished) (hsame.flush hj)

end Performed

end TokenCake.Offload
