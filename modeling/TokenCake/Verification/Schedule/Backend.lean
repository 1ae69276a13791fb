import TokenCake.Lib.Ensures
import TokenCake.Model.Schedule

/-! # What a step does to the state behind the collaborators

`schedule` touches the backend through its collaborators only: what every call preserves, the
step preserves. A step without token budget makes no call after its start. -/

namespace TokenCake.Sched

variable {ω : Type}

/-- Every call that both loops of `schedule` make preserves `P`. -/
structure Collaborators.Preserves (env : Collaborators ω) (P : ω → Prop) : Prop where
  encoder : ∀ s r computed tokens budget, P s.backend →
    P (env.tryScheduleEncoderInputs s r computed tokens budget).2
  canGrow : ∀ s r tokens, P s.backend → P (env.canGrow s r tokens).2
  allocateRunning : ∀ s r tokens, P s.backend → P (env.allocateRunning s r tokens).2
  victimView : ∀ s r tokens, P s.backend → P (env.victimView s r tokens).2
  freePreempted : ∀ s r, P s.backend → P (env.freePreempted s r)
  updateWaitingForRemoteKv : ∀ s r, P s.backend → P (env.updateWaitingForRemoteKv s r).2
  getComputedBlocks : ∀ s r, P s.backend → P (env.getComputedBlocks s r).2
  deferCacheLookup : ∀ s r tokens, P s.backend → P (env.deferCacheLookup s r tokens).2
  getNumNewMatchedTokens : ∀ s r tokens, P s.backend →
    P (env.getNumNewMatchedTokens s r tokens).2
  canAllocate : ∀ s r admission, P s.backend → P (env.canAllocate s r admission).2
  allocateSlots : ∀ s r admission, P s.backend → P (env.allocateSlots s r admission).2

/-- The computation ends in a value satisfying `P` unless it fails. -/
abbrev Partially {α : Type} (P : α → Prop) : Except ScheduleError α → Prop :=
  Ensures (fun _ => True) P

/-- `P` holds behind the step. -/
def Step.Behind (P : ω → Prop) (st : Step ω) : Prop := P st.sched.backend

open Step

theorem Step.behind_withBackend {P : ω → Prop} {backend : ω} (h : P backend) (st : Step ω) :
    (st.withBackend backend).Behind P := h

theorem Step.Behind.visit {P : ω → Prop} {st : Step ω} (h : st.Behind P) (id : String) :
    (visit st id).Behind P := h

theorem partially_lookup (s : Scheduler ω) (id : String) :
    Partially (fun _ => True) (s.lookup id) := by
  rw [Scheduler.lookup]
  split <;> trivial

theorem partially_true {α : Type} (x : Except ScheduleError α) :
    Partially (fun _ => True) x := by
  cases x <;> trivial

section Rule

variable {env : Collaborators ω} {P : ω → Prop} (henv : env.Preserves P)
variable (cfg : SchedulerConfig) (agents : Option Agents)

include henv

/-! ## The running loop -/

omit henv in
theorem backend_preempt (s : Scheduler ω) (policy : SchedulingPolicy) (id : String) :
    Partially (fun s' => s'.backend = s.backend) (s.preempt policy id) := by
  refine Ensures.bind (partially_true _) ?_
  intro r _
  split
  · exact Ensures.ok rfl
  · exact Ensures.error trivial

theorem preemptRequest_behind {st : Step ω} (h : st.Behind P) (id : String) :
    Partially (Behind P) (preemptRequest env cfg st id) := by
  refine Ensures.bind (partially_true _) ?_
  intro r _
  refine Ensures.bind (backend_preempt _ cfg.policy id) ?_
  intro s hs
  apply Ensures.ok
  simp only [Behind, hs]
  exact henv.freePreempted _ _ h

omit henv in
theorem unschedule_behind {st : Step ω} (h : st.Behind P) (plan : EncoderPlan) (id : String)
    (byAgent : Bool) : Partially (fun out => out.1.Behind P) (unschedule env st plan id byAgent) := by
  rw [unschedule]
  split
  · dsimp only
    split
    · split
      · exact Ensures.ok h
      · exact Ensures.error trivial
    · split
      · exact Ensures.ok h
      · exact Ensures.ok h
  · exact Ensures.error trivial

theorem agentVictim_behind {st : Step ω} (h : st.Behind P) (r : Request) (tokens : ℤ)
    (running : List Request) :
    Partially (fun out => out.2.Behind P) (agentVictim env agents st r tokens running) := by
  cases agents with
  | none => exact Ensures.ok h
  | some a =>
      refine Ensures.map (partially_true _) ?_
      intro _ _
      exact henv.victimView _ _ _ h

theorem removeVictim_behind {st : Step ω} (h : st.Behind P) (plan : EncoderPlan) (r : Request)
    (tokens : ℤ) :
    Partially (fun out => out.2.1.Behind P) (removeVictim env cfg agents st plan r tokens) := by
  refine Ensures.bind (partially_true _) ?_
  intro running _
  refine Ensures.bind (agentVictim_behind henv agents h r tokens running) ?_
  rintro ⟨choice, st₁⟩ h₁
  dsimp only at h₁ ⊢
  split
  · exact Ensures.bind (unschedule_behind h₁ plan _ true) fun out hout => Ensures.ok hout
  · split
    · exact Ensures.error trivial
    · exact Ensures.bind (unschedule_behind h₁ plan _ false) fun out hout => Ensures.ok hout
  · split
    · exact Ensures.error trivial
    · exact Ensures.ok h₁

theorem allocateLoop_behind (r : Request) (tokens : ℤ) :
    ∀ (fuel : ℕ) {st : Step ω} (plan : EncoderPlan), st.Behind P →
      Partially (fun out => out.2.1.Behind P)
        (allocateLoop env cfg agents r tokens fuel st plan) := by
  intro fuel
  induction fuel with
  | zero => exact fun _ _ => Ensures.error trivial
  | succ fuel ih =>
      intro st plan h
      rw [allocateLoop]
      have h₁ := henv.allocateRunning st.sched r tokens h
      generalize env.allocateRunning st.sched r tokens = out at h₁
      obtain ⟨fits, backend⟩ := out
      cases fits with
      | true => exact Ensures.ok h₁
      | false =>
          refine Ensures.bind (removeVictim_behind henv cfg agents (behind_withBackend h₁ st) plan r
            tokens) ?_
          rintro ⟨id, st₂, plan₂⟩ h₂
          refine Ensures.bind (preemptRequest_behind henv cfg h₂ id) ?_
          intro st₃ h₃
          dsimp only
          split
          · exact Ensures.ok h₃
          · exact ih plan₂ h₃

theorem planEncoder_behind {st : Step ω} (h : st.Behind P) (r : Request) (computed tokens : ℤ) :
    (planEncoder env st r computed tokens).2.Behind P := by
  rw [planEncoder]
  split
  · exact henv.encoder _ _ _ _ _ h
  · exact h

theorem growth_behind {st : Step ω} (h : st.Behind P) (r : Request) (tokens : ℤ) :
    (growth env agents st r tokens).2.Behind P := by
  cases agents with
  | none => exact h
  | some a => exact henv.canGrow _ _ _ h

theorem runningStep_behind {st : Step ω} (h : st.Behind P) (id : String) :
    Partially (fun out => out.2.Behind P) (runningStep env cfg agents st id) := by
  refine Ensures.bind (partially_lookup st.sched id) ?_
  intro r _
  split
  · exact Ensures.ok h
  · obtain ⟨tokens, limitedPrefill⟩ := runningTokens cfg agents st r
    have h₁ := planEncoder_behind henv h r r.numComputedTokens tokens
    dsimp only
    generalize planEncoder env st r r.numComputedTokens tokens = planned at h₁
    obtain ⟨plan, st₁⟩ := planned
    dsimp only at h₁ ⊢
    split
    · exact Ensures.ok h₁
    · have h₂ := growth_behind henv agents h₁ r (alignMamba env cfg st₁ r plan.numNewTokens)
      generalize growth env agents st₁ r (alignMamba env cfg st₁ r plan.numNewTokens) = grown at h₂
      obtain ⟨mayGrow, st₂⟩ := grown
      dsimp only at h₂ ⊢
      split
      · refine Ensures.bind (allocateLoop_behind henv cfg agents r _ _ plan h₂) ?_
        rintro ⟨allocated, st₃, plan₃⟩ h₃
        cases allocated with
        | true => exact Ensures.ok h₃
        | false => exact Ensures.ok h₃
      · exact Ensures.ok h₂

theorem runningLoop_behind : ∀ (fuel : ℕ) {st : Step ω}, st.Behind P →
    Partially (Behind P) (runningLoop env cfg agents fuel st) := by
  intro fuel
  induction fuel with
  | zero => exact fun _ => Ensures.error trivial
  | succ fuel ih =>
      intro st h
      rw [runningLoop]
      split
      · exact Ensures.ok h
      · split
        · refine Ensures.bind (runningStep_behind henv cfg agents h _) ?_
          rintro ⟨again, st₁⟩ h₁
          cases again with
          | true => exact ih h₁
          | false => exact Ensures.ok h₁
        · exact Ensures.ok h

/-! ## The waiting loop -/

theorem tryPromote_behind {st : Step ω} (h : st.Behind P) (id : String) :
    Partially (fun out => out.2.Behind P) (tryPromote env st id) := by
  refine Ensures.bind (partially_lookup st.sched id) ?_
  intro r _
  split
  · split
    · exact Ensures.ok (henv.updateWaitingForRemoteKv _ _ h)
    · exact Ensures.ok h
  · split
    · exact Ensures.ok h
    · exact Ensures.ok h
  · split
    · exact Ensures.ok h
    · exact Ensures.error trivial
  · exact Ensures.error trivial

theorem unblock_behind {st : Step ω} (h : st.Behind P) (id : String) :
    Partially (fun out => out.2.Behind P) (unblock env st id) := by
  refine Ensures.bind (partially_lookup st.sched id) ?_
  intro r _
  split
  · exact tryPromote_behind henv h id
  · exact Ensures.ok h

omit henv in
theorem removeRequest_backend (s : Scheduler ω) (name : QueueName) (id : String) :
    Partially (fun s' => s'.backend = s.backend) (s.removeRequest name id) := by
  rw [Scheduler.removeRequest]
  split
  · cases name with
    | waiting => exact Ensures.ok rfl
    | skipped => exact Ensures.ok rfl
  · exact Ensures.error trivial

omit henv in
theorem popRequest_backend (s : Scheduler ω) (name : QueueName) :
    Partially (fun s' => s'.backend = s.backend) (s.popRequest name) := by
  rw [Scheduler.popRequest]
  split
  · exact Ensures.error trivial
  · cases name with
    | waiting => exact Ensures.ok rfl
    | skipped => exact Ensures.ok rfl

omit henv in
theorem removeAndSkip_behind {st : Step ω} (h : st.Behind P) (name : QueueName) (id : String) :
    Partially (Behind P) (removeAndSkip cfg st name id) := by
  refine Ensures.bind (removeRequest_backend st.sched name id) ?_
  intro s hs
  apply Ensures.ok
  simp only [Behind, skip, hs]
  exact h

omit henv in
theorem popAndSkip_behind {st : Step ω} (h : st.Behind P) (name : QueueName) (id : String) :
    Partially (Behind P) (popAndSkip cfg st name id) := by
  refine Ensures.bind (popRequest_backend st.sched name) ?_
  intro s hs
  apply Ensures.ok
  simp only [Behind, skip, hs]
  exact h

omit henv in
theorem leaveAndSkip_behind {st : Step ω} (h : st.Behind P) (name : QueueName) (id : String) :
    Partially (Behind P) (leaveAndSkip cfg agents st name id) := by
  rw [leaveAndSkip]
  split
  · exact removeAndSkip_behind cfg h name id
  · exact popAndSkip_behind cfg h name id

theorem checkEligible_behind {st : Step ω} (h : st.Behind P) (candidate best : String) :
    Partially (fun out => out.2.Behind P) (checkEligible env cfg st candidate best) := by
  rw [checkEligible]
  split
  · exact Ensures.ok h
  · refine Ensures.bind (unblock_behind henv h candidate) ?_
    rintro ⟨unblocked, st₁⟩ h₁
    refine Ensures.bind (partially_lookup st₁.sched candidate) ?_
    intro r _
    exact Ensures.ok h₁

theorem screenCandidates_behind (a : Agents) (cacheAgentOrder : Bool) :
    ∀ (candidates : List (String × QueueName)) {st : Step ω} (best : String × QueueName)
      (eligible : List (Request × QueueName)), st.Behind P →
      Partially (fun out => out.1.Behind P)
        (screenCandidates env cfg a cacheAgentOrder candidates st best eligible) := by
  intro candidates
  induction candidates with
  | nil => exact fun _ _ h => Ensures.ok h
  | cons candidate rest ih =>
      intro st best eligible h
      rw [screenCandidates]
      refine Ensures.bind (checkEligible_behind henv cfg h candidate.1 best.1) ?_
      rintro ⟨eligibleNow, st₁⟩ h₁
      cases eligibleNow with
      | false =>
          refine Ensures.bind (removeAndSkip_behind cfg (Behind.visit h₁ _) _ _) ?_
          exact fun st₂ h₂ => ih best eligible h₂
      | true =>
          refine Ensures.bind (partially_lookup st₁.sched candidate.1) ?_
          intro r _
          cases cacheAgentOrder with
          | true => exact ih best _ h₁
          | false =>
              refine Ensures.bind (partially_lookup st₁.sched best.1) ?_
              exact fun current _ => ih _ eligible h₁

theorem screen_behind (a : Agents) (cacheAgentOrder : Bool) {st : Step ω} (h : st.Behind P)
    (peeked : String × QueueName) :
    Partially (fun out => out.1.Behind P) (screen env cfg a cacheAgentOrder st peeked) := by
  rw [screen]
  split
  · exact Ensures.ok h
  · refine Ensures.bind (screenCandidates_behind henv cfg a cacheAgentOrder _ peeked [] h) ?_
    rintro ⟨st₁, best, eligible⟩ h₁
    cases cacheAgentOrder with
    | true => exact Ensures.ok h₁
    | false => exact Ensures.ok h₁

theorem nextAgent_behind (a : Agents) (cacheAgentOrder : Bool) {st : Step ω} (h : st.Behind P)
    (peeked : String × QueueName) :
    Partially (fun out => out.1.Behind P) (nextAgent env cfg a cacheAgentOrder st peeked) := by
  refine Ensures.bind (screen_behind henv cfg a cacheAgentOrder h peeked) ?_
  rintro ⟨st₁, best⟩ h₁
  dsimp only
  split
  · exact Ensures.ok h₁
  · exact Ensures.error trivial
  · exact Ensures.ok h₁

theorem chooseRequest_behind (cacheAgentOrder : Bool) {st : Step ω} (h : st.Behind P)
    (peeked : String × QueueName) :
    Partially (fun out => out.1.Behind P)
      (chooseRequest env cfg agents cacheAgentOrder st peeked) := by
  cases agents with
  | none => exact Ensures.ok h
  | some a =>
      rw [chooseRequest]
      split
      · exact nextAgent_behind henv cfg a cacheAgentOrder h peeked
      · exact Ensures.ok h

theorem lookupCache_behind {st : Step ω} (h : st.Behind P) (r : Request) :
    (lookupCache env cfg agents st r).2.Behind P := by
  have h₁ := henv.getComputedBlocks st.sched r h
  have hmatched : ∀ (s : Scheduler ω) (tokens : ℤ), P s.backend →
      P (env.getNumNewMatchedTokens s r tokens).2 :=
    fun s tokens hs => henv.getNumNewMatchedTokens s r tokens hs
  simp only [lookupCache]
  split
  · split
    · have h₂ := henv.deferCacheLookup (st.withBackend (env.getComputedBlocks st.sched r).2).sched
        r (env.getComputedBlocks st.sched r).1 h₁
      split
      · exact h₂
      · split
        · exact hmatched _ _ h₂
        · exact hmatched _ _ h₂
    · split
      · exact h₁
      · split
        · exact hmatched _ _ h₁
        · exact hmatched _ _ h₁
  · exact h₁

theorem planChunk_behind {st : Step ω} (h : st.Behind P) (r : Request) (computed : ℤ)
    (loadKvAsync : Bool) :
    Partially (fun out => out.2.Behind P) (planChunk env cfg agents st r computed loadKvAsync) := by
  rw [planChunk]
  split
  · dsimp only
    split
    · exact Ensures.ok h
    · exact Ensures.ok h
  · dsimp only
    split
    · exact Ensures.ok h
    · split
      · exact Ensures.error trivial
      · obtain ⟨tokens, limitedPrefill⟩ := limitPrefill cfg agents st r _
        dsimp only
        split
        · exact Ensures.ok h
        · have h₁ := planEncoder_behind henv h r computed tokens
          generalize planEncoder env st r computed tokens = planned at h₁
          obtain ⟨plan, st₁⟩ := planned
          dsimp only at h₁ ⊢
          split
          · exact Ensures.ok h₁
          · split
            · exact Ensures.ok h₁
            · exact Ensures.ok h₁

omit henv in
theorem enterRunning_behind {st : Step ω} (h : st.Behind P) (r : Request) :
    Partially (Behind P) (enterRunning st r) := by
  rw [enterRunning]
  split
  · exact Ensures.ok h
  · exact Ensures.ok h
  · exact Ensures.error trivial

omit henv in
theorem accept_behind {st : Step ω} (h : st.Behind P) (name : QueueName) (r : Request)
    (admission : Admission) (limitedPrefill : Bool) (plan : EncoderPlan) :
    Partially (Behind P) (accept cfg agents st name r admission limitedPrefill plan) := by
  have hdequeue : Partially (Behind P) (dequeue agents st name r.requestId) := by
    rw [dequeue]
    split
    · refine Ensures.map (removeRequest_backend st.sched name r.requestId) ?_
      intro s hs
      simp only [Behind, hs]
      exact h
    · refine Ensures.map (popRequest_backend st.sched name) ?_
      intro s hs
      simp only [Behind, hs]
      exact h
  refine Ensures.bind hdequeue ?_
  intro st₁ h₁
  dsimp only
  split
  · exact Ensures.ok h₁
  · refine Ensures.bind (enterRunning_behind h₁ r) ?_
    intro st₂ h₂
    exact Ensures.ok h₂

theorem permission_behind {st : Step ω} (h : st.Behind P) (r : Request) (admission : Admission) :
    (permission env agents st r admission).2.2.Behind P := by
  cases agents with
  | none => exact h
  | some a => exact henv.canAllocate _ _ _ h

theorem admit_behind {st : Step ω} (h : st.Behind P) (name : QueueName) (r : Request)
    (admission : Admission) (limitedPrefill : Bool) (plan : EncoderPlan) :
    Partially (fun out => out.2.Behind P)
      (admitRequest env cfg agents st name r admission limitedPrefill plan) := by
  rw [admitRequest]
  have h₁ := permission_behind henv agents h r admission
  generalize permission env agents st r admission = permitted at h₁
  obtain ⟨allowed, reserved, st₁⟩ := permitted
  dsimp only at h₁ ⊢
  split
  · have h₂ := henv.allocateSlots st₁.sched r admission h₁
    split
    · refine Ensures.map (accept_behind cfg agents (behind_withBackend h₂ st₁) name r admission
        limitedPrefill plan) ?_
      exact fun st₂ h₂ => h₂
    · exact Ensures.ok h₂
  · refine Ensures.map (P := Behind P) ?_ (fun st₂ h₂ => h₂)
    refine removeAndSkip_behind cfg ?_ name r.requestId
    split
    · exact h₁
    · exact h₁

theorem considerRequest_behind {st : Step ω} (h : st.Behind P) (chosen : String × QueueName) :
    Partially (fun out => out.2.Behind P) (considerRequest env cfg agents st chosen) := by
  rw [considerRequest]
  refine Ensures.bind (partially_lookup _ _) ?_
  intro r _
  have h₁ : ((if r.numComputedTokens = 0 then lookupCache env cfg agents (visit st chosen.1) r
      else (.found 0 0 false, visit st chosen.1)) : CacheLookup × Step ω).2.Behind P := by
    split
    · exact lookupCache_behind henv cfg agents (h.visit chosen.1) r
    · exact h
  generalize (if r.numComputedTokens = 0 then lookupCache env cfg agents (visit st chosen.1) r
    else (.found 0 0 false, visit st chosen.1) : CacheLookup × Step ω) = found at h₁
  obtain ⟨found, st₁⟩ := found
  dsimp only at h₁ ⊢
  split
  · exact Ensures.bind (removeAndSkip_behind cfg h₁ _ _) fun st₂ h₂ => Ensures.ok h₂
  · exact Ensures.bind (leaveAndSkip_behind cfg agents h₁ _ _) fun st₂ h₂ => Ensures.ok h₂
  · next localTokens external loadKvAsync =>
    generalize (if r.numComputedTokens = 0 then localTokens + external
      else r.numComputedTokens) = computed
    split
    · exact Ensures.error trivial
    · refine Ensures.bind (planChunk_behind henv cfg agents h₁ r _ _) ?_
      rintro ⟨chunk, st₂⟩ h₂
      dsimp only at h₂ ⊢
      split
      · exact Ensures.ok h₂
      · exact Ensures.bind (removeAndSkip_behind cfg h₂ _ _) fun st₃ h₃ => Ensures.ok h₃
      · exact admit_behind henv cfg agents h₂ _ r _ _ _

omit henv in
theorem refill_behind {st : Step ω} (h : st.Behind P) : Partially (Behind P) (refill cfg st) := by
  rw [refill]
  split
  · refine Ensures.bind (Ensures.foldlM (I := fun _ => Behind P) ?_ _ st h) ?_
    · intro candidate rest st₁ h₁
      dsimp only
      split
      · exact Ensures.ok h₁
      · exact Ensures.error trivial
    · exact fun st₁ h₁ => Ensures.ok h₁
  · exact Ensures.ok h

theorem waitingStep_behind (cacheAgentOrder : Bool) {st : Step ω} (h : st.Behind P) :
    Partially (fun out => out.2.Behind P) (waitingStep env cfg agents cacheAgentOrder st) := by
  refine Ensures.bind (refill_behind cfg h) ?_
  intro st₁ h₁
  split
  · exact Ensures.error trivial
  · split
    · exact Ensures.error trivial
    · refine Ensures.bind (unblock_behind henv h₁ _) ?_
      rintro ⟨unblocked, st₂⟩ h₂
      cases unblocked with
      | false =>
          refine Ensures.bind (popAndSkip_behind cfg (Behind.visit h₂ _) _ _) ?_
          exact fun st₃ h₃ => Ensures.ok h₃
      | true =>
          refine Ensures.bind (partially_lookup st₂.sched _) ?_
          intro r _
          dsimp only
          split
          · refine Ensures.bind (popAndSkip_behind cfg (Behind.visit h₂ _) _ _) ?_
            exact fun st₃ h₃ => Ensures.ok h₃
          · refine Ensures.bind (chooseRequest_behind henv cfg agents cacheAgentOrder h₂ _) ?_
            rintro ⟨st₃, chosen⟩ h₃
            exact considerRequest_behind henv cfg agents h₃ chosen

theorem waitingLoop_behind (cacheAgentOrder : Bool) : ∀ (fuel : ℕ) {st : Step ω}, st.Behind P →
    Partially (Behind P) (waitingLoop env cfg agents cacheAgentOrder fuel st) := by
  intro fuel
  induction fuel with
  | zero => exact fun _ => Ensures.error trivial
  | succ fuel ih =>
      intro st h
      rw [waitingLoop]
      split
      · exact Ensures.ok h
      · refine Ensures.bind (waitingStep_behind henv cfg agents cacheAgentOrder h) ?_
        rintro ⟨again, st₁⟩ h₁
        cases again with
        | true => exact ih h₁
        | false => exact Ensures.ok h₁

theorem scheduleWaiting_behind {st : Step ω} (h : st.Behind P) :
    Partially (Behind P) (scheduleWaiting env cfg agents st) := by
  rw [scheduleWaiting]
  split
  · exact Ensures.map (waitingLoop_behind henv cfg agents _ _ h) fun st₁ h₁ => h₁
  · exact Ensures.ok h

omit henv in
theorem collectLoras_behind {st : Step ω} (h : st.Behind P) :
    Partially (Behind P) (collectLoras cfg st) := by
  rw [collectLoras]
  split
  · exact Ensures.ok h
  · refine Ensures.bind (partially_true _) ?_
    intro scheduled _
    dsimp only
    split
    · exact Ensures.ok h
    · exact Ensures.error trivial

/-- What every call preserves from the start of the step on, the step preserves. -/
theorem schedule_behind {s : Scheduler ω}
    (hstart : Partially (fun out => out.2.Behind P) (startStep env cfg s)) :
    Partially (Behind P) (schedule env cfg s) := by
  refine Ensures.bind hstart ?_
  rintro ⟨agents, st⟩ h
  refine Ensures.bind (runningLoop_behind henv cfg agents _ h) ?_
  intro st₁ h₁
  refine Ensures.bind (collectLoras_behind cfg h₁) ?_
  intro st₂ h₂
  refine Ensures.bind (scheduleWaiting_behind henv cfg agents h₂) ?_
  intro st₃ h₃
  split
  · exact Ensures.ok h₃
  · exact Ensures.error trivial

end Rule

/-! ## Steps without budget -/

section Idle

variable (env : Collaborators ω) (cfg : SchedulerConfig) (agents : Option Agents)

/-- What the construction of the output reads of a step. -/
def Step.scheduled (st : Step ω) :
    ω × List String × List String × List String × List String × OrdDict String ℤ :=
  (st.sched.backend, st.scheduledNewReqs, st.scheduledResumedReqs, st.scheduledRunningReqs,
    st.preemptedReqs, st.numScheduledTokens)

theorem runningLoop_idle {fuel : ℕ} {st : Step ω} (h : st.tokenBudget ≤ 0) :
    runningLoop env cfg agents (fuel + 1) st = .ok st := by
  rw [runningLoop]
  split
  · rfl
  · rw [if_neg (by omega)]

theorem scheduleWaiting_idle {st : Step ω} (h : st.tokenBudget ≤ 0) :
    Partially (fun st' => st'.scheduled = st.scheduled) (scheduleWaiting env cfg agents st) := by
  rw [scheduleWaiting]
  split
  · dsimp only
    rw [waitingLoop, if_pos (by simp [h])]
    exact Ensures.ok rfl
  · exact Ensures.ok rfl

theorem collectLoras_scheduled (st : Step ω) :
    Partially (fun st' => st'.scheduled = st.scheduled ∧ st'.tokenBudget = st.tokenBudget)
      (collectLoras cfg st) := by
  rw [collectLoras]
  split
  · exact Ensures.ok ⟨rfl, rfl⟩
  · refine Ensures.bind (partially_true _) ?_
    intro scheduled _
    dsimp only
    split
    · exact Ensures.ok ⟨rfl, rfl⟩
    · exact Ensures.error trivial

/-- A step without token budget schedules, preempts and allocates nothing: the calls end with
its start. -/
theorem schedule_idle {s : Scheduler ω} {st : Step ω}
    (hstart : startStep env cfg s = .ok (agents, st)) (hbudget : st.tokenBudget ≤ 0) :
    Partially (fun st' => st'.scheduled = st.scheduled) (schedule env cfg s) := by
  refine Ensures.bind_ok hstart ?_
  refine Ensures.bind_ok (runningLoop_idle env cfg agents hbudget) ?_
  refine Ensures.bind (collectLoras_scheduled cfg st) ?_
  rintro st₁ ⟨h₁, hbudget₁⟩
  refine Ensures.bind (scheduleWaiting_idle env cfg agents (hbudget₁ ▸ hbudget)) ?_
  intro st₂ h₂
  split
  · exact Ensures.ok (h₂.trans h₁)
  · exact Ensures.error trivial

end Idle

end TokenCake.Sched
