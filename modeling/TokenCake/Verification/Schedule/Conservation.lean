import TokenCake.Verification.Schedule.Waiting

/-! # `schedule` conserves requests

The two loops assembled: whatever the collaborators answer, `schedule` neither loses nor
duplicates a request, its queue operations never fail and its loops end. -/

namespace TokenCake.Sched

variable {ω : Type}

open Step

/-! ## Admission -/

section Admit

variable {s₀ : Scheduler ω} (hs₀ : s₀.Partition)
variable (env : Collaborators ω) (cfg : SchedulerConfig) (agents : Option Agents)
variable {st : Step ω} {id : String} {name : QueueName}

theorem dequeue_spec (hid : id ∈ st.sched.queue name)
    (hhead : agents = none → (st.sched.queue name).head? = some id) :
    Checked (fun st' => st.places.Takes id name st'.places ∧
      Scheduler.Keeps st.sched st'.sched) (dequeue agents st name id) := by
  have htakes := tagged_erase hid
  cases agents with
  | none =>
      simp only [dequeue, Option.isSome_none, Bool.false_eq_true, if_false,
        popRequest_eq (hhead rfl)]
      exact Ensures.ok ⟨htakes, setQueue_keeps _ _ _⟩
  | some a =>
      simp only [dequeue, Option.isSome_some, if_true, removeRequest_eq hid]
      exact Ensures.ok ⟨htakes, setQueue_keeps _ _ _⟩

theorem leaveAndSkip_spec (hid : id ∈ st.sched.queue name)
    (hhead : agents = none → (st.sched.queue name).head? = some id) :
    Checked (Step.Leaves st id name) (leaveAndSkip cfg agents st name id) := by
  cases agents with
  | none => exact popAndSkip_spec cfg (hhead rfl)
  | some a => exact (removeAndSkip_spec cfg hid).mono fun st' h => h.1

/-- Writing an unfinished status that agrees with the running list. -/
theorem keeps_setRequest_of_unfinished {s s' : Scheduler ω} (hs₀ : s₀.Partition)
    (hs : Scheduler.Keeps s₀ s) (hid : id ∈ s₀.placed) (hrequests : s'.requests = s.requests)
    (hrunning : ∀ x, x ≠ id → (x ∈ s'.running ↔ x ∈ s.running)) {f : Request → Request}
    (hkey : ∀ r, (f r).requestId = r.requestId) (hf : ∀ r, (f r).isFinished = false)
    (hmark : ∀ r, (f r).status = .running ↔ id ∈ s'.running) :
    Scheduler.Keeps s (s'.setRequest id f) := by
  have hget : ∀ k, s'.requests.get? k = s.requests.get? k := fun k => by rw [hrequests]
  constructor
  · intro k
    rw [← hget]
    refine Scheduler.sameRequests_setRequest s' id ?_ k
    intro r hr
    obtain ⟨r', hr', -, -, hfin⟩ := hs.1.lookup hs₀ hid
    obtain rfl : r = r' := by simpa [← hget, hr] using hr'
    simp [Request.identity, hkey, hf, hfin]
  · intro hm
    refine Scheduler.runningMarked_setRequest ?_ fun r _ => hmark r
    intro k r hne hr
    rw [hrunning k hne]
    exact hm k r (hget k ▸ hr)

theorem enterRunning_spec (st : Step ω) (r : Request) :
    Checked (fun st' => st'.places =
        { st.places with running := st.places.running ++ [r.requestId] } ∧
      st'.sched.requests = st.sched.requests) (enterRunning st r) := by
  rw [enterRunning]
  dsimp only
  split
  · exact Ensures.ok ⟨rfl, rfl⟩
  · exact Ensures.ok ⟨rfl, rfl⟩
  · exact Ensures.error trivial

theorem refuse_spec (hid : id ∈ st.sched.queue name) (reserved : Bool) :
    Checked (Step.Leaves st id name) (refuse cfg st name id reserved) := by
  rw [refuse]
  split
  · next hopen =>
    have hborrow : st.borrowReserved = false := by
      simp only [Bool.and_eq_true, Bool.not_eq_true'] at hopen
      exact hopen.1
    have hid' : id ∈ ({ st with
      reservationDeferred := st.reservationDeferred ++ [id] } : Step ω).sched.queue name := hid
    refine (removeAndSkip_spec cfg hid').mono ?_
    rintro st' ⟨hl, hdeferred, hskipped⟩
    exact ⟨hl.keeps, hl.move.of_deferred hborrow hdeferred hskipped⟩
  · exact (removeAndSkip_spec cfg hid).mono fun st' h => h.1

theorem startRunning_spec (hs₀ : s₀.Partition) (hkeeps : Scheduler.Keeps s₀ st.sched)
    {r : Request} (hid : r.requestId ∈ s₀.placed) (computed tokens : ℤ) (limitedPrefill : Bool)
    (plan : EncoderPlan) :
    Checked (fun st' => st'.places =
        { st.places with running := st.places.running ++ [r.requestId] } ∧
      Scheduler.Keeps st.sched st'.sched)
      (startRunning cfg st r computed tokens limitedPrefill plan) := by
  refine Ensures.bind (enterRunning_spec st r) ?_
  rintro st₁ ⟨hplaces, hrequests⟩
  have hrunning : st₁.sched.running = st.sched.running ++ [r.requestId] :=
    congrArg Places.running hplaces
  refine Ensures.ok ⟨hplaces, ?_⟩
  refine keeps_setRequest_of_unfinished hs₀ hkeeps hid hrequests ?_ (fun _ => rfl) (fun _ => rfl) ?_
  · intro x hne
    simp [hrunning, hne]
  · intro _
    exact iff_of_true rfl (by simp [hrunning])

theorem accept_spec (hs₀ : s₀.Partition) (hst : Intact s₀ st) {r : Request}
    (hid : r.requestId ∈ st.sched.queue name)
    (hhead : agents = none → (st.sched.queue name).head? = some r.requestId)
    (admission : Admission) (limitedPrefill : Bool) (plan : EncoderPlan) :
    Checked (Step.Leaves st r.requestId name)
      (accept cfg agents st name r admission limitedPrefill plan) := by
  have hplaced : r.requestId ∈ s₀.placed := hst.perm.mem_iff.mp (mem_placed_of_queue hid)
  refine Ensures.bind (dequeue_spec agents hid hhead) ?_
  rintro st₁ ⟨htakes, hkeeps⟩
  have hkeeps₁ := hst.keeps.trans hkeeps
  dsimp only
  split
  · have habsent : r.requestId ∉ st₁.sched.running := by
      have hnodup : (r.requestId :: st₁.places.all).Nodup :=
        htakes.all_perm.nodup_iff.mp (hst.nodup hs₀)
      intro hmem
      exact (List.nodup_cons.mp hnodup).1 (mem_placed_of_running hmem)
    refine Ensures.ok ⟨hkeeps.trans ?_, ?_⟩
    · exact keeps_setRequest_of_unfinished hs₀ hkeeps₁ hplaced rfl (fun _ _ => Iff.rfl)
        (fun _ => rfl) (fun _ => rfl) fun _ => iff_of_false (by simp) habsent
    · exact htakes.skip (RequestQueue.prependRequest_perm cfg.policy _ _ r.requestId)
  · refine (startRunning_spec cfg hs₀ hkeeps₁ hplaced _ _ _ _).mono ?_
    rintro st₂ ⟨hplaces, hkeeps₂⟩
    exact ⟨hkeeps.trans hkeeps₂, hplaces ▸ htakes.run⟩

theorem permission_eq (st : Step ω) (r : Request) (admission : Admission) :
    ∃ allowed reserved backend, permission env agents st r admission =
      (allowed, reserved, st.withBackend backend) := by
  cases agents with
  | none => exact ⟨_, _, st.sched.backend, rfl⟩
  | some a => exact ⟨_, _, _, rfl⟩

/-- The request is admitted or skipped, or the loop stops with every request in its place. -/
theorem admit_spec (hs₀ : s₀.Partition) (hst : Intact s₀ st) {r : Request}
    (hid : r.requestId ∈ st.sched.queue name)
    (hhead : agents = none → (st.sched.queue name).head? = some r.requestId)
    (admission : Admission) (limitedPrefill : Bool) (plan : EncoderPlan) :
    Checked (fun out => if out.1 then Step.Leaves st r.requestId name out.2 else Quiet st out.2)
      (admitRequest env cfg agents st name r admission limitedPrefill plan) := by
  obtain ⟨allowed, reserved, backend, hpermission⟩ := permission_eq env agents st r admission
  have hquiet := Quiet.withBackend st backend
  have hid₁ : r.requestId ∈ (st.withBackend backend).sched.queue name := hid
  cases allowed with
  | true =>
      obtain ⟨⟨fits, backend'⟩, hfits⟩ : ∃ answer,
        env.allocateSlots (st.withBackend backend).sched r admission = answer := ⟨_, rfl⟩
      simp only [admitRequest, hpermission, hfits]
      have hquiet' := hquiet.trans (.withBackend _ backend')
      have hst' : Intact s₀ ((st.withBackend backend).withBackend backend') :=
        ⟨hst.perm, hst.keeps⟩
      cases fits with
      | true =>
          refine Ensures.map (accept_spec cfg agents hs₀ hst' hid hhead admission limitedPrefill
            plan) ?_
          exact fun st' hl => hl.of_quiet hquiet'
      | false => exact Ensures.ok hquiet'
  | false =>
      simp only [admitRequest, hpermission]
      refine Ensures.map (refuse_spec cfg hid₁ reserved) ?_
      exact fun st' hl => hl.of_quiet hquiet

end Admit

/-! ## One turn of the waiting loop -/

/-- The outcome of one iteration: it stops, or goes on with a smaller measure. -/
structure Turn (s₀ : Scheduler ω) (pool : List String) (cached : Bool) (bound : ℕ)
    (again : Bool) (st : Step ω) : Prop where
  intact : Intact s₀ st
  visits : st.visits.Nodup
  continues : again = true → WaitingInv s₀ pool none st ∧ st.places.Ordered cached [] ∧
    st.places.measure < bound

section Consider

variable {s₀ : Scheduler ω} {pool : List String} {cached : Bool} {chosen : String × QueueName}
variable {st st₁ st' : Step ω}

/-- The chosen request has been visited and leaves its queue. -/
theorem Chosen.leave (h : Chosen s₀ pool cached chosen st) (hq : Quiet (visit st chosen.1) st₁)
    (hl : Step.Leaves st₁ chosen.1 chosen.2 st') :
    Turn s₀ pool cached st.places.measure true st' := by
  have hqueued : chosen.1 ∈ st.places.queued := List.mem_map_of_mem h.mem
  have hl' := hl.of_quiet hq
  obtain ⟨hinv, hmeasure⟩ := (h.inv.visit hqueued).leave hl'
  refine ⟨hinv.intact, hinv.inv.visits_nodup, fun _ => ⟨hinv, ?_, hmeasure⟩⟩
  exact Places.Ordered.leave (p := (visit st chosen.1).places) h.ordered hl'.move

/-- The loop stops while the chosen request is examined. -/
theorem Chosen.stop (h : Chosen s₀ pool cached chosen st) (hq : Quiet (visit st chosen.1) st') :
    Turn s₀ pool cached st.places.measure false st' := by
  have hqueued : chosen.1 ∈ st.places.queued := List.mem_map_of_mem h.mem
  have hinv := (h.inv.visit hqueued).quiet hq
  exact ⟨hinv.intact, hinv.inv.visits_nodup, by simp⟩

variable (hs₀ : s₀.Partition)
variable (env : Collaborators ω) (cfg : SchedulerConfig) (agents : Option Agents)

include hs₀

theorem considerRequest_spec (h : Chosen s₀ pool cached chosen st)
    (hhead : agents = none → (st.sched.queue chosen.2).head? = some chosen.1) :
    Checked (fun out => Turn s₀ pool cached st.places.measure out.1 out.2)
      (considerRequest env cfg agents st chosen) := by
  obtain ⟨id, name⟩ := chosen
  have hqueue : id ∈ st.sched.queue name := mem_queue_of_tagged h.mem
  have hintact : Intact s₀ (visit st id) := ⟨h.inv.intact.perm, h.inv.intact.keeps⟩
  obtain ⟨r, -, hlookup, hkey, -⟩ := hintact.lookup hs₀ (mem_placed_of_queue hqueue)
  have hkeep : ∀ {st₁}, Quiet (visit st id) st₁ → id ∈ st₁.sched.queue name ∧
      (agents = none → (st₁.sched.queue name).head? = some id) := by
    intro st₁ hq
    rw [queue_places, hq.places]
    exact ⟨queue_places (visit st id) name ▸ hqueue, queue_places (visit st id) name ▸ hhead⟩
  refine Ensures.bind_ok hlookup ?_
  obtain ⟨found, st₁, hfound, hq₁⟩ : ∃ found st₁,
      (if r.numComputedTokens = 0 then lookupCache env cfg agents (visit st id) r
        else (.found 0 0 false, visit st id)) = (found, st₁) ∧ Quiet (visit st id) st₁ := by
    split
    · exact ⟨_, _, rfl, lookupCache_quiet env cfg agents r⟩
    · exact ⟨_, _, rfl, .refl _⟩
  simp only [hfound]
  cases found with
  | deferred =>
      refine Ensures.bind (removeAndSkip_spec cfg (hkeep hq₁).1) ?_
      exact fun st₂ hl => Ensures.ok (h.leave hq₁ hl.1)
  | undetermined =>
      refine Ensures.bind (leaveAndSkip_spec cfg agents (hkeep hq₁).1 (hkeep hq₁).2) ?_
      exact fun st₂ hl => Ensures.ok (h.leave hq₁ hl)
  | found localTokens external loadKvAsync =>
      dsimp only
      generalize (if r.numComputedTokens = 0 then localTokens + external
        else r.numComputedTokens) = computed
      split
      · exact Ensures.error trivial
      · refine Ensures.bind (planChunk_spec env cfg agents r _ loadKvAsync) ?_
        rintro ⟨chunk, st₂⟩ hq
        have hq₂ := hq₁.trans hq
        obtain ⟨hqueue₂, hhead₂⟩ := hkeep hq₂
        cases chunk with
        | stop => exact Ensures.ok (h.stop hq₂)
        | skip =>
            refine Ensures.bind (removeAndSkip_spec cfg hqueue₂) ?_
            exact fun st₃ hl => Ensures.ok (h.leave hq₂ hl.1)
        | run tokens limitedPrefill plan =>
            subst hkey
            have hintact₂ := hintact.of_perm (.of_eq hq₂.placed) hq₂.keeps
            refine (admit_spec env cfg agents hs₀ hintact₂ hqueue₂ hhead₂ _ _ _).mono ?_
            rintro ⟨again, st₃⟩ hout
            cases again with
            | true => exact h.leave hq₂ hout
            | false => exact h.stop (hq₂.trans hout)

end Consider

/-! ## The waiting loop -/

section Loop

variable {s₀ : Scheduler ω} (hs₀ : s₀.Partition) {pool : List String} {cached : Bool}
variable (env : Collaborators ω) (cfg : SchedulerConfig) (agents : Option Agents)
variable {st : Step ω}

/-- What the loop of the borrow pass has moved so far. -/
structure Reopening (st : Step ω) (rest : List String) (st' : Step ω) : Prop where
  waiting : (rest ++ st'.sched.waiting).Perm (st.reservationDeferred ++ st.sched.waiting)
  stepSkipped : (st'.sched.waiting ++ st'.stepSkippedWaiting).Perm
    (st.sched.waiting ++ st.stepSkippedWaiting)
  remaining : ∀ id ∈ rest, id ∈ st'.stepSkippedWaiting
  rest_nodup : rest.Nodup
  keeps : Scheduler.Keeps st.sched st'.sched
  frame : (st'.sched.running, st'.sched.skippedWaiting, st'.visits) =
    (st.sched.running, st.sched.skippedWaiting, st.visits)

theorem borrowPass_spec (h : st.places.Inv pool none) (hempty : st.places.queued = []) :
    Checked (fun st' => st.places.Reopens st'.places ∧
      Scheduler.Keeps st.sched st'.sched) (borrowPass cfg st) := by
  obtain ⟨hempty', hwaiting⟩ : st.sched.skippedWaiting = [] ∧ st.sched.waiting = [] := by
    rw [Places.queued_eq] at hempty
    exact List.append_eq_nil_iff.mp hempty
  have hstart : Reopening st st.reservationDeferred st :=
    ⟨.refl _, .refl _, h.deferred_skipped, h.deferred_nodup, .refl _, rfl⟩
  refine Ensures.bind (Ensures.foldlM (I := Reopening st) ?_ _ _ hstart) ?_
  · intro id rest st₁ hr
    have hid := hr.remaining id List.mem_cons_self
    have hnodup := List.nodup_cons.mp hr.rest_nodup
    simp only [hid, if_true]
    have hqueue := RequestQueue.addRequest_perm cfg.policy st₁.sched.before st₁.sched.waiting id
    refine Ensures.ok ⟨?_, ?_, ?_, hnodup.2, hr.keeps, hr.frame⟩
    · exact ((hqueue.append_left rest).trans List.perm_middle).trans hr.waiting
    · refine List.Perm.trans ?_ hr.stepSkipped
      have herase := (List.perm_cons_erase hid).symm
      exact (hqueue.append_right _).trans (List.perm_middle.symm.trans (herase.append_left _))
    · intro x hx
      have hne : x ≠ id := fun heq => hnodup.1 (heq ▸ hx)
      exact (List.mem_erase_of_ne hne).mpr (hr.remaining x (List.mem_cons_of_mem id hx))
  · intro st₁ hr
    have hwaiting₁ : st₁.sched.waiting.Perm st.reservationDeferred := by
      simpa [hwaiting] using hr.waiting
    have hskipped₁ := hr.stepSkipped.symm.trans (hwaiting₁.append_right _)
    rw [hwaiting, List.nil_append] at hskipped₁
    obtain ⟨hrunning, hskipped, hvisits⟩ : _ ∧ _ ∧ _ := by simpa using hr.frame
    refine Ensures.ok ⟨⟨hwaiting₁, ?_, hskipped₁, hrunning, rfl, rfl, rfl, hvisits⟩, hr.keeps⟩
    exact hskipped.trans hempty'

theorem refill_spec (h : WaitingInv s₀ pool none st) (hordered : st.places.Ordered cached [])
    (hne : st.places.queued ≠ [] ∨ st.reservationDeferred ≠ []) :
    Checked (fun st' => WaitingInv s₀ pool none st' ∧ st'.places.Ordered cached [] ∧
      st'.places.queued ≠ [] ∧ st'.places.measure ≤ st.places.measure) (refill cfg st) := by
  rw [refill]
  split
  · next hempty =>
    have hempty : st.places.queued = [] := by
      simp only [Bool.and_eq_true, List.isEmpty_iff] at hempty
      rw [Places.queued_eq]
      exact List.append_eq_nil_iff.mpr ⟨hempty.2, hempty.1⟩
    have hdeferred : st.reservationDeferred ≠ [] := hne.resolve_left fun hne => hne hempty
    have hborrow : st.places.borrow = false := by
      cases hb : st.places.borrow with
      | false => rfl
      | true => exact absurd (h.inv.closed hb) hdeferred
    refine (borrowPass_spec cfg h.inv hempty).mono ?_
    rintro st' ⟨hr, hsame⟩
    obtain ⟨hinv, hmeasure⟩ := h.inv.reopen hr hempty hborrow
    refine ⟨⟨h.intact.of_perm (hr.all_perm hempty) hsame, hinv⟩, ?_, ?_, hmeasure⟩
    · intro order horder
      exact absurd horder (by simp [hr.order])
    · intro hnil
      rw [Places.queued_eq] at hnil
      have hwaiting : st'.places.waiting = [] := (List.append_eq_nil_iff.mp hnil).2
      have := hr.waiting
      rw [hwaiting] at this
      exact hdeferred this.nil_eq.symm
  · next hempty =>
    refine Ensures.ok ⟨h, hordered, ?_, le_refl _⟩
    intro hnil
    rw [Places.queued_eq] at hnil
    obtain ⟨hskipped, hwaiting⟩ := List.append_eq_nil_iff.mp hnil
    refine hempty ?_
    simp only [Bool.and_eq_true, List.isEmpty_iff]
    exact ⟨hwaiting, hskipped⟩

theorem selectWaitingQueue_spec (hne : st.places.queued ≠ []) (policy : SchedulingPolicy) :
    ∃ name id, st.sched.selectWaitingQueue policy = some name ∧
      (st.sched.queue name).head? = some id := by
  rw [Places.queued_eq] at hne
  simp only [Scheduler.selectWaitingQueue]
  split
  · next hw hk => exact absurd (List.append_eq_nil_iff.mpr ⟨hk, hw⟩) hne
  · next id _ _ hk => exact ⟨.skipped, id, rfl, by simp [Scheduler.queue, hk]⟩
  · next id _ hw _ => exact ⟨.waiting, id, rfl, by simp [Scheduler.queue, hw]⟩
  · next _ _ id _ _ hk => exact ⟨.skipped, id, rfl, by simp [Scheduler.queue, hk]⟩
  · next w _ k _ hw hk =>
    split
    · exact ⟨.waiting, w, rfl, by simp [Scheduler.queue, hw]⟩
    · exact ⟨.skipped, k, rfl, by simp [Scheduler.queue, hk]⟩

/-- When the order may be frozen: the controller is active, no LoRA limit applies, and every
request of the pool is annotated. -/
def MayFreeze (cfg : SchedulerConfig) (agents : Option Agents) (pool : List String) : Prop :=
  cfg.maxLoras = none ∧ ∃ a, agents = some a ∧ ∀ id ∈ pool, a.annotated id = true

include hs₀

theorem chooseRequest_spec (hcached : cached = true → MayFreeze cfg agents pool)
    (h : WaitingInv s₀ pool none st) (hordered : st.places.Ordered cached [])
    {peeked : String × QueueName} (hpeeked : peeked ∈ st.places.tagged) :
    Checked (fun out => Chosen s₀ pool cached out.2 out.1 ∧
      out.1.places.measure ≤ st.places.measure ∧ (agents = none → out = (st, peeked)))
      (chooseRequest env cfg agents cached st peeked) := by
  have hpool : peeked.1 ∈ pool := h.inv.within _ (.inl (List.mem_map_of_mem hpeeked))
  -- without a frozen order the peeked request may be examined
  have hpeek : cached = false → Chosen s₀ pool cached peeked st := by
    intro hfalse
    refine ⟨h, hpeeked, ?_⟩
    intro order horder
    exact absurd (hordered order horder).1 (by simp [hfalse])
  cases agents with
  | none =>
      have hfalse : cached = false := by
        cases hb : cached with
        | false => rfl
        | true =>
            obtain ⟨-, a, ha, -⟩ := hcached hb
            cases ha
      exact Ensures.ok ⟨hpeek hfalse, le_refl _, fun _ => rfl⟩
  | some a =>
      rw [chooseRequest]
      split
      · refine (nextAgent_spec hs₀ env cfg a ?_ h hordered hpeeked).mono ?_
        · intro hb
          obtain ⟨-, a', ha', hannotated⟩ := hcached hb
          cases ha'
          exact hannotated
        · exact fun out hout => ⟨hout.1, hout.2, fun hnone => by cases hnone⟩
      · next hordinary =>
        have hfalse : cached = false := by
          cases hb : cached with
          | false => rfl
          | true =>
              obtain ⟨-, a', ha', hannotated⟩ := hcached hb
              cases ha'
              exact absurd (hannotated _ hpool) hordinary
        exact Ensures.ok ⟨hpeek hfalse, le_refl _, fun hnone => by cases hnone⟩

theorem waitingStep_spec (hcached : cached = true → MayFreeze cfg agents pool)
    (h : WaitingInv s₀ pool none st) (hordered : st.places.Ordered cached [])
    (hne : st.places.queued ≠ [] ∨ st.reservationDeferred ≠ []) :
    Checked (fun out => Turn s₀ pool cached st.places.measure out.1 out.2)
      (waitingStep env cfg agents cached st) := by
  refine Ensures.bind (refill_spec cfg h hordered hne) ?_
  rintro st₁ ⟨h₁, hordered₁, hne₁, hmeasure₁⟩
  obtain ⟨name, id, hselect, hhead⟩ := selectWaitingQueue_spec hne₁ cfg.policy
  obtain ⟨rest, hrest⟩ := List.head?_eq_some_iff.mp hhead
  simp only [hselect, hrest]
  have hmem : id ∈ st₁.sched.queue name := List.mem_of_mem_head? hhead
  refine Ensures.bind (unblock_spec hs₀ h₁.intact env (mem_placed_of_queue hmem)) ?_
  rintro ⟨unblocked, st₂⟩ hq
  have h₂ := h₁.quiet hq
  have hordered₂ : st₂.places.Ordered cached [] := hq.places ▸ hordered₁
  have hmeasure₂ : st₂.places.measure ≤ st.places.measure :=
    (congrArg Places.measure hq.places).le.trans hmeasure₁
  have hqueue : st₂.sched.queue name = st₁.sched.queue name := by
    rw [queue_places, hq.places, queue_places]
  have hhead₂ : (st₂.sched.queue name).head? = some id := hqueue ▸ hhead
  have hmem₂ : (id, name) ∈ st₂.places.tagged := by
    rw [Places.mem_tagged, ← queue_places, hqueue]
    exact hmem
  have hvisited := h₂.visit (List.mem_map_of_mem hmem₂)
  have hhead₂' : ((visit st₂ id).sched.queue name).head? = some id := hhead₂
  cases unblocked with
  | false =>
      -- still blocked: skipped, and the frozen order is dropped
      refine Ensures.bind (popAndSkip_spec cfg hhead₂') ?_
      intro st₃ hl
      obtain ⟨h₃, hmeasure₃⟩ := hvisited.leave hl
      refine Ensures.ok ⟨⟨h₃.intact.perm, h₃.intact.keeps⟩, h₃.inv.visits_nodup, fun _ =>
        ⟨⟨⟨h₃.intact.perm, h₃.intact.keeps⟩, h₃.inv.withOrder none⟩, ?_, ?_⟩⟩
      · intro order horder
        cases horder
      · exact lt_of_lt_of_le hmeasure₃ hmeasure₂
  | true =>
      obtain ⟨r, -, hlookup, -⟩ := h₂.intact.lookup hs₀ (mem_placed_of_tagged hmem₂)
      refine Ensures.bind_ok hlookup ?_
      split
      · next hloras =>
        refine Ensures.bind (popAndSkip_spec cfg hhead₂') ?_
        intro st₃ hl
        obtain ⟨h₃, hmeasure₃⟩ := hvisited.leave hl
        refine Ensures.ok ⟨h₃.intact, h₃.inv.visits_nodup, fun _ => ⟨h₃, ?_, ?_⟩⟩
        · intro order horder
          have hb := (hordered₂ order (hl.move.order.symm.trans horder)).1
          simp [exceedsLoras, (hcached hb).1] at hloras
        · exact lt_of_lt_of_le hmeasure₃ hmeasure₂
      · refine Ensures.bind (chooseRequest_spec hs₀ env cfg agents hcached h₂ hordered₂ hmem₂) ?_
        rintro ⟨st₃, chosen⟩ ⟨hchosen, hmeasure₃, hpeeked⟩
        refine (considerRequest_spec hs₀ env cfg agents hchosen ?_).mono ?_
        · intro hnone
          obtain ⟨rfl, rfl⟩ := Prod.mk.inj (hpeeked hnone)
          exact hhead₂
        · intro out hout
          refine ⟨hout.intact, hout.visits, fun hagain => ?_⟩
          obtain ⟨hinv, hord, hlt⟩ := hout.continues hagain
          exact ⟨hinv, hord, lt_of_lt_of_le hlt (hmeasure₃.trans hmeasure₂)⟩

theorem waitingLoop_spec (hcached : cached = true → MayFreeze cfg agents pool) :
    ∀ (fuel : ℕ) {st : Step ω}, WaitingInv s₀ pool none st → st.places.Ordered cached [] →
      st.places.measure < fuel →
      Checked (fun st' => Intact s₀ st' ∧ st'.visits.Nodup)
        (waitingLoop env cfg agents cached fuel st) := by
  intro fuel
  induction fuel with
  | zero => exact fun _ _ hfuel => absurd hfuel (by omega)
  | succ fuel ih =>
      intro st h hordered hfuel
      rw [waitingLoop]
      split
      · exact Ensures.ok ⟨h.intact, h.inv.visits_nodup⟩
      · next hcond =>
        have hne : st.places.queued ≠ [] ∨ st.reservationDeferred ≠ [] := by
          by_contra hempty
          rw [not_or, not_not, not_not, Places.queued_eq, List.append_eq_nil_iff] at hempty
          obtain ⟨⟨hk, hw⟩, hd⟩ := hempty
          refine hcond ?_
          have hk' : st.sched.skippedWaiting = [] := hk
          have hw' : st.sched.waiting = [] := hw
          simp [hk', hw', hd]
        refine Ensures.bind (waitingStep_spec hs₀ env cfg agents hcached h hordered hne) ?_
        rintro ⟨again, st₁⟩ hturn
        cases again with
        | false => exact Ensures.ok ⟨hturn.intact, hturn.visits⟩
        | true =>
            obtain ⟨h₁, hordered₁, hlt⟩ := hturn.continues rfl
            exact ih h₁ hordered₁ (by dsimp only at hlt; omega)

end Loop

/-! ## The whole step -/

section Schedule

variable {s₀ : Scheduler ω} (hs₀ : s₀.Partition)
variable (env : Collaborators ω) (cfg : SchedulerConfig) (agents : Option Agents)

/-- The result of a whole step: the requests of `s₀` are partitioned as before, and the waiting
loop took up each of them at most once before and once after it opened reserved capacity. -/
structure Step.Conserves (s₀ : Scheduler ω) (st : Step ω) : Prop where
  intact : Intact s₀ st
  stepSkipped : st.stepSkippedWaiting = []
  visits : st.visits.Nodup

theorem requeueSkipped_spec {st : Step ω} (h : Intact s₀ st) (hvisits : st.visits.Nodup) :
    Conserves s₀ (requeueSkipped cfg st) := by
  refine ⟨⟨?_, h.keeps⟩, rfl, hvisits⟩
  refine List.Perm.trans ?_ h.perm
  have hqueue := RequestQueue.prependRequests_perm cfg.policy st.sched.before
    st.sched.skippedWaiting st.stepSkippedWaiting
  simp only [Step.placed, Scheduler.placed, requeueSkipped, List.append_nil]
  refine (hqueue.append_left _).trans ?_
  rw [List.append_assoc (st.sched.running ++ st.sched.waiting)]
  exact List.perm_append_comm.append_left _

include hs₀

/-- The waiting loop starts with every queued request unvisited. -/
theorem Step.RunningInv.waitingInv {st : Step ω} (h : RunningInv s₀ st) :
    WaitingInv s₀ (st.sched.waiting ++ st.sched.skippedWaiting) none st ∧
      st.places.Ordered false [] ∧
      st.places.measure = 2 * (st.sched.waiting ++ st.sched.skippedWaiting).length := by
  obtain ⟨hskipped, hdeferred, hborrow, horder, hvisits⟩ : _ ∧ _ ∧ _ ∧ _ ∧ _ := by
    simpa [Pristine] using h.pristine
  refine ⟨⟨h.intact, h.intact.nodup hs₀, ?_, ?_, ?_, ?_, ?_, ?_, ?_⟩, ?_, ?_⟩
  · intro x hx
    have hx' : x ∈ st.sched.skippedWaiting ++ st.sched.waiting := by
      simpa [Places.queued_eq, Step.places, hskipped] using hx
    exact List.perm_append_comm.mem_iff.mp hx'
  · simp [Step.places, hdeferred]
  · simp [Step.places, hdeferred]
  · exact fun _ => hdeferred
  · simp [Step.places, hvisits]
  · simp [Step.places, hvisits]
  · simp [Step.places, hvisits]
  · intro order h
    exact absurd h (by simp [Step.places, horder])
  · simp [Places.measure, Places.queued_eq, Step.places, hborrow, hdeferred, Nat.add_comm]

theorem scheduleWaiting_spec {st : Step ω} (h : RunningInv s₀ st) :
    Checked (Conserves s₀) (scheduleWaiting env cfg agents st) := by
  obtain ⟨hinv, hordered, hmeasure⟩ := h.waitingInv hs₀
  rw [scheduleWaiting]
  split
  · refine Ensures.map (waitingLoop_spec hs₀ env cfg agents ?_ _ hinv ?_ ?_) ?_
    · intro hcached
      cases agents with
      | none => simp at hcached
      | some a =>
          simp only [Option.any_some, Bool.and_eq_true, Option.isNone_iff_eq_none,
            List.all_eq_true] at hcached
          exact ⟨hcached.1, a, rfl, hcached.2⟩
    · intro order horder
      exact absurd (hordered order horder).1 (by simp)
    · omega
    · exact fun st' hst' => requeueSkipped_spec cfg hst'.1 hst'.2
  · obtain ⟨hskipped, -, -, -, hvisits⟩ : _ ∧ _ ∧ _ ∧ _ ∧ _ := by
      simpa [Pristine] using h.pristine
    exact Ensures.ok ⟨h.intact, hskipped, by simp [hvisits]⟩

theorem collectLoras_spec {st : Step ω} (h : RunningInv s₀ st) :
    Checked (RunningInv s₀) (collectLoras cfg st) := by
  rw [collectLoras]
  split
  · exact Ensures.ok h
  · obtain ⟨rs, hrs, -⟩ := h.intact.mapM_lookup hs₀ fun id hid =>
      h.intact.perm.mem_iff.mpr (h.scheduled id hid)
    refine Ensures.bind_ok hrs ?_
    dsimp only
    split
    · exact Ensures.ok ⟨⟨h.intact.perm, h.intact.keeps⟩, h.pristine, h.scheduled, h.tokens⟩
    · exact Ensures.error trivial

omit hs₀

theorem startStep_spec {s : Scheduler ω} (hs : s.Partition) :
    Checked (fun out => RunningInv s out.2) (startStep env cfg s) := by
  have hstart : ∀ (backend : ω) (tokens prefill encoder : ℤ), RunningInv s
      { sched := { s with backend := backend }, tokenBudget := tokens, prefillBudget := prefill,
        encoderComputeBudget := encoder } := by
    intro backend tokens prefill encoder
    refine ⟨⟨?_, .refl _⟩, rfl, by simp, by simp⟩
    simp [Step.placed, Scheduler.placed]
  obtain ⟨running, hrunning, -⟩ := (hstart (env.beginStep s).2 0 0 0).intact.mapM_lookup hs
    fun id hid => mem_placed_of_running hid
  exact Ensures.bind_ok hrunning (Ensures.ok (hstart _ _ _ _))

theorem schedule_spec {s : Scheduler ω} (hs : s.Partition) :
    Checked (Conserves s) (schedule env cfg s) := by
  refine Ensures.bind (startStep_spec env cfg hs) ?_
  rintro ⟨agents, st⟩ h
  have hfuel : st.sched.running.length - st.reqIndex < st.sched.running.length + 1 := by omega
  refine Ensures.bind (runningLoop_spec env cfg agents hs _ h hfuel) ?_
  intro st₁ h₁
  refine Ensures.bind (collectLoras_spec hs cfg h₁) ?_
  intro st₂ h₂
  refine Ensures.bind (scheduleWaiting_spec hs env cfg agents h₂) ?_
  intro st₃ h₃
  split
  · exact Ensures.ok h₃
  · exact Ensures.error trivial

/-- `schedule` neither loses nor duplicates a request: it returns a partition of the same
requests, or is stopped by one of its own assertions. It never takes the next agent from an empty
order, never removes a request from a queue that does not hold it, and both of its loops end. The
waiting loop takes up a request at most once in each of its two passes, so a request deferred for
reserved capacity is reconsidered at most once. -/
theorem schedule_conserves_requests {s : Scheduler ω} (hs : s.Partition) :
    (∀ e, schedule env cfg s = .error e → e = .assertion ∨ e = .invalidStatus) ∧
    ∀ st, schedule env cfg s = .ok st →
      st.sched.Partition ∧ s.SameRequests st.sched ∧ st.stepSkippedWaiting = [] ∧
        ∀ id pass, st.visits.count (id, pass) ≤ 1 := by
  have hspec := schedule_spec env cfg hs
  constructor
  · intro e he
    have hcheck := hspec.of_eq_error he
    cases e with
    | assertion => exact .inl rfl
    | invalidStatus => exact .inr rfl
    | _ => exact absurd hcheck id
  · intro st hst
    have hconserves := hspec.of_eq_ok hst
    have hperm : st.sched.placed.Perm s.placed := by
      simpa [Step.placed, hconserves.stepSkipped] using hconserves.intact.perm
    exact ⟨hs.of_perm hperm hconserves.intact.keeps.1, hconserves.intact.keeps.1,
      hconserves.stepSkipped, fun id pass => List.nodup_iff_count_le_one.mp hconserves.visits _⟩

end Schedule

/-! ## A run through the borrow pass -/

/-- Collaborators whose cache is always large enough, with one annotated request `agent` that is
admitted only into borrowed capacity. -/
def borrowingCollaborators : Collaborators Unit where
  beginStep _ := (some
    { metadata := ["agent"], scores := .empty, agentScores := .empty
      decodePrefillTokenBudget := 0, cacheAffinityScoreBand := 0 }, ())
  hasUnpublished _ := (false, ())
  tryScheduleEncoderInputs _ _ _ tokens budget := (⟨[], tokens, budget, []⟩, ())
  numEncoderEmbeds _ _ := 0
  mambaBlockAlignedSplit _ _ tokens := tokens
  canGrow _ _ _ := (true, ())
  allocateRunning _ _ _ := (true, ())
  victimView _ _ _ := (⟨1, fun _ => 1, fun _ => 1⟩, ())
  freePreempted _ _ := ()
  finishedRecving _ _ := false
  updateWaitingForRemoteKv _ r := (r.numComputedTokens, ())
  grammarReady _ _ := false
  getComputedBlocks _ _ := (0, ())
  deferCacheLookup _ _ _ := (false, ())
  getNumNewMatchedTokens _ _ _ := ((some 0, false), ())
  canAllocate _ r admission :=
    ((r.requestId != "agent" || admission.borrowReserved, true), ())
  allocateSlots _ _ _ := (true, ())
  activePrefixAffinity _ _ := (0, 0)
  affinityApplies _ := false

def borrowingConfig : SchedulerConfig where
  policy := .fcfs
  maxNumRunningReqs := 8
  maxNumScheduledTokens := 64
  maxNumEncoderInputTokens := 0
  maxModelLen := 128
  maxLoras := some 1

/-- One running request, one annotated and one ordinary request waiting. -/
def borrowingScheduler : Scheduler Unit where
  requests := .ofList
    [("old", { requestId := "old", status := .running, promptTokenIds := [1], maxTokens := 4 }),
      ("agent", { requestId := "agent", promptTokenIds := [1, 2], maxTokens := 4 }),
      ("plain", { requestId := "plain", promptTokenIds := [3], maxTokens := 4 })]
  running := ["old"]
  waiting := ["agent", "plain"]
  skippedWaiting := []
  pauseState := .unpaused
  backend := ()

/-- A partition, checked on the entries of the dictionary. -/
theorem Scheduler.partition_of_entries {s : Scheduler ω} (hentries : ∀ e ∈ s.requests.entries,
      e.2.requestId = e.1 ∧ e.2.isFinished = false ∧ e.1 ∈ s.placed)
    (hnodup : s.placed.Nodup) (hplaced : ∀ id ∈ s.placed, id ∈ s.requests.keys) :
    s.Partition := by
  have hget : ∀ id r, s.requests.get? id = some r →
      r.requestId = id ∧ r.isFinished = false ∧ id ∈ s.placed :=
    fun id r h => hentries (id, r) (OrdDict.get?_eq_some_iff.mp h)
  refine ⟨fun id r h => (hget id r h).1, hnodup, ?_⟩
  intro id
  constructor
  · intro hid
    obtain ⟨r, hr⟩ := OrdDict.mem_keys_iff.mp (hplaced id hid)
    exact ⟨r, hr, (hget id r hr).2.1⟩
  · exact fun ⟨r, hr, _⟩ => (hget id r hr).2.2

theorem borrowingScheduler_partition : borrowingScheduler.Partition :=
  Scheduler.partition_of_entries (by decide +kernel) (by decide +kernel) (by decide +kernel)

/-- The annotated request is deferred, then reconsidered once and admitted. -/
theorem borrowing_schedule_conserves :
    ∃ st, schedule borrowingCollaborators borrowingConfig borrowingScheduler = .ok st ∧
      st.sched.running = ["old", "plain", "agent"] ∧
      st.visits = [("agent", false), ("plain", false), ("agent", true)] ∧
      st.sched.Partition := by
  have hrun : (schedule borrowingCollaborators borrowingConfig borrowingScheduler).toOption.map
      (fun st => (st.sched.running, st.visits)) =
      some (["old", "plain", "agent"],
        [("agent", false), ("plain", false), ("agent", true)]) := by decide +kernel
  cases hst : schedule borrowingCollaborators borrowingConfig borrowingScheduler with
  | error e => simp [hst, Except.toOption] at hrun
  | ok st =>
      obtain ⟨hrunning, hvisits⟩ : _ ∧ _ := by simpa [hst, Except.toOption] using hrun
      have hpartition := (schedule_conserves_requests borrowingCollaborators borrowingConfig
        borrowingScheduler_partition).2 st hst
      exact ⟨st, rfl, hrunning, hvisits, hpartition.1⟩

end TokenCake.Sched
