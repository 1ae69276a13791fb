import TokenCake.Verification.Schedule.Queues

/-! # The running loop

Preemption moves requests from the running list to the waiting queue and nothing else moves.
Both loops end: each preemption shortens the running list, and the index never falls behind. -/

namespace TokenCake.Sched

variable {ω : Type}

namespace Step

/-- The waiting loop has not started. -/
def Pristine (st : Step ω) : Prop :=
  (st.stepSkippedWaiting, st.reservationDeferred, st.borrowReserved, st.agentOrder, st.visits) =
    ([], [], false, none, [])

/-- The invariant of the running loop. -/
structure RunningInv (s₀ : Scheduler ω) (st : Step ω) : Prop where
  intact : Intact s₀ st
  pristine : Pristine st
  scheduled : ∀ id ∈ st.scheduledRunningReqs, id ∈ s₀.placed
  tokens : ∀ id ∈ st.scheduledRunningReqs, id ∈ st.sched.running →
    id ∈ st.numScheduledTokens.keys

/-- `st'` has at most as many running requests left to visit as `st`. -/
def Advances (st st' : Step ω) : Prop :=
  st'.sched.running.length + st.reqIndex ≤ st.sched.running.length + st'.reqIndex

end Step

open Step

theorem mem_of_firstBest {α : Type*} {better : α → α → Bool} {xs : List α} {x : α}
    (h : firstBest better xs = some x) : x ∈ xs := by
  cases xs with
  | nil => simp [firstBest] at h
  | cons y ys =>
      have hfold : ∀ (zs : List α) (z : α),
          zs.foldl (fun best y => if better y best then y else best) z ∈ z :: zs := by
        intro zs
        induction zs with
        | nil => simp
        | cons w ws ih =>
            intro z
            rw [List.foldl_cons]
            split
            · exact List.mem_cons_of_mem z (ih w)
            · cases List.mem_cons.mp (ih z) with
              | inl heq => simp [heq]
              | inr hmem => simp [hmem]
      simp only [firstBest, Option.some.injEq] at h
      exact h ▸ hfold ys y

theorem firstBest_eq_none {α : Type*} {better : α → α → Bool} {xs : List α}
    (h : firstBest better xs = none) : xs = [] := by
  cases xs with
  | nil => rfl
  | cons y ys => simp [firstBest] at h

/-! ## Victims -/

namespace Agents

theorem victimCandidates_subset (agents : Agents) (view : VictimView) (request : Request)
    (running : List Request) : ∀ r ∈ agents.victimCandidates view request running, r ∈ running := by
  intro r hr
  simp only [victimCandidates] at hr
  split_ifs at hr
  all_goals
    simp only [List.mem_filter] at hr
    grind

theorem victim_mem (agents : Agents) (view : VictimView) (request : Request)
    (running : List Request) :
    Checked (fun choice => ∀ id, choice = some id → ∃ r ∈ running, r.requestId = id)
      (agents.victim view request running) := by
  rw [victim]
  split
  · split
    · next r hr =>
      apply Ensures.ok
      intro id hid
      have hmem := victimCandidates_subset agents view request running r (mem_of_firstBest hr)
      exact ⟨r, hmem, by simpa using hid⟩
    · exact Ensures.error trivial
  · exact Ensures.ok (by simp)

end Agents

section Loop

variable {s₀ : Scheduler ω} (env : Collaborators ω) (cfg : SchedulerConfig)
variable (agents : Option Agents)

theorem Step.RunningInv.withBackend {st : Step ω} (h : RunningInv s₀ st) (backend : ω) :
    RunningInv s₀ (st.withBackend backend) :=
  ⟨⟨h.intact.perm, h.intact.keeps⟩, h.pristine, h.scheduled, h.tokens⟩

/-- The state between `running.remove` and the re-queueing of the victim `id`. -/
structure Step.Removed (s₀ : Scheduler ω) (st : Step ω) (id : String) : Prop where
  perm : (id :: st.placed).Perm s₀.placed
  same : Scheduler.SameRequests s₀ st.sched
  absent : id ∉ st.sched.running
  marked : s₀.RunningMarked → ∀ x r, x ≠ id → st.sched.requests.get? x = some r →
    (r.status = .running ↔ x ∈ st.sched.running)
  pristine : Pristine st
  scheduled : ∀ x ∈ st.scheduledRunningReqs, x ∈ s₀.placed
  tokens : ∀ x ∈ st.scheduledRunningReqs, x ∈ st.sched.running → x ∈ st.numScheduledTokens.keys

/-- What taking the victim `id` out of the running list of `st` leaves. -/
structure Step.VictimRemoved (s₀ : Scheduler ω) (st : Step ω) (id : String) (st' : Step ω) :
    Prop where
  removed : Removed s₀ st' id
  advances : st.Advances st'
  shorter : st'.sched.running.length + 1 = st.sched.running.length
  remaining : ∀ x ∈ st.sched.running, x ≠ id → x ∈ st'.sched.running

theorem Step.RunningInv.erase_perm {st : Step ω} (h : RunningInv s₀ st) {id : String}
    {rest : List String} (hrest : st.sched.running.Perm (id :: rest)) :
    (id :: ({ st with sched := { st.sched with running := rest } } : Step ω).placed).Perm
      s₀.placed := by
  refine List.Perm.trans ?_ h.intact.perm
  simp only [Step.placed, Scheduler.placed]
  exact ((hrest.symm.append_right _).append_right _).append_right _

/-- The marks of the others while `id` is out of the running list. -/
theorem Step.RunningInv.erase_marked (hs₀ : s₀.Partition) {st : Step ω} (h : RunningInv s₀ st)
    {id : String} {rest : List String} (hrest : st.sched.running.Perm (id :: rest)) :
    id ∉ rest ∧ (s₀.RunningMarked → ∀ x r, x ≠ id → st.sched.requests.get? x = some r →
      (r.status = .running ↔ x ∈ rest)) := by
  have hnodup : st.sched.running.Nodup := by
    have := h.intact.nodup hs₀
    simp only [Step.placed, Scheduler.placed, List.nodup_append] at this
    exact this.1.1.1
  refine ⟨(List.nodup_cons.mp (hrest.nodup_iff.mp hnodup)).1, ?_⟩
  intro hm x r hne hr
  rw [h.intact.keeps.2 hm x r hr, hrest.mem_iff, List.mem_cons]
  simp [hne]

theorem unschedule_spec (hs₀ : s₀.Partition) {st : Step ω} (h : RunningInv s₀ st)
    (plan : EncoderPlan) {id : String} (hid : id ∈ st.sched.running) (byAgent : Bool) :
    Checked (fun out => VictimRemoved s₀ st id out.1) (unschedule env st plan id byAgent) := by
  have hperm := h.erase_perm (List.perm_cons_erase hid)
  have hlength := List.length_erase_add_one hid
  obtain ⟨habsent, hmarked⟩ := h.erase_marked hs₀ (List.perm_cons_erase hid)
  have hremaining : ∀ x ∈ st.sched.running, x ≠ id → x ∈ st.sched.running.erase id :=
    fun x hx hne => (List.mem_erase_of_ne hne).mpr hx
  simp only [unschedule, hid, if_true]
  split
  · next hsched =>
    -- the victim was already scheduled in this step
    obtain ⟨r, hr, -⟩ := h.intact.lookup hs₀ (mem_placed_of_running hid)
    obtain ⟨tokens, htokens⟩ := OrdDict.mem_keys_iff.mp (h.tokens id hsched hid)
    simp only [hr, htokens]
    refine ⟨⟨hperm, h.intact.keeps.1, habsent, hmarked, h.pristine, ?_, ?_⟩, ?_, hlength, hremaining⟩
    · intro x hx
      exact h.scheduled x (List.mem_of_mem_erase hx)
    · intro x hx hrun
      rw [OrdDict.mem_keys_erase]
      have hne : x ≠ id := fun heq => habsent (heq ▸ hrun)
      exact ⟨hne, h.tokens x (List.mem_of_mem_erase hx) (List.mem_of_mem_erase hrun)⟩
    · simp only [Advances]
      omega
  · have htokens : ∀ x ∈ st.scheduledRunningReqs, x ∈ st.sched.running.erase id →
        x ∈ st.numScheduledTokens.keys :=
      fun x hx hrun => h.tokens x hx (List.mem_of_mem_erase hrun)
    split
    · refine ⟨⟨hperm, h.intact.keeps.1, habsent, hmarked, h.pristine, h.scheduled, htokens⟩, ?_, hlength, hremaining⟩
      simp only [Advances]
      omega
    · refine ⟨⟨hperm, h.intact.keeps.1, habsent, hmarked, h.pristine, h.scheduled, htokens⟩, ?_, hlength, hremaining⟩
      simp only [Advances]
      omega

theorem agentVictim_spec {st : Step ω} (h : RunningInv s₀ st) (request : Request) (tokens : ℤ)
    {running : List Request} (hmem : ∀ r ∈ running, r.requestId ∈ st.sched.running) :
    Checked (fun out => (∃ backend, out.2 = st.withBackend backend) ∧ RunningInv s₀ out.2 ∧
      ∀ id, out.1 = some id → id ∈ st.sched.running)
      (agentVictim env agents st request tokens running) := by
  cases agents with
  | none => exact Ensures.ok ⟨⟨st.sched.backend, rfl⟩, h, by simp⟩
  | some a =>
      refine Ensures.map (a.victim_mem _ request running) ?_
      intro choice hchoice
      refine ⟨⟨_, rfl⟩, h.withBackend _, ?_⟩
      intro id hid
      obtain ⟨r, hr, heq⟩ := hchoice id hid
      exact heq ▸ hmem r hr

theorem Step.VictimRemoved.of_withBackend {st st' : Step ω} {backend : ω} {id : String}
    (h : VictimRemoved s₀ (st.withBackend backend) id st') : VictimRemoved s₀ st id st' :=
  ⟨h.removed, h.advances, h.shorter, h.remaining⟩

/-- `running.pop()` takes the last request. -/
theorem Step.RunningInv.pop (hs₀ : s₀.Partition) {st : Step ω} (h : RunningInv s₀ st)
    {id : String} (hlast : st.sched.running.getLast? = some id) :
    VictimRemoved s₀ st id { st with sched := { st.sched with
      running := st.sched.running.dropLast } } := by
  have hperm : st.sched.running.Perm (id :: st.sched.running.dropLast) := by
    obtain ⟨init, hinit⟩ := List.getLast?_eq_some_iff.mp hlast
    rw [hinit, List.dropLast_concat]
    exact List.perm_append_comm
  have hlength : st.sched.running.dropLast.length + 1 = st.sched.running.length := by
    rw [hperm.length_eq, List.length_cons]
  obtain ⟨habsent, hmarked⟩ := h.erase_marked hs₀ hperm
  refine ⟨⟨h.erase_perm hperm, h.intact.keeps.1, habsent, hmarked, h.pristine, h.scheduled, ?_⟩,
    ?_, hlength, ?_⟩
  · intro x hx hrun
    exact h.tokens x hx ((List.dropLast_sublist _).subset hrun)
  · simp only [Advances]
    omega
  · intro x hx hne
    cases List.mem_cons.mp (hperm.mem_iff.mp hx) with
    | inl heq => exact absurd heq hne
    | inr hmem => exact hmem

theorem removeVictim_spec (hs₀ : s₀.Partition) {st : Step ω} (h : RunningInv s₀ st)
    (plan : EncoderPlan) (request : Request) (hrun : st.sched.running ≠ []) (tokens : ℤ) :
    Checked (fun out => VictimRemoved s₀ st out.1 out.2.1)
      (removeVictim env cfg agents st plan request tokens) := by
  obtain ⟨running, hrunning, hids⟩ := h.intact.mapM_lookup hs₀
    fun id hid => mem_placed_of_running hid
  have hmem : ∀ r ∈ running, r.requestId ∈ st.sched.running := by
    intro r hr
    exact hids ▸ List.mem_map_of_mem hr
  refine Ensures.bind_ok hrunning ?_
  refine Ensures.bind (agentVictim_spec env agents h request tokens hmem) ?_
  rintro ⟨choice, st₁⟩ ⟨⟨backend, hst₁⟩, h₁, hchoice⟩
  dsimp only at hst₁ h₁ hchoice ⊢
  subst hst₁
  split
  · next id =>
    refine Ensures.bind (unschedule_spec env hs₀ h₁ plan (hchoice id rfl) true) ?_
    exact fun out hout => hout.of_withBackend
  · split
    · next hnone =>
      have hnil := firstBest_eq_none hnone
      subst hnil
      exact absurd hids.symm hrun
    · next r hr =>
      have hr' := hmem r (mem_of_firstBest hr)
      refine Ensures.bind (unschedule_spec env hs₀ h₁ plan hr' false) ?_
      exact fun out hout => hout.of_withBackend
  · split
    · next hnone => exact absurd (List.getLast?_eq_none_iff.mp hnone) hrun
    · next id hlast => exact (h₁.pop hs₀ hlast).of_withBackend

/-! ## Preemption and allocation -/

theorem preemptRequest_spec (hs₀ : s₀.Partition) {st : Step ω} {id : String}
    (h : Removed s₀ st id) :
    Checked (fun st' => RunningInv s₀ st' ∧ st'.sched.running = st.sched.running ∧
      st'.reqIndex = st.reqIndex) (preemptRequest env cfg st id) := by
  obtain ⟨r, hr, hlookup, -⟩ := h.same.lookup hs₀ (h.perm.mem_iff.mp List.mem_cons_self)
  refine Ensures.bind_ok hlookup ?_
  have hr' : ({ st.sched with backend := env.freePreempted st.sched r } :
    Scheduler ω).requests.get? id = some r := hr
  refine Ensures.bind (Scheduler.preempt_spec _ cfg.policy hr') ?_
  intro s hp
  have hrunning : s.running = st.sched.running := hp.running
  refine Ensures.ok ⟨⟨⟨?_, ?_, fun hm => ?_⟩, h.pristine, h.scheduled, ?_⟩, hrunning, rfl⟩
  · refine List.Perm.trans ?_ h.perm
    simp only [Step.placed, Scheduler.placed, hrunning, hp.skipped]
    refine (((hp.waiting.append_left _).append_right _).append_right _).trans ?_
    simp only [List.append_assoc, List.cons_append]
    exact List.perm_middle
  · exact fun x => (hp.same x).trans (h.same x)
  · exact hp.marked h.absent (h.marked hm)
  · intro x hx hrun
    exact h.tokens x hx (hrunning ▸ hrun)

/-- What the allocation loop leaves of the running list: the index has not fallen behind, and
a request that got its blocks is still running. -/
structure Step.Allocated (s₀ : Scheduler ω) (st : Step ω) (id : String) (allocated : Bool)
    (st' : Step ω) : Prop where
  inv : RunningInv s₀ st'
  advances : st.Advances st'
  running : allocated = true → id ∈ st'.sched.running

theorem allocateLoop_spec (hs₀ : s₀.Partition) (request : Request) (tokens : ℤ) :
    ∀ (fuel : ℕ) {st : Step ω} (plan : EncoderPlan), RunningInv s₀ st →
      request.requestId ∈ st.sched.running → st.sched.running.length < fuel →
      Checked (fun out => Allocated s₀ st request.requestId out.1 out.2.1)
        (allocateLoop env cfg agents request tokens fuel st plan) := by
  intro fuel
  induction fuel with
  | zero => exact fun _ _ _ hfuel => absurd hfuel (by omega)
  | succ fuel ih =>
      intro st plan h hreq hfuel
      rw [allocateLoop]
      obtain ⟨fits, backend⟩ := env.allocateRunning st.sched request tokens
      have hst := h.withBackend backend
      cases fits with
      | true => exact Ensures.ok ⟨hst, le_refl _, fun _ => hreq⟩
      | false =>
          have hne : (st.withBackend backend).sched.running ≠ [] := List.ne_nil_of_mem hreq
          refine Ensures.bind (removeVictim_spec env cfg agents hs₀ hst plan request hne tokens) ?_
          rintro ⟨id, st₁, plan₁⟩ hvictim
          replace hvictim : VictimRemoved s₀ st id st₁ := hvictim.of_withBackend
          refine Ensures.bind (preemptRequest_spec env cfg hs₀ hvictim.removed) ?_
          rintro st₂ ⟨h₂, hrun₂, hindex₂⟩
          have hadv : st.Advances st₂ := by
            have := hvictim.advances
            simp only [Advances, hrun₂, hindex₂] at this ⊢
            exact this
          have h₃ : RunningInv s₀ { st₂ with preemptedReqs := st₂.preemptedReqs ++ [id] } :=
            ⟨⟨h₂.intact.perm, h₂.intact.keeps⟩, h₂.pristine, h₂.scheduled, h₂.tokens⟩
          dsimp only
          split
          · exact Ensures.ok ⟨h₃, hadv, by simp⟩
          · next hid =>
            have hreq₃ : request.requestId ∈ st₂.sched.running :=
              hrun₂ ▸ hvictim.remaining _ hreq (Ne.symm hid)
            have hfuel₃ : st₂.sched.running.length < fuel := by
              have := hvictim.shorter
              rw [hrun₂]
              omega
            refine (ih plan₁ h₃ hreq₃ hfuel₃).mono ?_
            intro out hout
            refine ⟨hout.inv, ?_, hout.running⟩
            have := hout.advances
            simp only [Advances] at this hadv ⊢
            omega

/-! ## The loop -/

theorem planEncoder_eq (st : Step ω) (r : Request) (computed tokens : ℤ) :
    ∃ plan backend, planEncoder env st r computed tokens = (plan, st.withBackend backend) := by
  rw [planEncoder]
  split
  · exact ⟨_, _, rfl⟩
  · exact ⟨_, st.sched.backend, rfl⟩

theorem growth_eq (st : Step ω) (b : ω) (r : Request) (tokens : ℤ) :
    ∃ mayGrow backend, growth env agents (st.withBackend b) r tokens =
      (mayGrow, st.withBackend backend) := by
  cases agents with
  | none => exact ⟨_, b, rfl⟩
  | some a => exact ⟨_, _, rfl⟩

theorem scheduleRunning_spec {st : Step ω} (h : RunningInv s₀ st) {r : Request}
    (hr : r.requestId ∈ st.sched.running) (tokens : ℤ) (limitedPrefill : Bool)
    (plan : EncoderPlan) : RunningInv s₀ (scheduleRunning st r tokens limitedPrefill plan) := by
  refine ⟨⟨h.intact.perm, ?_⟩, h.pristine, ?_, ?_⟩
  · refine h.intact.keeps.trans (Scheduler.keeps_setRequest _ _ ?_)
    exact fun _ _ => ⟨rfl, Iff.rfl⟩
  · intro x hx
    cases List.mem_append.mp hx with
    | inl hx => exact h.scheduled x hx
    | inr hx =>
        rw [List.mem_singleton.mp hx]
        exact h.intact.perm.mem_iff.mp (mem_placed_of_running hr)
  · intro x hx hrun
    refine OrdDict.mem_keys_insert.mpr ?_
    cases List.mem_append.mp hx with
    | inl hx => exact .inr (h.tokens x hx hrun)
    | inr hx => exact .inl (List.mem_singleton.mp hx)

theorem runningStep_spec (hs₀ : s₀.Partition) {st : Step ω} (h : RunningInv s₀ st) {id : String}
    (hid : st.sched.running[st.reqIndex]? = some id) :
    Checked (fun out => RunningInv s₀ out.2 ∧ (out.1 = true →
      out.2.sched.running.length + st.reqIndex < st.sched.running.length + out.2.reqIndex))
      (runningStep env cfg agents st id) := by
  have hmem : id ∈ st.sched.running := List.mem_of_getElem? hid
  obtain ⟨r, -, hlookup, hkey, -⟩ := h.intact.lookup hs₀ (mem_placed_of_running hmem)
  refine Ensures.bind_ok hlookup ?_
  have hskip : ∀ backend, RunningInv s₀ (skipRunning (st.withBackend backend)) := fun backend =>
    ⟨⟨h.intact.perm, h.intact.keeps⟩, h.pristine, h.scheduled, h.tokens⟩
  split
  · exact Ensures.ok ⟨hskip st.sched.backend, fun _ => Nat.lt_succ_self _⟩
  · obtain ⟨tokens, limitedPrefill⟩ := runningTokens cfg agents st r
    obtain ⟨plan, b, hplan⟩ : ∃ plan b, planEncoder env st r r.numComputedTokens tokens =
        (plan, st.withBackend b) := planEncoder_eq env st r _ tokens
    dsimp only
    rw [hplan]
    dsimp only
    split
    · exact Ensures.ok ⟨hskip b, fun _ => Nat.lt_succ_self _⟩
    · obtain ⟨mayGrow, b', hgrow⟩ : ∃ mayGrow b', growth env agents (st.withBackend b) r
          (alignMamba env cfg (st.withBackend b) r plan.numNewTokens) =
            (mayGrow, st.withBackend b') := growth_eq env agents st b r _
      rw [hgrow]
      dsimp only
      split
      · have hmem' : r.requestId ∈ (st.withBackend b').sched.running := hkey ▸ hmem
        refine Ensures.bind (allocateLoop_spec env cfg agents hs₀ r _ _ plan
          (h.withBackend b') hmem' (Nat.lt_succ_self _)) ?_
        rintro ⟨allocated, st₁, plan₁⟩ hout
        have hadv : st.Advances st₁ := hout.advances
        cases allocated with
        | false => exact Ensures.ok ⟨hout.inv, by simp⟩
        | true =>
            refine Ensures.ok ⟨scheduleRunning_spec hout.inv (hout.running rfl) _ _ _, ?_⟩
            intro _
            exact Nat.lt_succ_of_le hadv
      · exact Ensures.ok ⟨hskip b', fun _ => Nat.lt_succ_self _⟩

theorem runningLoop_spec (hs₀ : s₀.Partition) : ∀ (fuel : ℕ) {st : Step ω}, RunningInv s₀ st →
    st.sched.running.length - st.reqIndex < fuel →
    Checked (RunningInv s₀) (runningLoop env cfg agents fuel st) := by
  intro fuel
  induction fuel with
  | zero => exact fun _ hfuel => absurd hfuel (by omega)
  | succ fuel ih =>
      intro st h hfuel
      rw [runningLoop]
      split
      · exact Ensures.ok h
      · next id hid =>
        have hindex : st.reqIndex < st.sched.running.length := (List.getElem?_eq_some_iff.mp hid).1
        split
        · refine Ensures.bind (runningStep_spec env cfg agents hs₀ h hid) ?_
          rintro ⟨again, st₁⟩ ⟨h₁, hadv⟩
          cases again with
          | false => exact Ensures.ok h₁
          | true =>
              refine ih h₁ ?_
              have := hadv rfl
              dsimp only at this
              omega
        · exact Ensures.ok h

end Loop

end TokenCake.Sched
