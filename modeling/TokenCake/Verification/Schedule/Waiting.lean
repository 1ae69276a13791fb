import Mathlib.Data.List.TakeWhile
import TokenCake.Verification.Schedule.Running
import TokenCake.Verification.Schedule.Places

/-! # The waiting loop

Each function of the waiting loop either leaves every request where it is or makes one of the
moves of `Places`. -/

namespace TokenCake.Sched

variable {ω : Type}

namespace Step

def places (st : Step ω) : Places where
  running := st.sched.running
  waiting := st.sched.waiting
  skipped := st.sched.skippedWaiting
  stepSkipped := st.stepSkippedWaiting
  deferred := st.reservationDeferred
  borrow := st.borrowReserved
  order := st.agentOrder
  visits := st.visits

/-- No request moves and none finishes. -/
structure Quiet (st st' : Step ω) : Prop where
  keeps : Scheduler.Keeps st.sched st'.sched
  places : st'.places = st.places

/-- The invariant of the waiting loop over the requests of `s₀`. -/
structure WaitingInv (s₀ : Scheduler ω) (pool : List String) (held : Option String)
    (st : Step ω) : Prop where
  intact : Intact s₀ st
  inv : st.places.Inv pool held

theorem Quiet.refl (st : Step ω) : Quiet st st := ⟨.refl _, rfl⟩

theorem Quiet.trans {st st' st'' : Step ω} (h : Quiet st st') (h' : Quiet st' st'') :
    Quiet st st'' :=
  ⟨h.keeps.trans h'.keeps, h'.places.trans h.places⟩

theorem Quiet.withBackend (st : Step ω) (backend : ω) : Quiet st (st.withBackend backend) :=
  ⟨.refl _, rfl⟩

theorem Quiet.placed {st st' : Step ω} (h : Quiet st st') : st'.placed = st.placed :=
  congrArg Places.all h.places

theorem WaitingInv.quiet {s₀ : Scheduler ω} {pool : List String} {held : Option String}
    {st st' : Step ω} (h : WaitingInv s₀ pool held st) (hq : Quiet st st') :
    WaitingInv s₀ pool held st' :=
  ⟨h.intact.of_perm (.of_eq hq.placed) hq.keeps, hq.places ▸ h.inv⟩

/-- One request leaves its queue. -/
structure Leaves (st : Step ω) (id : String) (name : QueueName) (st' : Step ω) : Prop where
  keeps : Scheduler.Keeps st.sched st'.sched
  move : st.places.Leaves id name st'.places

theorem Leaves.of_quiet {st st₁ st' : Step ω} {id : String} {name : QueueName}
    (h : Leaves st₁ id name st') (hq : Quiet st st₁) : Leaves st id name st' :=
  ⟨hq.keeps.trans h.keeps, hq.places ▸ h.move⟩

theorem WaitingInv.visit {s₀ : Scheduler ω} {pool : List String} {st : Step ω}
    (h : WaitingInv s₀ pool none st) {id : String} (hid : id ∈ st.places.queued) :
    WaitingInv s₀ pool (some id) (Sched.visit st id) :=
  ⟨⟨h.intact.perm, h.intact.keeps⟩, h.inv.visit hid⟩

theorem WaitingInv.leave {s₀ : Scheduler ω} {pool : List String} {st st' : Step ω} {id : String}
    {name : QueueName} (h : WaitingInv s₀ pool (some id) st) (hl : Leaves st id name st') :
    WaitingInv s₀ pool none st' ∧ st'.places.measure < st.places.measure := by
  obtain ⟨hinv, hmeasure⟩ := h.inv.leave hl.move
  exact ⟨⟨h.intact.of_perm hl.move.all hl.keeps, hinv⟩, hmeasure⟩

theorem queue_places (st : Step ω) (name : QueueName) :
    st.sched.queue name = st.places.queue name := by
  cases name with
  | waiting => rfl
  | skipped => rfl

theorem mem_queue_of_tagged {st : Step ω} {id : String} {name : QueueName}
    (h : (id, name) ∈ st.places.tagged) : id ∈ st.sched.queue name := by
  rw [queue_places]
  exact Places.mem_tagged.mp h

theorem mem_placed_of_tagged {st : Step ω} {c : String × QueueName}
    (h : c ∈ st.places.tagged) : c.1 ∈ st.placed :=
  mem_placed_of_queue (mem_queue_of_tagged h)

end Step

open Step

/-! ## Taking a request out of its queue -/

section Take

variable (cfg : SchedulerConfig) {st : Step ω} {id : String} {name : QueueName}

theorem tagged_erase (hid : id ∈ st.sched.queue name) :
    st.places.Takes id name
      { st with sched := st.sched.setQueue name ((st.sched.queue name).erase id) }.places := by
  have hperm := List.perm_cons_erase hid
  cases name with
  | waiting =>
      refine ⟨?_, rfl, rfl, rfl, rfl, rfl, rfl⟩
      exact ((hperm.map fun id => (id, QueueName.waiting)).append_left _).trans List.perm_middle
  | skipped =>
      refine ⟨?_, rfl, rfl, rfl, rfl, rfl, rfl⟩
      exact (hperm.map fun id => (id, QueueName.skipped)).append_right _

theorem setQueue_keeps (s : Scheduler ω) (name : QueueName) (queue : RequestQueue) :
    s.Keeps (s.setQueue name queue) := by
  cases name with
  | waiting => exact .refl _
  | skipped => exact .refl _

theorem removeRequest_eq (hid : id ∈ st.sched.queue name) :
    st.sched.removeRequest name id =
      .ok (st.sched.setQueue name ((st.sched.queue name).erase id)) := by
  simp [Scheduler.removeRequest, hid]

/-- Popping the request at the head is removing it. -/
theorem popRequest_eq (hhead : (st.sched.queue name).head? = some id) :
    st.sched.popRequest name =
      .ok (st.sched.setQueue name ((st.sched.queue name).erase id)) := by
  obtain ⟨rest, hrest⟩ := List.head?_eq_some_iff.mp hhead
  simp [Scheduler.popRequest, hrest]

theorem skip_leaves (hid : id ∈ st.sched.queue name) :
    Step.Leaves st id name (skip cfg { st with
      sched := st.sched.setQueue name ((st.sched.queue name).erase id) } id) :=
  ⟨setQueue_keeps _ _ _,
    (tagged_erase hid).skip (RequestQueue.prependRequest_perm cfg.policy _ _ id)⟩

theorem removeAndSkip_spec (hid : id ∈ st.sched.queue name) :
    Checked (fun st' => Step.Leaves st id name st' ∧
      st'.reservationDeferred = st.reservationDeferred ∧ id ∈ st'.stepSkippedWaiting)
      (removeAndSkip cfg st name id) := by
  refine Ensures.bind_ok (removeRequest_eq hid) (Ensures.ok ⟨skip_leaves cfg hid, rfl, ?_⟩)
  exact (RequestQueue.prependRequest_perm cfg.policy _ _ id).mem_iff.mpr List.mem_cons_self

theorem popAndSkip_spec (hhead : (st.sched.queue name).head? = some id) :
    Checked (Step.Leaves st id name) (popAndSkip cfg st name id) :=
  Ensures.bind_ok (popRequest_eq hhead)
    (Ensures.ok (skip_leaves cfg (List.mem_of_mem_head? hhead)))

end Take

/-! ## Looking at a request -/

section Examine

variable {s₀ : Scheduler ω} (hs₀ : s₀.Partition) {st : Step ω} (hst : Intact s₀ st)
variable (env : Collaborators ω) (cfg : SchedulerConfig) (agents : Option Agents)

/-- Writing to an unfinished request without finishing it. -/
theorem quiet_setRequest {id : String} {r : Request} (hr : st.sched.requests.get? id = some r)
    (backend : ω) {f : Request → Request} (hf : (f r).identity = r.identity)
    (hstatus : (f r).status = .running ↔ r.status = .running) :
    Quiet st { st.withBackend backend with
      sched := (st.withBackend backend).sched.setRequest id f } := by
  refine ⟨Scheduler.keeps_setRequest (st.withBackend backend).sched id ?_, rfl⟩
  intro r' hr'
  obtain rfl : r = r' := by simpa [Step.withBackend, hr] using hr'
  exact ⟨hf, hstatus⟩

include hs₀ hst

theorem tryPromote_spec {id : String} (hid : id ∈ st.placed) :
    Checked (fun out => Quiet st out.2) (tryPromote env st id) := by
  obtain ⟨r, hr, hlookup, -⟩ := hst.lookup hs₀ hid
  refine Ensures.bind_ok hlookup ?_
  split
  · next hstatus =>
    split
    · refine Ensures.ok (quiet_setRequest hr _ ?_ ?_)
      · simp only [Request.identity, Request.isFinished, hstatus]
        split <;> rfl
      · rw [hstatus]
        split <;> simp
    · exact Ensures.ok (.refl _)
  · next hstatus =>
    split
    · refine Ensures.ok (quiet_setRequest hr st.sched.backend ?_ ?_)
      · simp only [Request.identity, Request.isFinished, hstatus, RequestStatus.isFinished]
      · simp [hstatus]
    · exact Ensures.ok (.refl _)
  · split
    · exact Ensures.ok (.refl _)
    · exact Ensures.error trivial
  · exact Ensures.error trivial

theorem unblock_spec {id : String} (hid : id ∈ st.placed) :
    Checked (fun out => Quiet st out.2) (unblock env st id) := by
  obtain ⟨r, -, hlookup, -⟩ := hst.lookup hs₀ hid
  refine Ensures.bind_ok hlookup ?_
  split
  · exact tryPromote_spec hs₀ hst env hid
  · exact Ensures.ok (.refl _)

theorem checkEligible_spec {candidate : String} (hid : candidate ∈ st.placed) (best : String) :
    Checked (fun out => Quiet st out.2 ∧ (candidate = best → out.1 = true))
      (checkEligible env cfg st candidate best) := by
  rw [checkEligible]
  split
  · exact Ensures.ok ⟨.refl _, fun _ => rfl⟩
  · next hne =>
    refine Ensures.bind (unblock_spec hs₀ hst env hid) ?_
    rintro ⟨unblocked, st₁⟩ hq
    have h₁ : Intact s₀ st₁ := hst.of_perm (.of_eq hq.placed) hq.keeps
    obtain ⟨r, -, hlookup, -⟩ := h₁.lookup hs₀ (hq.placed ▸ hid)
    refine Ensures.bind_ok hlookup (Ensures.ok ⟨hq, ?_⟩)
    exact fun heq => absurd heq hne

omit hs₀ hst

theorem lookupCache_quiet (r : Request) : Quiet st (lookupCache env cfg agents st r).2 := by
  simp only [lookupCache]
  split
  · split
    · split
      · exact ⟨.refl _, rfl⟩
      · split <;> exact ⟨.refl _, rfl⟩
    · split
      · exact ⟨.refl _, rfl⟩
      · split <;> exact ⟨.refl _, rfl⟩
  · exact ⟨.refl _, rfl⟩

theorem planChunk_spec (r : Request) (computed : ℤ) (loadKvAsync : Bool) :
    Checked (fun out => Quiet st out.2) (planChunk env cfg agents st r computed loadKvAsync) := by
  rw [planChunk]
  split
  · dsimp only
    split <;> exact Ensures.ok (.refl _)
  · dsimp only
    split
    · exact Ensures.ok (.refl _)
    · split
      · exact Ensures.error trivial
      · obtain ⟨tokens, limitedPrefill⟩ := limitPrefill cfg agents st r _
        dsimp only
        split
        · exact Ensures.ok (.refl _)
        · obtain ⟨plan, backend, hplan⟩ := planEncoder_eq env st r computed _
          rw [hplan]
          dsimp only
          split
          · exact Ensures.ok (.withBackend st backend)
          · split <;> exact Ensures.ok (.withBackend st backend)

end Examine

/-! ## Screening -/

/-- The queue entries of the collected candidates. -/
def entries (eligible : List (Request × QueueName)) : List (String × QueueName) :=
  eligible.map fun c => (c.1.requestId, c.2)

/-- The invariant of the eligibility pass, with `rest` still to be screened. -/
structure Screening (s₀ : Scheduler ω) (pool : List String) (cached : Bool)
    (rest : List (String × QueueName)) (st : Step ω) (best : String × QueueName)
    (eligible : List (Request × QueueName)) : Prop where
  inv : WaitingInv s₀ pool none st
  unordered : st.agentOrder = none
  rest_nodup : rest.Nodup
  rest_mem : ∀ c ∈ rest, c ∈ st.places.tagged
  best_mem : best ∈ st.places.tagged
  complete : cached = true → (entries eligible ++ rest).Perm st.places.tagged

section Screen

variable {s₀ : Scheduler ω} (hs₀ : s₀.Partition) {pool : List String}
variable (env : Collaborators ω) (cfg : SchedulerConfig) (a : Agents)

theorem Screening.quiet {cached : Bool} {rest : List (String × QueueName)} {st st' : Step ω}
    {best : String × QueueName} {eligible : List (Request × QueueName)}
    (h : Screening s₀ pool cached rest st best eligible) (hq : Quiet st st') :
    Screening s₀ pool cached rest st' best eligible :=
  ⟨h.inv.quiet hq, (congrArg Places.order hq.places).trans h.unordered, h.rest_nodup,
    hq.places ▸ h.rest_mem, hq.places ▸ h.best_mem, hq.places ▸ h.complete⟩

/-- A candidate that cannot run leaves its queue. -/
theorem Screening.leave {cached : Bool} {candidate : String × QueueName}
    {rest : List (String × QueueName)} {st st' : Step ω} {best : String × QueueName}
    {eligible : List (Request × QueueName)}
    (h : Screening s₀ pool cached (candidate :: rest) st best eligible)
    (hl : Step.Leaves (visit st candidate.1) candidate.1 candidate.2 st')
    (hne : candidate.1 ≠ best.1) :
    Screening s₀ pool cached rest st' best eligible ∧
      st'.places.measure ≤ st.places.measure := by
  have hmem := h.rest_mem candidate List.mem_cons_self
  have hqueued : candidate.1 ∈ st.places.queued := List.mem_map_of_mem hmem
  obtain ⟨hinv, hmeasure⟩ := (h.inv.visit hqueued).leave hl
  have hperm : st.places.tagged.Perm (candidate :: st'.places.tagged) := hl.move.tagged
  have hkeep : ∀ c ∈ st.places.tagged, c ≠ candidate → c ∈ st'.places.tagged := by
    intro c hc hcne
    cases List.mem_cons.mp (hperm.mem_iff.mp hc) with
    | inl heq => exact absurd heq hcne
    | inr hc => exact hc
  have hnodup := List.nodup_cons.mp h.rest_nodup
  refine ⟨⟨hinv, hl.move.order.trans h.unordered, hnodup.2, ?_, ?_, ?_⟩, hmeasure.le⟩
  · intro c hc
    refine hkeep c (h.rest_mem c (List.mem_cons_of_mem _ hc)) ?_
    exact fun heq => hnodup.1 (heq ▸ hc)
  · exact hkeep best h.best_mem fun heq => hne (heq ▸ rfl)
  · intro hcached
    have := (h.complete hcached).trans hperm
    exact (List.perm_cons candidate).mp (List.perm_middle.symm.trans this)

include hs₀ in
theorem screenCandidates_spec (cached : Bool) : ∀ (rest : List (String × QueueName))
    {st : Step ω} {best : String × QueueName} {eligible : List (Request × QueueName)},
    Screening s₀ pool cached rest st best eligible →
    Checked (fun out => Screening s₀ pool cached [] out.1 out.2.1 out.2.2 ∧
      out.1.places.measure ≤ st.places.measure)
      (screenCandidates env cfg a cached rest st best eligible) := by
  intro rest
  induction rest with
  | nil => exact fun h => Ensures.ok ⟨h, le_refl _⟩
  | cons candidate rest ih =>
      intro st best eligible h
      obtain ⟨id, name⟩ := candidate
      have hplaced : id ∈ st.placed :=
        mem_placed_of_tagged (h.rest_mem (id, name) List.mem_cons_self)
      refine Ensures.bind (checkEligible_spec hs₀ h.inv.intact env cfg hplaced best.1) ?_
      rintro ⟨eligibleNow, st₁⟩ ⟨hq, hpeeked⟩
      have h₁ := h.quiet hq
      have hmeasure₁ : st₁.places.measure = st.places.measure := congrArg _ hq.places
      have hmem₁ := h₁.rest_mem _ List.mem_cons_self
      have hnodup := List.nodup_cons.mp h₁.rest_nodup
      have hrest : ∀ c ∈ rest, c ∈ st₁.places.tagged := fun c hc =>
        h₁.rest_mem c (List.mem_cons_of_mem _ hc)
      cases eligibleNow with
      | true =>
          obtain ⟨r, -, hlookup, hkey, -⟩ := h₁.inv.intact.lookup hs₀ (hq.placed ▸ hplaced)
          refine Ensures.bind_ok hlookup ?_
          split
          · have hcomplete : cached = true →
                (entries (eligible ++ [(r, name)]) ++ rest).Perm st₁.places.tagged := by
              intro hcached
              simpa [entries, hkey] using h₁.complete hcached
            rw [← hmeasure₁]
            exact ih ⟨h₁.inv, h₁.unordered, hnodup.2, hrest, h₁.best_mem, hcomplete⟩
          · next hcached =>
            obtain ⟨current, -, hcurrent, -⟩ :=
              h₁.inv.intact.lookup hs₀ (mem_placed_of_tagged h₁.best_mem)
            refine Ensures.bind_ok hcurrent ?_
            rw [← hmeasure₁]
            refine ih ⟨h₁.inv, h₁.unordered, hnodup.2, hrest, ?_, fun h => absurd h hcached⟩
            split
            · exact hmem₁
            · exact h₁.best_mem
      | false =>
          have hqueue : id ∈ (visit st₁ id).sched.queue name := mem_queue_of_tagged hmem₁
          refine Ensures.bind (removeAndSkip_spec cfg hqueue) ?_
          rintro st₂ ⟨hl, _⟩
          have hne : id ≠ best.1 := fun heq => by simpa using hpeeked heq
          obtain ⟨h₂, hmeasure₂⟩ := h₁.leave hl hne
          refine (ih h₂).mono fun out hout => ⟨hout.1, ?_⟩
          exact (hout.2.trans hmeasure₂).trans hmeasure₁.le

end Screen

/-! ## The controller's orders are permutations -/

namespace Agents

theorem scoreBands_flatten (agents : Agents) (band : ℤ) :
    ∀ (fuel : ℕ) (items : List (Request × QueueName)), items.length ≤ fuel →
      (agents.scoreBands band fuel items).flatten = items := by
  intro fuel
  induction fuel with
  | zero =>
      intro items hlength
      rw [List.length_eq_zero_iff.mp (Nat.le_zero.mp hlength)]
      rfl
  | succ fuel ih =>
      intro items hlength
      cases items with
      | nil => rfl
      | cons first rest =>
          have hrest : rest.length ≤ fuel := by simpa using hlength
          rw [scoreBands, List.flatten_cons, ih _ ((List.dropWhile_sublist _).length_le.trans hrest)]
          exact congrArg (first :: ·) (List.takeWhile_append_dropWhile)

theorem orderCandidates_perm (agents : Agents) (applies : Bool) (affinity : Request → ℚ × ℤ)
    (candidates : List (Request × QueueName)) :
    (agents.orderCandidates applies affinity candidates).Perm candidates := by
  rw [orderCandidates]
  dsimp only
  split
  · exact List.mergeSort_perm _ _
  · refine List.Perm.trans ?_ (List.mergeSort_perm candidates fun a b => !agents.orderBefore b.1 a.1)
    generalize candidates.mergeSort _ = ordered
    have hgroups (bands : List (List (Request × QueueName))) :
        (bands.map fun group => group.mergeSort fun a b =>
          decide (toLex (affinity b.1) ≤ toLex (affinity a.1))).flatten.Perm bands.flatten := by
      induction bands with
      | nil => exact .refl _
      | cons group groups ih => exact (List.mergeSort_perm _ _).append ih
    have hflatten := agents.scoreBands_flatten agents.cacheAffinityScoreBand ordered.length ordered
      (le_refl _)
    exact (hgroups _).trans (.of_eq hflatten)

theorem mergedQueues_perm (policy : SchedulingPolicy) (st : Step ω) :
    (mergedQueues policy st.sched).Perm st.places.tagged := by
  cases policy with
  | fcfs => exact .refl _
  | priority => exact List.merge_perm_append _

theorem annotatedPrefix_perm (agents : Agents) (policy : SchedulingPolicy) {st : Step ω}
    (h : ∀ id ∈ st.places.queued, agents.annotated id = true) :
    (agents.annotatedPrefix policy st.sched).Perm st.places.tagged := by
  have hmerged := mergedQueues_perm policy st
  rw [annotatedPrefix, List.takeWhile_eq_self_iff.mpr]
  · exact hmerged
  · intro c hc
    exact h c.1 (List.mem_map_of_mem (hmerged.mem_iff.mp hc))

end Agents

section NextAgent

variable {s₀ : Scheduler ω} (hs₀ : s₀.Partition) {pool : List String}
variable (env : Collaborators ω) (cfg : SchedulerConfig) (a : Agents)

/-- A state in which `chosen` may be examined. -/
structure Chosen (s₀ : Scheduler ω) (pool : List String) (cached : Bool)
    (chosen : String × QueueName) (st : Step ω) : Prop where
  inv : WaitingInv s₀ pool none st
  mem : chosen ∈ st.places.tagged
  ordered : st.places.Ordered cached [chosen]

include hs₀

theorem screen_spec {cached : Bool} (hannotated : cached = true → ∀ id ∈ pool, a.annotated id = true)
    {st : Step ω} (h : WaitingInv s₀ pool none st) (hordered : st.places.Ordered cached [])
    {peeked : String × QueueName} (hpeeked : peeked ∈ st.places.tagged) :
    Checked (fun out => WaitingInv s₀ pool none out.1 ∧ out.1.places.Ordered cached [] ∧
      out.2 ∈ out.1.places.tagged ∧ out.1.places.measure ≤ st.places.measure)
      (screen env cfg a cached st peeked) := by
  rw [screen]
  split
  · exact Ensures.ok ⟨h, hordered, hpeeked, le_refl _⟩
  · next hnone =>
    have hnodup : st.places.tagged.Nodup := h.inv.queued_nodup.of_map
    have hmerged := Agents.mergedQueues_perm cfg.policy st
    have hstart : Screening s₀ pool cached (a.annotatedPrefix cfg.policy st.sched) st peeked [] := by
      refine ⟨h, hnone, ?_, ?_, hpeeked, ?_⟩
      · exact (hmerged.nodup_iff.mpr hnodup).sublist (List.takeWhile_sublist _)
      · intro c hc
        exact hmerged.mem_iff.mp ((List.takeWhile_sublist _).subset hc)
      intro hcached
      refine a.annotatedPrefix_perm cfg.policy fun id hid => ?_
      exact hannotated hcached id (h.inv.within id (.inl hid))
    refine Ensures.bind (screenCandidates_spec hs₀ env cfg a cached _ hstart) ?_
    rintro ⟨st₁, best, eligible⟩ ⟨h₁, hmeasure⟩
    dsimp only at h₁ hmeasure ⊢
    split
    · next hcached =>
      have hperm : (entries eligible).Perm st₁.places.tagged := by
        simpa using h₁.complete hcached
      refine Ensures.ok ⟨⟨⟨h₁.inv.intact.perm, h₁.inv.intact.keeps⟩, h₁.inv.inv.withOrder _⟩, ?_,
        h₁.best_mem, hmeasure⟩
      intro order horder
      obtain rfl := Option.some.inj horder
      exact ⟨hcached, ((a.orderCandidates_perm _ _ eligible).map _).trans hperm⟩
    · refine Ensures.ok ⟨h₁.inv, ?_, h₁.best_mem, hmeasure⟩
      intro order horder
      exact absurd horder (by simp [h₁.unordered, Step.places])

theorem nextAgent_spec {cached : Bool}
    (hannotated : cached = true → ∀ id ∈ pool, a.annotated id = true) {st : Step ω}
    (h : WaitingInv s₀ pool none st) (hordered : st.places.Ordered cached [])
    {peeked : String × QueueName} (hpeeked : peeked ∈ st.places.tagged) :
    Checked (fun out => Chosen s₀ pool cached out.2 out.1 ∧
      out.1.places.measure ≤ st.places.measure) (nextAgent env cfg a cached st peeked) := by
  refine Ensures.bind (screen_spec hs₀ env cfg a hannotated h hordered hpeeked) ?_
  rintro ⟨st₁, best⟩ ⟨h₁, hordered₁, hbest, hmeasure⟩
  dsimp only at h₁ hordered₁ hbest hmeasure ⊢
  split
  · next hnone =>
    refine Ensures.ok ⟨⟨h₁, hbest, ?_⟩, hmeasure⟩
    intro order horder
    exact absurd horder (by simp [hnone, Step.places])
  · next hnil =>
    -- the frozen order lists every queued request, and `best` is one of them
    have hperm := (hordered₁ [] hnil).2
    exact absurd (hperm.mem_iff.mpr hbest) List.not_mem_nil
  · next first rest hcons =>
    obtain ⟨hcached, hperm⟩ := hordered₁ _ hcons
    refine Ensures.ok ⟨⟨⟨⟨h₁.intact.perm, h₁.intact.keeps⟩, h₁.inv.withOrder _⟩, ?_, ?_⟩, hmeasure⟩
    · exact hperm.mem_iff.mp List.mem_cons_self
    · intro order horder
      obtain rfl := Option.some.inj horder
      exact ⟨hcached, hperm⟩

end NextAgent

end TokenCake.Sched
