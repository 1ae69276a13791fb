import Mathlib.Data.List.Count
import Mathlib.Data.Bool.Count
import TokenCake.Model.Engine
import TokenCake.Verification.Schedule.Conservation

/-! # The partition by counting

A partition says how often each request occurs in the places: once if it is unfinished, and
otherwise never. In this form a call that touches one request is checked at that request. -/

namespace TokenCake.Sched

variable {ω : Type}

namespace Scheduler

def unfinished (s : Scheduler ω) (id : String) : Bool :=
  (s.requests.get? id).any fun r => !r.isFinished

/-- The partition, with the running requests marked as such. -/
structure Balanced (s : Scheduler ω) : Prop where
  keyed : ∀ id r, s.requests.get? id = some r → r.requestId = id
  count : ∀ id, s.running.count id + s.waiting.count id + s.skippedWaiting.count id =
    (s.unfinished id).toNat
  marked : s.RunningMarked

theorem unfinished_iff {s : Scheduler ω} {id : String} :
    s.unfinished id = true ↔ ∃ r, s.requests.get? id = some r ∧ r.isFinished = false := by
  cases hr : s.requests.get? id with
  | none => simp [unfinished, hr]
  | some r => simp [unfinished, hr]

theorem count_placed (s : Scheduler ω) (id : String) :
    s.placed.count id = s.running.count id + s.waiting.count id + s.skippedWaiting.count id := by
  simp only [placed, List.count_append]

theorem Balanced.partition {s : Scheduler ω} (h : s.Balanced) : s.Partition := by
  have hcount : ∀ id, s.placed.count id = (s.unfinished id).toNat := fun id =>
    (s.count_placed id).trans (h.count id)
  refine ⟨h.keyed, ?_, ?_⟩
  · refine List.nodup_iff_count_le_one.mpr fun id => ?_
    rw [hcount]
    exact Bool.toNat_le _
  · intro id
    rw [← List.count_pos_iff, hcount, ← unfinished_iff]
    cases s.unfinished id <;> simp

theorem Partition.balanced {s : Scheduler ω} (h : s.Partition) (hm : s.RunningMarked) :
    s.Balanced := by
  refine ⟨h.keyed, ?_, hm⟩
  intro id
  rw [← count_placed]
  cases hu : s.unfinished id with
  | true =>
      have hmem := (h.mem_iff id).mpr (unfinished_iff.mp hu)
      exact List.count_eq_one_of_mem h.nodup hmem
  | false =>
      refine List.count_eq_zero.mpr fun hmem => ?_
      simp [unfinished_iff.mpr ((h.mem_iff id).mp hmem)] at hu

/-- The two schedulers agree on every request but `id`. -/
structure Agrees (s s' : Scheduler ω) (id : String) : Prop where
  requests : ∀ k, k ≠ id → s'.requests.get? k = s.requests.get? k
  running : ∀ k, k ≠ id → s'.running.count k = s.running.count k
  waiting : ∀ k, k ≠ id → s'.waiting.count k = s.waiting.count k
  skipped : ∀ k, k ≠ id → s'.skippedWaiting.count k = s.skippedWaiting.count k

/-- The balance after a change of one request is checked at that request. -/
theorem Balanced.update {s s' : Scheduler ω} {id : String} (h : s.Balanced)
    (ha : Agrees s s' id) (hkey : ∀ r, s'.requests.get? id = some r → r.requestId = id)
    (hcount : s'.running.count id + s'.waiting.count id + s'.skippedWaiting.count id =
      (s'.unfinished id).toNat)
    (hmark : ∀ r, s'.requests.get? id = some r → (r.status = .running ↔ id ∈ s'.running)) :
    s'.Balanced := by
  refine ⟨?_, ?_, ?_⟩
  · intro k r hr
    by_cases hk : k = id
    · exact hk ▸ hkey r (hk ▸ hr)
    · exact h.keyed k r (ha.requests k hk ▸ hr)
  · intro k
    by_cases hk : k = id
    · exact hk ▸ hcount
    · have := h.count k
      simp only [unfinished, ha.requests k hk, ha.running k hk, ha.waiting k hk,
        ha.skipped k hk] at this ⊢
      exact this
  · intro k r hr
    by_cases hk : k = id
    · subst hk
      exact hmark r hr
    · rw [← List.count_pos_iff, ha.running k hk, List.count_pos_iff]
      exact h.marked k r (ha.requests k hk ▸ hr)

/-- Only the fields of the record that no place and no mark depends on change. -/
theorem Balanced.of_keeps {s s' : Scheduler ω} (h : s.Balanced) (hk : Keeps s s')
    (hp : s'.placed.Perm s.placed) : s'.Balanced :=
  (h.partition.of_perm hp hk.1).balanced (hk.2 h.marked)

theorem Agrees.trans {s s' s'' : Scheduler ω} {id : String} (h : Agrees s s' id)
    (h' : Agrees s' s'' id) : Agrees s s'' id :=
  ⟨fun k hk => (h'.requests k hk).trans (h.requests k hk),
    fun k hk => (h'.running k hk).trans (h.running k hk),
    fun k hk => (h'.waiting k hk).trans (h.waiting k hk),
    fun k hk => (h'.skipped k hk).trans (h.skipped k hk)⟩

/-! ## What single calls do to the counts -/

theorem agrees_setRequest (s : Scheduler ω) (id : String) (f : Request → Request) :
    Agrees s (s.setRequest id f) id := by
  refine ⟨fun k hk => ?_, fun _ _ => rfl, fun _ _ => rfl, fun _ _ => rfl⟩
  simp [setRequest, OrdDict.get?_modify, hk]

end Scheduler

theorem RequestQueue.count_addRequest (policy : SchedulingPolicy)
    (before : String → String → Bool) (queue : RequestQueue) (id k : String) :
    (RequestQueue.addRequest policy before queue id).count k =
      queue.count k + if k = id then 1 else 0 := by
  rw [(addRequest_perm policy before queue id).count_eq, List.count_cons]
  by_cases hk : k = id
  · simp [hk]
  · simp [hk, Ne.symm hk]

theorem RequestQueue.count_removeRequests (queue ids : List String) (k : String) :
    (RequestQueue.removeRequests queue ids).count k = if k ∈ ids then 0 else queue.count k := by
  rw [removeRequests]
  split
  · next hk =>
    refine List.count_eq_zero.mpr fun hmem => ?_
    simpa [hk] using (List.mem_filter.mp hmem).2
  · next hk => exact List.count_filter (by simpa using hk)

namespace Scheduler

/-- Whether the request goes to the queue of blocked requests, and how the counts grow. -/
theorem enqueueWaitingRequest_counts (s : Scheduler ω) (policy : SchedulingPolicy) (id : String)
    (status : RequestStatus) :
    let s' := s.enqueueWaitingRequest policy id status
    s'.requests = s.requests ∧ s'.running = s.running ∧
      (∀ k, s'.waiting.count k = s.waiting.count k +
        if k = id ∧ status.isBlockedWaiting = false then 1 else 0) ∧
      ∀ k, s'.skippedWaiting.count k = s.skippedWaiting.count k +
        if k = id ∧ status.isBlockedWaiting = true then 1 else 0 := by
  cases hb : status.isBlockedWaiting with
  | true =>
      simp [enqueueWaitingRequest, hb, setQueue, queue, RequestQueue.count_addRequest]
  | false =>
      simp [enqueueWaitingRequest, hb, setQueue, queue, RequestQueue.count_addRequest]

/-! ## Arrival, abort and reset -/

theorem Balanced.not_running {s : Scheduler ω} (h : s.Balanced) {id : String}
    (hid : s.requests.get? id = none) : s.running.count id = 0 ∧ s.waiting.count id = 0 ∧
      s.skippedWaiting.count id = 0 := by
  have := h.count id
  simp only [unfinished, hid, Option.any_none, Bool.toNat_false] at this
  omega

theorem Balanced.insert {s : Scheduler ω} (h : s.Balanced) (policy : SchedulingPolicy)
    {r : Request} (hid : s.requests.get? r.requestId = none) (hfin : r.isFinished = false)
    (hstatus : r.status ≠ .running) :
    (enqueueWaitingRequest { s with requests := s.requests.insert r.requestId r } policy
      r.requestId r.status).Balanced := by
  obtain ⟨hrun, hwait, hskip⟩ := h.not_running hid
  obtain ⟨hrequests, hrunning, hwaiting, hskipped⟩ := enqueueWaitingRequest_counts
    { s with requests := s.requests.insert r.requestId r } policy r.requestId r.status
  have hagrees : Agrees s (enqueueWaitingRequest
      { s with requests := s.requests.insert r.requestId r } policy r.requestId r.status)
      r.requestId := by
    refine ⟨fun k hk => ?_, fun k _ => by rw [hrunning], fun k hk => ?_, fun k hk => ?_⟩
    · simp [hrequests, OrdDict.get?_insert, hk]
    · simp [hwaiting k, hk]
    · simp [hskipped k, hk]
  refine h.update hagrees ?_ ?_ ?_
  · intro r' hr'
    rw [hrequests, OrdDict.get?_insert_self, Option.some.injEq] at hr'
    rw [hr']
  · rw [hrunning, hwaiting, hskipped]
    simp only [unfinished, hrequests, OrdDict.get?_insert_self, Option.any_some, hfin, hrun, hwait,
      hskip, true_and]
    cases r.status.isBlockedWaiting <;> simp
  · intro r' hr'
    rw [hrequests, OrdDict.get?_insert_self, Option.some.injEq] at hr'
    subst hr'
    rw [hrunning]
    exact iff_of_false hstatus (List.count_eq_zero.mp hrun)

/-- Writing to a request without moving it, finishing it or marking it. -/
theorem Balanced.setRequest {s : Scheduler ω} (h : s.Balanced) (id : String)
    {f : Request → Request}
    (hf : ∀ r, s.requests.get? id = some r → (f r).identity = r.identity ∧
      ((f r).status = .running ↔ r.status = .running)) : (s.setRequest id f).Balanced :=
  h.of_keeps (keeps_setRequest s id hf) (.refl _)

theorem get?_finishRequest (s : Scheduler ω) (status : RequestStatus)
    (delayFree : String → Bool) (id k : String) :
    (s.finishRequest status delayFree id).requests.get? k =
      if k = id then
        if delayFree id then (s.requests.get? id).map fun r => { r with status := status }
        else none
      else s.requests.get? k := by
  rw [finishRequest, freeRequest]
  by_cases hk : k = id
  · subst hk
    split
    · simp [Scheduler.setRequest, OrdDict.get?_modify]
    · simp [OrdDict.get?_erase]
  · split
    · simp [Scheduler.setRequest, OrdDict.get?_modify, hk]
    · simp [Scheduler.setRequest, OrdDict.get?_erase, OrdDict.get?_modify, hk]

/-- The requests after the second pass of `finish_requests`. -/
theorem foldl_finishRequest (status : RequestStatus) (delayFree : String → Bool) :
    ∀ (ids : List String) (s : Scheduler ω),
      let s' := ids.foldl (fun s id => s.finishRequest status delayFree id) s
      s'.running = s.running ∧ s'.waiting = s.waiting ∧ s'.skippedWaiting = s.skippedWaiting ∧
      ∀ k, s'.requests.get? k = if k ∈ ids then
        if delayFree k then (s.requests.get? k).map fun r => { r with status := status } else none
        else s.requests.get? k := by
  intro ids
  induction ids with
  | nil => simp
  | cons id rest ih =>
      intro s
      obtain ⟨hrun, hwait, hskip, hget⟩ := ih (s.finishRequest status delayFree id)
      have hplaces : (s.finishRequest status delayFree id).running = s.running ∧
          (s.finishRequest status delayFree id).waiting = s.waiting ∧
          (s.finishRequest status delayFree id).skippedWaiting = s.skippedWaiting := by
        rw [finishRequest, freeRequest]
        split <;> exact ⟨rfl, rfl, rfl⟩
      refine ⟨hrun.trans hplaces.1, hwait.trans hplaces.2.1, hskip.trans hplaces.2.2, ?_⟩
      intro k
      rw [List.foldl_cons, hget k, get?_finishRequest]
      by_cases hk : k = id
      · subst hk
        simp only [List.mem_cons, true_or, if_true]
        by_cases hd : delayFree k = true
        · cases s.requests.get? k <;> simp [hd]
        · simp [hd]
      · simp [hk]

theorem live_iff {s : Scheduler ω} {p : Request → Bool} {id : String} :
    s.live p id = true ↔ ∃ r, s.requests.get? id = some r ∧ r.isFinished = false ∧ p r = true := by
  cases hr : s.requests.get? id with
  | none => simp [live, hr]
  | some r => simp [live, hr]

theorem Balanced.finishRequests {s : Scheduler ω} (h : s.Balanced) (ids : List String)
    {status : RequestStatus} (hstatus : status.isFinished = true) (delayFree : String → Bool) :
    (s.finishRequests ids status delayFree).Balanced := by
  rw [Scheduler.finishRequests]
  generalize hvalid : ids.dedup.filter (s.live fun _ => true) = valid
  generalize hfromRunning : valid.filter (s.live fun r => decide (r.status = .running)) =
    fromRunning
  generalize hfromWaiting : valid.filter (s.live fun r => decide (r.status ≠ .running)) =
    fromWaiting
  obtain ⟨hrun, hwait, hskip, hget⟩ := foldl_finishRequest status delayFree valid
    { s with
      running := s.running.filter (· ∉ fromRunning)
      waiting := RequestQueue.removeRequests s.waiting fromWaiting
      skippedWaiting := RequestQueue.removeRequests s.skippedWaiting fromWaiting }
  dsimp only at hrun hwait hskip hget ⊢
  generalize List.foldl _ _ valid = s' at hrun hwait hskip hget ⊢
  have hcount_running (k : String) : s'.running.count k =
      if k ∈ fromRunning then 0 else s.running.count k := by
    rw [hrun]
    exact RequestQueue.count_removeRequests s.running fromRunning k
  have hcount_waiting (k : String) : s'.waiting.count k =
      if k ∈ fromWaiting then 0 else s.waiting.count k := by
    rw [hwait]
    exact RequestQueue.count_removeRequests s.waiting fromWaiting k
  have hcount_skipped (k : String) : s'.skippedWaiting.count k =
      if k ∈ fromWaiting then 0 else s.skippedWaiting.count k := by
    rw [hskip]
    exact RequestQueue.count_removeRequests s.skippedWaiting fromWaiting k
  -- a valid request leaves the place that its status names, which is the one it is in
  have hgone : ∀ k ∈ valid, s'.running.count k = 0 ∧ s'.waiting.count k = 0 ∧
      s'.skippedWaiting.count k = 0 := by
    intro k hk
    have hlive := (List.mem_filter.mp (hvalid ▸ hk)).2
    obtain ⟨r, hr, hfin, -⟩ := live_iff.mp hlive
    have htotal := h.count k
    rw [unfinished_iff.mpr ⟨r, hr, hfin⟩] at htotal
    rw [hcount_running, hcount_waiting, hcount_skipped]
    by_cases hstat : r.status = .running
    · have hin : k ∈ fromRunning := by
        rw [← hfromRunning, List.mem_filter]
        exact ⟨hk, live_iff.mpr ⟨r, hr, hfin, by simp [hstat]⟩⟩
      have hpos := List.count_pos_iff.mpr ((h.marked k r hr).mp hstat)
      simp only [Bool.toNat_true] at htotal
      simp only [hin, if_true, true_and]
      constructor <;> split <;> omega
    · have hin : k ∈ fromWaiting := by
        rw [← hfromWaiting, List.mem_filter]
        exact ⟨hk, live_iff.mpr ⟨r, hr, hfin, by simp [hstat]⟩⟩
      have hzero := List.count_eq_zero.mpr fun hmem => hstat ((h.marked k r hr).mpr hmem)
      simp [hin, hzero]
  have hstay : ∀ k, k ∉ valid → s'.running.count k = s.running.count k ∧
      s'.waiting.count k = s.waiting.count k ∧
      s'.skippedWaiting.count k = s.skippedWaiting.count k := by
    intro k hk
    have hk₁ : k ∉ fromRunning := fun hmem =>
      hk (List.mem_filter.mp (hfromRunning ▸ hmem)).1
    have hk₂ : k ∉ fromWaiting := fun hmem =>
      hk (List.mem_filter.mp (hfromWaiting ▸ hmem)).1
    rw [hcount_running, hcount_waiting, hcount_skipped]
    simp [hk₁, hk₂]
  have hfinished : ∀ k ∈ valid, ∀ r, s'.requests.get? k = some r →
      r.status = status ∧ ∃ r₀, s.requests.get? k = some r₀ ∧ r.requestId = r₀.requestId := by
    intro k hk r hr
    rw [hget k, if_pos hk] at hr
    split at hr
    · obtain ⟨r₀, hr₀, rfl⟩ := Option.map_eq_some_iff.mp hr
      exact ⟨rfl, r₀, hr₀, rfl⟩
    · cases hr
  refine ⟨?_, ?_, ?_⟩
  · intro k r hr
    by_cases hk : k ∈ valid
    · obtain ⟨-, r₀, hr₀, hkey⟩ := hfinished k hk r hr
      exact hkey.trans (h.keyed k r₀ hr₀)
    · rw [hget k, if_neg hk] at hr
      exact h.keyed k r hr
  · intro k
    by_cases hk : k ∈ valid
    · obtain ⟨h₁, h₂, h₃⟩ := hgone k hk
      have hun : s'.unfinished k = false := by
        rw [Bool.eq_false_iff]
        intro hun
        obtain ⟨r, hr, hfin⟩ := unfinished_iff.mp hun
        rw [Request.isFinished, (hfinished k hk r hr).1, hstatus] at hfin
        cases hfin
      simp [h₁, h₂, h₃, hun]
    · obtain ⟨h₁, h₂, h₃⟩ := hstay k hk
      have := h.count k
      simp only [unfinished, hget k, if_neg hk, h₁, h₂, h₃] at this ⊢
      exact this
  · intro k r hr
    rw [← List.count_pos_iff]
    by_cases hk : k ∈ valid
    · rw [(hgone k hk).1]
      refine iff_of_false (fun hrunning => ?_) (by simp)
      rw [(hfinished k hk r hr).1] at hrunning
      simp [hrunning, RequestStatus.isFinished] at hstatus
    · rw [hget k, if_neg hk] at hr
      rw [(hstay k hk).1, List.count_pos_iff]
      exact h.marked k r hr

theorem Balanced.addRequest {s : Scheduler ω} (h : s.Balanced) (policy : SchedulingPolicy)
    (request : Request) (structured : Bool) (delayFree : String → Bool) :
    Ensures (fun _ => True) Balanced
      (s.addRequest policy (Engine.arrive request structured) delayFree) := by
  rw [Scheduler.addRequest]
  dsimp only
  split
  · next existing hexisting =>
    split
    · split
      · exact Ensures.error trivial
      · exact Ensures.ok (h.setRequest _ fun _ _ => ⟨rfl, Iff.rfl⟩)
    · next hstatus =>
      split
      · refine Ensures.ok (h.setRequest _ fun r hr => ?_)
        obtain rfl : existing = r := by simpa [hexisting] using hr
        rw [ne_eq, not_not] at hstatus
        simp [Request.identity, Request.isFinished, updateRequestAsSession, hstatus,
          RequestStatus.isFinished]
      · exact Ensures.ok (h.finishRequests _ rfl delayFree)
  · next hnone =>
    have hstatus : (Engine.arrive request structured).status.isFinished = false ∧
        (Engine.arrive request structured).status ≠ .running := by
      rw [Engine.arrive]
      cases structured <;> simp [RequestStatus.isFinished]
    split
    · exact Ensures.ok (h.insert policy hnone hstatus.1 hstatus.2)
    · exact Ensures.ok (h.insert policy hnone hstatus.1 hstatus.2)

/-- Preempting the last running request. -/
theorem Balanced.preempt {s : Scheduler ω} (h : s.Balanced) (policy : SchedulingPolicy)
    {id : String} {rest : List String} (hlast : s.running = rest ++ [id]) :
    Ensures (fun _ => True) (fun s' => s'.Balanced ∧ s'.running = rest)
      (preempt { s with running := rest } policy id) := by
  have hpartition := h.partition
  have hmem : id ∈ s.placed := by simp [placed, hlast]
  obtain ⟨r, hr, -⟩ := (hpartition.mem_iff id).mp hmem
  have hnodup : (rest ++ [id]).Nodup := by
    have := hpartition.nodup
    simp only [placed, List.nodup_append, hlast] at this
    exact List.nodup_append.mpr this.1.1
  have habsent : id ∉ rest := fun hin =>
    (List.nodup_append.mp hnodup).2.2 id hin id (List.mem_singleton_self id) rfl
  refine (Ensures.weaken (preempt_spec { s with running := rest } policy hr) ?_)
  intro s' hp
  have hrunning : s'.running = rest := hp.running
  refine ⟨(hpartition.of_perm ?_ hp.same).balanced (hp.marked habsent ?_), hrunning⟩
  · simp only [placed, hrunning, hp.skipped, hlast, List.append_assoc]
    refine ((hp.waiting.append_right _).append_left _).trans ?_
    exact .refl _
  · intro k r hk hr
    rw [h.marked k r hr, hlast, List.mem_append]
    simp [hk]

theorem Balanced.resetRunning {s : Scheduler ω} (h : s.Balanced) (policy : SchedulingPolicy) :
    Ensures (fun _ => True) Balanced (s.resetRunning policy) := by
  rw [Scheduler.resetRunning]
  have hloop : ∀ id rest (s : Scheduler ω), s.Balanced ∧ s.running = (id :: rest).reverse →
      Ensures (fun _ => True) (fun s' : Scheduler ω => s'.Balanced ∧ s'.running = rest.reverse) (do
        let s ← Scheduler.preempt { s with running := s.running.dropLast } policy id
        return s.setRequest id fun r =>
          { r with asyncTokensToDiscard := r.numOutputPlaceholders, numOutputPlaceholders := 0 }) := by
    rintro id rest s ⟨hs, hrunning⟩
    rw [List.reverse_cons] at hrunning
    have hdrop : s.running.dropLast = rest.reverse := by rw [hrunning, List.dropLast_concat]
    rw [hdrop]
    refine Ensures.bind (hs.preempt policy hrunning) ?_
    rintro s₁ ⟨h₁, hrun₁⟩
    exact Ensures.ok ⟨h₁.setRequest id fun _ _ => ⟨rfl, Iff.rfl⟩, hrun₁⟩
  refine (Ensures.foldlM (I := fun rest s => s.Balanced ∧ s.running = rest.reverse)
    hloop s.running.reverse s ⟨h, by simp⟩).mono ?_
  exact fun s' hs' => hs'.1

theorem Balanced.updateAfterSchedule {st : Step ω} (h : st.sched.Balanced)
    (cfg : SchedulerConfig) : (updateAfterSchedule cfg st).Balanced := by
  rw [Sched.updateAfterSchedule]
  generalize st.numScheduledTokens.entries = entries
  suffices ∀ s : Scheduler ω, s.Balanced → Balanced (entries.foldl _ s) from this st.sched h
  induction entries with
  | nil => exact fun s hs => hs
  | cons entry rest ih =>
      intro s hs
      refine ih _ (hs.setRequest entry.1 fun r hr => ?_)
      dsimp only
      split <;> exact ⟨rfl, Iff.rfl⟩

theorem Balanced.schedule {s : Scheduler ω} (h : s.Balanced) (env : Collaborators ω)
    (cfg : SchedulerConfig) :
    Ensures (fun _ => True) (fun st => st.sched.Balanced) (schedule env cfg s) := by
  refine Ensures.weaken (schedule_spec env cfg h.partition) ?_
  intro st hst
  refine h.of_keeps hst.intact.keeps ?_
  simpa [Step.placed, hst.stepSkipped] using hst.intact.perm

end Scheduler

end TokenCake.Sched
