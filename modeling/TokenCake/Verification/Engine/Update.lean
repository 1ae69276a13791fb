import TokenCake.Model.Backend
import TokenCake.Verification.Engine.Balance

/-! # Outputs of earlier steps

What `update_from_output` does to the partition of requests when its step is not the last one
scheduled: exactly the requests that are running, or that sit in the queue from which the code
removes them, are settled correctly. -/

namespace TokenCake.Sched

variable {ω : Type}

/-! ## One request and its tokens -/

theorem checkStop_isFinished {r : Request} {maxModelLen : ℤ} {status : RequestStatus}
    (h : checkStop r maxModelLen = some status) : status.isFinished = true := by
  simp only [checkStop] at h
  split_ifs at h
  · cases h; rfl
  · cases h; rfl
  · cases h; rfl
  · split at h
    · cases h
    · split_ifs at h
      cases h; rfl

/-- What the tokens do to the status: a stop finishes, anything else leaves it. -/
structure StatusAfter (r : Request) (r' : Request) (stopped : Bool) : Prop where
  requestId : r'.requestId = r.requestId
  finished : stopped = true → r'.isFinished = true
  kept : stopped = false → r'.status = r.status

theorem updateRequestWithOutput_status (maxModelLen : ℤ) :
    ∀ (tokens : List ℕ) (r : Request),
      StatusAfter r (updateRequestWithOutput maxModelLen r tokens).1
        (updateRequestWithOutput maxModelLen r tokens).2 := by
  intro tokens
  induction tokens with
  | nil => exact fun r => ⟨rfl, by simp [updateRequestWithOutput], fun _ => rfl⟩
  | cons token tokens ih =>
      intro r
      rw [updateRequestWithOutput]
      dsimp only
      split
      · next status hstop => exact ⟨rfl, fun _ => checkStop_isFinished hstop, by simp⟩
      · have h := ih { r with
          outputTokenIds := r.outputTokenIds ++ [token], allTokenIds := r.allTokenIds ++ [token] }
        exact ⟨h.requestId, h.finished, h.kept⟩

section Output

variable (cfg : SchedulerConfig)

theorem applyTokens_status (r : Request) (tokens : List ℕ) :
    Ensures (fun _ => True) (fun out => StatusAfter r out.1 out.2.1) (applyTokens cfg r tokens) := by
  have h := updateRequestWithOutput_status cfg.maxModelLen tokens r
  rw [applyTokens]
  split
  · exact Ensures.ok ⟨rfl, by simp, fun _ => rfl⟩
  · dsimp only
    split
    · split
      · exact Ensures.error trivial
      · exact Ensures.ok ⟨h.requestId, h.finished, h.kept⟩
    · exact Ensures.ok h

theorem rejectDrafts_frame (r : Request) (drafts generated : List ℕ) :
    (rejectDrafts r drafts generated).requestId = r.requestId ∧
      (rejectDrafts r drafts generated).status = r.status := by
  rw [rejectDrafts]
  split <;> exact ⟨rfl, rfl⟩

theorem applyOutput_status (r : Request) (drafts : List ℕ) (out : ModelRunnerOutput ω) :
    Ensures (fun _ => True) (fun res => StatusAfter r res.1 res.2)
      (applyOutput cfg r drafts out) := by
  obtain ⟨hid, hstatus⟩ := rejectDrafts_frame r drafts (out.sampledTokenIds r.requestId)
  rw [applyOutput]
  generalize rejectDrafts r drafts (out.sampledTokenIds r.requestId) = r₁ at hid hstatus ⊢
  have hcheck : Ensures (fun _ => True) (fun res => StatusAfter r₁ res.1 res.2.1)
      (checkForStop cfg r₁ out) := by
    rw [checkForStop]
    split
    · exact applyTokens_status cfg r₁ _
    · split
      · exact Ensures.ok ⟨rfl, fun _ => rfl, by simp⟩
      · exact Ensures.ok ⟨rfl, by simp, fun _ => rfl⟩
  refine Ensures.map hcheck ?_
  rintro ⟨r₂, stopped, added⟩ h
  dsimp only
  split
  · exact ⟨h.requestId.trans hid, fun _ => rfl, by simp⟩
  · exact ⟨h.requestId.trans hid, h.finished, fun hs => (h.kept hs).trans hstatus⟩

/-! ## The computed tokens do not decide a stop -/

def withComputed (r : Request) (n : ℤ) : Request := { r with numComputedTokens := n }

theorem updateRequestWithOutput_withComputed (maxModelLen n : ℤ) :
    ∀ (tokens : List ℕ) (r : Request),
      updateRequestWithOutput maxModelLen (withComputed r n) tokens =
        (withComputed (updateRequestWithOutput maxModelLen r tokens).1 n,
          (updateRequestWithOutput maxModelLen r tokens).2) := by
  intro tokens
  induction tokens with
  | nil => exact fun _ => rfl
  | cons token tokens ih =>
      intro r
      have hih := ih { r with
        outputTokenIds := r.outputTokenIds ++ [token], allTokenIds := r.allTokenIds ++ [token] }
      have hstop : checkStop (withComputed { r with
          outputTokenIds := r.outputTokenIds ++ [token]
          allTokenIds := r.allTokenIds ++ [token] } n) maxModelLen =
        checkStop { r with
          outputTokenIds := r.outputTokenIds ++ [token]
          allTokenIds := r.allTokenIds ++ [token] } maxModelLen := rfl
      rw [updateRequestWithOutput, updateRequestWithOutput]
      simp only [withComputed] at hih hstop ⊢
      rw [hstop]
      split
      · rfl
      · exact hih

theorem checkForStop_withComputed (r : Request) (n : ℤ) (out : ModelRunnerOutput ω) :
    checkForStop cfg (withComputed r n) out =
      (checkForStop cfg r out).map fun res => (withComputed res.1 n, res.2) := by
  have htokens := updateRequestWithOutput_withComputed cfg.maxModelLen n
    (out.sampledTokenIds r.requestId) r
  rw [checkForStop, checkForStop]
  have hid : (withComputed r n).requestId = r.requestId := rfl
  have hpool : (withComputed r n).pooling = r.pooling := rfl
  have hdiscard : (withComputed r n).asyncTokensToDiscard = r.asyncTokensToDiscard := rfl
  rw [hid, hpool]
  split
  · rw [applyTokens, applyTokens, hdiscard, htokens]
    generalize updateRequestWithOutput cfg.maxModelLen r (out.sampledTokenIds r.requestId) = res
    obtain ⟨r', stopped⟩ := res
    split
    · rfl
    · dsimp only
      split
      · by_cases hneg : r'.numOutputPlaceholders - (r'.numOutputTokens - r.numOutputTokens) < 0
        · have hneg' : (withComputed r' n).numOutputPlaceholders -
            ((withComputed r' n).numOutputTokens - (withComputed r n).numOutputTokens) < 0 := hneg
          simp only [hneg, hneg', if_true, Except.map]
        · have hneg' : ¬ (withComputed r' n).numOutputPlaceholders -
            ((withComputed r' n).numOutputTokens - (withComputed r n).numOutputTokens) < 0 := hneg
          simp only [hneg, hneg', if_false, Except.map]
          rfl
      · rfl
  · split <;> rfl

/-- The request goes on with the next queued update of its session. -/
def Request.continuesSession (r : Request) : Bool :=
  r.resumable && ((r.streamingQueue.getD []).head?.join).isSome

/-- Whether a request stops on an output, and if so whether it goes on with a queued update. -/
def stopsWith (r : Request) (drafts : List ℕ) (out : ModelRunnerOutput ω) : Option Bool :=
  match applyOutput cfg r drafts out with
  | .ok (r', true) => some r'.continuesSession
  | _ => none

theorem stopsWith_withComputed (r : Request) (n : ℤ) (drafts : List ℕ)
    (out : ModelRunnerOutput ω) :
    stopsWith cfg (withComputed r n) drafts out = stopsWith cfg r drafts out := by
  obtain ⟨m, hdrafts⟩ : ∃ m, rejectDrafts (withComputed r n) drafts
      (out.sampledTokenIds r.requestId) =
        withComputed (rejectDrafts r drafts (out.sampledTokenIds r.requestId)) m := by
    rw [rejectDrafts, rejectDrafts]
    split
    · exact ⟨n, rfl⟩
    · exact ⟨_, rfl⟩
  have hid : (withComputed r n).requestId = r.requestId := rfl
  rw [stopsWith, stopsWith, applyOutput, applyOutput, hid, hdrafts, checkForStop_withComputed]
  cases checkForStop cfg (rejectDrafts r drafts (out.sampledTokenIds r.requestId)) out with
  | error e => rfl
  | ok res =>
      obtain ⟨r', stopped, added⟩ := res
      have hid' : (withComputed r' m).requestId = r'.requestId := rfl
      simp only [Except.map, hid']
      cases added && out.grammarRejects r'.requestId with
      | true => rfl
      | false => cases stopped <;> rfl

end Output

theorem handleStoppedRequest_continues {r : Request} (h : r.continuesSession = true) :
    (handleStoppedRequest r).1 = false ∧ (handleStoppedRequest r).2.status = .waiting ∧
      (handleStoppedRequest r).2.requestId = r.requestId := by
  rw [Request.continuesSession, Bool.and_eq_true] at h
  rw [handleStoppedRequest, if_pos h.1]
  split
  · next hq => simp [hq] at h
  · next hq => simp [hq] at h
  · exact ⟨rfl, rfl, rfl⟩

theorem handleStoppedRequest_ends {r : Request} (h : r.continuesSession = false) :
    (handleStoppedRequest r).2.requestId = r.requestId ∧
      ((handleStoppedRequest r).1 = true ∧ (handleStoppedRequest r).2.status = r.status ∨
        (handleStoppedRequest r).1 = false ∧
          (handleStoppedRequest r).2.status = .waitingForStreamingReq) := by
  rw [handleStoppedRequest]
  split
  · next hres =>
    split
    · exact ⟨rfl, .inr ⟨rfl, rfl⟩⟩
    · exact ⟨rfl, .inl ⟨rfl, rfl⟩⟩
    · next hq => simp [Request.continuesSession, hres, hq] at h
  · exact ⟨rfl, .inl ⟨rfl, rfl⟩⟩

/-! ## The loop over the output -/

/-- The scheduler once the stopped requests are removed from the running and waiting queues. -/
def Update.settled (u : Update ω) : Scheduler ω :=
  { u.sched with
    running := u.sched.running.filter (· ∉ u.stoppedRunning)
    waiting := RequestQueue.removeRequests u.sched.waiting u.stoppedPreempted }

/-- The loop invariant: the settled scheduler is balanced, and the requests of the output that
remain are as they were in `s`. -/
structure UpdateInv (s : Scheduler ω) (rest : List (String × ℤ)) (u : Update ω) : Prop where
  balanced : u.settled.Balanced
  rest_nodup : (rest.map Prod.fst).Nodup
  untouched : ∀ id ∈ rest.map Prod.fst, id ∉ u.stoppedRunning ∧ id ∉ u.stoppedPreempted ∧
    u.sched.requests.get? id = s.requests.get? id ∧
    u.sched.waiting.count id = s.waiting.count id ∧
    u.sched.skippedWaiting.count id = s.skippedWaiting.count id

section Loop

variable (cfg : SchedulerConfig) (out : ModelRunnerOutput ω) {s : Scheduler ω}
variable {u : Update ω} {id : String} {r r' : Request}

theorem settled_running_count (u : Update ω) (k : String) : u.settled.running.count k =
    if k ∈ u.stoppedRunning then 0 else u.sched.running.count k :=
  RequestQueue.count_removeRequests _ _ _

theorem settled_waiting_count (u : Update ω) (k : String) : u.settled.waiting.count k =
    if k ∈ u.stoppedPreempted then 0 else u.sched.waiting.count k :=
  RequestQueue.count_removeRequests _ _ _

/-- The effect of a stop: `moved` is what `handleStoppedRequest` makes of the request. -/
structure StopEffect (s : Scheduler ω) (id : String) (moved : Bool × Request)
    (s' : Scheduler ω) : Prop where
  other : ∀ k, k ≠ id → s'.requests.get? k = s.requests.get? k
  entry : ∀ q, s'.requests.get? id = some q → q = moved.2
  present : moved.1 = false → s'.requests.get? id = some moved.2
  running : s'.running = s.running
  waiting : ∀ k, s'.waiting.count k = s.waiting.count k +
    if k = id ∧ moved.1 = false ∧ moved.2.status.isBlockedWaiting = false then 1 else 0
  skipped : ∀ k, s'.skippedWaiting.count k = s.skippedWaiting.count k +
    if k = id ∧ moved.1 = false ∧ moved.2.status.isBlockedWaiting = true then 1 else 0

theorem placeStopped_effect (hr : s.requests.get? id = some r) (moved : Bool × Request) :
    StopEffect s id moved (placeStopped cfg out s id moved) := by
  have hset : (s.setRequest id fun _ => moved.2).requests.get? id = some moved.2 := by
    simp [Scheduler.setRequest, OrdDict.get?_modify, hr]
  have hother := (s.agrees_setRequest id fun _ => moved.2).requests
  rw [placeStopped]
  split
  · next hfinished =>
    rw [Scheduler.freeRequest]
    split
    · refine ⟨hother, fun q hq => ?_, by simp [hfinished], rfl, by simp [hfinished, Scheduler.setRequest],
        by simp [hfinished, Scheduler.setRequest]⟩
      exact Option.some.inj (hq.symm.trans hset)
    · refine ⟨fun k hk => ?_, fun q hq => ?_, by simp [hfinished], rfl, by simp [hfinished, Scheduler.setRequest],
        by simp [hfinished, Scheduler.setRequest]⟩
      · simp [OrdDict.get?_erase, hk, hother k hk]
      · simp [OrdDict.get?_erase] at hq
  · next hfinished =>
    obtain ⟨hrequests, hrunning, hwaiting, hskipped⟩ := Scheduler.enqueueWaitingRequest_counts
      (s.setRequest id fun _ => moved.2) cfg.policy id moved.2.status
    refine ⟨fun k hk => ?_, fun q hq => ?_, fun _ => ?_, hrunning, fun k => ?_, fun k => ?_⟩
    · rw [hrequests]
      exact hother k hk
    · rw [hrequests] at hq
      exact Option.some.inj (hq.symm.trans hset)
    · rw [hrequests]
      exact hset
    · rw [hwaiting k]
      simp [hfinished, Scheduler.setRequest]
    · rw [hskipped k]
      simp [hfinished, Scheduler.setRequest]

/-- What a stopped request becomes: finished, waiting with the next update of its session, or
waiting for one. -/
theorem handleStoppedRequest_cases (hfin : r'.isFinished = true) :
    (handleStoppedRequest r').2.requestId = r'.requestId ∧
      (handleStoppedRequest r').2.status ≠ .running ∧
      (handleStoppedRequest r').2.isFinished = (handleStoppedRequest r').1 ∧
      (r'.continuesSession = true → (handleStoppedRequest r').1 = false ∧
        (handleStoppedRequest r').2.status.isBlockedWaiting = false) ∧
      (r'.continuesSession = false → (handleStoppedRequest r').1 = false →
        (handleStoppedRequest r').2.status.isBlockedWaiting = true) := by
  have hnot : r'.status ≠ .running := by
    intro hrunning
    simp [Request.isFinished, hrunning, RequestStatus.isFinished] at hfin
  cases hc : r'.continuesSession with
  | true =>
      obtain ⟨hmoved, hstatus, hkey⟩ := handleStoppedRequest_continues hc
      simp [hkey, hmoved, Request.isFinished, hstatus, RequestStatus.isFinished,
        RequestStatus.isBlockedWaiting]
  | false =>
      obtain ⟨hkey, ⟨hmoved, hstatus⟩ | ⟨hmoved, hstatus⟩⟩ := handleStoppedRequest_ends hc
      · rw [Request.isFinished] at hfin
        simp [hkey, hmoved, Request.isFinished, hstatus, hfin, hnot]
      · simp [hkey, hmoved, Request.isFinished, hstatus, RequestStatus.isFinished,
          RequestStatus.isBlockedWaiting]

/-- A stopped request is settled if it was running, or if the code removes it from the queue it
is in and from no other. -/
theorem stopRequest_balanced (h : u.settled.Balanced) (hid₁ : id ∉ u.stoppedRunning)
    (hid₂ : id ∉ u.stoppedPreempted) (hr : u.sched.requests.get? id = some r)
    (hfin : r.isFinished = false) (hstatus : StatusAfter r r' true)
    (hsafe : r.status ≠ .running → if r'.continuesSession then id ∈ u.sched.skippedWaiting
      else id ∈ u.sched.waiting) :
    (stopRequest cfg out u id (decide (r.status = .running)) r').settled.Balanced := by
  have heffect := placeStopped_effect cfg out hr (handleStoppedRequest r')
  obtain ⟨hkey, hnot, hfinished, hcontinues, hends⟩ :=
    handleStoppedRequest_cases (hstatus.finished rfl)
  rw [stopRequest]
  generalize placeStopped cfg out u.sched id (handleStoppedRequest r') = s' at heffect ⊢
  generalize handleStoppedRequest r' = moved at heffect hkey hnot hfinished hcontinues hends
  -- where the request is before the stop
  have htotal := h.count id
  have hunfinished : u.settled.unfinished id = true := Scheduler.unfinished_iff.mpr ⟨r, hr, hfin⟩
  have hmarked := h.marked id r hr
  have hskipped : u.settled.skippedWaiting = u.sched.skippedWaiting := rfl
  rw [hunfinished, settled_running_count, settled_waiting_count, if_neg hid₁, if_neg hid₂,
    hskipped, Bool.toNat_true] at htotal
  rw [← List.count_pos_iff, settled_running_count, if_neg hid₁] at hmarked
  -- where it is afterwards
  generalize hu' : (⟨s', u.stoppedRunning ++ if decide (r.status = .running) then [id] else [],
    u.stoppedPreempted ++ if decide (r.status = .running) then [] else [id]⟩ : Update ω) = u'
  have hsched : u'.sched = s' := by rw [← hu']
  have hrunning (k : String) : u'.settled.running.count k =
      if k ∈ u.stoppedRunning ∨ r.status = .running ∧ k = id then 0
      else u.sched.running.count k := by
    rw [settled_running_count, hsched, heffect.running, ← hu']
    by_cases hrun : r.status = .running <;> simp [hrun]
  have hwaiting (k : String) : u'.settled.waiting.count k =
      if k ∈ u.stoppedPreempted ∨ r.status ≠ .running ∧ k = id then 0
      else s'.waiting.count k := by
    rw [settled_waiting_count, hsched, ← hu']
    by_cases hrun : r.status = .running <;> simp [hrun]
  have hskip (k : String) : u'.settled.skippedWaiting.count k = s'.skippedWaiting.count k := by
    rw [← hsched]
    rfl
  have hun : u'.settled.unfinished id = !moved.1 := by
    have hget : u'.settled.requests.get? id = s'.requests.get? id := by rw [← hsched]; rfl
    rw [Scheduler.unfinished, hget]
    cases hm : moved.1 with
    | false => simp [heffect.present hm, hfinished, hm]
    | true =>
        cases hq : s'.requests.get? id with
        | none => rfl
        | some q => simp [heffect.entry q hq, hfinished, hm]
  have hagrees : Scheduler.Agrees u.settled u'.settled id := by
    refine ⟨fun k hk => ?_, fun k hk => ?_, fun k hk => ?_, fun k hk => ?_⟩
    · exact (congrArg (·.requests.get? k) hsched).trans (heffect.other k hk)
    · rw [hrunning, settled_running_count]
      simp [hk]
    · rw [hwaiting, settled_waiting_count, heffect.waiting]
      simp [hk]
    · rw [hskip, hskipped, heffect.skipped]
      simp [hk]
  refine h.update hagrees ?_ ?_ ?_
  · intro q hq
    rw [heffect.entry q ((congrArg (·.requests.get? id) hsched).symm.trans hq), hkey,
      hstatus.requestId]
    exact h.keyed id r hr
  · rw [hrunning, hwaiting, hskip, hun, heffect.waiting, heffect.skipped]
    by_cases hrun : r.status = .running
    · have hpos := hmarked.mp hrun
      simp only [hrun, hid₁, hid₂, ne_eq, not_true_eq_false, true_and, and_true,
        or_true, or_false, if_true, if_false]
      cases moved.1 <;> cases moved.2.status.isBlockedWaiting <;> simp <;> omega
    · have hzero : u.sched.running.count id = 0 :=
        Nat.eq_zero_of_not_pos fun hpos => hrun (hmarked.mpr hpos)
      have hplace := hsafe hrun
      simp only [hrun, hid₁, hzero, ne_eq, not_false_eq_true, true_and, false_and, or_true,
        or_false, if_true, if_false]
      cases hc : r'.continuesSession with
      | true =>
          rw [hc, if_pos rfl] at hplace
          have hpos := List.count_pos_iff.mpr hplace
          obtain ⟨hm, hb⟩ := hcontinues hc
          simp [hm, hb]
          omega
      | false =>
          rw [hc, if_neg (by simp)] at hplace
          have hpos := List.count_pos_iff.mpr hplace
          cases hm : moved.1 with
          | true =>
              simp
              omega
          | false =>
              simp [hends hc hm]
              omega
  · intro q hq
    rw [heffect.entry q ((congrArg (·.requests.get? id) hsched).symm.trans hq),
      ← List.count_pos_iff, hrunning]
    refine iff_of_false hnot ?_
    by_cases hrun : r.status = .running
    · simp [hrun]
    · simp only [hrun, false_and, or_false, if_neg hid₁]
      exact fun hpos => hrun (hmarked.mpr hpos)

/-- If the output stops the request, then the request is running, or it is in the waiting queue
and does not go on with a queued update, or it is in the queue of skipped requests and does. -/
def stopSettled (s : Scheduler ω) (step : SchedulerOutput) (id : String) : Bool :=
  match s.requests.get? id with
  | none => true
  | some r =>
      r.isFinished || decide (id ∈ failedLoads cfg out s) ||
        match stopsWith cfg r ((step.scheduledSpecDecodeTokens.get? id).getD []) out with
        | none => true
        | some continues => decide (r.status = .running) ||
            if continues then decide (id ∈ s.skippedWaiting) else decide (id ∈ s.waiting)

def StopsSettled (s : Scheduler ω) (step : SchedulerOutput) : Prop :=
  ∀ id ∈ step.numScheduledTokens.keys, stopSettled cfg out s step id = true

instance (s : Scheduler ω) (step : SchedulerOutput) : Decidable (StopsSettled cfg out s step) :=
  inferInstanceAs (Decidable (∀ id ∈ step.numScheduledTokens.keys, _))

theorem updateRequest_spec {drafts : OrdDict String (List ℕ)} {failed : List String}
    {entry : String × ℤ} {rest : List (String × ℤ)} (h : UpdateInv s (entry :: rest) u)
    (hsafe : ∀ r, s.requests.get? entry.1 = some r → r.isFinished = false → entry.1 ∉ failed →
      ∀ continues, stopsWith cfg r ((drafts.get? entry.1).getD []) out = some continues →
        r.status ≠ .running →
          if continues then entry.1 ∈ s.skippedWaiting else entry.1 ∈ s.waiting) :
    Ensures (fun _ => True) (UpdateInv s rest) (updateRequest cfg out drafts failed u entry) := by
  obtain ⟨id, tokens⟩ := entry
  have hnodup := List.nodup_cons.mp h.rest_nodup
  obtain ⟨hid₁, hid₂, hget, hwait, hskip⟩ := h.untouched id List.mem_cons_self
  have hrest : UpdateInv s rest u := ⟨h.balanced, hnodup.2, fun k hk =>
    h.untouched k (List.mem_cons_of_mem id hk)⟩
  have hne : ∀ k ∈ rest.map Prod.fst, k ≠ id := fun k hk heq => hnodup.1 (heq ▸ hk)
  simp only [updateRequest]
  split
  · exact Ensures.error trivial
  · split
    · exact Ensures.ok hrest
    · next hfailed =>
      split
      · exact Ensures.ok hrest
      · next r hr =>
        split
        · exact Ensures.ok hrest
        · next hfin =>
          rw [Bool.not_eq_true] at hfin
          refine Ensures.bind (applyOutput_status cfg r _ out).with_eq ?_
          rintro ⟨r', stopped⟩ ⟨hstatus, happly⟩
          cases stopped with
          | true =>
              have hstop : stopsWith cfg r ((drafts.get? id).getD []) out =
                  some r'.continuesSession := by rw [stopsWith, happly]
              have hplace : r.status ≠ .running → if r'.continuesSession
                  then id ∈ u.sched.skippedWaiting else id ∈ u.sched.waiting := by
                intro hrun
                rw [← List.count_pos_iff, ← List.count_pos_iff, hwait, hskip,
                  List.count_pos_iff, List.count_pos_iff]
                exact hsafe r (hget ▸ hr) hfin hfailed _ hstop hrun
              have heffect := placeStopped_effect cfg out hr (handleStoppedRequest r')
              refine Ensures.ok ⟨stopRequest_balanced cfg out h.balanced hid₁ hid₂ hr hfin hstatus
                hplace, hnodup.2, ?_⟩
              intro k hk
              obtain ⟨hk₁, hk₂, hkget, hkwait, hkskip⟩ :=
                h.untouched k (List.mem_cons_of_mem id hk)
              refine ⟨?_, ?_, (heffect.other k (hne k hk)).trans hkget, ?_, ?_⟩
              · simp only [stopRequest, List.mem_append, not_or]
                refine ⟨hk₁, ?_⟩
                split <;> simp [hne k hk]
              · simp only [stopRequest, List.mem_append, not_or]
                refine ⟨hk₂, ?_⟩
                split <;> simp [hne k hk]
              · exact (heffect.waiting k).trans (by simp [hne k hk, hkwait])
              · exact (heffect.skipped k).trans (by simp [hne k hk, hkskip])
          | false =>
              have hagrees := u.sched.agrees_setRequest id fun _ => r'
              have hbalanced : (u.settled.setRequest id fun _ => r').Balanced := by
                refine h.balanced.setRequest id fun r₁ hr₁ => ?_
                obtain rfl : r = r₁ := by
                  have hr₁' : u.sched.requests.get? id = some r₁ := hr₁
                  simpa [hr] using hr₁'
                have hkept : r'.status = r.status := hstatus.kept rfl
                have hkey : r'.requestId = r.requestId := hstatus.requestId
                simp [Request.identity, Request.isFinished, hkept, hkey]
              refine Ensures.ok ⟨hbalanced, hnodup.2, ?_⟩
              intro k hk
              obtain ⟨hk₁, hk₂, hkget, hkwait, hkskip⟩ :=
                h.untouched k (List.mem_cons_of_mem id hk)
              exact ⟨hk₁, hk₂, (hagrees.requests k (hne k hk)).trans hkget, hkwait, hkskip⟩

/-! ## The whole call -/

theorem handleInvalidBlocks_spec (h : s.Balanced) : (handleInvalidBlocks out s).Balanced ∧
    (handleInvalidBlocks out s).waiting = s.waiting ∧
    (handleInvalidBlocks out s).skippedWaiting = s.skippedWaiting ∧
    ∀ id r₁, (handleInvalidBlocks out s).requests.get? id = some r₁ →
      ∃ r n, s.requests.get? id = some r ∧ r₁ = withComputed r n := by
  rw [handleInvalidBlocks]
  generalize asyncFailedLoads out s ++ syncFailedLoads out s = ids
  induction ids generalizing s with
  | nil => exact ⟨h, rfl, rfl, fun id r₁ hr => ⟨r₁, _, hr, rfl⟩⟩
  | cons k ids ih =>
      have hstep : (truncateRequest out s k).Balanced :=
        h.setRequest k fun _ _ => ⟨rfl, Iff.rfl⟩
      obtain ⟨hb, hw, hk, hget⟩ := ih hstep
      refine ⟨hb, hw, hk, ?_⟩
      intro id r₁ hr₁
      obtain ⟨r, n, hr, rfl⟩ := hget id r₁ hr₁
      simp only [truncateRequest, Scheduler.setRequest, OrdDict.get?_modify] at hr
      split at hr
      · next heq =>
        obtain ⟨r₀, hr₀, rfl⟩ := Option.map_eq_some_iff.mp hr
        exact ⟨r₀, n, heq ▸ hr₀, rfl⟩
      · exact ⟨r, n, hr, rfl⟩

theorem freeBlocks_spec (h : s.Balanced) (id : String) :
    Ensures (fun _ => True) Scheduler.Balanced (freeBlocks s id) := by
  rw [freeBlocks]
  split
  · exact Ensures.error trivial
  · next r hr =>
    split
    · next hfin =>
      have hagrees : Scheduler.Agrees s { s with requests := s.requests.erase id } id := by
        refine ⟨fun k hk => ?_, fun _ _ => rfl, fun _ _ => rfl, fun _ _ => rfl⟩
        simp [OrdDict.get?_erase, hk]
      refine Ensures.ok (h.update hagrees ?_ ?_ ?_)
      · intro q hq
        simp [OrdDict.get?_erase] at hq
      · have := h.count id
        simp only [Scheduler.unfinished, hr, Option.any_some, hfin] at this
        simpa [Scheduler.unfinished, OrdDict.get?_erase] using this
      · intro q hq
        simp [OrdDict.get?_erase] at hq
    · exact Ensures.error trivial

theorem updateFromKvXferFinished_spec (h : s.Balanced) :
    Ensures (fun _ => True) Scheduler.Balanced (updateFromKvXferFinished out s) := by
  refine Ensures.bind (Ensures.foldlM (I := fun _ s => s.Balanced) ?_ _ s h) ?_
  · intro id _ s hs
    split
    · exact Ensures.ok hs
    · exact freeBlocks_spec hs id
  · intro s₁ h₁
    exact Ensures.foldlM (I := fun _ s => s.Balanced) (fun id _ s hs => freeBlocks_spec hs id) _ s₁ h₁

/-- `update_from_output` keeps the balance if the stops it processes are settled. -/
theorem updateFromOutput_spec (h : s.Balanced) {step : SchedulerOutput}
    (hsafe : StopsSettled cfg out s step) :
    Ensures (fun _ => True) Scheduler.Balanced (updateFromOutput cfg s step out) := by
  obtain ⟨hb, hw, hk, hget⟩ := handleInvalidBlocks_spec out h
  generalize hs₁ : handleInvalidBlocks out s = s₁ at hb hw hk hget
  have hstart : UpdateInv s₁ step.numScheduledTokens.entries { sched := s₁ } := by
    refine ⟨?_, step.numScheduledTokens.nodupKeys, by simp⟩
    refine hb.of_keeps ⟨fun _ => rfl, ?_⟩ (.of_eq ?_)
    · intro hm id r hr
      simpa [Update.settled] using hm id r hr
    · simp [Update.settled, Scheduler.placed, RequestQueue.removeRequests]
  have hloop : ∀ (entry : String × ℤ) (rest : List (String × ℤ)) (u : Update ω),
      (UpdateInv s₁ (entry :: rest) u ∧ ∀ e ∈ entry :: rest,
        e ∈ step.numScheduledTokens.entries) →
      Ensures (fun _ => True) (fun u' => UpdateInv s₁ rest u' ∧ ∀ e ∈ rest,
        e ∈ step.numScheduledTokens.entries)
        (updateRequest cfg out step.scheduledSpecDecodeTokens (failedLoads cfg out s) u entry) := by
    rintro entry rest u ⟨hinv, hsub⟩
    refine (updateRequest_spec cfg out hinv ?_).mono fun u' hu' =>
      ⟨hu', fun e he => hsub e (List.mem_cons_of_mem entry he)⟩
    intro r₁ hr₁ hfin hfailed continues hstop hrun
    obtain ⟨r, n, hr, rfl⟩ := hget entry.1 r₁ hr₁
    rw [stopsWith_withComputed] at hstop
    have hfin' : r.isFinished = false := hfin
    have hrun' : r.status ≠ .running := hrun
    have hkey := hsafe entry.1 (List.mem_map_of_mem (hsub entry List.mem_cons_self))
    simp only [stopSettled, hr, hfin', hfailed, hstop, hrun', decide_false, Bool.false_or] at hkey
    rw [hw, hk]
    cases continues <;> simpa using hkey
  rw [updateFromOutput, hs₁]
  refine Ensures.bind (Ensures.foldlM (I := fun rest u => UpdateInv s₁ rest u ∧
    ∀ e ∈ rest, e ∈ step.numScheduledTokens.entries) hloop _ _ ⟨hstart, fun _ he => he⟩) ?_
  rintro u ⟨hu, _⟩
  have hsettled : Scheduler.Balanced (if cfg.recomputeKvLoadFailures then u.settled
      else u.settled.finishRequests (failedLoads cfg out s) .finishedError out.delayFree) := by
    split
    · exact hu.balanced
    · exact hu.balanced.finishRequests _ rfl _
  refine Ensures.bind (updateFromKvXferFinished_spec out hsettled) ?_
  intro s₂ h₂
  exact Ensures.ok (h₂.of_keeps ⟨fun _ => rfl, id⟩ (.refl _))

end Loop

/-! ## Runs -/

namespace Engine

/-- The stops of the next output are settled; other calls need nothing. -/
def Settles (cfg : SchedulerConfig) (e : Engine ω) : EngineOp ω → Prop
  | .update out => ∀ step ∈ e.inFlight.head?, StopsSettled cfg out e.sched step
  | _ => True

instance (cfg : SchedulerConfig) (e : Engine ω) (op : EngineOp ω) :
    Decidable (e.Settles cfg op) :=
  match op with
  | .update _ => inferInstanceAs (Decidable (∀ step ∈ e.inFlight.head?, _))
  | .add .. | .finish .. | .schedule _ | .reset _ | .pause _ => .isTrue trivial

/-- One call whose stops are settled. -/
def SettledNext (cfg : SchedulerConfig) (e : Engine ω) (op : EngineOp ω) (e' : Engine ω) : Prop :=
  e.Settles cfg op ∧ Next cfg e op e'

theorem initial_balanced (backend : ω) : (initial backend).sched.Balanced := by
  refine ⟨?_, ?_, ?_⟩
  · intro id r hr
    simp [initial] at hr
  · intro id
    simp [initial, Scheduler.unfinished]
  · intro id r hr
    simp [initial] at hr

theorem step_balanced {cfg : SchedulerConfig} {e e' : Engine ω} {op : EngineOp ω}
    (h : e.sched.Balanced) (hnext : SettledNext cfg e op e') : e'.sched.Balanced := by
  obtain ⟨hsettles, hstep⟩ := hnext
  suffices hspec : Ensures (fun _ => True) (fun e' : Engine ω => e'.sched.Balanced)
      (e.step cfg op) from hspec.of_eq_ok hstep
  cases op with
  | add request structured delayFree backend =>
      refine Ensures.map (h.addRequest cfg.policy request structured delayFree) ?_
      exact fun s hs => hs.of_keeps ⟨fun _ => rfl, id⟩ (.refl _)
  | finish ids status delayFree backend =>
      rw [step]
      split
      · next hstatus =>
        exact Ensures.ok ((h.finishRequests _ hstatus delayFree).of_keeps ⟨fun _ => rfl, id⟩
          (.refl _))
      · exact Ensures.error trivial
  | schedule env =>
      refine Ensures.bind (h.schedule env cfg) ?_
      exact fun st hst => Ensures.ok (hst.updateAfterSchedule cfg)
  | update out =>
      rw [step]
      split
      · exact Ensures.error trivial
      · next step rest hinflight =>
        have hsafe : StopsSettled cfg out e.sched step := hsettles step (by simp [hinflight])
        exact Ensures.map (updateFromOutput_spec cfg out h hsafe) fun _ hs => hs
  | reset backend =>
      refine Ensures.map (h.resetRunning cfg.policy) ?_
      exact fun s hs => hs.of_keeps ⟨fun _ => rfl, id⟩ (.refl _)
  | pause state => exact Ensures.ok (h.of_keeps ⟨fun _ => rfl, id⟩ (.refl _))

/-- In every run whose outputs stop only requests that are running, or in the queue from which
they are removed, the three places partition the unfinished requests in every state. -/
theorem settled_run_keeps_partition (cfg : SchedulerConfig) {backend : ω}
    {ops : List (EngineOp ω)} {e : Engine ω}
    (run : Run (SettledNext cfg) (initial backend) ops e) : e.sched.Partition := by
  have hbalanced : e.sched.Balanced :=
    run.invariant (fun _ _ _ _ h hnext => step_balanced h hnext) (initial_balanced backend)
  exact hbalanced.partition

/-! ## Two runs with three steps in flight -/

section Pipeline

open Control KV

/-- Asynchronous scheduling; the batches of a pipeline of three stages are in flight. -/
def pipelineConfig : SchedulerConfig where
  policy := .fcfs
  maxNumRunningReqs := 8
  maxNumScheduledTokens := 64
  maxNumEncoderInputTokens := 0
  maxModelLen := 16
  asyncScheduling := true

/-- Two blocks of two tokens, next to the null block. -/
def pipelineCache : KVCacheConfig where
  numBlocks := 3
  kvCacheGroups := [⟨.fullAttention, 2, Nat.two_pos, 0⟩]
  maxModelLen := 16
  maxNumBatchedTokens := 64
  enableCaching := false
  hashBlockSize := 2

/-- The controller admits a request for its input only. -/
def inputReservation : SchedulingConfig :=
  { SchedulingConfig.defaults with reserveGenerationTokens := false }

def pipelineStep : StepSettings (List ℕ) where
  inputs := .uniform
  blockHashes _ := []

def plannerMetadata : AgentMetadata where
  agentType := "planner"
  importance := 1
  joinGroup := ""
  applicationStartedAt := 0

/-- The output of the first step: both requests have sampled a token, `short` its only one. -/
def firstOutput (backend : Backend (List ℕ)) : ModelRunnerOutput (Backend (List ℕ)) where
  sampledTokenIds id := if id = "short" then [7] else [3]
  hasPoolerOutput _ := false
  grammarRejects _ := false
  truncated _ := none
  finishedRecving := []
  finishedSending := []
  delayFree _ := false
  backend := backend

def longPrompt : Request where
  requestId := "long"
  promptTokenIds := [1, 2]
  maxTokens := 4

def shortPrompt : Request where
  requestId := "short"
  promptTokenIds := [5]
  maxTokens := 1

/-- The first step starts both requests, the annotated one and the ordinary one; the second preempts
`short` for the third token of `long`; a third one refuses `short`, for which no block is free, and
skips it. -/
def pipelineOps (empty : Backend (List ℕ)) (steps : ℕ) : List (EngineOp (Backend (List ℕ))) :=
  .add longPrompt false (fun _ => false) empty ::
    .add shortPrompt false (fun _ => false) (empty.associate "short" plannerMetadata) ::
      List.replicate steps (.schedule (Backend.collaborators pipelineStep))

/-- The output of the first step comes back, and `short` is freed. -/
def settleFirst (e : Engine (Backend (List ℕ))) : EngineOp (Backend (List ℕ)) :=
  .update (firstOutput (e.sched.backend.freeRequest
    (pipelineStep.growthRequest shortPrompt).toRequest))

/-- Perform the calls of a list as long as their stops are settled. -/
def executeSettled (cfg : SchedulerConfig) (e : Engine ω) (ops : List (EngineOp ω)) :
    Option (Engine ω) :=
  ops.foldlM (fun e op => if e.Settles cfg op then (e.step cfg op).toOption else none) e

theorem run_of_executeSettled {cfg : SchedulerConfig} {e e' : Engine ω} {ops : List (EngineOp ω)}
    (h : e.executeSettled cfg ops = some e') : Run (SettledNext cfg) e ops e' := by
  induction ops generalizing e with
  | nil =>
      obtain rfl := Option.some.inj h
      exact .nil e
  | cons op ops ih =>
      simp only [executeSettled, List.foldlM_cons] at h
      obtain ⟨e₁, he₁, hrest⟩ := Option.bind_eq_some_iff.mp h
      split at he₁
      · next hsettles =>
        cases hstep : e.step cfg op with
        | error err => simp [hstep, Except.toOption] at he₁
        | ok e₂ =>
            obtain rfl : e₂ = e₁ := by simpa [hstep, Except.toOption] using he₁
            exact .cons ⟨hsettles, hstep⟩ (ih hrest)
      · cases he₁

/-- Without the third step `short` is still in the waiting queue when it stops. -/
theorem preempted_request_settles : ∃ m e t, KVCacheManager.new pipelineCache = .ok m ∧
    Run (SettledNext pipelineConfig) (initial (.start inputReservation m))
      (pipelineOps (.start inputReservation m) 2 ++ [settleFirst e]) t ∧
    e.sched.waiting = ["short"] ∧ t.sched.running = ["long"] ∧ t.sched.requests.keys = ["long"] ∧
    t.sched.backend.failure = none ∧ t.sched.Partition := by
  have hcomputed : (KVCacheManager.new (η := List ℕ) pipelineCache).toOption.any (fun m =>
      ((initial (.start inputReservation m)).executeSettled pipelineConfig
        (pipelineOps (.start inputReservation m) 2)).any fun e =>
          (e.executeSettled pipelineConfig [settleFirst e]).any fun t =>
            decide (e.sched.waiting = ["short"] ∧ t.sched.running = ["long"] ∧
              t.sched.requests.keys = ["long"] ∧ t.sched.backend.failure = none)) = true := by
    decide +kernel
  obtain ⟨m, hm, hrest⟩ := (Option.any_eq_true _ _).mp hcomputed
  obtain ⟨e, he, hrest⟩ := (Option.any_eq_true _ _).mp hrest
  obtain ⟨t, ht, hfacts⟩ := (Option.any_eq_true _ _).mp hrest
  obtain ⟨hwaiting, hrunning, hkeys, hfailure⟩ := of_decide_eq_true hfacts
  have hrun := (run_of_executeSettled he).append (run_of_executeSettled ht)
  exact ⟨m, e, t, Ensures.eq_ok_of_toOption_eq_some hm, hrun, hwaiting, hrunning, hkeys, hfailure,
    settled_run_keeps_partition pipelineConfig hrun⟩

/-- The request that was preempted and then skipped stops on the output of the first step: it is
finished and freed, and stays in `skipped_waiting`. -/
theorem skipped_request_survives_stop : ∃ m e t, KVCacheManager.new pipelineCache = .ok m ∧
    Run (Next pipelineConfig) (initial (.start inputReservation m))
      (pipelineOps (.start inputReservation m) 3 ++ [settleFirst e]) t ∧
    t.sched.backend.failure = none ∧ t.sched.requests.get? "short" = none ∧
    "short" ∈ t.sched.skippedWaiting ∧ ¬t.sched.Partition := by
  have hcomputed : (KVCacheManager.new (η := List ℕ) pipelineCache).toOption.any (fun m =>
      ((initial (.start inputReservation m)).execute pipelineConfig
        (pipelineOps (.start inputReservation m) 3)).toOption.any fun e =>
          (e.execute pipelineConfig [settleFirst e]).toOption.any fun t =>
            decide (t.sched.backend.failure = none ∧ t.sched.requests.get? "short" = none ∧
              t.sched.skippedWaiting = ["short"])) = true := by
    decide +kernel
  obtain ⟨m, hm, hrest⟩ := (Option.any_eq_true _ _).mp hcomputed
  obtain ⟨e, he, hrest⟩ := (Option.any_eq_true _ _).mp hrest
  obtain ⟨t, ht, hfacts⟩ := (Option.any_eq_true _ _).mp hrest
  obtain ⟨hfailure, hget, hskipped⟩ := of_decide_eq_true hfacts
  have hfirst := run_of_execute (Ensures.eq_ok_of_toOption_eq_some he)
  have hlast := run_of_execute (Ensures.eq_ok_of_toOption_eq_some ht)
  refine ⟨m, e, t, Ensures.eq_ok_of_toOption_eq_some hm, hfirst.append hlast, hfailure, hget,
    by simp [hskipped], ?_⟩
  intro hpartition
  have hmem : "short" ∈ t.sched.placed := by simp [Scheduler.placed, hskipped]
  obtain ⟨r, hr, -⟩ := (hpartition.mem_iff "short").mp hmem
  simp [hget] at hr

end Pipeline

end Engine

end TokenCake.Sched
