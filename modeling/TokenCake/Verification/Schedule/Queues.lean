import Mathlib.Data.List.Perm.Basic
import TokenCake.Lib.Ensures
import TokenCake.Model.Schedule

/-! # Queues and the partition of requests

Every queue operation permutes what it is given. From this: the places of a scheduler hold the
same requests after any primitive step of `schedule`. -/

namespace TokenCake.Sched

variable {ω : Type}

/-! ## Queue operations are permutations -/

namespace RequestQueue

variable (policy : SchedulingPolicy) (before : String → String → Bool)

theorem push_perm (id : String) (queue : RequestQueue) : (push before id queue).Perm (id :: queue) := by
  induction queue with
  | nil => simp [push]
  | cons other rest ih =>
      rw [push]
      split
      · exact .refl _
      · exact (ih.cons other).trans (.swap id other rest)

theorem addRequest_perm (queue : RequestQueue) (id : String) :
    (addRequest policy before queue id).Perm (id :: queue) := by
  cases policy with
  | fcfs => exact List.perm_append_comm
  | priority => exact push_perm before id queue

theorem prependRequest_perm (queue : RequestQueue) (id : String) :
    (prependRequest policy before queue id).Perm (id :: queue) := by
  cases policy with
  | fcfs => exact .refl _
  | priority => exact push_perm before id queue

theorem prependRequests_perm (queue requests : RequestQueue) :
    (prependRequests policy before queue requests).Perm (requests ++ queue) := by
  induction requests generalizing queue with
  | nil => exact .refl _
  | cons id rest ih =>
      have hid := prependRequest_perm policy before queue id
      calc prependRequests policy before queue (id :: rest)
          |>.Perm (rest ++ prependRequest policy before queue id) := ih _
        _ |>.Perm (rest ++ id :: queue) := hid.append_left rest
        _ |>.Perm (id :: rest ++ queue) := List.perm_middle

end RequestQueue

/-! ## The partition -/

/-- What no step of `schedule` changes about a request. -/
def Request.identity (r : Request) : String × Bool := (r.requestId, r.isFinished)

namespace Scheduler

/-- The requests in the three places of the scheduler, with repetitions. -/
def placed (s : Scheduler ω) : List String := s.running ++ s.waiting ++ s.skippedWaiting

/-- Each unfinished request is in exactly one of the three places, exactly once, and nothing
else is in them. -/
structure Partition (s : Scheduler ω) : Prop where
  keyed : ∀ id r, s.requests.get? id = some r → r.requestId = id
  nodup : s.placed.Nodup
  mem_iff : ∀ id, id ∈ s.placed ↔ ∃ r, s.requests.get? id = some r ∧ r.isFinished = false

/-- The same requests, finished or not as before. -/
def SameRequests (s s' : Scheduler ω) : Prop :=
  ∀ id, (s'.requests.get? id).map Request.identity = (s.requests.get? id).map Request.identity

/-- The running requests are those with the running status. -/
def RunningMarked (s : Scheduler ω) : Prop :=
  ∀ id r, s.requests.get? id = some r → (r.status = .running ↔ id ∈ s.running)

/-- What every piece of `schedule` keeps about the requests. -/
abbrev Keeps (s s' : Scheduler ω) : Prop :=
  SameRequests s s' ∧ (s.RunningMarked → s'.RunningMarked)

theorem Keeps.refl (s : Scheduler ω) : Keeps s s := ⟨fun _ => rfl, id⟩

theorem Keeps.trans {s s' s'' : Scheduler ω} (h : Keeps s s') (h' : Keeps s' s'') :
    Keeps s s'' :=
  ⟨fun id => (h'.1 id).trans (h.1 id), fun hm => h'.2 (h.2 hm)⟩

theorem sameRequests_setRequest (s : Scheduler ω) (id : String) {f : Request → Request}
    (hf : ∀ r, s.requests.get? id = some r → (f r).identity = r.identity) :
    SameRequests s (s.setRequest id f) := by
  intro k
  simp only [setRequest, OrdDict.get?_modify]
  split
  · next hk =>
    subst hk
    cases hr : s.requests.get? k with
    | none => rfl
    | some r => simp [hf r hr]
  · rfl

/-- The marks after a write to one request, once the running list agrees on it. -/
theorem runningMarked_setRequest {s : Scheduler ω} {id : String} {f : Request → Request}
    (hother : ∀ k r, k ≠ id → s.requests.get? k = some r → (r.status = .running ↔ k ∈ s.running))
    (hid : ∀ r, s.requests.get? id = some r → ((f r).status = .running ↔ id ∈ s.running)) :
    (s.setRequest id f).RunningMarked := by
  intro k r hr
  simp only [setRequest, OrdDict.get?_modify] at hr
  split at hr
  · next hk =>
    subst hk
    obtain ⟨r', hr', rfl⟩ := Option.map_eq_some_iff.mp hr
    exact hid r' hr'
  · next hk => exact hother k r hk hr

theorem keeps_setRequest (s : Scheduler ω) (id : String) {f : Request → Request}
    (hf : ∀ r, s.requests.get? id = some r → (f r).identity = r.identity ∧
      ((f r).status = .running ↔ r.status = .running)) :
    Keeps s (s.setRequest id f) := by
  refine ⟨sameRequests_setRequest s id fun r hr => (hf r hr).1, fun hm => ?_⟩
  refine runningMarked_setRequest (fun k r _ hr => hm k r hr) fun r hr => ?_
  rw [(hf r hr).2]
  exact hm id r hr

/-- A partition survives a permutation of the places with unchanged requests. -/
theorem Partition.of_perm {s s' : Scheduler ω} (h : s.Partition) (hp : s'.placed.Perm s.placed)
    (hr : SameRequests s s') : s'.Partition := by
  have hget : ∀ id r', s'.requests.get? id = some r' →
      ∃ r, s.requests.get? id = some r ∧ r'.identity = r.identity := by
    intro id r' hr'
    have heq := hr id
    rw [hr'] at heq
    cases hs : s.requests.get? id with
    | none => simp [hs] at heq
    | some r =>
        rw [hs] at heq
        exact ⟨r, rfl, by simpa using heq⟩
  refine ⟨?_, hp.nodup_iff.mpr h.nodup, ?_⟩
  · intro id r' hr'
    obtain ⟨r, hs, he⟩ := hget id r' hr'
    exact (congrArg Prod.fst he).trans (h.keyed id r hs)
  · intro id
    rw [hp.mem_iff, h.mem_iff]
    constructor
    · rintro ⟨r, hs, hfin⟩
      have heq := hr id
      rw [hs] at heq
      cases hs' : s'.requests.get? id with
      | none => simp [hs'] at heq
      | some r' =>
          rw [hs'] at heq
          have he : r'.identity = r.identity := by simpa using heq
          exact ⟨r', rfl, (congrArg Prod.snd he).trans hfin⟩
    · rintro ⟨r', hs', hfin⟩
      obtain ⟨r, hs, he⟩ := hget id r' hs'
      exact ⟨r, hs, (congrArg Prod.snd he).symm.trans hfin⟩

/-- A request of the partition is still in the table under its own identifier. -/
theorem SameRequests.lookup {s₀ s : Scheduler ω} (h : SameRequests s₀ s) (hs₀ : s₀.Partition)
    {id : String} (hid : id ∈ s₀.placed) :
    ∃ r, s.requests.get? id = some r ∧ s.lookup id = .ok r ∧ r.requestId = id ∧
      r.isFinished = false := by
  obtain ⟨r₀, hr₀, hfin⟩ := (hs₀.mem_iff id).mp hid
  have heq := h id
  rw [hr₀] at heq
  cases hr : s.requests.get? id with
  | none => simp [hr] at heq
  | some r =>
      rw [hr] at heq
      have he : r.identity = r₀.identity := by simpa using heq
      refine ⟨r, rfl, by simp [Scheduler.lookup, hr], ?_, ?_⟩
      · exact (congrArg Prod.fst he).trans (hs₀.keyed id r₀ hr₀)
      · exact (congrArg Prod.snd he).trans hfin

end Scheduler

/-! ## The places during a step -/

/-- The explicit checks of the source; every other error would be a failed queue operation, a
missing entry or a loop that does not end. -/
def ScheduleError.IsCheck : ScheduleError → Prop
  | .invalidStatus | .assertion => True
  | _ => False

/-- `x` returns a value satisfying `P` or is stopped by an explicit check. -/
abbrev Checked {α : Type} (P : α → Prop) (x : Except ScheduleError α) : Prop :=
  Ensures ScheduleError.IsCheck P x

namespace Scheduler

/-- What preempting a request that is out of the running list does. -/
structure Preempted (s : Scheduler ω) (id : String) (s' : Scheduler ω) : Prop where
  running : s'.running = s.running
  skipped : s'.skippedWaiting = s.skippedWaiting
  waiting : s'.waiting.Perm (id :: s.waiting)
  same : SameRequests s s'
  marked : id ∉ s.running → (∀ k r, k ≠ id → s.requests.get? k = some r →
    (r.status = .running ↔ k ∈ s.running)) → s'.RunningMarked

theorem preempt_spec (s : Scheduler ω) (policy : SchedulingPolicy) {id : String} {r : Request}
    (hr : s.requests.get? id = some r) :
    Checked (Preempted s id) (s.preempt policy id) := by
  have hlookup : s.lookup id = .ok r := by simp [lookup, hr]
  refine Ensures.bind_ok hlookup ?_
  split
  · next hstatus =>
    refine Ensures.ok ⟨rfl, rfl, RequestQueue.prependRequest_perm _ _ _ _, ?_, ?_⟩
    · refine sameRequests_setRequest s id ?_
      intro r' hr'
      obtain rfl : r = r' := by simpa [hr] using hr'
      simp [Request.identity, Request.isFinished, hstatus, RequestStatus.isFinished]
    · intro habsent hother
      exact runningMarked_setRequest hother fun r' _ => iff_of_false (by simp) habsent
  · exact Ensures.error trivial

end Scheduler

namespace Step

/-- The requests in the places of the scheduler and among the requests skipped so far. -/
def placed (st : Step ω) : List String := st.sched.placed ++ st.stepSkippedWaiting

/-- The step has neither lost nor duplicated a request of `s₀`. -/
structure Intact (s₀ : Scheduler ω) (st : Step ω) : Prop where
  perm : st.placed.Perm s₀.placed
  keeps : Scheduler.Keeps s₀ st.sched

namespace Intact

variable {s₀ : Scheduler ω} {st st' : Step ω}

theorem of_perm (h : Intact s₀ st) (hp : st'.placed.Perm st.placed)
    (hr : Scheduler.Keeps st.sched st'.sched) : Intact s₀ st' :=
  ⟨hp.trans h.perm, h.keeps.trans hr⟩

theorem nodup (h : Intact s₀ st) (hs : s₀.Partition) : st.placed.Nodup :=
  h.perm.nodup_iff.mpr hs.nodup

theorem lookup (h : Intact s₀ st) (hs : s₀.Partition) {id : String} (hid : id ∈ st.placed) :
    ∃ r, st.sched.requests.get? id = some r ∧ st.sched.lookup id = .ok r ∧ r.requestId = id ∧
      r.isFinished = false :=
  h.keeps.1.lookup hs (h.perm.mem_iff.mp hid)

theorem mapM_lookup (h : Intact s₀ st) (hs : s₀.Partition) :
    ∀ {ids : List String}, (∀ id ∈ ids, id ∈ st.placed) →
      ∃ rs, ids.mapM st.sched.lookup = .ok rs ∧ rs.map Request.requestId = ids := by
  intro ids
  induction ids with
  | nil => exact fun _ => ⟨[], rfl, rfl⟩
  | cons id rest ih =>
      intro hids
      obtain ⟨r, -, hr, hid, -⟩ := h.lookup hs (hids id List.mem_cons_self)
      obtain ⟨rs, hrs, hmap⟩ := ih fun x hx => hids x (List.mem_cons_of_mem id hx)
      refine ⟨r :: rs, ?_, by simp [hid, hmap]⟩
      rw [List.mapM_cons, hr, hrs]
      rfl

end Intact

theorem mem_placed_of_running {st : Step ω} {id : String} (h : id ∈ st.sched.running) :
    id ∈ st.placed := by
  simp [placed, Scheduler.placed, h]

theorem mem_placed_of_queue {st : Step ω} {id : String} {name : QueueName}
    (h : id ∈ st.sched.queue name) : id ∈ st.placed := by
  cases name with
  | waiting => simp_all [placed, Scheduler.placed, Scheduler.queue]
  | skipped => simp_all [placed, Scheduler.placed, Scheduler.queue]

end Step

end TokenCake.Sched
