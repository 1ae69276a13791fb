import Mathlib.Algebra.BigOperators.Group.List.Basic
import Mathlib.Data.List.Dedup
import TokenCake.Verification.Fence.Completion

/-! # A job on its way through a worker

A store passes from the inbox over the deferred and the running transfers into a report. Each
operation of a worker moves it forward and neither drops nor repeats it. -/

namespace TokenCake.Offload

namespace Worker

/-- The stores of the steps that the worker has not executed. -/
def announced (w : Worker) : List JobId := w.inbox.flatMap (·.metadata.storeJobs.keys)

/-- The worker has not finished the job. -/
def owed (w : Worker) (j : JobId) : ℕ :=
  w.announced.count j + w.unsubmittedStoreJobs.count j + w.inFlight.count j

/-- The scheduler has not processed the worker's report of the job. -/
def due (w : Worker) (j : JobId) : ℕ := w.owed j + w.finished.count j + w.outbox.flatten.count j

/-- The job is no load of a step that the worker has not executed. -/
def NoLoad (w : Worker) (j : JobId) : Prop :=
  ∀ m ∈ w.inbox, j ∉ m.metadata.loadJobs.keys

variable {w : Worker} {j : JobId}

theorem owed_le_due (w : Worker) (j : JobId) : w.owed j ≤ w.due j := by
  rw [due]
  omega

/-! ## Receiving a step -/

/-- The message of the next step arrives. -/
def receive (w : Worker) (m : StepMessage) : Worker := { w with inbox := w.inbox ++ [m] }

theorem owed_receive (w : Worker) (m : StepMessage) (j : JobId) :
    (w.receive m).owed j = w.owed j + m.metadata.storeJobs.keys.count j := by
  simp only [owed, announced, receive, List.flatMap_append, List.flatMap_cons, List.flatMap_nil,
    List.append_nil, List.count_append]
  omega

theorem due_receive (w : Worker) (m : StepMessage) (j : JobId) :
    (w.receive m).due j = w.due j + m.metadata.storeJobs.keys.count j := by
  rw [due, due, owed_receive]
  simp only [receive]
  omega

/-! ## Executing a step -/

/-- The worker after the execution of the step at the head of its inbox. -/
theorem execute_spec {m : StepMessage} {rest : List StepMessage} (hinbox : w.inbox = m :: rest)
    (hload : j ∉ m.metadata.loadJobs.keys) :
    (({ w with inbox := rest }.execute m).1.owed j +
        ({ w with inbox := rest }.execute m).2.count j = w.owed j) ∧
      (w.due j ≤ 1 → ({ w with inbox := rest }.execute m).1.due j = w.due j) := by
  have hloads : m.metadata.loadJobs.keys.count j = 0 := List.count_eq_zero.mpr hload
  have hsplit : ∀ l : List JobId, (l.filter (· ∉ m.metadata.jobsToFlush)).count j +
      (l.filter (· ∈ m.metadata.jobsToFlush)).count j = l.count j := by
    intro l
    have hzero : ∀ p : JobId → Bool, p j = false → (l.filter p).count j = 0 := fun p hp =>
      List.count_eq_zero.mpr fun hmem => by simp [hp] at hmem
    by_cases hj : j ∈ m.metadata.jobsToFlush
    · have hin : (l.filter (· ∈ m.metadata.jobsToFlush)).count j = l.count j :=
        List.count_filter (by simpa using hj)
      rw [hin, hzero _ (by simpa using hj)]
      omega
    · have hout : (l.filter (· ∉ m.metadata.jobsToFlush)).count j = l.count j :=
        List.count_filter (by simpa using hj)
      rw [hout, hzero _ (by simpa using hj)]
      omega
  have hdedup : ∀ l : List JobId, l.count j ≤ 1 → l.dedup.count j = l.count j := by
    intro l hl
    by_cases hj : j ∈ l
    · have := List.count_pos_iff.mpr hj
      rw [List.count_eq_one_of_mem (List.nodup_dedup l) (List.mem_dedup.mpr hj)]
      omega
    · rw [List.count_eq_zero.mpr hj, List.count_eq_zero.mpr (fun h => hj (List.mem_dedup.mp h))]
  have hann : w.announced.count j = m.metadata.storeJobs.keys.count j +
      (rest.flatMap (·.metadata.storeJobs.keys)).count j := by
    rw [announced, hinbox, List.flatMap_cons, List.count_append]
  have hflight := hsplit (w.inFlight ++ w.unsubmittedStoreJobs)
  rw [List.count_append] at hflight
  have howed : ({ w with inbox := rest }.execute m).1.owed j +
      ({ w with inbox := rest }.execute m).2.count j = w.owed j := by
    simp only [execute, handlePreemptions, submit, startKvTransfers, prepareStoreKv, getFinished,
      owed, announced, List.count_append, List.append_nil, List.nil_append, hloads] at *
    omega
  refine ⟨howed, fun hdue => ?_⟩
  have hreport := hdedup (w.finished ++ (w.inFlight ++ w.unsubmittedStoreJobs).filter
    (· ∈ m.metadata.jobsToFlush))
  simp only [due, owed] at hdue
  simp only [execute, handlePreemptions, submit, startKvTransfers, prepareStoreKv, getFinished,
    due, owed, announced, List.count_append, List.append_nil, List.nil_append, hloads,
    List.flatten_append, List.flatten_cons, List.flatten_nil, List.count_nil] at *
  omega

/-! ## Transfers that end -/

theorem transferred_spec {job : JobId} (hjob : job ∈ w.inFlight) (hdue : w.due j ≤ 1) :
    (w.transferred job).due j = w.due j ∧ (w.transferred job).owed j ≤ w.owed j ∧
      (j ≠ job → (w.transferred job).owed j = w.owed j) := by
  by_cases hj : j = job
  · subst hj
    have hpos := List.count_pos_iff.mpr hjob
    have hzero : (w.inFlight.filter (· ≠ j)).count j = 0 :=
      List.count_eq_zero.mpr (by simp)
    have hall : (w.transferred j).owed j + w.inFlight.count j = w.owed j := by
      simp only [transferred, owed, announced, hzero]
      omega
    have hfinished : (w.transferred j).finished.count j = w.finished.count j + 1 := by
      simp [transferred]
    have houtbox : (w.transferred j).outbox = w.outbox := rfl
    refine ⟨?_, by omega, fun hne => absurd rfl hne⟩
    rw [due] at hdue
    rw [due, due, hfinished, houtbox]
    omega
  · have hsame : (w.inFlight.filter (· ≠ job)).count j = w.inFlight.count j :=
      List.count_filter (by simpa using hj)
    have hnone : ([job] : List JobId).count j = 0 :=
      List.count_eq_zero.mpr (by simpa using hj)
    have howed : (w.transferred job).owed j = w.owed j := by
      simp only [transferred, owed, announced, hsame]
    refine ⟨?_, howed.le, fun _ => howed⟩
    rw [due, due, howed]
    simp only [transferred, List.count_append, hnone, Nat.add_zero]

end Worker

open Worker

/-! ## Reports -/

/-- The reports of the job that the scheduler has not processed. -/
def totalDue (workers : List Worker) (j : JobId) : ℕ := (workers.map (·.due j)).sum

theorem sum_map_set {α : Type*} (f : α → ℕ) {l : List α} {i : ℕ} {a : α} (ha : l[i]? = some a)
    (b : α) : ((l.set i b).map f).sum + f a = (l.map f).sum + f b := by
  induction l generalizing i with
  | nil => simp at ha
  | cons x xs ih =>
      cases i with
      | zero =>
          obtain rfl : x = a := by simpa using ha
          simp only [List.set_cons_zero, List.map_cons, List.sum_cons]
          omega
      | succ i =>
          have := ih (i := i) (by simpa using ha)
          simp only [List.set_cons_succ, List.map_cons, List.sum_cons]
          omega

/-- A worker whose next reports were taken. -/
structure Took (w w' : Worker) : Prop where
  inbox : w'.inbox = w.inbox
  owed : ∀ j, w'.owed j = w.owed j

theorem Took.refl (w : Worker) : Took w w := ⟨rfl, fun _ => rfl⟩

theorem Took.trans {w w' w'' : Worker} (h : Took w w') (h' : Took w' w'') : Took w w'' :=
  ⟨h'.inbox.trans h.inbox, fun j => (h'.owed j).trans (h.owed j)⟩

/-- What taking reports leaves of the workers: every report taken is no longer due. -/
structure Taken (workers workers' : List Worker) (reports : List (ℕ × List JobId)) : Prop where
  length : workers'.length = workers.length
  each : ∀ i w', workers'[i]? = some w' → ∃ w, workers[i]? = some w ∧ Took w w' ∧
    ∀ j, w.due j = w'.due j + (reportedJobs reports).count (i, j)
  total : ∀ j, totalDue workers j = totalDue workers' j + (reports.map Prod.snd).flatten.count j

theorem count_report (i j : ℕ) (w : ℕ) (report : List JobId) :
    (report.map fun job => (w, job)).count (i, j) = if i = w then report.count j else 0 := by
  split
  · next h =>
    subst h
    exact List.count_map_of_injective report _ (fun a b hab => (Prod.mk.inj hab).2) j
  · next h =>
    refine List.count_eq_zero.mpr fun hmem => ?_
    obtain ⟨job, -, heq⟩ := List.mem_map.mp hmem
    exact h (Prod.mk.inj heq).1.symm

theorem takeReports_spec {workers workers' : List Worker} {reporters : List ℕ}
    {reports : List (ℕ × List JobId)}
    (h : takeReports workers reporters = some (workers', reports)) :
    Taken workers workers' reports := by
  induction reporters generalizing workers reports with
  | nil =>
      obtain ⟨rfl, rfl⟩ := Prod.mk.inj (Option.some.inj h)
      exact ⟨rfl, fun i w' hw' => ⟨w', hw', .refl w', by simp [reportedJobs]⟩, by simp⟩
  | cons i rest ih =>
      rw [takeReports] at h
      split at h
      · cases h
      · next worker hworker =>
        split at h
        · cases h
        · next report outbox houtbox =>
          obtain ⟨⟨ws, rs⟩, hrest, heq⟩ := Option.map_eq_some_iff.mp h
          obtain ⟨rfl, rfl⟩ := Prod.mk.inj heq
          have htaken := ih hrest
          have hdue : ∀ j, worker.due j =
              ({ worker with outbox := outbox } : Worker).due j + report.count j := by
            intro j
            simp only [due, owed, announced, houtbox, List.flatten_cons, List.count_append]
            omega
          refine ⟨htaken.length.trans (by simp), ?_, ?_⟩
          · intro k w' hw'
            obtain ⟨w, hw, htook, hcount⟩ := htaken.each k w' hw'
            have hreported : ∀ j, (reportedJobs ((i, report) :: rs)).count (k, j) =
                (if k = i then report.count j else 0) + (reportedJobs rs).count (k, j) := by
              intro j
              rw [reportedJobs, List.flatMap_cons, List.count_append, count_report]
              rfl
            by_cases hk : k = i
            · subst hk
              have hlt := (List.getElem?_eq_some_iff.mp hworker).1
              rw [List.getElem?_set_self hlt] at hw
              obtain rfl := Option.some.inj hw
              refine ⟨worker, hworker, ⟨htook.inbox, fun j => htook.owed j⟩, fun j => ?_⟩
              rw [hdue, hcount j, hreported j, if_pos rfl]
              omega
            · rw [List.getElem?_set_ne (Ne.symm hk)] at hw
              refine ⟨w, hw, htook, fun j => ?_⟩
              rw [hcount j, hreported j, if_neg hk]
              omega
          · intro j
            have hset := sum_map_set (·.due j) hworker { worker with outbox := outbox }
            have htotal := htaken.total j
            have hj := hdue j
            simp only [totalDue, List.map_cons, List.flatten_cons, List.count_append] at *
            omega

theorem reports_aggregate (rs : List (List JobId)) (j : JobId) :
    TokenCakeOffloadingScheduler.reports (aggregate rs).entries j = rs.flatten.count j := by
  have hfold : ∀ (jobs : List JobId) (d : OrdDict JobId ℕ),
      ((jobs.foldl (fun d job => d.insert job ((d.get? job).getD 0 + 1)) d).get? j).getD 0 =
        (d.get? j).getD 0 + jobs.count j := by
    intro jobs
    induction jobs with
    | nil => simp
    | cons job rest ih =>
        intro d
        rw [List.foldl_cons, ih, OrdDict.get?_insert, List.count_cons]
        by_cases hj : j = job
        · subst hj
          simp
          omega
        · simp [hj, Ne.symm hj]
  have hempty := hfold rs.flatten .empty
  rw [OrdDict.get?_empty, Option.getD_none, Nat.zero_add] at hempty
  exact hempty

end TokenCake.Offload
