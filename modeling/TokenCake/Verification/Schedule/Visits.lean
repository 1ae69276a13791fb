import TokenCake.Verification.Schedule.Budgets

/-! # Which running requests the loop examines

The loop indexes a list that shrinks while it is traversed. Each running request is examined
exactly once as long as no native priority victim is a request that was only passed over: the
index is not corrected for such a victim, and the request behind it is missed. -/

namespace TokenCake.Sched

variable {ω : Type}

/-- The requests that were examined, in their order. -/
def examinedIds (events : List LoopEvent) : List String :=
  events.filterMap fun
    | .examined id => some id
    | _ => none

theorem count_examined (events : List LoopEvent) (id : String) :
    events.count (.examined id) = (examinedIds events).count id := by
  induction events with
  | nil => rfl
  | cons e events ih =>
      cases e with
      | examined x =>
          simp only [examinedIds, List.filterMap_cons] at ih ⊢
          rw [List.count_cons, List.count_cons, ih]
          simp
      | _ => simpa [examinedIds, List.count_cons] using ih

/-- The request that the native priority policy preempts. -/
def latestRunning (st : Step ω) : Option String :=
  match runningRequests st with
  | .ok running => (latest running).map (·.requestId)
  | .error _ => none

/-- The request that the native priority policy would preempt for the ordinary request `r` has
been scheduled in this step, or the loop has not come past it. -/
def SparesPassedOver (cfg : SchedulerConfig) (agents : Option Agents) (st : Step ω)
    (r : Request) : Prop :=
  cfg.policy = .priority → isAnnotated agents r.requestId = false →
    ∀ id ∈ latestRunning st, id ∈ st.scheduledRunningReqs ∨
      st.reqIndex ≤ st.sched.running.idxOf id

instance (cfg : SchedulerConfig) (agents : Option Agents) (st : Step ω) (r : Request) :
    Decidable (SparesPassedOver cfg agents st r) :=
  inferInstanceAs (Decidable (_ → _ → ∀ id ∈ latestRunning st, _))

/-- The preemptions of the loop spare requests that were passed over. -/
def Phase.Spares (cfg : SchedulerConfig) (agents : Option Agents) : Phase ω → Prop
  | .allocate st r _ _ _ => SparesPassedOver cfg agents st r
  | _ => True

instance (cfg : SchedulerConfig) (agents : Option Agents) (p : Phase ω) :
    Decidable (p.Spares cfg agents) :=
  match p with
  | .allocate st r _ _ _ => inferInstanceAs (Decidable (SparesPassedOver cfg agents st r))
  | .examine _ => .isTrue trivial
  | .done _ => .isTrue trivial

/-- The steps of the loop, with the condition on those that preempt. -/
def SparingNext (env : Collaborators ω) (cfg : SchedulerConfig) (agents : Option Agents)
    (p : Phase ω) (e : LoopEvent) (p' : Phase ω) : Prop :=
  LoopNext env cfg agents p e p' ∧ ∀ id, e = .preempted id → p.Spares cfg agents

/-- Of the requests that still run, the ones in `seen` are those before the index. -/
def Phase.Counted (cfg : SchedulerConfig) (agents : Option Agents) (seen : List String) :
    Phase ω → Prop
  | .examine st => seen.Nodup ∧ ∀ id ∈ st.sched.running,
      id ∈ st.sched.running.take st.reqIndex ↔ id ∈ seen
  | .allocate st r _ _ _ => seen.Nodup ∧ ∃ pre post,
      Listed cfg agents True st pre (r.requestId :: post) ∧
        ∀ id ∈ st.sched.running, id ∈ pre ++ [r.requestId] ↔ id ∈ seen
  | .done _ => True

section Visits

variable {env : Collaborators ω} {cfg : SchedulerConfig} {agents : Option Agents} {T P : ℤ}
variable {st : Step ω} {seen : List String}

/-- An examined request was not examined before. -/
theorem Phase.Counted.examined (hsound : Phase.Sound cfg agents T P (.examine st))
    (h : Phase.Counted cfg agents seen (.examine st)) {id : String}
    (hid : st.sched.running[st.reqIndex]? = some id) {p : Phase ω}
    (hexamine : examineStep env cfg agents st id = .ok p) :
    p.Counted cfg agents (seen ++ [id]) := by
  obtain ⟨hnodup, hseen⟩ := h
  have hl := hsound.2.examine hid True
  have hmem : id ∈ st.sched.running := List.mem_of_getElem? hid
  have hnot : id ∉ st.sched.running.take st.reqIndex := by
    intro hin
    have hdisjoint := hl.nodup
    rw [hl.running] at hdisjoint
    exact List.disjoint_of_nodup_append hdisjoint hin List.mem_cons_self
  have hnew : (seen ++ [id]).Nodup := by
    refine hnodup.append (List.nodup_singleton id) (List.disjoint_singleton.mpr ?_)
    exact fun hin => hnot ((hseen id hmem).mpr hin)
  have hiff : ∀ x ∈ st.sched.running,
      x ∈ st.sched.running.take st.reqIndex ++ [id] ↔ x ∈ seen ++ [id] := by
    intro x hx
    rw [List.mem_append, List.mem_append, hseen x hx]
  obtain ⟨r, b, hlookup, hcases⟩ := examineStep_cases hexamine
  obtain ⟨q, hq, hkey, -⟩ := hl.record id hmem
  obtain rfl : q = r := by
    rw [Scheduler.lookup, hq] at hlookup
    exact Except.ok.inj hlookup
  cases hcases with
  | inl hskip =>
      subst hskip
      refine ⟨hnew, ?_⟩
      intro x hx
      change x ∈ st.sched.running.take (st.reqIndex + 1) ↔ _
      rw [List.take_add_one, hid]
      exact hiff x hx
  | inr hallocate =>
      obtain ⟨tokens, limitedPrefill, plan, rfl⟩ := hallocate
      subst hkey
      exact ⟨hnew, _, _, hl.withBackend b, hiff⟩

/-- The victim is corrected for by the index, or stands behind it. -/
theorem Preempts.spares {pre post : List String} {r : Request} {id : String} {st₁ st₂ : Step ω}
    (h : Preempts env cfg agents T P st r id st₁ st₂)
    (hl : Listed cfg agents True st pre (r.requestId :: post))
    (hspares : SparesPassedOver cfg agents st r) :
    isAnnotated agents r.requestId = false → id ∈ pre → id ∈ st.scheduledRunningReqs := by
  intro hordinary hpre
  have hnative := h.native hordinary
  rw [NativeVictim] at hnative
  split at hnative
  · next hpolicy =>
    -- the last running request is the requester or stands behind it
    rw [hl.running, List.getLast?_append_of_ne_nil _ (List.cons_ne_nil _ _)] at hnative
    have hdisjoint := hl.nodup
    rw [hl.running] at hdisjoint
    exact absurd (List.mem_of_getLast? hnative) (List.disjoint_of_nodup_append hdisjoint hpre)
  · next hpolicy =>
    obtain ⟨running, v, hrunning, hlatest, rfl⟩ := hnative
    have hmem : v.requestId ∈ latestRunning st := by
      rw [latestRunning, hrunning]
      exact congrArg (Option.map _) hlatest
    cases hspares hpolicy hordinary v.requestId hmem with
    | inl hmem => exact hmem
    | inr hbehind =>
        have hbefore : st.sched.running.idxOf v.requestId < pre.length := by
          rw [hl.running, List.idxOf_append_of_mem hpre]
          exact List.idxOf_lt_length_iff.mpr hpre
        have hindex := hl.index_eq trivial
        omega

theorem Phase.Counted.allocated {r : Request} {tokens : ℤ} {limitedPrefill : Bool}
    {plan : EncoderPlan}
    (hsound : Phase.Sound cfg agents T P (.allocate st r tokens limitedPrefill plan))
    (h : Phase.Counted cfg agents seen (.allocate st r tokens limitedPrefill plan))
    {e : LoopEvent} {p : Phase ω}
    (halloc : allocateStep env cfg agents st r tokens limitedPrefill plan = .ok (e, p))
    (hspares : ∀ id, e = .preempted id → SparesPassedOver cfg agents st r) :
    p.Counted cfg agents seen ∧ examinedIds [e] = [] := by
  obtain ⟨hnodup, pre, post, hl, hseen⟩ := h
  have hcases := (hsound.1.allocateStep_cases hl fun _ => trivial).of_eq_ok halloc
  cases hcases with
  | inl hscheduled =>
      obtain ⟨b, heq⟩ := hscheduled
      obtain ⟨rfl, rfl⟩ := Prod.mk.inj heq
      refine ⟨⟨hnodup, ?_⟩, rfl⟩
      intro x hx
      change x ∈ st.sched.running.take (st.reqIndex + 1) ↔ _
      rw [← hl.index_eq trivial, hl.running, List.take_append, List.take_of_length_le (by omega),
        Nat.add_sub_cancel_left, List.take_one]
      exact hseen x hx
  | inr hpreempts =>
      obtain ⟨b, id, st₁, st₂, plan', hp, heq⟩ := hpreempts
      obtain ⟨rfl, rfl⟩ := Prod.mk.inj heq
      have hlb := hl.withBackend b
      have hspared := hp.spares hlb (hspares id rfl)
      have hexact : True → (pre.erase id).length = st₁.reqIndex := fun _ =>
        (hp.dropped.index_spec hlb fun _ => hl.index_eq trivial).2 (hl.index_eq trivial) hspared
      obtain ⟨-, hrun, -, -, hl₂⟩ := hp.spec hlb hsound.1.nodup (fun _ => trivial) hexact
      refine ⟨?_, rfl⟩
      rw [afterPreemption]
      split
      · trivial
      · next hne =>
        rw [List.erase_cons_tail (by simpa using Ne.symm hne)] at hl₂
        refine ⟨hnodup, _, _, hl₂, ?_⟩
        intro x hx
        change x ∈ st₂.sched.running at hx
        rw [hrun, hlb.nodup.mem_erase_iff] at hx
        rw [← hseen x hx.2, List.mem_append, List.mem_append, List.mem_erase_of_ne hx.1]

/-- What a sparing run of the loop has examined. -/
theorem Phase.Counted.run (henv : env.Lawful) {p p' : Phase ω} {events : List LoopEvent}
    (hrun : Run (SparingNext env cfg agents) p events p') (hsound : p.Sound cfg agents T P)
    (h : p.Counted cfg agents seen) : p'.Counted cfg agents (seen ++ examinedIds events) := by
  induction hrun generalizing seen with
  | nil => simpa [examinedIds] using h
  | @cons p q p' e events hstep hrest ih =>
      obtain ⟨hnext, hspares⟩ := hstep
      have hq := hsound.next henv hnext
      have happend : examinedIds (e :: events) = examinedIds [e] ++ examinedIds events :=
        List.filterMap_append (l := [e])
      rw [happend, ← List.append_assoc]
      refine ih hq ?_
      cases hnext with
      | stop _ => trivial
      | examine hid _ hexamine => exact h.examined hsound hid hexamine
      | allocate halloc =>
          obtain ⟨hcounted, hnone⟩ := h.allocated hsound halloc hspares
          rw [hnone, List.append_nil]
          exact hcounted

/-- A run of the running loop to the end of the running list, none of whose preemptions takes a
request that was passed over, has examined every request that runs from its start to its end
exactly once. -/
theorem examined_exactly_once {s : Scheduler ω} (hs : s.Ready cfg) (henv : env.Lawful) :
    ∃ agents st₀, startStep env cfg s = .ok (agents, st₀) ∧
      ∀ events st', Run (SparingNext env cfg agents) (.examine st₀) events (.examine st') →
        st'.reqIndex = st'.sched.running.length →
        ∀ id ∈ s.running, id ∈ st'.sched.running → events.count (.examined id) = 1 := by
  obtain ⟨agents, st₀, hstart, -, hindex, hsound⟩ := startStep_sound hs henv
  refine ⟨agents, st₀, hstart, ?_⟩
  intro events st' hrun hend id _ hid
  have hcounted₀ : Phase.Counted cfg agents [] (.examine st₀) :=
    ⟨.nil, fun x _ => by simp [hindex]⟩
  obtain ⟨hnodup, hseen⟩ := Phase.Counted.run henv hrun hsound hcounted₀
  rw [List.nil_append] at hnodup hseen
  rw [count_examined]
  refine List.count_eq_one_of_mem hnodup ((hseen id hid).mp ?_)
  rw [hend, List.take_length]
  exact hid

end Visits

/-! ## A request that is missed -/

section Execution

variable (env : Collaborators ω) (cfg : SchedulerConfig) (agents : Option Agents)

/-- The next step of the loop before its end. -/
def loopStep : Phase ω → Option (LoopEvent × Phase ω)
  | .examine st => do
      let id ← st.sched.running[st.reqIndex]?
      if 0 < st.tokenBudget then
        (examineStep env cfg agents st id).toOption.map fun p => (.examined id, p)
      else none
  | .allocate st r tokens limitedPrefill plan =>
      (allocateStep env cfg agents st r tokens limitedPrefill plan).toOption
  | .done _ => none

/-- What can be read off a loop that is back at its head. -/
def Phase.atHead : Phase ω → Option (List String × ℕ × ℤ)
  | .examine st => some (st.sched.running, st.reqIndex, st.tokenBudget)
  | _ => none

/-- The next step, if it is the step `e` and `check` allows it. -/
def follow (check : Phase ω → Bool) (p : Phase ω) (e : LoopEvent) : Option (Phase ω) :=
  (loopStep env cfg agents p).bind fun out =>
    if out.1 = e ∧ check p = true then some out.2 else none

theorem loopNext_of_loopStep {p p' : Phase ω} {e : LoopEvent}
    (h : loopStep env cfg agents p = some (e, p')) : LoopNext env cfg agents p e p' := by
  have hok : ∀ {α : Type} {x : Except ScheduleError α} {a : α}, x.toOption = some a → x = .ok a := by
    intro α x a hx
    cases x with
    | error e => cases hx
    | ok b => exact congrArg Except.ok (Option.some.inj hx)
  cases p with
  | done st => cases h
  | allocate st r tokens limitedPrefill plan => exact .allocate (hok h)
  | examine st =>
      obtain ⟨id, hid, h⟩ := Option.bind_eq_some_iff.mp h
      split at h
      · next hbudget =>
        obtain ⟨p, hp, heq⟩ := Option.map_eq_some_iff.mp h
        obtain ⟨rfl, rfl⟩ := Prod.mk.inj heq
        exact .examine hid hbudget (hok hp)
      · cases h

theorem loopNext_of_follow {check : Phase ω → Bool} {p p' : Phase ω} {e : LoopEvent}
    (h : follow env cfg agents check p e = some p') :
    LoopNext env cfg agents p e p' ∧ check p = true := by
  obtain ⟨⟨e', q⟩, hstep, hq⟩ := Option.bind_eq_some_iff.mp h
  split at hq
  · next hcond =>
    obtain ⟨rfl, hcheck⟩ := hcond
    obtain rfl := Option.some.inj hq
    exact ⟨loopNext_of_loopStep env cfg agents hstep, hcheck⟩
  · cases hq

/-- Following the events of a list leads along a run. -/
theorem run_of_follow {events : List LoopEvent} {p p' : Phase ω}
    (h : events.foldlM (follow env cfg agents fun _ => true) p = some p') :
    Run (LoopNext env cfg agents) p events p' :=
  Run.of_foldlM (fun _ _ _ hstep => (loopNext_of_follow env cfg agents hstep).1) h

theorem sparing_run_of_follow {events : List LoopEvent} {p p' : Phase ω}
    (h : events.foldlM (follow env cfg agents fun p => decide (p.Spares cfg agents)) p =
      some p') : Run (SparingNext env cfg agents) p events p' := by
  refine Run.of_foldlM ?_ h
  intro p e p' hstep
  obtain ⟨hnext, hspares⟩ := loopNext_of_follow env cfg agents hstep
  exact ⟨hnext, fun _ _ => of_decide_eq_true hspares⟩

end Execution

theorem exists_of_atHead {p : Option (Phase ω)} {running : List String} {index : ℕ}
    {tokens : ℤ} (h : p.bind Phase.atHead = some (running, index, tokens)) :
    ∃ st, p = some (.examine st) ∧ st.sched.running = running ∧ st.reqIndex = index ∧
      st.tokenBudget = tokens := by
  obtain ⟨q, rfl, hq⟩ := Option.bind_eq_some_iff.mp h
  cases q with
  | examine st =>
      obtain ⟨hrunning, hrest⟩ := Prod.mk.inj (Option.some.inj hq)
      exact ⟨st, rfl, hrunning, Prod.mk.inj hrest⟩
  | allocate st r tokens limitedPrefill plan => cases hq
  | done st => cases hq

/-- The less urgent request is scheduled before its block is taken; the other one is examined
once. -/
theorem priority_preemption_examines_once :
    ∃ agents st₀ st' events,
      startStep poolCollaborators priorityConfig priorityScheduler = .ok (agents, st₀) ∧
      Run (SparingNext poolCollaborators priorityConfig agents) (.examine st₀) events
        (.examine st') ∧
      .preempted "late" ∈ events ∧ st'.reqIndex = st'.sched.running.length ∧
      "soon" ∈ st'.sched.running ∧ events.count (.examined "soon") = 1 := by
  obtain ⟨agents, st₀, hstart, hruns⟩ :=
    examined_exactly_once priorityScheduler_ready poolCollaborators_lawful
  have hvalues : (startStep poolCollaborators priorityConfig priorityScheduler).toOption.bind
      (fun out => ([.examined "late", .scheduled "late", .examined "soon", .preempted "late",
        .scheduled "soon"].foldlM (follow poolCollaborators priorityConfig out.1
          fun p => decide (p.Spares priorityConfig out.1)) (.examine out.2)).bind Phase.atHead) =
      some (["soon"], 1, 62) := by decide +kernel
  rw [hstart] at hvalues
  obtain ⟨st', hst', hrunning, hindex, -⟩ := exists_of_atHead hvalues
  have hrun := sparing_run_of_follow _ _ _ hst'
  have hend : st'.reqIndex = st'.sched.running.length := by rw [hrunning, hindex]; rfl
  have hmem : "soon" ∈ st'.sched.running := by simp [hrunning]
  exact ⟨agents, st₀, st', _, hstart, hrun, by decide, hend, hmem,
    hruns _ st' hrun hend "soon" (by decide) hmem⟩

/-- Three running requests and no free block. The first one has no tokens left to compute and is
the least urgent. -/
def passingScheduler : Scheduler ℕ where
  requests := .ofList [("idle", runningRequest "idle" 1 [1, 2, 3] 3),
    ("first", runningRequest "first" 0 [4, 5] 0), ("second", runningRequest "second" 0 [6] 0)]
  running := ["idle", "first", "second"]
  waiting := []
  skippedWaiting := []
  pauseState := .unpaused
  backend := 0

theorem passingScheduler_ready : passingScheduler.Ready priorityConfig :=
  Scheduler.ready_of_entries
    (Scheduler.partition_of_entries (by decide +kernel) (by decide +kernel) (by decide +kernel))
    (by decide +kernel) (by decide +kernel) (by decide)

/-- The block of the request that was passed over is taken for the next one, the index is not
corrected, and the last request is never examined though the loop runs to the end of the list. -/
theorem passed_over_victim_hides_request :
    passingScheduler.Ready priorityConfig ∧ ∃ agents st₀ st' events,
      startStep poolCollaborators priorityConfig passingScheduler = .ok (agents, st₀) ∧
      Run (LoopNext poolCollaborators priorityConfig agents) (.examine st₀) events
        (.examine st') ∧
      st'.reqIndex = st'.sched.running.length ∧ 0 < st'.tokenBudget ∧
      "second" ∈ passingScheduler.running ∧ "second" ∈ st'.sched.running ∧
      events.count (.examined "second") = 0 := by
  refine ⟨passingScheduler_ready, ?_⟩
  obtain ⟨agents, st₀, hstart, -⟩ := startStep_sound passingScheduler_ready poolCollaborators_lawful
  have hvalues : (startStep poolCollaborators priorityConfig passingScheduler).toOption.bind
      (fun out => ([.examined "idle", .examined "first", .preempted "idle",
        .scheduled "first"].foldlM (follow poolCollaborators priorityConfig out.1
          fun _ => true) (.examine out.2)).bind Phase.atHead) =
      some (["first", "second"], 2, 62) := by decide +kernel
  rw [hstart] at hvalues
  obtain ⟨st', hst', hrunning, hindex, hbudget⟩ := exists_of_atHead hvalues
  refine ⟨agents, st₀, st', _, hstart, run_of_follow _ _ _ hst', ?_, ?_, by decide, ?_, by decide⟩
  · rw [hrunning, hindex]
    rfl
  · rw [hbudget]
    decide
  · simp [hrunning]

end TokenCake.Sched
