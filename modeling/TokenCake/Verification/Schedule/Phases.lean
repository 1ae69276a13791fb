import TokenCake.Lib.Run
import TokenCake.Verification.Schedule.Running

/-! # The phases of the running loop

The running loop in small steps: a request is examined, victims are preempted one by one until
its blocks fit, and it is scheduled. Every run of the loop is a run of these steps. -/

namespace TokenCake.Sched

variable {ω : Type}

/-- Where the loop stands: at its head, in the allocation for a request, or behind it. -/
inductive Phase (ω : Type) where
  | examine (st : Step ω)
  | allocate (st : Step ω) (r : Request) (tokens : ℤ) (limitedPrefill : Bool) (plan : EncoderPlan)
  | done (st : Step ω)

def Phase.step : Phase ω → Step ω
  | .examine st => st
  | .allocate st _ _ _ _ => st
  | .done st => st

inductive LoopEvent where
  | examined (id : String)
  | preempted (id : String)
  | scheduled (id : String)
  | ended
  deriving DecidableEq, Repr

section Phases

variable (env : Collaborators ω) (cfg : SchedulerConfig) (agents : Option Agents)

/-- The part of an iteration before the allocation. -/
def examineStep (st : Step ω) (id : String) : Except ScheduleError (Phase ω) := do
  let r ← st.sched.lookup id
  if reachedMaxTokens r then return .examine (skipRunning st)
  else
    let (tokens, limitedPrefill) := runningTokens cfg agents st r
    let (plan, st) := planEncoder env st r r.numComputedTokens tokens
    let tokens := alignMamba env cfg st r plan.numNewTokens
    if tokens = 0 then return .examine (skipRunning st)
    else
      let (mayGrow, st) := growth env agents st r tokens
      if mayGrow then return .allocate st r tokens limitedPrefill plan
      else return .examine (skipRunning st)

/-- One round of the allocation. -/
def allocateStep (st : Step ω) (r : Request) (tokens : ℤ) (limitedPrefill : Bool)
    (plan : EncoderPlan) : Except ScheduleError (LoopEvent × Phase ω) := do
  let (fits, backend) := env.allocateRunning st.sched r tokens
  let st := st.withBackend backend
  if fits then
    return (.scheduled r.requestId, .examine (scheduleRunning st r tokens limitedPrefill plan))
  else
    let (id, st, plan) ← removeVictim env cfg agents st plan r tokens
    let st ← preemptRequest env cfg st id
    let st := { st with preemptedReqs := st.preemptedReqs ++ [id] }
    if id = r.requestId then return (.preempted id, .done st)
    else return (.preempted id, .allocate st r tokens limitedPrefill plan)

/-- The steps of the loop. -/
inductive LoopNext : Phase ω → LoopEvent → Phase ω → Prop
  | stop {st : Step ω} (h : st.sched.running[st.reqIndex]? = none ∨ st.tokenBudget ≤ 0) :
      LoopNext (.examine st) .ended (.done st)
  | examine {st : Step ω} {id : String} {p : Phase ω}
      (hid : st.sched.running[st.reqIndex]? = some id) (hbudget : 0 < st.tokenBudget)
      (h : examineStep env cfg agents st id = .ok p) : LoopNext (.examine st) (.examined id) p
  | allocate {st : Step ω} {r : Request} {tokens : ℤ} {limitedPrefill : Bool} {plan : EncoderPlan}
      {e : LoopEvent} {p : Phase ω}
      (h : allocateStep env cfg agents st r tokens limitedPrefill plan = .ok (e, p)) :
      LoopNext (.allocate st r tokens limitedPrefill plan) e p

/-! ## Runs of the loop are runs of steps -/

variable {env cfg agents}

theorem allocateStep_of_fits {st : Step ω} {r : Request} {tokens : ℤ} {limitedPrefill : Bool}
    {plan : EncoderPlan} {backend : ω} (h : env.allocateRunning st.sched r tokens = (true, backend)) :
    allocateStep env cfg agents st r tokens limitedPrefill plan =
      .ok (.scheduled r.requestId,
        .examine (scheduleRunning (st.withBackend backend) r tokens limitedPrefill plan)) := by
  rw [allocateStep, h]
  rfl

/-- The request at the index is passed over, or blocks are asked for. -/
theorem examineStep_cases {st : Step ω} {id : String} {p : Phase ω}
    (h : examineStep env cfg agents st id = .ok p) :
    ∃ r backend, st.sched.lookup id = .ok r ∧
      (p = .examine (skipRunning (st.withBackend backend)) ∨
        ∃ tokens limitedPrefill plan,
          p = .allocate (st.withBackend backend) r tokens limitedPrefill plan) := by
  rw [examineStep] at h
  cases hlookup : st.sched.lookup id with
  | error e =>
      rw [hlookup] at h
      cases h
  | ok r =>
      rw [hlookup] at h
      dsimp only [bind, Except.bind] at h
      split at h
      · exact ⟨r, st.sched.backend, rfl, .inl (Except.ok.inj h).symm⟩
      · generalize (runningTokens cfg agents st r).1 = asked at h
        obtain ⟨plan, b, hplan⟩ := planEncoder_eq env st r r.numComputedTokens asked
        rw [hplan] at h
        dsimp only at h
        split at h
        · exact ⟨r, b, rfl, .inl (Except.ok.inj h).symm⟩
        · obtain ⟨mayGrow, b', hgrow⟩ := growth_eq env agents st b r
            (alignMamba env cfg (st.withBackend b) r plan.numNewTokens)
          rw [hgrow] at h
          cases mayGrow with
          | false => exact ⟨r, b', rfl, .inl (Except.ok.inj h).symm⟩
          | true => exact ⟨r, b', rfl, .inr ⟨_, _, _, (Except.ok.inj h).symm⟩⟩

/-- The phase after a preemption. -/
def afterPreemption (st : Step ω) (r : Request) (tokens : ℤ) (limitedPrefill : Bool)
    (plan : EncoderPlan) (id : String) : Phase ω :=
  let st := { st with preemptedReqs := st.preemptedReqs ++ [id] }
  if id = r.requestId then .done st else .allocate st r tokens limitedPrefill plan

theorem allocateStep_of_not_fits {st : Step ω} {r : Request} {tokens : ℤ} {limitedPrefill : Bool}
    {plan : EncoderPlan} {backend : ω}
    (h : env.allocateRunning st.sched r tokens = (false, backend)) :
    allocateStep env cfg agents st r tokens limitedPrefill plan =
      removeVictim env cfg agents (st.withBackend backend) plan r tokens >>= fun victim =>
        preemptRequest env cfg victim.2.1 victim.1 >>= fun st =>
          .ok (.preempted victim.1,
            afterPreemption st r tokens limitedPrefill victim.2.2 victim.1) := by
  rw [allocateStep, h]
  dsimp only
  rw [if_neg (by simp)]
  cases removeVictim env cfg agents (st.withBackend backend) plan r tokens with
  | error e => rfl
  | ok victim =>
      change (preemptRequest env cfg victim.2.1 victim.1 >>= _) =
        (preemptRequest env cfg victim.2.1 victim.1 >>= _)
      cases preemptRequest env cfg victim.2.1 victim.1 with
      | error e => rfl
      | ok st₁ =>
          change (if victim.1 = r.requestId then _ else _) = Except.ok (_, _)
          rw [afterPreemption]
          split <;> rfl

/-- The allocation loop, followed by the rest of its iteration. -/
theorem run_allocateLoop {r : Request} {tokens : ℤ} {limitedPrefill : Bool} :
    ∀ (fuel : ℕ) {st : Step ω} {plan : EncoderPlan} {out : Bool × Step ω × EncoderPlan},
      allocateLoop env cfg agents r tokens fuel st plan = .ok out →
      ∃ events, Run (LoopNext env cfg agents) (.allocate st r tokens limitedPrefill plan) events
        (if out.1 then .examine (scheduleRunning out.2.1 r tokens limitedPrefill out.2.2)
          else .done out.2.1) := by
  intro fuel
  induction fuel with
  | zero => exact fun h => absurd h (by simp [allocateLoop])
  | succ fuel ih =>
      intro st plan out h
      rw [allocateLoop] at h
      cases halloc : env.allocateRunning st.sched r tokens with
      | mk fits backend =>
      rw [halloc] at h
      cases fits with
      | true =>
          obtain rfl := Except.ok.inj h
          exact ⟨[.scheduled r.requestId],
            .cons (.allocate (allocateStep_of_fits halloc)) (.nil _)⟩
      | false =>
          have hstep := @allocateStep_of_not_fits _ env cfg agents st r tokens limitedPrefill plan
            backend halloc
          dsimp only at h
          rw [if_neg (by simp)] at h
          cases hvictim : removeVictim env cfg agents (st.withBackend backend) plan r tokens with
          | error e =>
              rw [hvictim] at h
              cases h
          | ok victim =>
              rw [hvictim] at h hstep
              change (preemptRequest env cfg victim.2.1 victim.1 >>= _) = _ at h
              change _ = (preemptRequest env cfg victim.2.1 victim.1 >>= _) at hstep
              cases hpreempt : preemptRequest env cfg victim.2.1 victim.1 with
              | error e =>
                  rw [hpreempt] at h
                  cases h
              | ok st₁ =>
                  rw [hpreempt] at h hstep
                  change (if victim.1 = r.requestId then _ else _) = _ at h
                  change _ = Except.ok (_, afterPreemption st₁ r tokens limitedPrefill _ _) at hstep
                  rw [afterPreemption] at hstep
                  by_cases hself : victim.1 = r.requestId
                  · rw [if_pos hself] at h hstep
                    obtain rfl := Except.ok.inj h
                    exact ⟨[.preempted victim.1], .cons (.allocate hstep) (.nil _)⟩
                  · rw [if_neg hself] at h hstep
                    obtain ⟨events, hrun⟩ := ih h
                    exact ⟨.preempted victim.1 :: events, .cons (.allocate hstep) hrun⟩

/-- A round of the allocation ends the allocation loop, or is followed by the next one. -/
theorem allocateLoop_of_allocateStep {st : Step ω} {r : Request} {tokens : ℤ}
    {limitedPrefill : Bool} {plan : EncoderPlan} {e : LoopEvent} {p : Phase ω} (fuel : ℕ)
    (h : allocateStep env cfg agents st r tokens limitedPrefill plan = .ok (e, p)) :
    (∃ out, allocateLoop env cfg agents r tokens (fuel + 1) st plan = .ok out) ∨
      ∃ id st' plan', e = .preempted id ∧ p = .allocate st' r tokens limitedPrefill plan' ∧
        allocateLoop env cfg agents r tokens (fuel + 1) st plan =
          allocateLoop env cfg agents r tokens fuel st' plan' := by
  rw [allocateLoop]
  cases halloc : env.allocateRunning st.sched r tokens with
  | mk fits backend =>
  cases fits with
  | true => exact .inl ⟨_, rfl⟩
  | false =>
      rw [allocateStep_of_not_fits halloc] at h
      dsimp only
      rw [if_neg (by simp)]
      cases hvictim : removeVictim env cfg agents (st.withBackend backend) plan r tokens with
      | error e =>
          rw [hvictim] at h
          cases h
      | ok victim =>
          rw [hvictim] at h
          change (preemptRequest env cfg victim.2.1 victim.1 >>= _) = _ at h
          change (∃ out, (preemptRequest env cfg victim.2.1 victim.1 >>= _) = _) ∨ _
          cases hpreempt : preemptRequest env cfg victim.2.1 victim.1 with
          | error e =>
              rw [hpreempt] at h
              cases h
          | ok st₁ =>
              rw [hpreempt] at h
              obtain ⟨rfl, rfl⟩ := Prod.mk.inj (Except.ok.inj h)
              by_cases hself : victim.1 = r.requestId
              · refine .inl ⟨_, if_pos hself⟩
              · rw [afterPreemption, if_neg hself]
                refine .inr ⟨_, _, _, rfl, rfl, ?_⟩
                change (preemptRequest env cfg victim.2.1 victim.1 >>= _) = _
                rw [hpreempt]
                exact if_neg hself

/-- What an iteration of the loop does after its first part. -/
def continueStep : Phase ω → Except ScheduleError (Bool × Step ω)
  | .examine st => .ok (true, st)
  | .done st => .ok (false, st)
  | .allocate st r tokens limitedPrefill plan => do
      let (allocated, st, plan) ←
        allocateLoop env cfg agents r tokens (st.sched.running.length + 1) st plan
      if allocated then return (true, scheduleRunning st r tokens limitedPrefill plan)
      else return (false, st)

theorem runningStep_eq (st : Step ω) (id : String) :
    runningStep env cfg agents st id =
      examineStep env cfg agents st id >>= @continueStep _ env cfg agents := by
  unfold runningStep examineStep
  cases st.sched.lookup id with
  | error e => rfl
  | ok r =>
      dsimp only [bind, Except.bind]
      cases reachedMaxTokens r with
      | true => rfl
      | false =>
          simp only [Bool.false_eq_true, if_false]
          generalize runningTokens cfg agents st r = asked
          generalize planEncoder env st r r.numComputedTokens asked.1 = planned
          by_cases hzero : alignMamba env cfg planned.2 r planned.1.numNewTokens = 0
          · simp only [hzero, if_true]
            rfl
          · simp only [hzero, if_false]
            generalize growth env agents planned.2 r
              (alignMamba env cfg planned.2 r planned.1.numNewTokens) = grown
            obtain ⟨mayGrow, st₂⟩ := grown
            cases mayGrow <;> rfl

theorem run_runningStep {st : Step ω} {id : String} {out : Bool × Step ω}
    (hid : st.sched.running[st.reqIndex]? = some id) (hbudget : 0 < st.tokenBudget)
    (h : runningStep env cfg agents st id = .ok out) :
    ∃ events, Run (LoopNext env cfg agents) (.examine st) events
      (if out.1 then .examine out.2 else .done out.2) := by
  rw [runningStep_eq] at h
  cases hexamine : examineStep env cfg agents st id with
  | error e =>
      rw [hexamine] at h
      cases h
  | ok p =>
      rw [hexamine] at h
      have hfirst := LoopNext.examine hid hbudget hexamine
      cases p with
      | examine st₁ =>
          obtain rfl := Except.ok.inj h
          exact ⟨[.examined id], .cons hfirst (.nil _)⟩
      | done st₁ =>
          obtain rfl := Except.ok.inj h
          exact ⟨[.examined id], .cons hfirst (.nil _)⟩
      | allocate st₁ r tokens limitedPrefill plan =>
          change (allocateLoop env cfg agents r tokens _ st₁ plan >>= _) = _ at h
          cases hloop : allocateLoop env cfg agents r tokens (st₁.sched.running.length + 1) st₁
              plan with
          | error e =>
              rw [hloop] at h
              cases h
          | ok result =>
              rw [hloop] at h
              change (if result.1 then _ else _) = _ at h
              obtain ⟨events, hrun⟩ := @run_allocateLoop _ _ _ _ _ _ limitedPrefill _ _ _ _ hloop
              refine ⟨.examined id :: events, .cons hfirst ?_⟩
              split at h
              · next hallocated =>
                  obtain rfl := Except.ok.inj h
                  rw [if_pos hallocated] at hrun
                  exact hrun
              · next hallocated =>
                  obtain rfl := Except.ok.inj h
                  rw [if_neg hallocated] at hrun
                  exact hrun

/-- The loop of the source runs through the phases to its end. -/
theorem run_runningLoop : ∀ (fuel : ℕ) {st st' : Step ω},
    runningLoop env cfg agents fuel st = .ok st' →
    ∃ events, Run (LoopNext env cfg agents) (.examine st) events (.done st') := by
  intro fuel
  induction fuel with
  | zero => exact fun h => absurd h (by simp [runningLoop])
  | succ fuel ih =>
      intro st st' h
      rw [runningLoop] at h
      cases hid : st.sched.running[st.reqIndex]? with
      | none =>
          rw [hid] at h
          obtain rfl := Except.ok.inj h
          exact ⟨[.ended], .cons (.stop (.inl hid)) (.nil _)⟩
      | some id =>
          rw [hid] at h
          change (if 0 < st.tokenBudget then _ else _) = _ at h
          by_cases hbudget : 0 < st.tokenBudget
          · rw [if_pos hbudget] at h
            cases hstep : runningStep env cfg agents st id with
            | error e =>
                rw [hstep] at h
                cases h
            | ok out =>
                rw [hstep] at h
                obtain ⟨events, hrun⟩ := run_runningStep hid hbudget hstep
                obtain ⟨again, st₁⟩ := out
                cases again with
                | true =>
                    obtain ⟨rest, hrest⟩ := ih h
                    exact ⟨events ++ rest, hrun.append hrest⟩
                | false =>
                    obtain rfl := Except.ok.inj h
                    exact ⟨events, hrun⟩
          · rw [if_neg hbudget] at h
            obtain rfl := Except.ok.inj h
            exact ⟨[.ended], .cons (.stop (.inr (not_lt.mp hbudget))) (.nil _)⟩

end Phases

end TokenCake.Sched
