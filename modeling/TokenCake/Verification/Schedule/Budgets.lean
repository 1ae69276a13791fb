import TokenCake.Verification.Schedule.Phases
import TokenCake.Verification.Schedule.Conservation

/-! # The budgets of the running loop

Whatever the collaborators answer and whichever victims are chosen, the loop conserves its token
and its prefill budget, and its accumulators describe the same set of running requests. -/

namespace TokenCake.Sched

variable {ω : Type}

/-! ## The accumulators -/

/-- What the loop has charged, with the budgets `T` and `P` at its start. -/
structure Charged (T P : ℤ) (st : Step ω) : Prop where
  tokens : st.tokenBudget + st.numScheduledTokens.sum (fun _ n => n) = T
  prefill : st.prefillBudget + st.scheduledPrefillTokens.sum (fun _ n => n) = P
  token_nonneg : 0 ≤ st.tokenBudget
  prefill_nonneg : 0 ≤ st.prefillBudget
  charge : ∀ id n, st.numScheduledTokens.get? id = some n → 0 ≤ n
  prefillCharge : ∀ id n, st.scheduledPrefillTokens.get? id = some n → 0 ≤ n
  mem_iff : ∀ id, id ∈ st.scheduledRunningReqs ↔ id ∈ st.numScheduledTokens.keys
  blocks : st.reqToNewBlocks = st.scheduledRunningReqs
  prefill_mem : ∀ id ∈ st.scheduledPrefillTokens.keys, id ∈ st.scheduledRunningReqs
  nodup : st.scheduledRunningReqs.Nodup

namespace Charged

variable {T P : ℤ} {st : Step ω}

theorem withBackend (h : Charged T P st) (backend : ω) : Charged T P (st.withBackend backend) :=
  ⟨h.tokens, h.prefill, h.token_nonneg, h.prefill_nonneg, h.charge, h.prefillCharge, h.mem_iff,
    h.blocks, h.prefill_mem, h.nodup⟩

theorem skipRunning (h : Charged T P st) : Charged T P (skipRunning st) :=
  ⟨h.tokens, h.prefill, h.token_nonneg, h.prefill_nonneg, h.charge, h.prefillCharge, h.mem_iff,
    h.blocks, h.prefill_mem, h.nodup⟩

theorem scheduleRunning (h : Charged T P st) {r : Request} {tokens : ℤ} {limitedPrefill : Bool}
    (plan : EncoderPlan) (hnew : r.requestId ∉ st.scheduledRunningReqs) (hnonneg : 0 ≤ tokens)
    (hbudget : tokens ≤ st.tokenBudget)
    (hprefill : limitedPrefill = true → tokens ≤ st.prefillBudget) :
    Charged T P (scheduleRunning st r tokens limitedPrefill plan) := by
  have htokens : st.numScheduledTokens.get? r.requestId = none :=
    OrdDict.get?_eq_none_iff.mpr fun hmem => hnew ((h.mem_iff _).mpr hmem)
  have hprefillTokens : st.scheduledPrefillTokens.get? r.requestId = none :=
    OrdDict.get?_eq_none_iff.mpr fun hmem => hnew (h.prefill_mem _ hmem)
  have hinsert : ∀ (d : OrdDict String ℤ), (∀ id n, d.get? id = some n → 0 ≤ n) →
      ∀ id n, (d.insert r.requestId tokens).get? id = some n → 0 ≤ n := by
    intro d hd id n hn
    rw [OrdDict.get?_insert] at hn
    split at hn
    · exact Option.some.inj hn ▸ hnonneg
    · exact hd id n hn
  have hsum := h.tokens
  have hprefillSum := h.prefill
  refine ⟨?_, ?_, ?_, ?_, hinsert _ h.charge, ?_, ?_, ?_, ?_, ?_⟩
  · simp only [Sched.scheduleRunning, OrdDict.sum_insert_new htokens]
    omega
  · cases limitedPrefill with
    | false => exact hprefillSum
    | true =>
        simp only [Sched.scheduleRunning, if_true, OrdDict.sum_insert_new hprefillTokens]
        omega
  · simp only [Sched.scheduleRunning]
    omega
  · cases limitedPrefill with
    | false => exact h.prefill_nonneg
    | true =>
        have := hprefill rfl
        simp only [Sched.scheduleRunning, if_true]
        omega
  · cases limitedPrefill with
    | false => exact h.prefillCharge
    | true => exact hinsert _ h.prefillCharge
  · intro id
    simp only [Sched.scheduleRunning, OrdDict.mem_keys_insert, List.mem_append,
      List.mem_singleton, h.mem_iff]
    exact or_comm
  · simp only [Sched.scheduleRunning, h.blocks]
  · intro id hid
    cases limitedPrefill with
    | false => exact List.mem_append_left _ (h.prefill_mem id hid)
    | true =>
        cases OrdDict.mem_keys_insert.mp hid with
        | inl heq => exact List.mem_append_right _ (List.mem_singleton.mpr heq)
        | inr hmem => exact List.mem_append_left _ (h.prefill_mem id hmem)
  · refine List.Nodup.append h.nodup (List.nodup_singleton _) ?_
    exact List.disjoint_singleton.mpr hnew

end Charged

/-! ## The running list -/

/-- A request the loop has not come to asks for no negative number of tokens. -/
def Request.Behind (cfg : SchedulerConfig) (r : Request) : Prop :=
  r.numComputedTokens ≤ r.numTokensWithSpec + r.numOutputPlaceholders ∧
    r.numComputedTokens < cfg.maxModelLen

/-- The loop has passed `pre`, which holds everything it has scheduled. While `E` the index is
the exact length of `pre`. -/
structure Listed (cfg : SchedulerConfig) (agents : Option Agents) (E : Prop) (st : Step ω)
    (pre rest : List String) : Prop where
  running : st.sched.running = pre ++ rest
  nodup : st.sched.running.Nodup
  scheduled : ∀ id ∈ st.scheduledRunningReqs, id ∈ pre
  index_le : pre.length ≤ st.reqIndex
  index_eq : E → pre.length = st.reqIndex
  record : ∀ id ∈ st.sched.running, ∃ r, st.sched.requests.get? id = some r ∧
    r.requestId = id ∧ r.status = .running ∧
      (id ∉ st.scheduledRunningReqs → Request.Behind cfg r)
  scored : ∀ a ∈ agents, ∀ id ∈ st.sched.running, a.annotated id = true → id ∈ a.scores.keys
  preempted : ∀ id ∈ st.preemptedReqs, id ∉ st.sched.running

namespace Listed

variable {cfg : SchedulerConfig} {agents : Option Agents} {E : Prop} {st : Step ω}
variable {pre rest : List String}

theorem withBackend (h : Listed cfg agents E st pre rest) (backend : ω) :
    Listed cfg agents E (st.withBackend backend) pre rest :=
  ⟨h.running, h.nodup, h.scheduled, h.index_le, h.index_eq, h.record, h.scored, h.preempted⟩

theorem weaken (h : Listed cfg agents E st pre rest) {E' : Prop} (hE : E' → E) :
    Listed cfg agents E' st pre rest :=
  ⟨h.running, h.nodup, h.scheduled, h.index_le, fun h' => h.index_eq (hE h'), h.record, h.scored,
    h.preempted⟩

theorem mem_running (h : Listed cfg agents E st pre rest) {id : String} (hid : id ∈ rest) :
    id ∈ st.sched.running := by
  rw [h.running]
  exact List.mem_append_right _ hid

/-- What stands behind the loop is not scheduled yet. -/
theorem not_scheduled (h : Listed cfg agents E st pre rest) {id : String} (hid : id ∈ rest) :
    id ∉ st.scheduledRunningReqs := by
  have hnodup := h.nodup
  rw [h.running] at hnodup
  exact fun hmem => (List.disjoint_of_nodup_append hnodup) (h.scheduled id hmem) hid

/-- The split at the index, which the head of the loop looks at. -/
theorem at_index (h : Listed cfg agents E st pre rest) :
    Listed cfg agents False st (st.sched.running.take st.reqIndex)
      (st.sched.running.drop st.reqIndex) := by
  refine ⟨(List.take_append_drop _ _).symm, h.nodup, ?_, List.length_take_le _ _, False.elim,
    h.record, h.scored, h.preempted⟩
  intro id hid
  rw [h.running, List.take_append]
  refine List.mem_append_left _ ?_
  rw [List.take_of_length_le h.index_le]
  exact h.scheduled id hid

theorem skipRunning (h : Listed cfg agents E st pre rest) :
    Listed cfg agents False (skipRunning st) pre rest :=
  ⟨h.running, h.nodup, h.scheduled, Nat.le_succ_of_le h.index_le, False.elim, h.record, h.scored,
    h.preempted⟩

/-- The request at the index stands between what the loop has passed and the rest. -/
theorem examine (h : Listed cfg agents E st (st.sched.running.take st.reqIndex)
      (st.sched.running.drop st.reqIndex)) {id : String}
    (hid : st.sched.running[st.reqIndex]? = some id) (E' : Prop) :
    Listed cfg agents E' st (st.sched.running.take st.reqIndex)
      (id :: st.sched.running.drop (st.reqIndex + 1)) := by
  obtain ⟨hlt, heq⟩ := List.getElem?_eq_some_iff.mp hid
  refine ⟨?_, h.nodup, h.scheduled, h.index_le, ?_, h.record, h.scored, h.preempted⟩
  · rw [← heq, ← List.drop_eq_getElem_cons hlt, List.take_append_drop]
  · intro _
    exact List.length_take_of_le hlt.le

theorem scheduleRunning {r : Request} (h : Listed cfg agents E st pre (r.requestId :: rest))
    (tokens : ℤ) (limitedPrefill : Bool) (plan : EncoderPlan) :
    Listed cfg agents False (scheduleRunning st r tokens limitedPrefill plan)
      (pre ++ [r.requestId]) rest := by
  refine ⟨?_, h.nodup, ?_, ?_, False.elim, ?_, h.scored, h.preempted⟩
  · simpa [Sched.scheduleRunning, Scheduler.setRequest] using h.running
  · intro id hid
    cases List.mem_append.mp hid with
    | inl hmem => exact List.mem_append_left _ (h.scheduled id hmem)
    | inr hmem => exact List.mem_append_right _ hmem
  · have := h.index_le
    simp only [Sched.scheduleRunning, List.length_append, List.length_singleton]
    omega
  · intro id hid
    obtain ⟨q, hq, hkey, hstatus, hbehind⟩ := h.record id hid
    simp only [Sched.scheduleRunning, Scheduler.setRequest, OrdDict.get?_modify]
    by_cases heq : id = r.requestId
    · refine ⟨{ q with specTokenIds := [] }, ?_, hkey, hstatus, ?_⟩
      · simp [heq, heq ▸ hq]
      · exact fun hnot => absurd (List.mem_append_right _ (List.mem_singleton.mpr heq)) hnot
    · refine ⟨q, ?_, hkey, hstatus, ?_⟩
      · simp [heq, hq]
      · exact fun hnot => hbehind fun hmem => hnot (List.mem_append_left _ hmem)

end Listed

/-! ## Victims -/

/-- `st'` is `st` without the victim `id` and what was charged for it. -/
structure Dropped (byAgent : Bool) (st : Step ω) (id : String) (st' : Step ω) : Prop where
  mem : id ∈ st.sched.running
  running : st'.sched.running = st.sched.running.erase id
  requests : st'.sched.requests = st.sched.requests
  scheduled : st'.scheduledRunningReqs = st.scheduledRunningReqs.erase id
  preempted : st'.preemptedReqs = st.preemptedReqs
  index : st'.reqIndex = if id ∈ st.scheduledRunningReqs ∨
      byAgent = true ∧ st.sched.running.idxOf id < st.reqIndex
    then st.reqIndex - 1 else st.reqIndex
  token_le : st.tokenBudget ≤ st'.tokenBudget
  prefill_le : st.prefillBudget ≤ st'.prefillBudget

/-- The candidates never come up empty: the lowest score is that of a candidate. -/
theorem Agents.victimCandidates_ne_nil (a : Agents) (view : VictimView) (request : Request)
    {running : List Request} {r : Request} (hr : r ∈ running) (hscore : r.requestId ∈ a.scores.keys) :
    a.victimCandidates view request running ≠ [] := by
  have hscored : r ∈ running.filter fun r => a.scores.contains r.requestId :=
    List.mem_filter.mpr ⟨hr, OrdDict.contains_iff.mpr (OrdDict.mem_keys_iff.mp hscore)⟩
  have hlow : (running.filter fun r => a.scores.contains r.requestId).filter (fun q =>
      decide (a.score q.requestId ≤ (((running.filter fun r => a.scores.contains r.requestId).map
        fun r => a.score r.requestId).min?.getD 0) + preemptionScoreBand)) ≠ [] := by
    generalize running.filter (fun r => a.scores.contains r.requestId) = scored at hscored ⊢
    cases hmin : (scored.map fun r => a.score r.requestId).min? with
    | none =>
        rw [List.min?_eq_none_iff, List.map_eq_nil_iff] at hmin
        exact absurd hscored (hmin ▸ List.not_mem_nil)
    | some lowest =>
        obtain ⟨q, hq, hqscore⟩ := List.mem_map.mp (List.min?_mem hmin)
        apply List.ne_nil_of_mem (a := q)
        refine List.mem_filter.mpr ⟨hq, decide_eq_true ?_⟩
        rw [hqscore, Option.getD_some, preemptionScoreBand]
        omega
  rw [victimCandidates]
  split
  · next hsufficient => simpa using hsufficient
  · split
    · next hpositive => simpa using hpositive
    · exact hlow

theorem Agents.victim_ok (a : Agents) (view : VictimView) (request : Request)
    {running : List Request} (hmem : a.annotated request.requestId = true →
      ∃ r ∈ running, r.requestId ∈ a.scores.keys) :
    Ensures (fun _ => False) (fun choice =>
      (a.annotated request.requestId = true ∧ ∃ r ∈ running, choice = some r.requestId) ∨
        a.annotated request.requestId = false ∧ choice = none)
      (a.victim view request running) := by
  rw [victim]
  cases hannotated : a.annotated request.requestId with
  | false => exact Ensures.ok (.inr ⟨rfl, rfl⟩)
  | true =>
      obtain ⟨r, hr, hscore⟩ := hmem hannotated
      rw [if_pos rfl]
      split
      · next q hq =>
          exact Ensures.ok (.inl ⟨rfl, q, victimCandidates_subset a view request running q
            (mem_of_firstBest hq), rfl⟩)
      · next hnone =>
          exact Ensures.error (victimCandidates_ne_nil a view request hr hscore
            (firstBest_eq_none hnone))

/-- The request `max(running, key=(priority, arrival_time))` finds. -/
def latest (running : List Request) : Option Request :=
  firstBest (fun a b =>
    decide (toLex (b.priority, b.arrivalTime) < toLex (a.priority, a.arrivalTime))) running

/-- The victim of a request that the controller does not choose for. -/
def NativeVictim (cfg : SchedulerConfig) (st : Step ω) (id : String) : Prop :=
  match cfg.policy with
  | .fcfs => st.sched.running.getLast? = some id
  | .priority => ∃ running r, runningRequests st = .ok running ∧ latest running = some r ∧
      r.requestId = id

section Victims

variable (env : Collaborators ω) (cfg : SchedulerConfig) (agents : Option Agents)
variable {T P : ℤ} {st : Step ω}

theorem Charged.unschedule (h : Charged T P st) {id : String} (hid : id ∈ st.sched.running)
    {r : Request} (hr : st.sched.requests.get? id = some r) (plan : EncoderPlan)
    (byAgent : Bool) :
    Ensures (fun _ => False) (fun out => Charged T P out.1 ∧ Dropped byAgent st id out.1)
      (unschedule env st plan id byAgent) := by
  have hsum := h.tokens
  have hprefillSum := h.prefill
  have htokenNonneg := h.token_nonneg
  have hprefillNonneg := h.prefill_nonneg
  have herase : ∀ (d : OrdDict String ℤ), (∀ x n, d.get? x = some n → 0 ≤ n) →
      ∀ x n, (d.erase id).get? x = some n → 0 ≤ n := by
    intro d hd x n hn
    rw [OrdDict.get?_erase] at hn
    split at hn
    · cases hn
    · exact hd x n hn
  have hrestored : 0 ≤ (st.scheduledPrefillTokens.get? id).getD 0 := by
    cases hget : st.scheduledPrefillTokens.get? id with
    | none => exact le_refl _
    | some n => exact h.prefillCharge id n hget
  simp only [Sched.unschedule, hid, if_true]
  by_cases hsched : id ∈ st.scheduledRunningReqs
  · rw [if_pos hsched]
    obtain ⟨n, hn⟩ := OrdDict.mem_keys_iff.mp ((h.mem_iff id).mp hsched)
    have hcharge := h.charge id n hn
    simp only [hn, hr]
    refine Ensures.ok ⟨⟨?_, ?_, ?_, ?_, herase _ h.charge, herase _ h.prefillCharge, ?_, ?_, ?_,
      h.nodup.erase _⟩, ⟨hid, rfl, rfl, rfl, rfl, (if_pos (.inl hsched)).symm, ?_, ?_⟩⟩
    · have := OrdDict.sum_erase_add hn fun _ n => n
      dsimp only
      omega
    · cases hget : st.scheduledPrefillTokens.get? id with
      | none =>
          dsimp only
          rw [OrdDict.erase_of_get?_eq_none hget, Option.getD_none]
          omega
      | some m =>
          have := OrdDict.sum_erase_add hget fun _ n => n
          dsimp only
          rw [Option.getD_some]
          omega
    · dsimp only
      omega
    · dsimp only
      omega
    · intro x
      rw [OrdDict.mem_keys_erase, h.nodup.mem_erase_iff, h.mem_iff]
    · exact congrArg (List.erase · id) h.blocks
    · intro x hx
      obtain ⟨hne, hmem⟩ := OrdDict.mem_keys_erase.mp hx
      exact h.nodup.mem_erase_iff.mpr ⟨hne, h.prefill_mem x hmem⟩
    · dsimp only
      omega
    · dsimp only
      omega
  · rw [if_neg hsched]
    have hsame := (List.erase_of_not_mem hsched).symm
    have hcharged : ∀ index, Charged T P { st with
        sched := { st.sched with running := st.sched.running.erase id }, reqIndex := index } :=
      fun index => ⟨h.tokens, h.prefill, h.token_nonneg, h.prefill_nonneg, h.charge,
        h.prefillCharge, h.mem_iff, h.blocks, h.prefill_mem, h.nodup⟩
    by_cases hbefore : byAgent = true ∧ st.sched.running.idxOf id < st.reqIndex
    · rw [if_pos (by simpa using hbefore)]
      exact Ensures.ok ⟨hcharged _, hid, rfl, rfl, hsame, rfl, (if_pos (.inr hbefore)).symm,
        le_refl _, le_refl _⟩
    · rw [if_neg (by simpa using hbefore)]
      exact Ensures.ok ⟨hcharged _, hid, rfl, rfl, hsame, rfl,
        (if_neg (not_or.mpr ⟨hsched, hbefore⟩)).symm, le_refl _, le_refl _⟩

variable {E : Prop} {pre post : List String} {r : Request}

/-- The requests behind the running list. -/
theorem Listed.runningRequests (h : Listed cfg agents E st pre post) :
    ∃ running, runningRequests st = .ok running ∧
      running.map (·.requestId) = st.sched.running := by
  have hall : ∀ ids : List String, (∀ id ∈ ids, id ∈ st.sched.running) →
      ∃ running, ids.mapM st.sched.lookup = .ok running ∧
        running.map (·.requestId) = ids := by
    intro ids
    induction ids with
    | nil => exact fun _ => ⟨[], rfl, rfl⟩
    | cons id ids ih =>
        intro hids
        obtain ⟨q, hq, hkey, -⟩ := h.record id (hids id List.mem_cons_self)
        obtain ⟨running, hrunning, hmap⟩ := ih fun x hx => hids x (List.mem_cons_of_mem _ hx)
        refine ⟨q :: running, ?_, by rw [List.map_cons, hkey, hmap]⟩
        rw [List.mapM_cons, Scheduler.lookup, hq, hrunning]
        rfl
  exact hall _ fun _ hid => hid

theorem dropLast_eq_erase {l : List String} (hnodup : l.Nodup) {id : String}
    (hlast : l.getLast? = some id) : l.dropLast = l.erase id := by
  obtain ⟨init, rfl⟩ := List.getLast?_eq_some_iff.mp hlast
  have hnot : id ∉ init := by
    intro hmem
    exact List.disjoint_of_nodup_append hnodup hmem (List.mem_singleton_self id)
  rw [List.dropLast_concat, List.erase_append_right _ hnot, List.erase_cons_head, List.append_nil]

/-- A victim is found, and what is left is the state without it. -/
theorem Charged.removeVictim (hc : Charged T P st)
    (hl : Listed cfg agents E st pre (r.requestId :: post)) (plan : EncoderPlan) (tokens : ℤ) :
    Ensures (fun _ => False) (fun out => Charged T P out.2.1 ∧
        Dropped (isAnnotated agents r.requestId) st out.1 out.2.1 ∧
        (isAnnotated agents r.requestId = false → NativeVictim cfg st out.1))
      (removeVictim env cfg agents st plan r tokens) := by
  have hself : r.requestId ∈ st.sched.running := hl.mem_running List.mem_cons_self
  obtain ⟨running, hrunning, hmap⟩ := hl.runningRequests cfg agents
  have hmem : ∀ q ∈ running, q.requestId ∈ st.sched.running := by
    intro q hq
    exact hmap ▸ List.mem_map_of_mem hq
  have hagent : Ensures (fun _ => False) (fun out =>
      (∃ backend, out.2 = st.withBackend backend) ∧
      ((isAnnotated agents r.requestId = true ∧ ∃ q ∈ running, out.1 = some q.requestId) ∨
        isAnnotated agents r.requestId = false ∧ out.1 = none))
      (agentVictim env agents st r tokens running) := by
    cases hagents : agents with
    | none => exact Ensures.ok ⟨⟨st.sched.backend, rfl⟩, .inr ⟨rfl, rfl⟩⟩
    | some a =>
        refine Ensures.map (a.victim_ok _ r ?_) ?_
        · intro hannotated
          obtain ⟨q, hq, hkey⟩ := List.mem_map.mp (hmap ▸ hself)
          exact ⟨q, hq, hkey ▸ hl.scored a hagents _ hself hannotated⟩
        · exact fun choice hchoice => ⟨⟨_, rfl⟩, hchoice⟩
  refine Ensures.bind_ok hrunning (Ensures.bind hagent ?_)
  rintro ⟨choice, st₁⟩ ⟨⟨backend, hst₁⟩, hchoice⟩
  dsimp only at hst₁ hchoice ⊢
  subst hst₁
  have hrecord : ∀ id ∈ st.sched.running, ∃ q,
      (st.withBackend backend).sched.requests.get? id = some q := by
    intro id hid
    obtain ⟨q, hq, -⟩ := hl.record id hid
    exact ⟨q, hq⟩
  have hbase := hc.withBackend backend
  split
  · next id hid =>
    obtain ⟨hannotated, q, hq, heq⟩ | ⟨-, hnone⟩ := hchoice
    · obtain rfl := Option.some.inj heq
      obtain ⟨q', hq'⟩ := hrecord _ (hmem q hq)
      refine Ensures.bind (hbase.unschedule env (hmem q hq) hq' plan true) ?_
      rintro out ⟨hcharged, hdropped⟩
      rw [hannotated]
      exact Ensures.ok ⟨hcharged, ⟨hdropped.mem, hdropped.running, hdropped.requests,
        hdropped.scheduled, hdropped.preempted, hdropped.index, hdropped.token_le,
        hdropped.prefill_le⟩, by simp⟩
    · cases hnone
  · next hpolicy =>
    obtain ⟨-, q, -, heq⟩ | ⟨hannotated, -⟩ := hchoice
    · cases heq
    split
    · next hnone =>
      have hnil := firstBest_eq_none hnone
      rw [hnil] at hmap
      exact absurd (hmap ▸ hself) List.not_mem_nil
    · next q hq =>
      have hin := hmem q (mem_of_firstBest hq)
      obtain ⟨q', hq'⟩ := hrecord _ hin
      refine Ensures.bind (hbase.unschedule env hin hq' plan false) ?_
      rintro out ⟨hcharged, hdropped⟩
      rw [hannotated]
      refine Ensures.ok ⟨hcharged, ⟨hdropped.mem, hdropped.running, hdropped.requests,
        hdropped.scheduled, hdropped.preempted, hdropped.index, hdropped.token_le,
        hdropped.prefill_le⟩, fun _ => ?_⟩
      rw [NativeVictim, hpolicy]
      exact ⟨running, q, hrunning, hq, rfl⟩
  · next hpolicy =>
    obtain ⟨-, q, -, heq⟩ | ⟨hannotated, -⟩ := hchoice
    · cases heq
    split
    · next hnone =>
      have hnil : st.sched.running = [] := List.getLast?_eq_none_iff.mp hnone
      exact absurd (hnil ▸ hself) List.not_mem_nil
    · next id hlast =>
      have hlast' : st.sched.running.getLast? = some id := hlast
      have hrest : id ∈ r.requestId :: post := by
        rw [hl.running, List.getLast?_append_of_ne_nil _ (List.cons_ne_nil _ _)] at hlast'
        exact List.mem_of_getLast? hlast'
      have hnot := hl.not_scheduled hrest
      rw [hannotated]
      refine Ensures.ok ⟨⟨hc.tokens, hc.prefill, hc.token_nonneg, hc.prefill_nonneg, hc.charge,
        hc.prefillCharge, hc.mem_iff, hc.blocks, hc.prefill_mem, hc.nodup⟩,
        ⟨List.mem_of_getLast? hlast', dropLast_eq_erase hl.nodup hlast', rfl,
          (List.erase_of_not_mem hnot).symm, rfl, (if_neg (by simp [hnot])).symm, le_refl _,
          le_refl _⟩, fun _ => ?_⟩
      rw [NativeVictim, hpolicy]
      exact hlast'

variable {cfg agents} {byAgent : Bool} {id : String} {st' : Step ω}

/-- The index follows the removal of the victim from either side of the split. -/
theorem Dropped.index_spec (hd : Dropped byAgent st id st')
    (hl : Listed cfg agents E st pre post) (hagent : byAgent = true → pre.length = st.reqIndex) :
    (pre.erase id).length ≤ st'.reqIndex ∧
      (pre.length = st.reqIndex → (byAgent = false → id ∈ pre → id ∈ st.scheduledRunningReqs) →
        (pre.erase id).length = st'.reqIndex) := by
  have hindex := hd.index
  have hle := hl.index_le
  by_cases hpre : id ∈ pre
  · have hlength := List.length_erase_add_one hpre
    have hbefore : st.sched.running.idxOf id < pre.length := by
      rw [hl.running, List.idxOf_append_of_mem hpre]
      exact List.idxOf_lt_length_iff.mpr hpre
    constructor
    · split at hindex <;> omega
    · intro heq hnative
      rw [if_pos] at hindex
      · omega
      · cases byAgent with
        | true => exact .inr ⟨rfl, heq ▸ hbefore⟩
        | false => exact .inl (hnative rfl hpre)
  · rw [List.erase_of_not_mem hpre]
    have hnot : ¬(id ∈ st.scheduledRunningReqs ∨
        byAgent = true ∧ st.sched.running.idxOf id < st.reqIndex) := by
      intro hcases
      cases hcases with
      | inl hmem => exact hpre (hl.scheduled id hmem)
      | inr hbefore =>
          have hge : pre.length ≤ st.sched.running.idxOf id := by
            rw [hl.running, List.idxOf_append_of_notMem hpre]
            exact Nat.le_add_right ..
          have := hagent hbefore.1
          omega
    rw [if_neg hnot] at hindex
    exact ⟨by omega, fun heq _ => by omega⟩

/-- A running request can be preempted, which changes no other request. -/
theorem Scheduler.preempt_running (s : Scheduler ω) (policy : SchedulingPolicy) {id : String}
    {q : Request} (hq : s.requests.get? id = some q) (hstatus : q.status = .running) :
    Ensures (fun _ => False) (fun s' => s'.running = s.running ∧
      ∀ x, x ≠ id → s'.requests.get? x = s.requests.get? x) (s.preempt policy id) := by
  have hlookup : s.lookup id = .ok q := by rw [Scheduler.lookup, hq]
  refine Ensures.bind_ok hlookup ?_
  rw [if_pos hstatus]
  refine Ensures.ok ⟨rfl, ?_⟩
  intro x hx
  simp only [Scheduler.setRequest, OrdDict.get?_modify, if_neg hx]

/-- Removing and preempting a victim keeps the split of the running list. -/
theorem Listed.dropped (hl : Listed cfg agents E st pre post)
    (hsched : st.scheduledRunningReqs.Nodup) (hd : Dropped byAgent st id st')
    (hagent : byAgent = true → pre.length = st.reqIndex) (E' : Prop)
    (hexact : E' → (pre.erase id).length = st'.reqIndex) :
    Ensures (fun _ => False) (fun st'' => (∃ s, st'' = { st' with sched := s }) ∧
        st''.sched.running = st.sched.running.erase id ∧
        Listed cfg agents E' { st'' with preemptedReqs := st''.preemptedReqs ++ [id] }
          (pre.erase id) (post.erase id))
      (preemptRequest env cfg st' id) := by
  obtain ⟨q, hq, -, hstatus, -⟩ := hl.record id hd.mem
  have hq' : st'.sched.requests.get? id = some q := hd.requests ▸ hq
  have hlookup : st'.sched.lookup id = .ok q := by rw [Scheduler.lookup, hq']
  refine Ensures.bind_ok hlookup (Ensures.bind (Scheduler.preempt_running _ cfg.policy
    (q := q) hq' hstatus) ?_)
  rintro s ⟨hrunning, hothers⟩
  have hrun : s.running = st.sched.running.erase id := hrunning.trans hd.running
  have herase : ∀ x, x ∈ s.running ↔ x ≠ id ∧ x ∈ st.sched.running := by
    intro x
    rw [hrun, hl.nodup.mem_erase_iff]
  have hpre : ∀ x ∈ pre, x ∉ post := by
    intro x hx hx'
    have hnodup := hl.nodup
    rw [hl.running] at hnodup
    exact List.disjoint_of_nodup_append hnodup hx hx'
  refine Ensures.ok ⟨⟨s, rfl⟩, hrun, ?_, ?_, ?_, (hd.index_spec hl hagent).1, hexact, ?_, ?_, ?_⟩
  · change s.running = _
    rw [hrun, hl.running, List.erase_append]
    split
    · next hmem => rw [List.erase_of_not_mem (hpre id hmem)]
    · next hmem => rw [List.erase_of_not_mem hmem]
  · exact hrun ▸ hl.nodup.erase id
  · intro x hx
    change x ∈ st'.scheduledRunningReqs at hx
    rw [hd.scheduled] at hx
    obtain ⟨hne, hmem⟩ := hsched.mem_erase_iff.mp hx
    exact (List.mem_erase_of_ne hne).mpr (hl.scheduled x hmem)
  · intro x hx
    obtain ⟨hne, hmem⟩ := (herase x).mp hx
    obtain ⟨p, hp, hkey, hpstatus, hbehind⟩ := hl.record x hmem
    refine ⟨p, ?_, hkey, hpstatus, ?_⟩
    · exact (hothers x hne).trans (hd.requests ▸ hp)
    · intro hnot
      refine hbehind fun hin => hnot ?_
      change x ∈ st'.scheduledRunningReqs
      rw [hd.scheduled]
      exact (List.mem_erase_of_ne hne).mpr hin
  · intro a ha x hx
    exact hl.scored a ha x ((herase x).mp hx).2
  · intro x hx hmem
    obtain ⟨hne, hin⟩ := (herase x).mp hmem
    cases List.mem_append.mp hx with
    | inl hx =>
        change x ∈ st'.preemptedReqs at hx
        exact hl.preempted x (hd.preempted ▸ hx) hin
    | inr hx => exact hne (List.mem_singleton.mp hx)

end Victims

/-! ## The phases -/

/-- What the loop relies on in its collaborators: the encoder inputs and the alignment of mamba
blocks only shorten a chunk, and the controller scores what it orders. -/
structure Collaborators.Lawful (env : Collaborators ω) : Prop where
  encoder : ∀ s r computed tokens budget, 0 ≤ tokens →
    0 ≤ (env.tryScheduleEncoderInputs s r computed tokens budget).1.numNewTokens ∧
      (env.tryScheduleEncoderInputs s r computed tokens budget).1.numNewTokens ≤ tokens
  mamba : ∀ s r tokens, 0 ≤ tokens → 0 ≤ env.mambaBlockAlignedSplit s r tokens ∧
    env.mambaBlockAlignedSplit s r tokens ≤ tokens
  scored : ∀ s a, (env.beginStep s).1 = some a → ∀ id ∈ s.running, a.annotated id = true →
    id ∈ a.scores.keys
  prefill : ∀ s a, (env.beginStep s).1 = some a → 0 ≤ a.decodePrefillTokenBudget

/-- The chunk an allocation is made for fits the budgets. -/
structure FitsBudgets (st : Step ω) (tokens : ℤ) (limitedPrefill : Bool) : Prop where
  nonneg : 0 ≤ tokens
  token : tokens ≤ st.tokenBudget
  prefill : limitedPrefill = true → tokens ≤ st.prefillBudget

/-- The invariant of the loop, phase by phase. -/
def Phase.Sound (cfg : SchedulerConfig) (agents : Option Agents) (T P : ℤ) : Phase ω → Prop
  | .examine st => Charged T P st ∧ Listed cfg agents False st
      (st.sched.running.take st.reqIndex) (st.sched.running.drop st.reqIndex)
  | .allocate st r tokens limitedPrefill _ => Charged T P st ∧
      FitsBudgets st tokens limitedPrefill ∧ ∃ pre post, Listed cfg agents
        (isAnnotated agents r.requestId = true) st pre (r.requestId :: post)
  | .done st => Charged T P st ∧ ∃ pre post, Listed cfg agents False st pre post

section Steps

variable {env : Collaborators ω} {cfg : SchedulerConfig} {agents : Option Agents} {T P : ℤ}
variable {st : Step ω}

theorem limitThreshold_spec {n : ℤ} (h : 0 ≤ n) :
    0 ≤ limitThreshold cfg n ∧ limitThreshold cfg n ≤ n := by
  rw [limitThreshold]
  split <;> omega

/-- A request that is behind asks for a chunk within the budgets. -/
theorem Charged.runningTokens (h : Charged T P st) {r : Request}
    (hr : Request.Behind cfg r) :
    FitsBudgets st (runningTokens cfg agents st r).1 (runningTokens cfg agents st r).2 := by
  have hbudget := h.token_nonneg
  have hprefill := h.prefill_nonneg
  obtain ⟨hbehind, hlen⟩ := hr
  have hasked : 0 ≤ r.numTokensWithSpec + r.numOutputPlaceholders - r.numComputedTokens := by
    omega
  have hlow := (@limitThreshold_spec cfg _ hasked).1
  simp only [Sched.runningTokens, Agents.capPrefill]
  generalize limitThreshold cfg
    (r.numTokensWithSpec + r.numOutputPlaceholders - r.numComputedTokens) = asked at *
  generalize hlimited : (isAnnotated agents r.requestId
    && decide (r.numComputedTokens < r.numPromptTokens) && decide (1 < min asked st.tokenBudget)
    && cfg.enableChunkedPrefill && !r.hasEncoderInputs && !cfg.needMambaBlockAlignedSplit)
    = limitedPrefill
  cases limitedPrefill with
  | false =>
      refine ⟨?_, ?_, by simp⟩ <;> simp only [Bool.false_eq_true, if_false] <;> omega
  | true =>
      refine ⟨?_, ?_, fun _ => ?_⟩ <;> simp only [if_true] <;> split <;> omega

theorem FitsBudgets.shorten {tokens tokens' : ℤ} {limitedPrefill : Bool}
    (h : FitsBudgets st tokens limitedPrefill) (hnonneg : 0 ≤ tokens') (hle : tokens' ≤ tokens) :
    FitsBudgets st tokens' limitedPrefill :=
  ⟨hnonneg, hle.trans h.token, fun hlimited => hle.trans (h.prefill hlimited)⟩

theorem FitsBudgets.of_le {st' : Step ω} {tokens : ℤ} {limitedPrefill : Bool}
    (h : FitsBudgets st tokens limitedPrefill) (htoken : st.tokenBudget ≤ st'.tokenBudget)
    (hprefill : st.prefillBudget ≤ st'.prefillBudget) : FitsBudgets st' tokens limitedPrefill :=
  ⟨h.nonneg, h.token.trans htoken, fun hlimited => (h.prefill hlimited).trans hprefill⟩

theorem planEncoder_shortens (henv : env.Lawful) (st : Step ω) (r : Request) (computed : ℤ)
    {tokens : ℤ} (htokens : 0 ≤ tokens) :
    ∃ plan backend, planEncoder env st r computed tokens = (plan, st.withBackend backend) ∧
      0 ≤ plan.numNewTokens ∧ plan.numNewTokens ≤ tokens := by
  rw [planEncoder]
  split
  · exact ⟨_, _, rfl, henv.encoder _ _ _ _ _ htokens⟩
  · exact ⟨_, st.sched.backend, rfl, htokens, le_refl _⟩

theorem alignMamba_shortens (henv : env.Lawful) (st : Step ω) (r : Request) {tokens : ℤ}
    (htokens : 0 ≤ tokens) :
    0 ≤ alignMamba env cfg st r tokens ∧ alignMamba env cfg st r tokens ≤ tokens := by
  rw [alignMamba]
  split
  · exact henv.mamba _ _ _ htokens
  · exact ⟨htokens, le_refl _⟩

theorem Phase.Sound.skip (hc : Charged T P st) {E : Prop} {pre post : List String}
    (hl : Listed cfg agents E st pre post) :
    Phase.Sound cfg agents T P (.examine (skipRunning st)) :=
  ⟨hc.skipRunning, hl.skipRunning.at_index⟩

theorem Phase.Sound.examineStep (henv : env.Lawful)
    (h : Phase.Sound cfg agents T P (.examine st)) {id : String}
    (hid : st.sched.running[st.reqIndex]? = some id) :
    Ensures (fun _ => False) (Phase.Sound cfg agents T P) (examineStep env cfg agents st id) := by
  obtain ⟨hc, hl⟩ := h
  have hlisted := fun E => hl.examine hid E
  have hmem : id ∈ st.sched.running := List.mem_of_getElem? hid
  obtain ⟨r, hr, rfl, -, hbehind⟩ := hl.record id hmem
  have hlookup : st.sched.lookup r.requestId = .ok r := by rw [Scheduler.lookup, hr]
  refine Ensures.bind_ok hlookup ?_
  split
  · exact Ensures.ok (Phase.Sound.skip hc hl)
  · have hnew := (hlisted False).not_scheduled List.mem_cons_self
    have hasked := @Charged.runningTokens _ _ agents _ _ _ hc _ (hbehind hnew)
    generalize Sched.runningTokens cfg agents st r = asked at hasked ⊢
    obtain ⟨plan, b, hplan, hplanNonneg, hplanLe⟩ :=
      planEncoder_shortens henv st r r.numComputedTokens hasked.nonneg
    have haligned := @alignMamba_shortens _ _ cfg henv (st.withBackend b) r _ hplanNonneg
    dsimp only
    rw [hplan]
    dsimp only
    generalize alignMamba env cfg (st.withBackend b) r plan.numNewTokens = tokens at haligned ⊢
    have hfits := hasked.shorten haligned.1 (haligned.2.trans hplanLe)
    split
    · exact Ensures.ok (Phase.Sound.skip (hc.withBackend b) (hl.withBackend b))
    · obtain ⟨mayGrow, b', hgrow⟩ := growth_eq env agents st b r tokens
      rw [hgrow]
      cases mayGrow with
      | true =>
          refine Ensures.ok ⟨hc.withBackend b', hfits.of_le (le_refl _) (le_refl _), ?_⟩
          exact ⟨_, _, (hlisted _).withBackend b'⟩
      | false => exact Ensures.ok (Phase.Sound.skip (hc.withBackend b') (hl.withBackend b'))

/-- A round of the allocation that preempts: `id` is taken out of the running list of `st`,
which leaves `st₁`, and is preempted. -/
structure Preempts (env : Collaborators ω) (cfg : SchedulerConfig) (agents : Option Agents)
    (T P : ℤ) (st : Step ω) (r : Request) (id : String) (st₁ st₂ : Step ω) : Prop where
  charged : Charged T P st₁
  dropped : Dropped (isAnnotated agents r.requestId) st id st₁
  native : isAnnotated agents r.requestId = false → NativeVictim cfg st id
  preempted : preemptRequest env cfg st₁ id = .ok st₂

/-- A round of the allocation succeeds or preempts a victim. -/
theorem Charged.allocateStep_cases (hc : Charged T P st) {E : Prop} {pre post : List String}
    {r : Request} {tokens : ℤ} {limitedPrefill : Bool} {plan : EncoderPlan}
    (hl : Listed cfg agents E st pre (r.requestId :: post))
    (hE : isAnnotated agents r.requestId = true → E) :
    Ensures (fun _ => False) (fun out =>
        (∃ backend, out = (.scheduled r.requestId,
          .examine (Sched.scheduleRunning (st.withBackend backend) r tokens limitedPrefill plan))) ∨
        ∃ backend id st₁ st₂ plan',
          Preempts env cfg agents T P (st.withBackend backend) r id st₁ st₂ ∧
          out = (.preempted id, afterPreemption st₂ r tokens limitedPrefill plan' id))
      (allocateStep env cfg agents st r tokens limitedPrefill plan) := by
  cases halloc : env.allocateRunning st.sched r tokens with
  | mk fits b =>
  cases fits with
  | true =>
      rw [allocateStep_of_fits halloc]
      exact Ensures.ok (.inl ⟨b, rfl⟩)
  | false =>
      rw [allocateStep_of_not_fits halloc]
      have hlb := hl.withBackend b
      refine Ensures.bind ((hc.withBackend b).removeVictim env cfg agents hlb plan tokens) ?_
      rintro ⟨id, st₁, plan₁⟩ ⟨hc₁, hd, hnative⟩
      dsimp only at hc₁ hd hnative ⊢
      have hpreempt := (hlb.dropped env hc.nodup hd (fun h => hl.index_eq (hE h))
        False False.elim).with_eq
      refine Ensures.bind hpreempt ?_
      rintro st₂ ⟨_, hst₂⟩
      exact Ensures.ok (.inr ⟨b, id, st₁, st₂, plan₁, ⟨hc₁, hd, hnative, hst₂⟩, rfl⟩)

/-- What a preemption leaves of the running list and of the budgets. -/
theorem Preempts.spec {E E' : Prop} {pre post : List String} {r : Request} {id : String}
    {st₁ st₂ : Step ω} (h : Preempts env cfg agents T P st r id st₁ st₂)
    (hl : Listed cfg agents E st pre (r.requestId :: post))
    (hsched : st.scheduledRunningReqs.Nodup)
    (hE : isAnnotated agents r.requestId = true → E)
    (hexact : E' → (pre.erase id).length = st₁.reqIndex) :
    Charged T P { st₂ with preemptedReqs := st₂.preemptedReqs ++ [id] } ∧
      st₂.sched.running = st.sched.running.erase id ∧
      st.tokenBudget ≤ st₂.tokenBudget ∧ st.prefillBudget ≤ st₂.prefillBudget ∧
      Listed cfg agents E' { st₂ with preemptedReqs := st₂.preemptedReqs ++ [id] }
        (pre.erase id) ((r.requestId :: post).erase id) := by
  obtain ⟨⟨s, hst₂⟩, hrun, hl₂⟩ := (hl.dropped env hsched h.dropped
    (fun hannotated => hl.index_eq (hE hannotated)) _ hexact).of_eq_ok h.preempted
  subst hst₂
  have hc := h.charged
  exact ⟨⟨hc.tokens, hc.prefill, hc.token_nonneg, hc.prefill_nonneg, hc.charge, hc.prefillCharge,
    hc.mem_iff, hc.blocks, hc.prefill_mem, hc.nodup⟩, hrun, h.dropped.token_le,
    h.dropped.prefill_le, hl₂⟩

variable (env) in
/-- A round of the allocation keeps the invariant, and a victim was a running request. -/
theorem Phase.Sound.allocateStep {r : Request} {tokens : ℤ} {limitedPrefill : Bool}
    {plan : EncoderPlan}
    (h : Phase.Sound cfg agents T P (.allocate st r tokens limitedPrefill plan)) :
    Ensures (fun _ => False) (fun out => Phase.Sound cfg agents T P out.2 ∧
        ∀ id, out.1 = .preempted id → id ∈ st.sched.running ∧
          out.2.step.sched.running = st.sched.running.erase id)
      (allocateStep env cfg agents st r tokens limitedPrefill plan) := by
  obtain ⟨hc, hfits, pre, post, hl⟩ := h
  refine (hc.allocateStep_cases hl fun hannotated => hannotated).mono ?_
  intro out hout
  cases hout with
  | inl hscheduled =>
      obtain ⟨b, rfl⟩ := hscheduled
      refine ⟨⟨?_, ?_⟩, by simp⟩
      · exact (hc.withBackend b).scheduleRunning plan (hl.not_scheduled List.mem_cons_self)
          hfits.nonneg hfits.token hfits.prefill
      · exact ((hl.withBackend b).scheduleRunning tokens limitedPrefill plan).at_index
  | inr hpreempts =>
      obtain ⟨b, id, st₁, st₂, plan', hp, rfl⟩ := hpreempts
      have hlb := hl.withBackend b
      have hexact := fun hannotated => (hp.dropped.index_spec hlb hl.index_eq).2
        (hl.index_eq hannotated) fun hfalse => absurd hannotated (by simp [hfalse])
      obtain ⟨hc₂, hrun, htoken, hprefill, hl₂⟩ :=
        hp.spec hlb hc.nodup (fun hannotated => hannotated) hexact
      constructor
      · rw [afterPreemption]
        split
        · exact ⟨hc₂, _, _, hl₂.weaken False.elim⟩
        · next hne =>
          refine ⟨hc₂, hfits.of_le htoken hprefill, pre.erase id, post.erase id, ?_⟩
          rw [List.erase_cons_tail (by simpa using Ne.symm hne)] at hl₂
          exact hl₂
      · intro x hx
        obtain rfl : id = x := LoopEvent.preempted.inj hx
        refine ⟨hp.dropped.mem, ?_⟩
        rw [afterPreemption]
        split <;> exact hrun

theorem Phase.Sound.next (henv : env.Lawful) {p p' : Phase ω} {e : LoopEvent}
    (h : p.Sound cfg agents T P) (hstep : LoopNext env cfg agents p e p') :
    p'.Sound cfg agents T P := by
  cases hstep with
  | stop _ => exact ⟨h.1, _, _, h.2⟩
  | examine hid _ hexamine => exact (h.examineStep henv hid).of_eq_ok hexamine
  | allocate halloc => exact ((h.allocateStep env).of_eq_ok halloc).1

theorem Phase.Sound.run (henv : env.Lawful) {p p' : Phase ω} {events : List LoopEvent}
    (h : p.Sound cfg agents T P) (hrun : Run (LoopNext env cfg agents) p events p') :
    p'.Sound cfg agents T P :=
  hrun.invariant (fun _ _ _ _ hs hstep => hs.next henv hstep) h

variable (env) in
/-- The allocation loop ends: each round that does not end it takes a running request away. -/
theorem Phase.Sound.allocateLoop_ok {r : Request} {tokens : ℤ} {limitedPrefill : Bool} :
    ∀ (fuel : ℕ) {st : Step ω} {plan : EncoderPlan},
      Phase.Sound cfg agents T P (.allocate st r tokens limitedPrefill plan) →
      st.sched.running.length < fuel →
      ∃ out, allocateLoop env cfg agents r tokens fuel st plan = .ok out := by
  intro fuel
  induction fuel with
  | zero => exact fun _ hfuel => absurd hfuel (by omega)
  | succ fuel ih =>
      intro st plan h hfuel
      have hsound := h.allocateStep env
      cases hstep : Sched.allocateStep env cfg agents st r tokens limitedPrefill plan with
      | error e => exact (hsound.of_eq_error hstep).elim
      | ok out =>
          obtain ⟨e, p⟩ := out
          obtain ⟨hp, hvictim⟩ := hsound.of_eq_ok hstep
          cases allocateLoop_of_allocateStep fuel hstep with
          | inl hout => exact hout
          | inr hnext =>
              obtain ⟨id, st', plan', rfl, rfl, heq⟩ := hnext
              rw [heq]
              obtain ⟨hmem, hrunning⟩ := hvictim id rfl
              refine ih hp ?_
              have hlength := List.length_erase_add_one hmem
              change st'.sched.running = _ at hrunning
              rw [hrunning]
              omega

theorem Phase.Sound.runningStep_ok (henv : env.Lawful)
    (h : Phase.Sound cfg agents T P (.examine st)) {id : String}
    (hid : st.sched.running[st.reqIndex]? = some id) :
    ∃ out, runningStep env cfg agents st id = .ok out := by
  rw [runningStep_eq]
  have hexamine := h.examineStep henv hid
  cases hp : Sched.examineStep env cfg agents st id with
  | error e => exact (hexamine.of_eq_error hp).elim
  | ok p =>
      have hsound := hexamine.of_eq_ok hp
      change ∃ out, continueStep p = .ok out
      cases p with
      | examine st₁ => exact ⟨_, rfl⟩
      | done st₁ => exact ⟨_, rfl⟩
      | allocate st₁ r tokens limitedPrefill plan =>
          obtain ⟨out, hout⟩ := hsound.allocateLoop_ok env _ (Nat.lt_succ_self _)
          rw [continueStep, hout]
          change ∃ result, (if out.1 then _ else _) = Except.ok result
          split <;> exact ⟨_, rfl⟩

/-- The running loop ends without an error. -/
theorem Phase.Sound.runningLoop_ok {s₀ : Scheduler ω} (hs₀ : s₀.Partition) (henv : env.Lawful) :
    ∀ (fuel : ℕ) {st : Step ω}, Phase.Sound cfg agents T P (.examine st) →
      Step.RunningInv s₀ st → st.sched.running.length - st.reqIndex < fuel →
      ∃ st', runningLoop env cfg agents fuel st = .ok st' := by
  intro fuel
  induction fuel with
  | zero => exact fun _ _ hfuel => absurd hfuel (by omega)
  | succ fuel ih =>
      intro st h hinv hfuel
      rw [runningLoop]
      split
      · exact ⟨st, rfl⟩
      · next id hid =>
        have hindex : st.reqIndex < st.sched.running.length := (List.getElem?_eq_some_iff.mp hid).1
        split
        · next hbudget =>
          obtain ⟨⟨again, st₁⟩, hout⟩ := h.runningStep_ok henv hid
          have hspec := (runningStep_spec env cfg agents hs₀ hinv hid).of_eq_ok hout
          obtain ⟨events, hrun⟩ := run_runningStep hid hbudget hout
          rw [hout]
          cases again with
          | false => exact ⟨st₁, rfl⟩
          | true =>
              have hadv := hspec.2 rfl
              dsimp only at hadv
              exact ih (h.run henv hrun) hspec.1 (by omega)
        · exact ⟨st, rfl⟩

end Steps

/-! ## The loop of a step -/

/-- What a step relies on in the scheduler it starts from: no running request is ahead of its
tokens. -/
structure Scheduler.Ready (cfg : SchedulerConfig) (s : Scheduler ω) : Prop where
  partition : s.Partition
  marked : s.RunningMarked
  behind : ∀ id ∈ s.running, ∀ r, s.requests.get? id = some r → Request.Behind cfg r
  budget : 0 ≤ cfg.maxNumScheduledTokens

/-- The accumulators of `st` against the budgets that `st₀` starts with. -/
structure Conserved (st₀ st : Step ω) : Prop where
  tokens : st.tokenBudget + st.numScheduledTokens.sum (fun _ n => n) = st₀.tokenBudget
  tokens_le : st.numScheduledTokens.sum (fun _ n => n) ≤ st₀.tokenBudget
  prefill : st.prefillBudget + st.scheduledPrefillTokens.sum (fun _ n => n) = st₀.prefillBudget
  prefill_nonneg : 0 ≤ st.prefillBudget
  mem_tokens_iff : ∀ id, id ∈ st.scheduledRunningReqs ↔ id ∈ st.numScheduledTokens.keys
  mem_blocks_iff : ∀ id, id ∈ st.scheduledRunningReqs ↔ id ∈ st.reqToNewBlocks
  running : ∀ id ∈ st.scheduledRunningReqs, id ∈ st.sched.running
  nodup : st.scheduledRunningReqs.Nodup
  preempted : ∀ id ∈ st.preemptedReqs, id ∉ st.scheduledRunningReqs

section Loop

variable {env : Collaborators ω} {cfg : SchedulerConfig} {agents : Option Agents}

theorem Phase.Sound.conserved {st₀ : Step ω} {p : Phase ω}
    (h : p.Sound cfg agents st₀.tokenBudget st₀.prefillBudget) : Conserved st₀ p.step := by
  obtain ⟨hc, E, pre, post, hl⟩ : Charged st₀.tokenBudget st₀.prefillBudget p.step ∧
      ∃ E pre post, Listed cfg agents E p.step pre post := by
    cases p with
    | examine st => exact ⟨h.1, _, _, _, h.2⟩
    | allocate st r tokens limitedPrefill plan =>
        obtain ⟨hc, -, pre, post, hl⟩ := h
        exact ⟨hc, _, _, _, hl⟩
    | done st =>
        obtain ⟨hc, pre, post, hl⟩ := h
        exact ⟨hc, _, _, _, hl⟩
  have hrunning : ∀ id ∈ p.step.scheduledRunningReqs, id ∈ p.step.sched.running := by
    intro id hid
    rw [hl.running]
    exact List.mem_append_left _ (hl.scheduled id hid)
  have hsum := hc.tokens
  have hnonneg := hc.token_nonneg
  refine ⟨hc.tokens, by omega, hc.prefill, hc.prefill_nonneg, hc.mem_iff, ?_, hrunning, hc.nodup,
    ?_⟩
  · exact fun id => hc.blocks ▸ Iff.rfl
  · exact fun id hid hmem => hl.preempted id hid (hrunning id hmem)

/-- The invariant holds when the loop starts. -/
theorem startStep_sound {s : Scheduler ω} (hs : s.Ready cfg) (henv : env.Lawful) :
    ∃ agents st₀, startStep env cfg s = .ok (agents, st₀) ∧ Step.RunningInv s st₀ ∧
      st₀.reqIndex = 0 ∧
      Phase.Sound cfg agents st₀.tokenBudget st₀.prefillBudget (.examine st₀) := by
  have hnodup : s.running.Nodup := by
    have := hs.partition.nodup
    simp only [Scheduler.placed, List.nodup_append] at this
    exact this.1.1
  have hrecord : ∀ id ∈ s.running, ∃ r, s.requests.get? id = some r ∧ r.requestId = id ∧
      r.status = .running ∧ (id ∉ ([] : List String) → Request.Behind cfg r) := by
    intro id hid
    obtain ⟨r, hr, -⟩ := (hs.partition.mem_iff id).mp (by simp [Scheduler.placed, hid])
    exact ⟨r, hr, hs.partition.keyed id r hr, (hs.marked id r hr).mpr hid,
      fun _ => hs.behind id hid r hr⟩
  have hsound : ∀ (backend : ω) (tokens prefill : ℤ), 0 ≤ tokens → 0 ≤ prefill →
      Phase.Sound cfg (env.beginStep s).1 tokens prefill (.examine
        { sched := { s with backend := backend }, tokenBudget := tokens, prefillBudget := prefill,
          encoderComputeBudget := cfg.maxNumEncoderInputTokens }) := by
    intro backend tokens prefill htokens hprefill
    refine ⟨⟨by simp, by simp, htokens, hprefill, by simp, by simp, ?_, rfl, ?_, .nil⟩,
      ⟨(List.take_append_drop _ _).symm, hnodup, by simp, by simp, False.elim, hrecord, ?_,
        by simp⟩⟩
    · exact fun id => Iff.rfl
    · exact fun id hid => hid
    · exact fun a ha id hid => henv.scored s a ha id hid
  have hbudget : 0 ≤ if s.pauseState = .pausedAll then 0 else cfg.maxNumScheduledTokens := by
    split
    · exact le_refl _
    · exact hs.budget
  obtain ⟨running, hrunning, -⟩ :=
    (hsound (env.beginStep s).2 0 0 le_rfl le_rfl).2.runningRequests cfg (env.beginStep s).1
  obtain ⟨backend, tokens, prefill, htokens, hprefill, hstart⟩ : ∃ backend tokens prefill,
      0 ≤ tokens ∧ 0 ≤ prefill ∧ startStep env cfg s = .ok ((env.beginStep s).1,
        { sched := { s with backend := backend }, tokenBudget := tokens, prefillBudget := prefill,
          encoderComputeBudget := cfg.maxNumEncoderInputTokens }) := by
    refine ⟨(env.hasUnpublished { s with backend := (env.beginStep s).2 }).2,
      if (env.hasUnpublished { s with backend := (env.beginStep s).2 }).1 then 0
        else if s.pauseState = .pausedAll then 0 else cfg.maxNumScheduledTokens, _, ?_, ?_,
      congrArg (· >>= _) hrunning⟩
    · split
      · exact le_rfl
      · exact hbudget
    · split
      · next a ha =>
        have := henv.prefill s a ha
        rw [Agents.prefillBudget]
        split
        · exact le_min hbudget this
        · exact hbudget
      · exact hbudget
  exact ⟨_, _, hstart, (startStep_spec env cfg hs.partition).of_eq_ok hstart, rfl,
    hsound _ _ _ htokens hprefill⟩

/-- At every point of the running loop of a step, whatever victims are chosen: what is left of
the token and the prefill budget and what is charged make up the initial budgets, the scheduled
requests are those with recorded tokens and blocks, each of them once and all of them running, and
no preempted one among them. A victim is always found among the running requests, and both loops
end. -/
theorem running_loop_conserves_budgets {s : Scheduler ω} (hs : s.Ready cfg)
    (henv : env.Lawful) :
    ∃ agents st₀, startStep env cfg s = .ok (agents, st₀) ∧
      (∀ events p, Run (LoopNext env cfg agents) (.examine st₀) events p →
        Conserved st₀ p.step ∧
        (∀ id p', LoopNext env cfg agents p (.preempted id) p' → id ∈ p.step.sched.running) ∧
        ∀ st r tokens limitedPrefill plan, p = .allocate st r tokens limitedPrefill plan →
          (∃ e p', LoopNext env cfg agents p e p') ∧
          ∃ out, allocateLoop env cfg agents r tokens (st.sched.running.length + 1) st plan =
            .ok out) ∧
      ∃ st' events, runningLoop env cfg agents (st₀.sched.running.length + 1) st₀ = .ok st' ∧
        Run (LoopNext env cfg agents) (.examine st₀) events (.done st') := by
  obtain ⟨agents, st₀, hstart, hinv, hindex, hsound⟩ := startStep_sound hs henv
  refine ⟨agents, st₀, hstart, ?_, ?_⟩
  · intro events p hrun
    have hp := hsound.run henv hrun
    refine ⟨hp.conserved, ?_, ?_⟩
    · intro id p' hstep
      cases hstep with
      | allocate halloc => exact (((hp.allocateStep env).of_eq_ok halloc).2 id rfl).1
    · intro st r tokens limitedPrefill plan heq
      subst heq
      refine ⟨?_, hp.allocateLoop_ok env _ (Nat.lt_succ_self _)⟩
      have halloc := hp.allocateStep env
      cases hstep : allocateStep env cfg agents st r tokens limitedPrefill plan with
      | error e => exact (halloc.of_eq_error hstep).elim
      | ok out => exact ⟨out.1, out.2, .allocate hstep⟩
  · obtain ⟨st', hst'⟩ := hsound.runningLoop_ok hs.partition henv (st₀.sched.running.length + 1)
      hinv (by omega)
    obtain ⟨events, hrun⟩ := run_runningLoop _ hst'
    exact ⟨st', events, hst', hrun⟩

end Loop

/-! ## A preemption of a scheduled request -/

/-- Collaborators without a controller over a pool of blocks: an allocation takes a block and a
preempted request returns one. -/
def poolCollaborators : Collaborators ℕ where
  beginStep s := (none, s.backend)
  hasUnpublished s := (false, s.backend)
  tryScheduleEncoderInputs s _ _ tokens budget := (⟨[], tokens, budget, []⟩, s.backend)
  numEncoderEmbeds _ _ := 0
  mambaBlockAlignedSplit _ _ tokens := tokens
  canGrow s _ _ := (true, s.backend)
  allocateRunning s _ _ := (decide (0 < s.backend), s.backend - 1)
  victimView s _ _ := (⟨1, fun _ => 1, fun _ => 1⟩, s.backend)
  freePreempted s _ := s.backend + 1
  finishedRecving _ _ := false
  updateWaitingForRemoteKv s r := (r.numComputedTokens, s.backend)
  grammarReady _ _ := false
  getComputedBlocks s _ := (0, s.backend)
  deferCacheLookup s _ _ := (false, s.backend)
  getNumNewMatchedTokens s _ _ := ((some 0, false), s.backend)
  canAllocate s _ _ := ((true, false), s.backend)
  allocateSlots s _ _ := (true, s.backend)
  activePrefixAffinity _ _ := (0, 0)
  affinityApplies _ := false

theorem poolCollaborators_lawful : poolCollaborators.Lawful :=
  ⟨fun _ _ _ _ _ h => ⟨h, le_rfl⟩, fun _ _ _ h => ⟨h, le_rfl⟩,
    fun _ _ h => absurd h (by simp [poolCollaborators]),
    fun _ _ h => absurd h (by simp [poolCollaborators])⟩

def priorityConfig : SchedulerConfig where
  policy := .priority
  maxNumRunningReqs := 8
  maxNumScheduledTokens := 64
  maxNumEncoderInputTokens := 0
  maxModelLen := 128

def runningRequest (id : String) (priority : ℤ) (promptTokenIds : List ℕ)
    (numComputedTokens : ℤ) : Request where
  requestId := id
  priority := priority
  status := .running
  promptTokenIds := promptTokenIds
  numComputedTokens := numComputedTokens
  maxTokens := 4

/-- Two running requests and one free block; the first request is the less urgent one. -/
def priorityScheduler : Scheduler ℕ where
  requests := .ofList [("late", runningRequest "late" 1 [1, 2, 3] 0),
    ("soon", runningRequest "soon" 0 [4, 5] 0)]
  running := ["late", "soon"]
  waiting := []
  skippedWaiting := []
  pauseState := .unpaused
  backend := 1

/-- A scheduler is ready, checked on the entries of the dictionary. -/
theorem Scheduler.ready_of_entries {cfg : SchedulerConfig} {s : Scheduler ω} (hs : s.Partition)
    (hmarked : ∀ e ∈ s.requests.entries, e.2.status = .running ↔ e.1 ∈ s.running)
    (hbehind : ∀ e ∈ s.requests.entries,
      e.2.numComputedTokens ≤ e.2.numTokensWithSpec + e.2.numOutputPlaceholders ∧
        e.2.numComputedTokens < cfg.maxModelLen)
    (hbudget : 0 ≤ cfg.maxNumScheduledTokens) : s.Ready cfg :=
  ⟨hs, fun id r h => hmarked (id, r) (OrdDict.get?_eq_some_iff.mp h),
    fun id _ r h => hbehind (id, r) (OrdDict.get?_eq_some_iff.mp h), hbudget⟩

theorem priorityScheduler_ready : priorityScheduler.Ready priorityConfig :=
  Scheduler.ready_of_entries
    (Scheduler.partition_of_entries (by decide +kernel) (by decide +kernel) (by decide +kernel))
    (by decide +kernel) (by decide +kernel) (by decide)

/-- The second request takes the block of the first one, whose tokens return to the budget. -/
theorem priority_preemption_conserves_budgets :
    ∃ agents st₀ st', startStep poolCollaborators priorityConfig priorityScheduler =
        .ok (agents, st₀) ∧
      runningLoop poolCollaborators priorityConfig agents (st₀.sched.running.length + 1) st₀ =
        .ok st' ∧
      st'.preemptedReqs = ["late"] ∧ st'.scheduledRunningReqs = ["soon"] ∧
      st'.tokenBudget = 62 ∧ Conserved st₀ st' := by
  obtain ⟨agents, st₀, hstart, hruns, st', events, hloop, hrun⟩ :=
    running_loop_conserves_budgets priorityScheduler_ready poolCollaborators_lawful
  have hvalues : (startStep poolCollaborators priorityConfig priorityScheduler).toOption.bind
      (fun out => (runningLoop poolCollaborators priorityConfig out.1
        (out.2.sched.running.length + 1) out.2).toOption.map fun st =>
          (st.preemptedReqs, st.scheduledRunningReqs, st.tokenBudget)) =
      some (["late"], ["soon"], 62) := by decide +kernel
  rw [hstart] at hvalues
  simp only [Except.toOption, Option.bind_some, hloop, Option.map_some, Option.some.injEq,
    Prod.mk.injEq] at hvalues
  exact ⟨agents, st₀, st', hstart, hloop, hvalues.1, hvalues.2.1, hvalues.2.2,
    (hruns events _ hrun).1⟩

end TokenCake.Sched
