import TokenCake.Model.Backend
import TokenCake.Verification.KVCache.Representation
import TokenCake.Verification.Schedule.Backend

/-! # The cache manager behind the scheduler

A scheduling step allocates to a request the hits that it has just looked up, or none. So the block
tables, the reference counts, the free queue and the map from hashes agree behind every step,
whatever the step schedules, preempts or refuses. -/

namespace TokenCake.Control.Backend

open KV Sched

variable {η β : Type} [DecidableEq η] {hash : η → β → η} {base : η} {d : StepSettings η}
  {b : Backend η}

/-- Unless a call has failed, the manager is in order, and the blocks at hand are hits that it has
reported, or none. -/
def InOrder (b : Backend η) : Prop :=
  b.failure = none →
    CacheState.InOrder { manager := b.manager, reported := [b.newComputedBlocks] }

/-- A call that fails leaves its error behind. -/
theorem InOrder.record {α : Type} (default : α) {result : Except ControllerError (α × Backend η)}
    (h : Ensures (fun _ => True) (fun out => out.2.InOrder) result) :
    (b.record default result).2.InOrder := by
  cases result with
  | ok out => exact h
  | error e =>
      intro hfailure
      change (b.failure <|> some e) = none at hfailure
      cases hb : b.failure <;> simp [hb] at hfailure

/-- The manager after one of its calls. -/
theorem InOrder.perform (h : b.InOrder) (hfree : KVCacheManager.CollisionFree hash base)
    (op : KVCacheManager.CacheOp η) {manager : KVCacheManager η}
    (hissued : CacheState.Issued hash base
      { manager := b.manager, reported := [b.newComputedBlocks] } (.perform op))
    (hop : b.manager.perform op = .ok manager) : { b with manager := manager }.InOrder := by
  intro hfailure
  have hstep := (h hfailure).step (P := False) hfree hissued False.elim
  refine (hstep.of_eq_ok (a := { manager := manager, reported := [b.newComputedBlocks] }) ?_).1
  simp [CacheState.step, hop, bind, Except.bind, pure, Except.pure]

theorem InOrder.removeSkippedBlocks (h : b.InOrder)
    (hfree : KVCacheManager.CollisionFree hash base) (requestId : String) (n : ℕ) :
    { b with manager := b.manager.removeSkippedBlocks requestId n }.InOrder :=
  h.perform hfree (.removeSkippedBlocks requestId n) trivial rfl

theorem InOrder.free (h : b.InOrder) (hfree : KVCacheManager.CollisionFree hash base)
    (request : KV.Request η) : { b with manager := b.manager.free request }.InOrder :=
  h.perform hfree (.free request) trivial rfl

/-- `allocate_slots` with the hits at hand, or with none. -/
theorem InOrder.allocate (h : b.InOrder) (hfree : KVCacheManager.CollisionFree hash base)
    (request : GrowthRequest η) {args : KVCacheManager.SlotArgs}
    (hargs : args.newComputedBlocks = emptyBlocks b.manager ∨
      args.newComputedBlocks = b.newComputedBlocks) (running borrowReserved : Bool) :
    Ensures (fun _ => True) (fun out => out.2.InOrder)
      (b.allocate request args running borrowReserved) := by
  refine Ensures.of_forall_ok fun out hout => ?_
  obtain ⟨⟨manager, newBlocks⟩, hslots, hrest⟩ := Ensures.exists_of_mapError_bind hout
  have hnext : { b with manager := manager }.InOrder :=
    h.perform hfree (.allocateSlots request.toRequest args)
      (hargs.imp_right fun heq => List.mem_singleton.mpr heq)
      (by simp [KVCacheManager.perform, hslots, Except.map])
  cases newBlocks with
  | none =>
      obtain rfl := Except.ok.inj hrest
      exact hnext
  | some blocks =>
      dsimp only at hrest
      split at hrest
      · obtain ⟨controller, -, hcommitted⟩ := Ensures.exists_of_bind hrest
        obtain rfl := Except.ok.inj hcommitted
        exact hnext
      · obtain rfl := Except.ok.inj hrest
        exact hnext

omit [DecidableEq η] in
theorem slotArgs_blocks (b : Backend η) (r : Sched.Request) (admission : Admission) :
    (slotArgs d b r admission).newComputedBlocks = emptyBlocks b.manager ∨
      (slotArgs d b r admission).newComputedBlocks = b.newComputedBlocks := by
  unfold slotArgs
  dsimp only
  split
  · exact .inr rfl
  · exact .inl rfl

omit [DecidableEq η] in
/-- `can_allocate` at most slides the windows of its request. -/
theorem canAllocate_manager {c c' : SchedulingController} {m m' : KVCacheManager η}
    {request : GrowthRequest η} {args : KVCacheManager.SlotArgs} {borrowReserved allowed : Bool}
    (h : c.canAllocate m request args borrowReserved = .ok (allowed, m', c')) :
    m' = m ∨ ∃ n, m' = m.removeSkippedBlocks request.requestId n := by
  unfold SchedulingController.canAllocate at h
  split at h
  · obtain ⟨-, hm, -⟩ := by simpa using h
    exact .inl hm.symm
  · obtain ⟨result, -, heq⟩ := Ensures.exists_of_map_eq_ok h
    exact .inr ⟨_, (congrArg (fun out => out.2.1) heq).symm⟩

/-- A step keeps the manager in order, whatever calls it makes. -/
theorem collaborators_preserves (hfree : KVCacheManager.CollisionFree hash base)
    (hchained : ∀ r, Chained hash base (d.blockHashes r)) :
    (collaborators d).Preserves InOrder where
  encoder _ _ _ _ _ h := h
  canGrow s r tokens h := by
    refine .record _ (Ensures.of_forall_ok fun out hout => ?_)
    obtain ⟨mayGrow, -, rfl⟩ := Ensures.exists_of_map_eq_ok hout
    exact h.removeSkippedBlocks hfree _ _
  allocateRunning s r tokens h := .record _ (h.allocate hfree _ (.inl rfl) _ _)
  victimView s r tokens h := by
    change (victimView s r tokens).2.InOrder
    unfold victimView
    dsimp only
    split
    · exact h
    · refine .record _ (Ensures.of_forall_ok fun out hout => ?_)
      obtain ⟨demand, -, hview⟩ := Ensures.exists_of_mapError_bind hout
      obtain rfl := Except.ok.inj hview
      exact h
  freePreempted s r h := h.free hfree _
  updateWaitingForRemoteKv _ _ h := h
  getComputedBlocks s r h := by
    refine .record _ (Ensures.of_forall_ok fun out hout => ?_)
    obtain ⟨⟨blocks, computed⟩, hfound, hstored⟩ := Ensures.exists_of_mapError_bind hout
    obtain rfl := Except.ok.inj hstored
    intro hfailure
    have hissued : CacheState.Issued hash base
        { manager := s.backend.manager, reported := [s.backend.newComputedBlocks] }
        (.getComputedBlocks (d.growthRequest r).toRequest) := hchained r
    have hstep := (h hfailure).step (P := False) hfree hissued False.elim
    obtain ⟨hnext, -⟩ := hstep.of_eq_ok
      (a := { manager := s.backend.manager, reported := [blocks, s.backend.newComputedBlocks] })
      (by simp [CacheState.step, hfound, bind, Except.bind, pure, Except.pure])
    have hmem : ∀ hits ∈ [blocks], hits ∈ [blocks, s.backend.newComputedBlocks] :=
      fun hits hhits => List.mem_cons.mpr (.inl (List.mem_singleton.mp hhits))
    exact ⟨hnext.managed, fun hits hhits => hnext.hitLists hits (hmem hits hhits),
      fun hits hhits => hnext.apart hits (hmem hits hhits)⟩
  deferCacheLookup _ _ _ h := h
  getNumNewMatchedTokens _ _ _ h := h
  canAllocate s r admission h := by
    refine .record _ (Ensures.of_forall_ok fun out hout => ?_)
    obtain ⟨⟨allowed, manager, controller⟩, hasked, hanswered⟩ :=
      Ensures.exists_of_mapError_bind hout
    obtain rfl := Except.ok.inj hanswered
    obtain rfl | ⟨n, rfl⟩ := canAllocate_manager hasked
    · exact h
    · exact h.removeSkippedBlocks hfree _ n
  allocateSlots s r admission h :=
    .record _ (h.allocate hfree _ (slotArgs_blocks s.backend r admission) _ _)

theorem InOrder.beginStep {s : Scheduler (Backend η)} (h : s.backend.InOrder) :
    (beginStep d s).2.InOrder := by
  refine .record _ (Ensures.of_forall_ok fun out hout => ?_)
  obtain ⟨begun, -, hbegun⟩ := Ensures.exists_of_bind hout
  obtain rfl := Except.ok.inj hbegun
  exact h

theorem InOrder.schedule (hfree : KVCacheManager.CollisionFree hash base)
    (hchained : ∀ r, Chained hash base (d.blockHashes r)) {cfg : SchedulerConfig}
    {s : Scheduler (Backend η)} {st : Step (Backend η)} (h : s.backend.InOrder)
    (hst : Sched.schedule (collaborators d) cfg s = .ok st) : st.sched.backend.InOrder := by
  have hbehind : Partially (Step.Behind InOrder) (Sched.schedule (collaborators d) cfg s) := by
    refine schedule_behind (collaborators_preserves hfree hchained) cfg ?_
    refine Ensures.bind (partially_true _) fun running _ => ?_
    exact Ensures.ok h.beginStep
  exact hbehind.of_eq_ok hst

/-! ## Runs of the engine -/

/-- What the scheduler does behind itself between two steps: requests arrive and leave, and a reset
preempts them and drops the hashes. -/
inductive Between (d : StepSettings η) : Backend η → Backend η → Prop
  | associate (b : Backend η) (requestId : String) (metadata : AgentMetadata) :
      Between d b (b.associate requestId metadata)
  | freeRequest (b : Backend η) (request : KV.Request η) : Between d b (b.freeRequest request)
  | preempt (s : Scheduler (Backend η)) (r : Sched.Request) :
      Between d s.backend (freePreempted d s r)
  | resetPrefixCache (b : Backend η) :
      Between d b { b with manager := b.manager.resetPrefixCache.1 }

/-- The calls of an engine that runs on the cache manager and the controller. -/
def Drives (d : StepSettings η) (e : Engine (Backend η)) : EngineOp (Backend η) → Prop
  | .add _ _ _ backend | .finish _ _ _ backend | .reset backend =>
      Relation.ReflTransGen (Between d) e.sched.backend backend
  | .schedule env => env = collaborators d
  | .update out => Relation.ReflTransGen (Between d) e.sched.backend out.backend
  | .pause _ => True

theorem InOrder.between (hfree : KVCacheManager.CollisionFree hash base) {b' : Backend η}
    (h : b.InOrder) (hbetween : Relation.ReflTransGen (Between d) b b') : b'.InOrder := by
  induction hbetween with
  | refl => exact h
  | tail _ hlast ih =>
      cases hlast with
      | associate => exact ih
      | freeRequest _ request => exact ih.free hfree request
      | preempt s r => exact ih.free hfree _
      | resetPrefixCache => exact ih.perform hfree .resetPrefixCache trivial rfl

omit [DecidableEq η] in
theorem backend_updateAfterSchedule (cfg : SchedulerConfig) (st : Step (Backend η)) :
    (updateAfterSchedule cfg st).backend = st.sched.backend := by
  unfold updateAfterSchedule
  generalize st.sched = s
  induction st.numScheduledTokens.entries generalizing s with
  | nil => rfl
  | cons entry rest ih => exact ih _

omit [DecidableEq η] in
theorem backend_updateFromOutput (cfg : SchedulerConfig) (s : Scheduler (Backend η))
    (output : SchedulerOutput) (out : ModelRunnerOutput (Backend η)) :
    Partially (fun s' => s'.backend = out.backend) (updateFromOutput cfg s output out) := by
  refine Ensures.bind (partially_true _) fun u _ => ?_
  refine Ensures.bind (partially_true _) fun s _ => ?_
  exact Ensures.ok rfl

/-- One call of the engine. -/
theorem InOrder.step (hfree : KVCacheManager.CollisionFree hash base)
    (hchained : ∀ r, Chained hash base (d.blockHashes r)) {cfg : SchedulerConfig}
    {e e' : Engine (Backend η)} {op : EngineOp (Backend η)} (h : e.sched.backend.InOrder)
    (hdrives : Drives d e op) (hstep : e.step cfg op = .ok e') : e'.sched.backend.InOrder := by
  cases op with
  | add request structured delayFree backend =>
      obtain ⟨s, -, rfl⟩ := Ensures.exists_of_map_eq_ok hstep
      exact h.between hfree hdrives
  | finish ids status delayFree backend =>
      simp only [Engine.step] at hstep
      split at hstep
      · obtain rfl := Except.ok.inj hstep
        exact h.between hfree hdrives
      · cases hstep
  | schedule env =>
      obtain rfl : env = collaborators d := hdrives
      obtain ⟨st, hst, hnext⟩ := Ensures.exists_of_bind hstep
      obtain rfl := Except.ok.inj hnext
      change (updateAfterSchedule cfg st).backend.InOrder
      rw [backend_updateAfterSchedule]
      exact h.schedule hfree hchained hst
  | update out =>
      simp only [Engine.step] at hstep
      split at hstep
      · cases hstep
      · obtain ⟨s, hs, rfl⟩ := Ensures.exists_of_map_eq_ok hstep
        change s.backend.InOrder
        rw [(backend_updateFromOutput cfg e.sched _ out).of_eq_ok hs]
        exact h.between hfree hdrives
  | reset backend =>
      obtain ⟨s, -, rfl⟩ := Ensures.exists_of_map_eq_ok hstep
      exact h.between hfree hdrives
  | pause state =>
      obtain rfl := Except.ok.inj hstep
      exact h

theorem inOrder_start {config : KVCacheConfig} {m : KVCacheManager η}
    (hnew : KVCacheManager.new config = .ok m) (settings : SchedulingConfig) :
    (start settings m).InOrder := by
  intro _
  obtain ⟨hmanaged, -, -⟩ := CacheState.InOrder.start hnew
  refine ⟨hmanaged, fun hits hhits => ?_, fun hits hhits => ?_⟩
  · obtain rfl := List.mem_singleton.mp hhits
    exact .nil m
  · obtain rfl := List.mem_singleton.mp hhits
    exact .nil m

/-- In every run of the engine on the cache manager and the controller in which no call of these has
failed, the tables, the counts, the free queue and the map from hashes agree. -/
theorem engine_represented (hfree : KVCacheManager.CollisionFree hash base)
    (hchained : ∀ r, Chained hash base (d.blockHashes r)) {config : KVCacheConfig}
    {m : KVCacheManager η} (hnew : KVCacheManager.new config = .ok m) (settings : SchedulingConfig)
    {cfg : SchedulerConfig} {ops : List (EngineOp (Backend η))} {e : Engine (Backend η)}
    (hrun : Run (fun e op e' => Drives d e op ∧ Engine.Next cfg e op e')
      (Engine.initial (start settings m)) ops e)
    (hok : e.sched.backend.failure = none) : CacheState.Represented e.sched.backend.manager := by
  have hinOrder : e.sched.backend.InOrder :=
    hrun.invariant (I := fun e => e.sched.backend.InOrder)
      (fun _ _ _ _ h hnext => h.step hfree hchained hnext.1 hnext.2) (inOrder_start hnew settings)
  exact (hinOrder hok).represented

end TokenCake.Control.Backend
