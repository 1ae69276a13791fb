import TokenCake.Verification.Fence.Frames
import TokenCake.Verification.Schedule.Backend

/-! # Registration and publication of detached stores

A registered store is watched on all of its source blocks. The step that publishes it is idle,
and every other step names it before one of its blocks is handed out. -/

namespace TokenCake.Offload

open Sched

namespace TokenCakeOffloadingScheduler

variable {κ σ : Type} [DecidableEq κ]

/-! ## Tracked jobs -/

/-- The identifiers in use were generated before. -/
structure Known (c : TokenCakeOffloadingScheduler κ σ) : Prop where
  unpublished : ∀ k ∈ c.unpublished.keys, k < c.jobCounter
  detached : ∀ k ∈ c.detached.keys, k < c.jobCounter
  loads : ∀ k ∈ c.currentBatchLoadJobs.keys, k < c.jobCounter

/-- The detached job `j` reads the blocks `S`, which are watched, and `n` workers have not
reported it. -/
structure Tracked (j : JobId) (S : List BlockId) (n : ℕ) (c : TokenCakeOffloadingScheduler κ σ) :
    Prop where
  below : j < c.jobCounter
  detached : ∃ store, c.detached.get? j = some store ∧ store.sourceIds = S
  status : ∃ status, c.jobs.get? j = some status ∧ status.pendingCount = n
  watched : ∀ b ∈ S, j ∈ c.pendingJobs b
  loads : j ∉ c.currentBatchLoadJobs.keys

variable {c c' : TokenCakeOffloadingScheduler κ σ} {j : JobId} {S : List BlockId} {n : ℕ}

omit [DecidableEq κ] in
theorem Tracked.isDetached (h : Tracked j S n c) : c.detached.get? j ≠ none := by
  obtain ⟨store, hstore, -⟩ := h.detached
  simp [hstore]

omit [DecidableEq κ] in
theorem SameAt.mem_unpublished (h : SameAt j c c') :
    j ∈ c'.unpublished.keys ↔ j ∈ c.unpublished.keys := by
  rw [OrdDict.mem_keys_iff, OrdDict.mem_keys_iff, h.unpublished]

omit [DecidableEq κ] in
theorem Tracked.frame (h : Tracked j S n c) (hframe : Frame c c') : Tracked j S n c' := by
  have hsame := hframe.same j (.inl h.below)
  refine ⟨lt_of_lt_of_le h.below hframe.counter, ?_, ?_, ?_, hsame.loads h.loads⟩
  · rw [hsame.detached]
    exact h.detached
  · rw [hsame.status h.isDetached]
    exact h.status
  · exact fun b hb => hsame.watched h.isDetached b (h.watched b hb)

omit [DecidableEq κ] in
theorem Known.frame (h : Known c) (hframe : Frame c c') : Known c' := by
  refine ⟨?_, ?_, ?_⟩
  · intro k hk
    by_contra hnot
    have hsame := hframe.same k (.inr (Nat.le_of_not_lt hnot))
    have := h.unpublished k (hsame.mem_unpublished.mp hk)
    exact hnot (lt_of_lt_of_le this hframe.counter)
  · intro k hk
    by_contra hnot
    have hsame := hframe.same k (.inr (Nat.le_of_not_lt hnot))
    rw [OrdDict.mem_keys_iff, hsame.detached, ← OrdDict.mem_keys_iff] at hk
    exact hnot (lt_of_lt_of_le (h.detached k hk) hframe.counter)
  · intro k hk
    by_contra hnot
    have hsame := hframe.same k (.inr (Nat.le_of_not_lt hnot))
    by_cases hold : k ∈ c.currentBatchLoadJobs.keys
    · exact hnot (lt_of_lt_of_le (h.loads k hold) hframe.counter)
    · exact hsame.loads hold hk

/-! ## Registration -/

theorem addDetached_counter (c : TokenCakeOffloadingScheduler κ σ) (selection : Selection κ)
    (output : PrepareStoreOutput κ) :
    (c.addDetached selection output).jobCounter = c.jobCounter + 1 := by
  rw [addDetached]
  generalize selection.gpuSpec c.config.kvGroupConfigs.length output.keysToStore = spec
  obtain ⟨pending, hpending⟩ := watch_eq (c.insertDetached selection output spec) c.jobCounter
    spec.blockIds
  rw [hpending]
  rfl

theorem addDetached_loads (c : TokenCakeOffloadingScheduler κ σ) (selection : Selection κ)
    (output : PrepareStoreOutput κ) :
    (c.addDetached selection output).currentBatchLoadJobs = c.currentBatchLoadJobs := by
  rw [addDetached]
  generalize selection.gpuSpec c.config.kvGroupConfigs.length output.keysToStore = spec
  obtain ⟨pending, hpending⟩ := watch_eq (c.insertDetached selection output spec) c.jobCounter
    spec.blockIds
  rw [hpending]
  rfl

/-- The new job is watched on its blocks and waits for its publication. -/
theorem addDetached_tracked (h : Known c) (selection : Selection κ)
    (output : PrepareStoreOutput κ) :
    ∃ S, Tracked c.jobCounter S c.config.numWorkers (c.addDetached selection output) ∧
      c.jobCounter ∈ (c.addDetached selection output).unpublished.keys := by
  rw [addDetached]
  generalize selection.gpuSpec c.config.kvGroupConfigs.length output.keysToStore = spec
  have hwatch := mem_pendingJobs_watch (c.insertDetached selection output spec) c.jobCounter
    spec.blockIds
  obtain ⟨pending, hpending⟩ := watch_eq (c.insertDetached selection output spec) c.jobCounter
    spec.blockIds
  rw [hpending] at hwatch ⊢
  refine ⟨spec.blockIds, ⟨Nat.lt_succ_self _, ⟨_, OrdDict.get?_insert_self .., rfl⟩,
    ⟨_, OrdDict.get?_insert_self .., rfl⟩, ?_, ?_⟩, ?_⟩
  · exact fun b hb => (hwatch _ b).mpr (.inr ⟨rfl, hb⟩)
  · exact fun hmem => absurd (h.loads _ hmem) (lt_irrefl _)
  · exact OrdDict.mem_keys_insert.mpr (.inl rfl)

/-- Every store registered since `c` is tracked and waits for its publication. -/
def AllRegistered (c c' : TokenCakeOffloadingScheduler κ σ) : Prop :=
  ∀ j, c.jobCounter ≤ j → ∀ store, c'.detached.get? j = some store →
    Tracked j store.sourceIds c'.config.numWorkers c' ∧ j ∈ c'.unpublished.keys

omit [DecidableEq κ] in
theorem AllRegistered.frame {c₀ : TokenCakeOffloadingScheduler κ σ} (h : AllRegistered c₀ c)
    (hframe : Frame c c') {j : JobId} (hj : c₀.jobCounter ≤ j)
    (hold : j < c.jobCounter ∨ c'.jobCounter ≤ j) {store : DetachedStore}
    (hstore : c'.detached.get? j = some store) :
    Tracked j store.sourceIds c'.config.numWorkers c' ∧ j ∈ c'.unpublished.keys := by
  have hsame := hframe.same j hold
  rw [hsame.detached] at hstore
  obtain ⟨htracked, hmem⟩ := h j hj store hstore
  rw [hframe.config]
  exact ⟨htracked.frame hframe, hsame.mem_unpublished.mpr hmem⟩

theorem registerStore_registered {c₀ : TokenCakeOffloadingScheduler κ σ} (hknown : Known c)
    (h : AllRegistered c₀ c) (selection : Selection κ) :
    Yields (fun out => AllRegistered c₀ out.1) (c.registerStore selection) := by
  refine (registerStore_spec c selection).mono ?_
  rintro out ⟨offload, hout⟩
  have hoffload := frame_offload c offload
  cases hout with
  | inl hout =>
      rw [hout]
      intro j hj store hstore
      exact h.frame hoffload hj (Nat.lt_or_ge _ _) hstore
  | inr hout =>
      obtain ⟨output, hout⟩ := hout
      rw [hout]
      intro j hj store hstore
      obtain ⟨S, htracked, hmem⟩ := addDetached_tracked (hknown.frame hoffload) selection output
      have hframe := hoffload.trans
        (frame_addDetached { c with offload := offload } selection output)
      by_cases heq : j = c.jobCounter
      · subst heq
        obtain ⟨store', hstore', hS⟩ := htracked.detached
        rw [hstore'] at hstore
        obtain rfl := Option.some.inj hstore
        rw [hS, hframe.config]
        exact ⟨htracked, hmem⟩
      · refine h.frame hframe hj ?_ hstore
        rw [addDetached_counter]
        exact Nat.lt_or_gt_of_ne heq

theorem frame_registerStore (c : TokenCakeOffloadingScheduler κ σ) (selection : Selection κ) :
    Yields (fun out => Frame c out.1 ∧ out.1.currentBatchLoadJobs = c.currentBatchLoadJobs)
      (c.registerStore selection) := by
  refine (registerStore_spec c selection).mono ?_
  rintro out ⟨offload, hout⟩
  have hoffload := frame_offload c offload
  cases hout with
  | inl hout => exact ⟨hout ▸ hoffload, by rw [hout]⟩
  | inr hout =>
      obtain ⟨output, hout⟩ := hout
      rw [hout]
      exact ⟨hoffload.trans (frame_addDetached _ selection output), addDetached_loads ..⟩

/-- What an evaluation of the stalled lifecycles does to the connector. -/
structure Evaluated (c c' : TokenCakeOffloadingScheduler κ σ) : Prop where
  frame : Frame c c'
  loads : c'.currentBatchLoadJobs = c.currentBatchLoadJobs
  registered : AllRegistered c c'

theorem evaluatePending_spec (h : Known c) (selections : List (Selection κ)) :
    Yields (Evaluated c) (c.evaluatePending selections) := by
  refine Ensures.foldlM (I := fun _ => Evaluated c) ?_ selections c ⟨Frame.refl c, rfl, ?_⟩
  · intro selection _ c₁ h₁
    refine Ensures.map ((frame_registerStore c₁ selection).and
      (registerStore_registered (h.frame h₁.frame) h₁.registered selection)) ?_
    rintro out ⟨⟨hframe, hloads⟩, hregistered⟩
    exact ⟨h₁.frame.trans hframe, hloads.trans h₁.loads, hregistered⟩
  · intro j hj store hstore
    have hmem := OrdDict.mem_keys_iff.mpr ⟨store, hstore⟩
    exact absurd (h.detached j hmem) (Nat.not_lt_of_le hj)

/-! ## The stores of a step -/

omit [DecidableEq κ] in
theorem addStore_counter (c : TokenCakeOffloadingScheduler κ σ) (reqId : String)
    (status : RequestOffloadState κ) (keys : List κ) (blocks : StoreBlocks) :
    (c.addStore reqId status keys blocks).jobCounter = c.jobCounter + 1 ∧
      (c.addStore reqId status keys blocks).currentBatchLoadJobs = c.currentBatchLoadJobs ∧
      (c.addStore reqId status keys blocks).detached = c.detached := by
  rw [addStore]
  obtain ⟨pending, hpending⟩ := watch_eq (c.insertStore reqId status keys blocks) c.jobCounter
    blocks.slidingWindow
  rw [hpending]
  exact ⟨rfl, rfl, rfl⟩

/-- The native stores built from `c` have new identifiers. -/
structure NewStores (c : TokenCakeOffloadingScheduler κ σ)
    (out : TokenCakeOffloadingScheduler κ σ × OrdDict JobId TransferJob) : Prop where
  frame : Frame c out.1
  loads : out.1.currentBatchLoadJobs = c.currentBatchLoadJobs
  detached : out.1.detached = c.detached
  fresh : ∀ k ∈ out.2.keys, c.jobCounter ≤ k ∧ k < out.1.jobCounter

theorem storeRequest_spec {c₀ : TokenCakeOffloadingScheduler κ σ}
    {stores : OrdDict JobId TransferJob} (h : NewStores c₀ (c, stores)) (reqId : String)
    (status : RequestOffloadState κ) (plan : StorePlan κ) :
    Yields (NewStores c₀) (c.storeRequest reqId status plan stores) ∧
      Yields (fun out => Frame c out.1) (c.storeRequest reqId status plan stores) := by
  have hoffload : ∀ offload, NewStores c₀ ({ c with offload := offload }, stores) := fun offload =>
    ⟨h.frame.trans (frame_offload c offload), h.loads, h.detached, h.fresh⟩
  rw [storeRequest]
  split
  · exact ⟨Ensures.ok h, Ensures.ok (Frame.refl c)⟩
  · rw [← Ensures.and_iff]
    refine Ensures.bind (prepareStore_offload c _) ?_
    rintro ⟨c₁, prepared⟩ ⟨offload₁, h₁⟩
    dsimp only at h₁ ⊢
    subst h₁
    split
    · exact Ensures.ok ⟨hoffload offload₁, frame_offload c offload₁⟩
    · split
      · exact Ensures.ok ⟨hoffload offload₁, frame_offload c offload₁⟩
      · refine Ensures.bind (run_offload _ _) ?_
        rintro c₂ ⟨offload₂, h₂⟩
        subst h₂
        refine Ensures.bind (yields_true _) ?_
        intro _ _
        have hstore := frame_addStore { c with offload := offload₂ } reqId status
        refine Ensures.ok ⟨⟨(hoffload offload₂).frame.trans (hstore _ _), ?_, ?_, ?_⟩,
          (frame_offload c offload₂).trans (hstore _ _)⟩
        · exact (addStore_counter ..).2.1.trans h.loads
        · exact (addStore_counter ..).2.2.trans h.detached
        · intro k hk
          rw [(addStore_counter ..).1]
          cases OrdDict.mem_keys_insert.mp hk with
          | inl heq =>
              rw [heq]
              exact ⟨h.frame.counter, Nat.lt_succ_self _⟩
          | inr hold => exact ⟨(h.fresh k hold).1, Nat.lt_succ_of_lt (h.fresh k hold).2⟩

/-- A watched job is flushed once one of its blocks has a new owner. -/
def FencedBy (c₀ c : TokenCakeOffloadingScheduler κ σ) (blockIds : List BlockId) : Prop :=
  ∀ b ∈ blockIds, ∀ j, j < c₀.jobCounter → c₀.detached.get? j ≠ none → j ∈ c₀.pendingJobs b →
    j ∈ c.currentBatchJobsToFlush

omit [DecidableEq κ] in
theorem FencedBy.frame {c₀ : TokenCakeOffloadingScheduler κ σ} {blockIds : List BlockId}
    (h : FencedBy c₀ c blockIds) (hc : Frame c₀ c) (hframe : Frame c c') :
    FencedBy c₀ c' blockIds := by
  intro b hb j hj hdetached hpending
  exact (hframe.same j (.inl (lt_of_lt_of_le hj hc.counter))).flush (h b hb j hj hdetached hpending)

omit [DecidableEq κ] in
theorem fencedBy_fence {c₀ : TokenCakeOffloadingScheduler κ σ} (hc : Frame c₀ c)
    (blockIds : List BlockId) : FencedBy c₀ (c.fence blockIds) blockIds := by
  intro b hb j hj hdetached hpending
  exact mem_flush_fence hb ((hc.same j (.inl hj)).watched hdetached b hpending)

theorem buildStoreJob_spec {c₀ : TokenCakeOffloadingScheduler κ σ}
    {acc : TokenCakeOffloadingScheduler κ σ × OrdDict JobId TransferJob}
    (h : NewStores c₀ acc) (r : ScheduledRequest κ) :
    Yields (fun out => NewStores c₀ out ∧ Frame acc.1 out.1 ∧ FencedBy c₀ out.1 r.newBlocks)
      (buildStoreJob acc r) := by
  obtain ⟨c, stores⟩ := acc
  have hfence : NewStores c₀ (c.fence r.newBlocks, stores) :=
    ⟨h.frame.trans (frame_fence c _), h.loads, h.detached, h.fresh⟩
  have hfenced := fencedBy_fence h.frame r.newBlocks
  rw [buildStoreJob]
  split
  · exact Ensures.error trivial
  · next status _ =>
    split
    · exact Ensures.ok ⟨hfence, frame_fence c _, hfenced⟩
    · next plan _ =>
      obtain ⟨hnew, hframe⟩ := storeRequest_spec hfence r.reqId status plan
      refine (hnew.and hframe).mono ?_
      rintro out ⟨hnew, hframe⟩
      exact ⟨hnew, (frame_fence c _).trans hframe, hfenced.frame hfence.frame hframe⟩

theorem buildStoreJobs_spec (c : TokenCakeOffloadingScheduler κ σ)
    (scheduled : List (ScheduledRequest κ)) :
    Yields (fun out => NewStores c out ∧ ∀ r ∈ scheduled, FencedBy c out.1 r.newBlocks)
      (c.buildStoreJobs scheduled) := by
  -- a request is still ahead or its new blocks are fenced
  refine (Ensures.foldlM (I := fun rest out => NewStores c out ∧
    ∀ r ∈ scheduled, r ∈ rest ∨ FencedBy c out.1 r.newBlocks) ?_ scheduled (c, .empty) ?_).mono ?_
  · rintro r rest acc ⟨hnew, hfenced⟩
    refine (buildStoreJob_spec hnew r).mono ?_
    rintro out ⟨hnew', hframe, hr⟩
    refine ⟨hnew', fun r' hr' => ?_⟩
    cases hfenced r' hr' with
    | inl hmem =>
        cases List.mem_cons.mp hmem with
        | inl heq => exact .inr (heq ▸ hr)
        | inr hrest => exact .inl hrest
    | inr hdone => exact .inr (hdone.frame hnew.frame hframe)
  · refine ⟨⟨Frame.refl c, rfl, rfl, ?_⟩, fun r hr => .inl hr⟩
    intro k hk
    exact absurd hk List.not_mem_nil
  · rintro out ⟨hnew, hfenced⟩
    exact ⟨hnew, fun r hr => (hfenced r hr).resolve_left List.not_mem_nil⟩

/-! ## The metadata of a step -/

/-- What `build_connector_meta` makes of the connector `c`. -/
structure Published (c : TokenCakeOffloadingScheduler κ σ) (input : ConnectorInput κ)
    (out : TokenCakeOffloadingScheduler κ σ × OffloadingConnectorMetadata) : Prop where
  config : out.1.config = c.config
  counter : c.jobCounter ≤ out.1.jobCounter
  unpublished : ∀ j, j < c.jobCounter ∨ out.1.jobCounter ≤ j → j ∉ out.1.unpublished.keys
  loads : out.1.currentBatchLoadJobs = .empty
  detached : out.1.detached = c.detached
  status : ∀ j < c.jobCounter, c.detached.get? j ≠ none → out.1.jobs.get? j = c.jobs.get? j
  watched : ∀ j < c.jobCounter, c.detached.get? j ≠ none →
    ∀ b, j ∈ c.pendingJobs b → j ∈ out.1.pendingJobs b
  loadJobs : out.2.loadJobs = c.currentBatchLoadJobs
  stores : ∀ j < c.jobCounter, j ∈ out.2.storeJobs.keys ↔ j ∈ c.unpublished.keys
  bounded : ∀ k ∈ out.2.storeJobs.keys, k ∈ c.unpublished.keys ∨ k < out.1.jobCounter
  flushed : ∀ j < c.jobCounter, j ∉ c.unpublished.keys →
    j ∈ c.currentBatchJobsToFlush → j ∈ out.2.jobsToFlush
  fenced : ∀ r ∈ input.scheduled, ∀ b ∈ r.newBlocks, ∀ j < c.jobCounter,
    c.detached.get? j ≠ none → j ∉ c.unpublished.keys → j ∈ c.pendingJobs b →
    j ∈ out.2.jobsToFlush
  unnamed : ∀ j ∈ c.unpublished.keys, j ∉ out.2.jobsToFlush
  quiet : c.unpublished.keys ≠ [] → input.totalNumScheduledTokens = 0

omit [DecidableEq κ] in
theorem flushPreempted_spec (c : TokenCakeOffloadingScheduler κ σ) (ids : List String) :
    Yields (fun c' => Frame c c' ∧ c'.currentBatchLoadJobs = c.currentBatchLoadJobs ∧
      c'.detached = c.detached) (ids.foldlM flushPreempted c) := by
  refine Ensures.foldlM (I := fun _ c' => Frame c c' ∧
    c'.currentBatchLoadJobs = c.currentBatchLoadJobs ∧ c'.detached = c.detached) ?_ ids c
    ⟨Frame.refl c, rfl, rfl⟩
  rintro id _ c₁ ⟨hframe, hloads, hdetached⟩
  have hstep : Yields (fun c' => c'.currentBatchLoadJobs = c₁.currentBatchLoadJobs ∧
      c'.detached = c₁.detached) (c₁.flushPreempted id) := by
    rw [flushPreempted]
    split
    · exact Ensures.ok ⟨rfl, rfl⟩
    · refine Ensures.bind (yields_true _) ?_
      intro _ _
      exact Ensures.ok ⟨rfl, rfl⟩
  refine ((frame_flushPreempted c₁ id).and hstep).mono ?_
  rintro c₂ ⟨h₂, hloads₂, hdetached₂⟩
  exact ⟨hframe.trans h₂, hloads₂.trans hloads, hdetached₂.trans hdetached⟩

omit [DecidableEq κ] in
theorem flushFinished_spec (c : TokenCakeOffloadingScheduler κ σ) :
    c.flushFinished.currentBatchLoadJobs = c.currentBatchLoadJobs ∧
      c.flushFinished.detached = c.detached := by
  rw [flushFinished]
  split
  · exact ⟨rfl, rfl⟩
  · exact ⟨rfl, rfl⟩

/-- The native part of the metadata, before the batch is cleared in `built`. -/
structure NativeMeta (c : TokenCakeOffloadingScheduler κ σ) (input : ConnectorInput κ)
    (built : TokenCakeOffloadingScheduler κ σ)
    (out : TokenCakeOffloadingScheduler κ σ × OffloadingConnectorMetadata) : Prop where
  frame : Frame c built
  cleared : out.1 = { built with currentBatchLoadJobs := .empty, currentBatchJobsToFlush := [] }
  detached : built.detached = c.detached
  loadJobs : out.2.loadJobs = c.currentBatchLoadJobs
  fresh : ∀ k ∈ out.2.storeJobs.keys, c.jobCounter ≤ k ∧ k < built.jobCounter
  flush : out.2.jobsToFlush = built.currentBatchJobsToFlush
  fenced : ∀ r ∈ input.scheduled, FencedBy c built r.newBlocks

theorem buildNativeMeta_spec (c : TokenCakeOffloadingScheduler κ σ) (input : ConnectorInput κ) :
    Yields (fun out => ∃ built, NativeMeta c input built out) (c.buildNativeMeta input) := by
  refine Ensures.bind (flushPreempted_spec c input.preemptedReqIds) ?_
  rintro c₁ ⟨h₁, hloads₁, hdetached₁⟩
  refine Ensures.bind (buildStoreJobs_spec c₁.flushFinished input.scheduled) ?_
  rintro ⟨c₂, stores⟩ ⟨hnew, hfenced⟩
  have hflush := h₁.trans (frame_flushFinished c₁)
  refine Ensures.ok ⟨c₂, hflush.trans hnew.frame, rfl, ?_, ?_, ?_, rfl, ?_⟩
  · exact hnew.detached.trans ((flushFinished_spec c₁).2.trans hdetached₁)
  · exact hnew.loads.trans ((flushFinished_spec c₁).1.trans hloads₁)
  · intro k hk
    exact ⟨hflush.counter.trans (hnew.fresh k hk).1, (hnew.fresh k hk).2⟩
  · intro r hr b hb j hj hdetached hpending
    have hsame := hflush.same j (.inl hj)
    refine hfenced r hr b hb j (lt_of_lt_of_le hj hflush.counter) ?_ ?_
    · rw [hsame.detached]
      exact hdetached
    · exact hsame.watched hdetached b hpending

theorem mem_keys_update (d e : OrdDict JobId TransferJob) (k : JobId) :
    k ∈ (update d e).keys ↔ k ∈ d.keys ∨ k ∈ e.keys := by
  have hfold : ∀ (entries : List (JobId × TransferJob)) (d : OrdDict JobId TransferJob),
      k ∈ (entries.foldl (fun d entry => d.insert entry.1 entry.2) d).keys ↔
        k ∈ d.keys ∨ k ∈ entries.map Prod.fst := by
    intro entries
    induction entries with
    | nil => simp
    | cons entry rest ih =>
        intro d
        rw [List.foldl_cons, ih, OrdDict.mem_keys_insert, List.map_cons, List.mem_cons]
        grind
  exact hfold e.entries d

theorem buildConnectorMeta_spec (c : TokenCakeOffloadingScheduler κ σ) (input : ConnectorInput κ) :
    Yields (Published c input) (c.buildConnectorMeta input) := by
  rw [buildConnectorMeta]
  dsimp only
  split
  · exact Ensures.error trivial
  · next hquiet =>
    refine Ensures.bind (buildNativeMeta_spec { c with unpublished := .empty } input) ?_
    rintro ⟨c₁, native⟩ ⟨built, h⟩
    have hcleared : c₁ = { built with
      currentBatchLoadJobs := .empty, currentBatchJobsToFlush := [] } := h.cleared
    subst hcleared
    have hsame : ∀ j, j < c.jobCounter ∨ built.jobCounter ≤ j →
        SameAt j { c with unpublished := .empty } built := fun j hj => h.frame.same j hj
    have hflush : native.jobsToFlush = built.currentBatchJobsToFlush := h.flush
    have hmem : ∀ j, j ∉ c.unpublished.keys → j ∈ built.currentBatchJobsToFlush →
        j ∈ (if input.totalNumScheduledTokens = 0 ∧ c.unpublished.keys = []
          then native.jobsToFlush.filter (· ∉ c.unpublished.keys) ++ built.detached.keys
          else native.jobsToFlush.filter (· ∉ c.unpublished.keys)) := by
      intro j hnot hj
      have hfilter : j ∈ native.jobsToFlush.filter (· ∉ c.unpublished.keys) := by
        rw [hflush, List.mem_filter]
        exact ⟨hj, by simpa using hnot⟩
      split
      · exact List.mem_append_left _ hfilter
      · exact hfilter
    refine Ensures.ok ⟨h.frame.config, h.frame.counter, ?_, rfl, h.detached, ?_, ?_, h.loadJobs,
      ?_, ?_, ?_, ?_, ?_, ?_⟩
    · exact fun j hj hmemj => List.not_mem_nil ((hsame j hj).mem_unpublished.mp hmemj)
    · exact fun j hj hdetached => (hsame j (.inl hj)).status hdetached
    · exact fun j hj hdetached => (hsame j (.inl hj)).watched hdetached
    · intro j hj
      rw [mem_keys_update]
      refine or_iff_right ?_
      intro hnative
      exact absurd hj (Nat.not_lt_of_le (h.fresh j hnative).1)
    · intro k hk
      rw [mem_keys_update] at hk
      exact hk.symm.imp_right fun hnative => (h.fresh k hnative).2
    · exact fun j hj hnot hmemj => hmem j hnot ((hsame j (.inl hj)).flush hmemj)
    · intro r hr b hb j hj hdetached hnot hpending
      exact hmem j hnot (h.fenced r hr b hb j hj hdetached hpending)
    · intro j hj hmemj
      have hne : c.unpublished.keys ≠ [] := List.ne_nil_of_mem hj
      rw [if_neg fun hboth => hne hboth.2, List.mem_filter] at hmemj
      simpa using absurd hj (by simpa using hmemj.2)
    · intro hne
      by_contra htokens
      exact hquiet ⟨hne, htokens⟩

end TokenCakeOffloadingScheduler

open TokenCakeOffloadingScheduler

/-! ## The step -/

section Perform

variable {κ σ ρ : Type} [DecidableEq κ]

/-- The connector `c` during the step that started with `c₁`: other jobs are left alone, and
the destinations of the loads are fenced. -/
structure InStep (c₁ c : TokenCakeOffloadingScheduler κ σ) : Prop where
  frame : Frame c₁ c
  detached : c.detached = c₁.detached
  fenced : ∀ load ∈ c.currentBatchLoadJobs.values, FencedBy c₁ c load.gpu.blockIds

/-- The connector behind `schedule` is one in a step from `c₁`, unless it has failed. -/
def Behind (start : TokenCakeOffloadingScheduler κ σ → Prop) (b : Backend κ σ ρ) : Prop :=
  Yields (fun c => ∃ c₁, start c₁ ∧ InStep c₁ c) b.connector

theorem inStep_getNumNewMatchedTokens {c₁ c : TokenCakeOffloadingScheduler κ σ} (h : InStep c₁ c)
    (reqId : String) (offloadKeys : List (List κ)) (tokens : ℕ) (lookups touched : List κ) :
    Yields (InStep c₁) (c.getNumNewMatchedTokens reqId offloadKeys tokens lookups touched) := by
  refine (getNumNewMatchedTokens_spec c reqId offloadKeys tokens lookups touched).mono ?_
  rintro c' ⟨reqStatus, offload, hc'⟩
  subst hc'
  exact ⟨h.frame.trans (frame_matched c reqStatus offload), h.detached, h.fenced⟩

theorem inStep_updateStateAfterAlloc {c₁ c : TokenCakeOffloadingScheduler κ σ} (h : InStep c₁ c)
    (reqId : String) (blocks : List (List KVBlock)) (external : ℕ) :
    Yields (InStep c₁) (c.updateStateAfterAlloc reqId blocks external) := by
  refine (updateStateAfterAlloc_spec c reqId blocks external).mono ?_
  intro c' hc'
  cases hc' with
  | inl hc' => exact hc' ▸ h
  | inr hc' =>
      obtain ⟨ids, offload, status, keys, load, hload, hc'⟩ := hc'
      have hframe : Frame c c' := by
        rw [hc']
        exact ((frame_fence c ids).trans (frame_offload _ offload)).trans (frame_addLoad ..)
      refine ⟨h.frame.trans hframe, ?_, ?_⟩
      · rw [hc']
        exact h.detached
      intro other hother
      -- the flush list is that of the fence
      have hflush : c'.currentBatchJobsToFlush = (c.fence ids).currentBatchJobsToFlush := by
        rw [hc']
        rfl
      have hvalues : other = load ∨ other ∈ c.currentBatchLoadJobs.values := by
        rw [hc'] at hother
        obtain ⟨k, hk⟩ := OrdDict.mem_values_iff.mp hother
        change (c.currentBatchLoadJobs.insert c.jobCounter load).get? k = some other at hk
        rw [OrdDict.get?_insert] at hk
        split at hk
        · exact .inl (Option.some.inj hk).symm
        · exact .inr (OrdDict.mem_values_iff.mpr ⟨k, hk⟩)
      cases hvalues with
      | inl heq =>
          rw [heq, hload]
          intro b hb j hj hdetached hpending
          rw [hflush]
          exact fencedBy_fence h.frame ids b hb j hj hdetached hpending
      | inr hold => exact (h.fenced other hold).frame h.frame hframe

theorem collaborators_preserve (env : Collaborators (Backend κ σ ρ)) (inputs : Inputs κ σ ρ)
    (start : TokenCakeOffloadingScheduler κ σ → Prop) :
    (collaborators env inputs).Preserves (Behind start) where
  encoder _ _ _ _ _ h := h
  canGrow _ _ _ h := h
  allocateRunning s r tokens h := by
    simp only [collaborators]
    split
    · exact h
    · exact h
  victimView _ _ _ h := h
  freePreempted _ _ h := h
  updateWaitingForRemoteKv _ _ h := h
  getComputedBlocks _ _ h := h
  deferCacheLookup _ _ _ h := h
  getNumNewMatchedTokens s r tokens h :=
    Ensures.bind h fun _ ⟨c₁, hstart, hc⟩ =>
      (inStep_getNumNewMatchedTokens hc _ _ _ _ _).mono fun _ hc' => ⟨c₁, hstart, hc'⟩
  canAllocate _ _ _ h := h
  allocateSlots s r admission h := by
    simp only [collaborators]
    split
    · exact Ensures.bind h fun _ ⟨c₁, hstart, hc⟩ =>
        (inStep_updateStateAfterAlloc hc _ _ _).mono fun _ hc' => ⟨c₁, hstart, hc'⟩
    · exact h

/-- The state of `schedule` when its loops start. -/
structure Started (evaluated : Except ConnectorError (TokenCakeOffloadingScheduler κ σ))
    (st : Step (Backend κ σ ρ)) : Prop where
  connector : st.sched.backend.connector = evaluated
  allocated : st.sched.backend.allocated = []
  scheduled : st.scheduled = (st.sched.backend, [], [], [], [], .empty)
  budget : ∀ c₁, evaluated = .ok c₁ → c₁.unpublished.keys ≠ [] → st.tokenBudget = 0

theorem startStep_spec (call : ScheduleCall κ σ ρ) (c : TokenCakeOffloadingScheduler κ σ) :
    ∃ selections, Partially (fun out => Started (c.evaluatePending selections) out.2)
      (startStep (collaborators call.env call.inputs) call.cfg (call.start c)) := by
  let s₁ : Scheduler (Backend κ σ ρ) := { call.start c with
    backend := (call.start c).backend.keep (call.env.beginStep (call.start c)).2 }
  refine ⟨call.inputs.selections s₁, ?_⟩
  rw [startStep]
  refine Ensures.bind (partially_true _) ?_
  intro running _
  refine Ensures.ok ⟨rfl, rfl, rfl, ?_⟩
  intro c₁ hc₁ hne
  have hflag : ((collaborators call.env call.inputs).hasUnpublished s₁).1 = true := by
    change (c.evaluatePending (call.inputs.selections s₁)).toOption.any (·.hasUnpublished) = true
    rw [hc₁]
    simpa [Except.toOption, hasUnpublished] using hne
  exact if_pos hflag

/-- What a step of the scheduler does: the stalled lifecycles are evaluated, which leads to
`c₁`, both loops lead to `c₂`, and the output is published from there. -/
structure Performed (c c₁ c₂ : TokenCakeOffloadingScheduler κ σ) (input : ConnectorInput κ)
    (result : StepResult κ σ) : Prop where
  evaluated : Evaluated c c₁
  inStep : InStep c₁ c₂
  published : Published c₂ input (result.connector, result.metadata)
  newBlocks : result.newBlocks = input.scheduled.flatMap (·.newBlocks)
  tokens : result.totalNumScheduledTokens = input.totalNumScheduledTokens
  idle : c₁.unpublished.keys ≠ [] → c₂ = c₁ ∧ input.scheduled = [] ∧ result.allocated = []

theorem perform_spec {c : TokenCakeOffloadingScheduler κ σ} (hknown : Known c)
    (hloads : c.currentBatchLoadJobs = .empty) (call : ScheduleCall κ σ ρ)
    {result : StepResult κ σ} (h : call.perform c = .ok result) :
    ∃ c₁ c₂ input, Performed c c₁ c₂ input result := by
  rw [ScheduleCall.perform] at h
  split at h
  · cases h
  · next st hst =>
    split at h
    · cases h
    · next result' hresult =>
      cases h
      obtain ⟨selections, hstart⟩ := startStep_spec call c
      have hevaluated := evaluatePending_spec hknown selections
      -- the start of the step succeeded, and so did the evaluation
      obtain ⟨⟨agents, st₀⟩, hst₀⟩ : ∃ out, startStep (collaborators call.env call.inputs)
          call.cfg (call.start c) = .ok out := by
        rw [schedule] at hst
        cases hs : startStep (collaborators call.env call.inputs) call.cfg (call.start c) with
        | ok out => exact ⟨out, rfl⟩
        | error e =>
            rw [hs] at hst
            cases hst
      have hstarted : Started (c.evaluatePending selections) st₀ := hstart.of_eq_ok hst₀
      have hbehind := (schedule_behind (collaborators_preserve call.env call.inputs
        fun c₁ => c.evaluatePending selections = .ok c₁) call.cfg (s := call.start c) (by
          rw [hst₀]
          apply Ensures.ok
          simp only [Step.Behind, Behind, hstarted.connector]
          cases he : c.evaluatePending selections with
          | error e => trivial
          | ok c₁ =>
              refine Ensures.ok ⟨c₁, rfl, Frame.refl c₁, rfl, ?_⟩
              rw [(hevaluated.of_eq_ok he).loads, hloads]
              exact fun load hload => absurd hload List.not_mem_nil)).of_eq_ok hst
      rw [finishStep] at hresult
      cases hc₂ : st.sched.backend.connector with
      | error e =>
          rw [hc₂] at hresult
          cases hresult
      | ok c₂ =>
          simp only [Step.Behind, Behind, hc₂] at hbehind
          obtain ⟨c₁, hc₁, hinStep⟩ := hbehind
          rw [hc₂] at hresult
          have hmeta := buildConnectorMeta_spec c₂ (connectorInput call.inputs st)
          cases hbuilt : c₂.buildConnectorMeta (connectorInput call.inputs st) with
          | error e =>
              simp only [bind, Except.bind, hbuilt] at hresult
              cases hresult
          | ok out =>
              simp only [bind, Except.bind, hbuilt] at hresult
              cases hresult
              refine ⟨c₁, c₂, connectorInput call.inputs st, hevaluated.of_eq_ok hc₁, hinStep,
                hmeta.of_eq_ok hbuilt, rfl, rfl, ?_⟩
              intro hne
              have hbudget := hstarted.budget c₁ hc₁ hne
              have hidle := (schedule_idle (collaborators call.env call.inputs) call.cfg agents
                hst₀ (le_of_eq hbudget)).of_eq_ok hst
              rw [hstarted.scheduled] at hidle
              simp only [Step.scheduled, Prod.mk.injEq] at hidle
              obtain ⟨hbackend, hnew, hresumed, hrunning, -, -⟩ := hidle
              refine ⟨?_, ?_, ?_⟩
              · rw [hbackend, hstarted.connector, hc₁] at hc₂
                exact (Except.ok.inj hc₂).symm
              · simp [connectorInput, hnew, hresumed, hrunning]
              · exact (congrArg Backend.allocated hbackend).trans hstarted.allocated

end Perform

end TokenCake.Offload
