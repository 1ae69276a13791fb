import TokenCake.Verification.Availability.Managers
import TokenCake.Verification.Lifecycle.Steps

/-! # References, blocks in flight and jobs

The connector keeps one load of the manager for each of its load jobs, and the keys in flight
are those of its store jobs. A store that is being registered has `loose` keys, which are in
flight and belong to no job yet. -/

namespace TokenCake.Offload

open LifecycleRegistry CPUOffloadingManager

variable {κ σ : Type} [DecidableEq κ]

/-! ## Calls -/

namespace OffloadState

variable {s : OffloadState κ σ} {kind : ℕ × Bool × Bool}

/-- The manager backs the references exactly, and its pool is accounted for. -/
structure Backing (kind : ℕ × Bool × Bool) (s : OffloadState κ σ) : Prop where
  coherent : s.Coherent fun _ => 0
  stocked : s.registry.Manages (Stocked kind)
  manager : s.registry.manager.isSome = true

theorem Backing.wf (h : s.Backing kind) : s.registry.WF :=
  fun m hm => (h.coherent.backed.accounts m hm).wf

theorem Backing.step (h : s.Backing kind) (op : OffloadOp κ σ) (hpermitted : s.Permitted op)
    (hdistinct : StoresDistinct op) (hbare : ∀ now, op ≠ .externalResetSucceeded now) :
    Returns (fun out => Backing kind out.1) (s.step op) := by
  refine ((step_stocked h.stocked hdistinct).with_eq).mono ?_
  rintro ⟨s', answer⟩ ⟨hstocked, hstep⟩
  obtain ⟨hprogress, slack, hcoherent, hslack⟩ :=
    h.coherent.next (show s.Permitted (op, answer).1 ∧ _ from ⟨hpermitted, hstep⟩)
  have hzero : slack = fun _ => 0 := by
    funext k
    refine hslack ?_ (fun _ => rfl) k
    rintro ⟨now, hop⟩
    exact hbare now hop
  exact ⟨hzero ▸ hcoherent, hstocked, hprogress.manager.trans h.manager⟩

/-- The calls that put nothing in flight, complete nothing and load nothing. -/
def isSilent : OffloadOp κ σ → Bool
  | .prepareLoad _ | .completeLoad _ | .prepareStore _ | .completeStore .. | .resetCache _
  | .externalResetSucceeded _ => false
  | _ => true

theorem step_silent (hwf : s.registry.WF) {op : OffloadOp κ σ} (hop : isSilent op = true) :
    Returns (fun out => out.1.loads = s.loads ∧
      ∀ k, out.1.registry.status k = s.registry.status k) (s.step op) := by
  have hloads : Returns (fun out => out.1.loads = s.loads) (s.step op) := by
    have honManager : ∀ f, Returns (fun out => out.1.loads = s.loads) (s.onManager f) := by
      intro f
      unfold onManager
      split
      · exact Ensures.error trivial
      · exact (Ensures.of_forall_ok fun _ _ => trivial).map fun _ _ => rfl
    have hmap : ∀ {α : Type} (result : Except AssertionFailure α)
        (f : α → OffloadState κ σ × Answer κ), (∀ a, (f a).1.loads = s.loads) →
        Returns (fun out => out.1.loads = s.loads) (result.map f) := fun result f hf =>
      (Ensures.of_forall_ok (P := fun _ => True) fun _ _ => trivial).map fun a _ => hf a
    cases op with
    | associate | apply | retainReady => exact hmap _ _ fun _ => rfl
    | generationFinished | expire | setH2dEstimate | release => exact hmap _ _ fun _ => rfl
    | addPending =>
        unfold step
        dsimp only
        split
        · exact Ensures.error trivial
        · exact Ensures.ok rfl
    | dropPending | consumeEvaluation | invalidateSnapshots => exact Ensures.ok rfl
    | lookup | touch => exact honManager _
    | prepareLoad | completeLoad | prepareStore | completeStore | resetCache
    | externalResetSucceeded => cases hop
  have hstatus : Returns (fun out => ∀ k, out.1.registry.status k = s.registry.status k)
      (s.step op) := by
    cases op with
    | addPending id keys => exact (step_addPending hwf id keys).mono fun _ h => h.2.1
    | prepareLoad | completeLoad | prepareStore | completeStore | resetCache
    | externalResetSucceeded => cases hop
    | _ => exact (step_quiet hwf _ rfl).mono fun _ h => h.status
  exact hloads.and hstatus

end OffloadState

/-! ## The jobs -/

namespace TokenCakeOffloadingScheduler

open OffloadState (Backing)

variable {c c' : TokenCakeOffloadingScheduler κ σ} {kind : ℕ × Bool × Bool} {loose : List κ}

def storeOf (_ : JobId) (status : TransferJobStatus κ) : Multiset κ :=
  if status.isStore then status.keys else 0

def loadOf (_ : JobId) (status : TransferJobStatus κ) : Multiset (List κ) :=
  if status.isStore then 0 else {status.keys}

/-- The keys of the store jobs. -/
def storeKeys (c : TokenCakeOffloadingScheduler κ σ) : Multiset κ := c.jobs.sum storeOf

/-- The keys of each load job. -/
def loadKeys (c : TokenCakeOffloadingScheduler κ σ) : Multiset (List κ) := c.jobs.sum loadOf

structure Tallied (kind : ℕ × Bool × Bool) (loose : List κ)
    (c : TokenCakeOffloadingScheduler κ σ) : Prop where
  backing : c.offload.Backing kind
  loads : (c.offload.loads : Multiset (List κ)) = c.loadKeys
  inFlight : ∀ k, c.offload.registry.status k = some false ↔ k ∈ c.storeKeys + loose
  distinct : (c.storeKeys + loose).Nodup
  fresh : ∀ job status, c.jobs.get? job = some status → job < c.jobCounter
  detached : ∀ job store, c.detached.get? job = some store → job < c.jobCounter ∧
    ∀ status, c.jobs.get? job = some status → status.isStore = true

theorem Tallied.congr (h : Tallied kind loose c) (hoffload : c'.offload = c.offload)
    (hjobs : c'.jobs = c.jobs) (hcounter : c'.jobCounter = c.jobCounter)
    (hdetached : c'.detached = c.detached) : Tallied kind loose c' := by
  have hstore : c'.storeKeys = c.storeKeys := by rw [storeKeys, storeKeys, hjobs]
  have hload : c'.loadKeys = c.loadKeys := by rw [loadKeys, loadKeys, hjobs]
  refine ⟨hoffload ▸ h.backing, ?_, ?_, ?_, ?_, ?_⟩
  · rw [hoffload, hload]
    exact h.loads
  · rw [hoffload, hstore]
    exact h.inFlight
  · rw [hstore]
    exact h.distinct
  · rw [hjobs, hcounter]
    exact h.fresh
  · rw [hjobs, hdetached, hcounter]
    exact h.detached

theorem Tallied.run (h : Tallied kind loose c) {op : OffloadOp κ σ}
    (hop : OffloadState.isSilent op = true) :
    Yields (fun c' => ∃ offload, c' = { c with offload := offload } ∧ Tallied kind loose c')
      (c.run op) := by
  have hpermitted : c.offload.Permitted op := by
    cases op with
    | prepareLoad | completeLoad => cases hop
    | _ => trivial
  have hdistinct : OffloadState.StoresDistinct op := by
    cases op with
    | prepareStore => cases hop
    | _ => trivial
  have hbare : ∀ now, op ≠ .externalResetSucceeded now := by
    rintro now rfl
    cases hop
  refine (run_returns (P := fun offload => offload.Backing kind ∧
    offload.loads = c.offload.loads ∧
    ∀ k, offload.registry.status k = c.offload.registry.status k)
    ((h.backing.step op hpermitted hdistinct hbare).and
      (OffloadState.step_silent h.backing.wf hop))).mono ?_
  rintro c' ⟨offload, hc', hbacking, hloads, hstatus⟩
  subst hc'
  refine ⟨offload, rfl, hbacking, hloads ▸ h.loads, fun k => ?_, h.distinct, h.fresh, h.detached⟩
  exact (hstatus k) ▸ h.inFlight k

/-! ## Stores begin -/

theorem Tallied.prepareStore (h : Tallied kind [] c) {keys : List κ} (hkeys : keys.Nodup) :
    Yields (fun out => (∃ offload, out.1 = { c with offload := offload }) ∧
        Tallied kind ((out.2.map (·.keysToStore)).getD []) out.1)
      (c.prepareStore keys) := by
  have hstep : Returns (fun out => ∃ output m m', out.2 = .prepared output ∧
      c.offload.registry.manager = some m ∧ m.prepareStore keys = .ok (output, m') ∧
      out.1 = { c.offload with registry := { c.offload.registry with manager := some m' } })
      (c.offload.step (.prepareStore keys)) := by
    simp only [OffloadState.step, OffloadState.onManager]
    split
    · exact Ensures.error trivial
    · next m hm =>
      refine Ensures.map (Ensures.map (P := fun out => m.prepareStore keys = .ok out)
        (Q := fun out => ∃ output, out.2 = .prepared output ∧
          m.prepareStore keys = .ok (output, out.1))
        (Ensures.of_forall_ok fun out hout => hout) fun out hout => ⟨out.1, rfl, hout⟩) ?_
      rintro out ⟨output, hanswer, hout⟩
      exact ⟨output, m, out.1, hanswer, hm, hout, rfl⟩
  have hbacking := h.backing.step (.prepareStore keys) trivial hkeys fun _ h => by cases h
  refine Ensures.bind (call_returns (hbacking.and hstep)) ?_
  rintro ⟨c₁, answer⟩ ⟨offload, hc₁, hbacking', output, m, m', hanswer, hm, hprepare, hoffload⟩
  dsimp only at hc₁ hbacking' hanswer hoffload ⊢
  rw [hanswer]
  subst hc₁
  refine Ensures.ok ⟨⟨offload, rfl⟩, ?_⟩
  have hpooled := (h.backing.stocked m hm).1
  obtain ⟨output', m'', hprepare', -, hprepared⟩ := hpooled.prepareStore hkeys
  rw [hprepare] at hprepare'
  obtain ⟨rfl, rfl⟩ := Prod.mk.inj (Except.ok.inj hprepare')
  obtain ⟨-, hstatus⟩ := status_prepareStore hpooled.policy.wf hprepare
  have hold : ∀ k, c.offload.registry.status k = m.status k := fun k => by
    simp [LifecycleRegistry.status, hm]
  have hnew : ∀ k, offload.registry.status k = m'.status k := fun k => by
    simp [LifecycleRegistry.status, hoffload]
  -- the keys to store are bound to blocks that are not ready
  have hbound : ∀ o ∈ output, ∀ k ∈ o.keysToStore, m'.status k = some false := by
    intro o ho k hk
    obtain ⟨i, hi, rfl⟩ := List.mem_iff_getElem.mp hk
    have hlength := (hprepared o ho).length
    have hmem : (o.keysToStore[i], o.storeSpec[i]) ∈ o.keysToStore.zip o.storeSpec := by
      rw [List.mem_iff_getElem]
      exact ⟨i, by simp [hlength, hi], by simp⟩
    have := (hprepared o ho).bound _ hmem
    simp [CPUOffloadingManager.status, this, BlockStatus.ofId, BlockStatus.isReady]
  have habsent : ∀ o ∈ output, ∀ k ∈ o.keysToStore, k ∉ c.storeKeys := by
    intro o ho k hk hmem
    rw [Option.mem_def.mp ho] at hprepare
    have hflight := (h.inFlight k).mpr (by simpa using hmem)
    rw [hold, status_of_mem_keysToStore hprepare hk] at hflight
    cases hflight
  have hloose : (output.map (·.keysToStore)).getD [] = [] ∨
      ∃ o ∈ output, (output.map (·.keysToStore)).getD [] = o.keysToStore := by
    cases output with
    | none => exact .inl rfl
    | some o => exact .inr ⟨o, rfl, rfl⟩
  refine ⟨hbacking', ?_, fun k => ?_, ?_, h.fresh, h.detached⟩
  · rw [hoffload]
    exact h.loads
  · have hiff := h.inFlight k
    rw [hold] at hiff
    dsimp only
    rw [hnew]
    change _ ↔ k ∈ c.storeKeys + _
    simp only [Multiset.mem_add, Multiset.mem_coe, List.not_mem_nil, or_false] at hiff ⊢
    constructor
    · intro hflight
      rcases hstatus k with hsame | ⟨-, hgone⟩ | ⟨⟨o, ho, hmem⟩, -, -⟩
      · exact .inl (hiff.mp (hsame ▸ hflight))
      · rw [hgone] at hflight
        cases hflight
      · rw [Option.mem_def.mp ho]
        exact .inr hmem
    · intro hmem
      cases hmem with
      | inl hstored =>
          have hflight := hiff.mpr hstored
          rcases hstatus k with hsame | ⟨hready, -⟩ | ⟨-, hnone, -⟩
          · exact hsame.trans hflight
          · rw [hready] at hflight
            cases hflight
          · rw [hnone] at hflight
            cases hflight
      | inr hnew' =>
          rcases hloose with hnil | ⟨o, ho, heq⟩
          · rw [hnil] at hnew'
            cases hnew'
          · exact hbound o ho k (heq ▸ hnew')
  · change (c.storeKeys + _).Nodup
    have hdistinct : c.storeKeys.Nodup := by simpa using h.distinct
    rcases hloose with hnil | ⟨o, ho, heq⟩
    · rw [hnil]
      simpa using hdistinct
    · rw [heq, Multiset.nodup_add]
      refine ⟨hdistinct, ?_, Multiset.disjoint_left.mpr fun {k} hk hmem => ?_⟩
      · rw [Multiset.coe_nodup, (hprepared o ho).stored]
        refine List.Nodup.filter _ ?_
        rw [thresholdFilter]
        split
        · exact hkeys
        · exact hkeys.filter _
      · exact habsent o ho k hmem hk

theorem get?_jobCounter (h : Tallied kind loose c) : c.jobs.get? c.jobCounter = none := by
  rw [Option.eq_none_iff_forall_ne_some]
  exact fun status hstatus => (h.fresh c.jobCounter status hstatus).ne rfl

/-- A job that is inserted writes the loose keys or stands for a new load. -/
theorem Tallied.insertJob (h : Tallied kind loose c) (status : TransferJobStatus κ)
    (hbacking : c'.offload.Backing kind)
    (hstatus : ∀ k, c'.offload.registry.status k = c.offload.registry.status k)
    (hstore : storeOf c.jobCounter status = loose)
    (hload : (c'.offload.loads : Multiset (List κ)) =
      c.offload.loads + loadOf c.jobCounter status)
    (hjobs : c'.jobs = c.jobs.insert c.jobCounter status)
    (hcounter : c'.jobCounter = c.jobCounter + 1)
    (hdetached : c'.detached = c.detached ∨
      (status.isStore = true ∧ ∃ store, c'.detached = c.detached.insert c.jobCounter store)) :
    Tallied kind [] c' := by
  have hnone := get?_jobCounter h
  have hstores : c'.storeKeys = c.storeKeys + loose := by
    rw [storeKeys, hjobs, OrdDict.sum_insert_new hnone, hstore]
    rfl
  have hloads : c'.loadKeys = c.loadKeys + loadOf c.jobCounter status := by
    rw [loadKeys, hjobs, OrdDict.sum_insert_new hnone]
    rfl
  have hget : ∀ job, c'.jobs.get? job =
      if job = c.jobCounter then some status else c.jobs.get? job := fun job => by
    rw [hjobs, OrdDict.get?_insert]
  refine ⟨hbacking, ?_, fun k => ?_, ?_, ?_, ?_⟩
  · rw [hload, hloads, h.loads]
  · rw [hstatus, hstores]
    simpa using h.inFlight k
  · rw [hstores]
    simpa using h.distinct
  · intro job status' hjob
    rw [hget] at hjob
    rw [hcounter]
    split at hjob
    · next heq => exact heq ▸ Nat.lt_succ_self _
    · exact (h.fresh job status' hjob).trans (Nat.lt_succ_self _)
  · intro job store hdet
    rw [hcounter]
    have hcase : c.detached.get? job = some store ∨
        (job = c.jobCounter ∧ status.isStore = true) := by
      rcases hdetached with hsame | ⟨hisStore, store', hinsert⟩
      · exact .inl (hsame ▸ hdet)
      · rw [hinsert, OrdDict.get?_insert] at hdet
        split at hdet
        · next heq => exact .inr ⟨heq, hisStore⟩
        · exact .inl hdet
    rcases hcase with hold | ⟨rfl, hisStore⟩
    · obtain ⟨hlt, hkind⟩ := h.detached job store hold
      refine ⟨hlt.trans (Nat.lt_succ_self _), fun status' hjob => hkind status' ?_⟩
      rwa [hget, if_neg hlt.ne] at hjob
    · refine ⟨Nat.lt_succ_self _, fun status' hjob => ?_⟩
      rw [hget, if_pos rfl] at hjob
      exact Option.some.inj hjob ▸ hisStore

theorem Tallied.watch (h : Tallied kind loose c) (job : JobId) (blockIds : List BlockId) :
    Tallied kind loose (c.watch job blockIds) := by
  obtain ⟨pending, hpending⟩ := watch_eq c job blockIds
  rw [hpending]
  exact h.congr rfl rfl rfl rfl

/-- A store that is given up drops the loose keys again. -/
theorem Tallied.dropLoose (h : Tallied kind loose c) :
    Yields (Tallied kind []) (c.run (.completeStore loose false)) := by
  have hloads : Returns (fun out => out.1.loads = c.offload.loads)
      (c.offload.step (.completeStore loose false)) := by
    simp only [OffloadState.step, OffloadState.onManager]
    split
    · exact Ensures.error trivial
    · exact Ensures.ok rfl
  refine (run_returns (P := fun offload => offload.Backing kind ∧
    offload.loads = c.offload.loads ∧ ∀ k, offload.registry.status k =
      OffloadState.landed loose false k (c.offload.registry.status k))
    ((h.backing.step (.completeStore loose false) trivial trivial fun _ h => by cases h).and
      (hloads.and ((OffloadState.step_completeStore h.backing.wf loose false).mono
        fun _ h => h.2.2)))).mono ?_
  rintro c' ⟨offload, hc', hbacking, hsame, hstatus⟩
  subst hc'
  obtain ⟨hdistinct, -, hdisjoint⟩ := Multiset.nodup_add.mp h.distinct
  have hkept : (c.storeKeys + (([] : List κ) : Multiset κ)).Nodup := by simpa using hdistinct
  refine ⟨hbacking, hsame ▸ h.loads, fun k => ?_, hkept, h.fresh, h.detached⟩
  have hflight := h.inFlight k
  change offload.registry.status k = some false ↔ k ∈ c.storeKeys + _
  rw [hstatus]
  by_cases hmem : k ∈ loose
  · have hnot : k ∉ c.storeKeys := fun hstored =>
      Multiset.disjoint_left.mp hdisjoint hstored (Multiset.mem_coe.mpr hmem)
    have hflying := hflight.mpr (Multiset.mem_add.mpr (.inr (Multiset.mem_coe.mpr hmem)))
    simp [OffloadState.landed, hmem, hflying, hnot]
  · simpa [OffloadState.landed, hmem] using hflight

theorem Tallied.addDetached {output : PrepareStoreOutput κ}
    (h : Tallied kind output.keysToStore c) (selection : Selection κ) :
    Tallied kind [] (c.addDetached selection output) := by
  refine Tallied.watch ?_ _ _
  exact h.insertJob _ h.backing (fun _ => rfl) rfl (add_zero _).symm rfl rfl
    (.inr ⟨rfl, _, rfl⟩)

theorem Tallied.registerStore (h : Tallied kind [] c) {selection : Selection κ}
    (hkeys : (selection.candidates.map (·.key)).Nodup) :
    Yields (fun out => Tallied kind [] out.1) (c.registerStore selection) := by
  have hordered : (selection.ordered.map (·.key)).Nodup :=
    ((List.mergeSort_perm selection.candidates _).map _).nodup_iff.mpr hkeys
  refine Ensures.bind (h.prepareStore hordered) ?_
  rintro ⟨c₁, prepared⟩ ⟨_, h₁⟩
  dsimp only at h₁ ⊢
  split
  · exact Ensures.ok h₁
  · next output =>
    refine Ensures.bind (h₁.run rfl) ?_
    rintro c₂ ⟨_, _, h₂⟩
    split
    · refine Ensures.bind (h₂.run rfl) ?_
      rintro c₃ ⟨_, _, h₃⟩
      split
      · next hempty =>
        refine Ensures.ok ?_
        rw [Option.map_some, Option.getD_some, List.isEmpty_iff.mp hempty] at h₃
        exact h₃
      · exact Ensures.ok (h₃.addDetached selection)
    · exact Ensures.bind h₂.dropLoose fun c₃ h₃ => Ensures.ok h₃

theorem Tallied.evaluatePending (h : Tallied kind [] c) {selections : List (Selection κ)}
    (hkeys : ∀ selection ∈ selections, (selection.candidates.map (·.key)).Nodup) :
    Yields (Tallied kind []) (c.evaluatePending selections) := by
  refine (Ensures.foldlM (I := fun rest c => Tallied kind [] c ∧
    ∀ selection ∈ rest, (selection.candidates.map (·.key)).Nodup) ?_ selections c
    ⟨h, hkeys⟩).mono fun _ h => h.1
  rintro selection rest c₁ ⟨h₁, hrest⟩
  refine (h₁.registerStore (hrest selection (List.mem_cons_self ..))).map fun _ h => ⟨h, ?_⟩
  exact fun other hmem => hrest other (List.mem_cons_of_mem _ hmem)

theorem Tallied.storeRequest (h : Tallied kind [] c) (reqId : String)
    (status : RequestOffloadState κ) {plan : StorePlan κ} (hkeys : plan.newOffloadKeys.Nodup)
    (stores : OrdDict JobId TransferJob) :
    Yields (fun out => Tallied kind [] out.1) (c.storeRequest reqId status plan stores) := by
  unfold TokenCakeOffloadingScheduler.storeRequest
  split
  · exact Ensures.ok h
  · refine Ensures.bind (h.prepareStore hkeys) ?_
    rintro ⟨c₁, prepared⟩ ⟨_, h₁⟩
    dsimp only at h₁ ⊢
    split
    · exact Ensures.ok h₁
    · next output =>
      rw [Option.map_some, Option.getD_some] at h₁
      split
      · next hempty =>
        rw [List.isEmpty_iff.mp hempty] at h₁
        exact Ensures.ok h₁
      · refine Ensures.bind (h₁.run rfl) ?_
        rintro c₂ ⟨_, _, h₂⟩
        refine Ensures.bind (yields_true _) ?_
        intro _ _
        refine Ensures.ok (Tallied.watch ?_ _ _)
        exact h₂.insertJob _ h₂.backing (fun _ => rfl) rfl (add_zero _).symm rfl rfl (.inl rfl)

theorem Tallied.buildStoreJobs (h : Tallied kind [] c) {scheduled : List (ScheduledRequest κ)}
    (hkeys : ∀ r ∈ scheduled, ∀ plan ∈ r.plan, plan.newOffloadKeys.Nodup) :
    Yields (fun out => Tallied kind [] out.1) (c.buildStoreJobs scheduled) := by
  refine (Ensures.foldlM (I := fun rest (out : _ × OrdDict JobId TransferJob) =>
    Tallied kind [] out.1 ∧ ∀ r ∈ rest, ∀ plan ∈ r.plan, plan.newOffloadKeys.Nodup) ?_
    scheduled (c, OrdDict.empty) ⟨h, hkeys⟩).mono fun _ h => h.1
  rintro r rest ⟨c₁, stores⟩ ⟨h₁, hrest⟩
  have hfence : Tallied kind [] (c₁.fence r.newBlocks) := h₁.congr rfl rfl rfl rfl
  have hlater : ∀ r ∈ rest, ∀ plan ∈ r.plan, plan.newOffloadKeys.Nodup :=
    fun r hr => hrest r (List.mem_cons_of_mem _ hr)
  unfold buildStoreJob
  split
  · exact Ensures.error trivial
  · next status _ =>
    split
    · exact Ensures.ok ⟨hfence, hlater⟩
    · next plan hplan =>
      exact (hfence.storeRequest r.reqId status (hrest r (List.mem_cons_self ..) plan hplan)
        stores).mono fun _ h => ⟨h, hlater⟩

theorem Tallied.buildConnectorMeta (h : Tallied kind [] c) {input : ConnectorInput κ}
    (hkeys : ∀ r ∈ input.scheduled, ∀ plan ∈ r.plan, plan.newOffloadKeys.Nodup) :
    Yields (fun out => Tallied kind [] out.1) (c.buildConnectorMeta input) := by
  unfold TokenCakeOffloadingScheduler.buildConnectorMeta
  dsimp only
  split
  · exact Ensures.error trivial
  · refine Ensures.bind (P := fun out => Tallied kind [] out.1) ?_ fun out h => Ensures.ok h
    refine Ensures.bind (Ensures.foldlM (I := fun _ => Tallied kind []) ?_
      input.preemptedReqIds _ (h.congr rfl rfl rfl rfl)) ?_
    · intro reqId _ c₁ h₁
      unfold flushPreempted
      split
      · exact Ensures.ok h₁
      · refine Ensures.bind (yields_true _) ?_
        intro _ _
        exact Ensures.ok (h₁.congr rfl rfl rfl rfl)
    · intro c₁ h₁
      have hflushed : Tallied kind [] c₁.flushFinished := by
        unfold flushFinished
        split
        · exact h₁.congr rfl rfl rfl rfl
        · exact h₁
      refine Ensures.bind (hflushed.buildStoreJobs hkeys) ?_
      rintro ⟨c₂, stores⟩ h₂
      exact Ensures.ok (h₂.congr rfl rfl rfl rfl)

end TokenCakeOffloadingScheduler

end TokenCake.Offload
