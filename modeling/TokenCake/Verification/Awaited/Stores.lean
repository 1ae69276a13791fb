import TokenCake.Verification.Fence.Frames
import TokenCake.Verification.Lifecycle.Pending

/-! # The keys in flight belong to stores

Every key in flight is a key of a store that has not completed, and a record waits only for
keys in flight. Preparing a store and completing one pass through states where this holds up
to a list of keys, which the invariant carries as parameters. -/

namespace TokenCake.Offload

open LifecycleRegistry CPUOffloadingManager

variable {κ σ : Type} [DecidableEq κ]

/-! ## Calls of the registry and the manager -/

namespace OffloadState

variable {s s' : OffloadState κ σ}

/-- The calls that change no status and make no record wait for more. -/
def isQuiet : OffloadOp κ σ → Bool
  | .addPending .. | .prepareStore _ | .completeStore .. | .resetCache _
  | .externalResetSucceeded _ => false
  | _ => true

omit [DecidableEq κ] in
theorem onRegistry_returns {P : LifecycleRegistry κ σ → Prop} (s : OffloadState κ σ)
    {result : Except AssertionFailure (LifecycleRegistry κ σ)} (h : Returns P result) :
    Returns (fun out => P out.1.registry) (s.onRegistry result) :=
  h.map fun _ h => h

/-- A call of the manager that moves references only. -/
theorem onManager_quiet (hwf : s.registry.WF)
    {f : CPUOffloadingManager κ → Except AssertionFailure (CPUOffloadingManager κ × Answer κ)}
    (hf : ∀ m, m.policy.WF → Returns (fun out => Calm m out.1) (f m)) :
    Returns (fun out => Quiet s.registry out.1.registry ∧
      out.1.registry.records = s.registry.records) (s.onManager f) := by
  unfold onManager
  split
  · exact Ensures.error trivial
  · next m hm =>
    refine (hf m (hwf m hm)).map ?_
    rintro ⟨m', answer⟩ hcalm
    refine ⟨⟨fun m₁ hm₁ => Option.some.inj hm₁ ▸ hcalm.wf, status_of_manager hm hcalm, ?_⟩, rfl⟩
    exact (Quiet.refl hwf).records

theorem step_completeLoad (hwf : s.registry.WF) (keys : List κ) :
    Returns (fun out => Quiet s.registry out.1.registry ∧
      out.1.registry.records = s.registry.records) (s.step (.completeLoad keys)) := by
  refine Ensures.map (onManager_quiet hwf fun m hm => ?_) fun _ h => h
  exact (Ensures.of_forall_ok fun out hout => calm_completeLoad hm hout).map fun _ h => h

theorem step_quiet (hwf : s.registry.WF) (op : OffloadOp κ σ) (hop : isQuiet op = true) :
    Returns (fun out => Quiet s.registry out.1.registry) (s.step op) := by
  cases op with
  | associate now requestId metadata =>
      exact (associate_quiet hwf now requestId metadata).map fun _ h => h
  | apply expiredAt now now' event =>
      exact (apply_quiet hwf expiredAt now now' event).map fun _ h => h
  | generationFinished expiredAt now identifier cause snapshot =>
      exact s.onRegistry_returns (generationFinished_quiet hwf ..)
  | expire now =>
      exact s.onRegistry_returns ((expire_expires hwf now).mono fun _ h => h.quiet)
  | setH2dEstimate identifier seconds now =>
      exact s.onRegistry_returns (setH2dEstimate_quiet hwf ..)
  | retainReady now identifier keys =>
      exact (retainReady_returns hwf now identifier keys).map fun _ h => h.1.quiet
  | release identifier =>
      exact s.onRegistry_returns ((release_expires hwf identifier).mono fun _ h => h.quiet)
  | dropPending identifier keys =>
      exact s.onRegistry_returns (Ensures.ok (dropPending_quiet hwf identifier keys))
  | consumeEvaluation identifier =>
      refine s.onRegistry_returns (Ensures.ok (Quiet.modifyRecord hwf identifier ?_))
      exact fun record => .inr ⟨List.Subset.refl _, rfl⟩
  | invalidateSnapshots =>
      exact s.onRegistry_returns (Ensures.ok (invalidateSnapshots_quiet hwf))
  | lookup key =>
      refine (onManager_quiet hwf fun m hm => ?_).mono fun _ h => h.1
      exact Ensures.ok (calm_lookup hm key)
  | touch keys =>
      refine (onManager_quiet hwf fun m hm => ?_).mono fun _ h => h.1
      exact Ensures.ok (calm_touch hm keys)
  | prepareLoad keys =>
      refine Ensures.map (onManager_quiet hwf fun m hm => ?_) fun _ h => h.1
      exact (Ensures.of_forall_ok fun out hout => calm_prepareLoad hm hout).map fun _ h => h
  | completeLoad keys => exact (step_completeLoad hwf keys).mono fun _ h => h.1
  | addPending | prepareStore | completeStore | resetCache | externalResetSucceeded => cases hop

/-- A store is prepared: its keys were absent and are in flight. -/
theorem step_prepareStore (hwf : s.registry.WF) (keys : List κ) :
    Returns (fun out => ∃ output, out.2 = .prepared output ∧ out.1.registry.WF ∧
        out.1.registry.records = s.registry.records ∧
        (∀ k, out.1.registry.status k = some false → s.registry.status k = some false ∨
          ∃ o ∈ output, k ∈ o.keysToStore) ∧
        (∀ k, s.registry.status k = some false → out.1.registry.status k = some false) ∧
        ∀ o ∈ output, ∀ k ∈ o.keysToStore, s.registry.status k = none)
      (s.step (.prepareStore keys)) := by
  simp only [step, onManager]
  split
  · exact Ensures.error trivial
  · next m hm =>
    have hold : ∀ k, s.registry.status k = m.status k := fun k => by
      simp [LifecycleRegistry.status, hm]
    refine Ensures.map (Ensures.map (P := fun out => m.prepareStore keys = .ok out)
      (Q := fun out => ∃ output, out.2 = .prepared output ∧
        m.prepareStore keys = .ok (output, out.1))
      (Ensures.of_forall_ok fun out hout => hout) fun out hout => ⟨out.1, rfl, hout⟩) ?_
    rintro ⟨m', answer⟩ ⟨output, hanswer, hout⟩
    obtain ⟨hwf', hstatus⟩ := status_prepareStore (hwf m hm) hout
    refine ⟨output, hanswer, fun m₁ hm₁ => Option.some.inj hm₁ ▸ hwf', rfl, ?_, ?_, ?_⟩
    · intro k hk
      rw [hold]
      rcases hstatus k with hsame | ⟨-, hgone⟩ | ⟨hstored, -, -⟩
      · exact .inl (hsame ▸ hk)
      · exact absurd (hgone.symm.trans hk) (by simp)
      · exact .inr hstored
    · intro k hk
      rw [hold] at hk
      rcases hstatus k with hsame | ⟨hready, -⟩ | ⟨-, habsent, -⟩
      · exact hsame.trans hk
      · rw [hready] at hk
        cases hk
      · rw [habsent] at hk
        cases hk
    · intro o ho k hk
      rw [hold]
      rw [Option.mem_def.mp ho] at hout
      exact status_of_mem_keysToStore hout hk

/-- What the completion of a store does to the status of a key. -/
def landed (keys : List κ) (success : Bool) (k : κ) (status : Option Bool) : Option Bool :=
  if success then if k ∈ keys then status.map fun _ => true else status
  else if k ∈ keys ∧ status = some false then none else status

theorem step_completeStore (hwf : s.registry.WF) (keys : List κ) (success : Bool) :
    Returns (fun out => out.1.registry.WF ∧ out.1.registry.records = s.registry.records ∧
        ∀ k, out.1.registry.status k = landed keys success k (s.registry.status k))
      (s.step (.completeStore keys success)) := by
  simp only [step, onManager]
  split
  · exact Ensures.error trivial
  · next m hm =>
    have hold : ∀ k, s.registry.status k = m.status k := fun k => by
      simp [LifecycleRegistry.status, hm]
    have hnew : (m.completeStore keys success).policy.WF ∧ ∀ k,
        (m.completeStore keys success).status k = landed keys success k (m.status k) := by
      cases success with
      | true => exact status_completeStore (hwf m hm) keys
      | false => exact status_completeStore_false (hwf m hm) keys
    refine Ensures.ok ⟨fun m₁ hm₁ => Option.some.inj hm₁ ▸ hnew.1, rfl, fun k => ?_⟩
    rw [hold]
    exact hnew.2 k

/-- A record that waits for more waits for keys in flight. -/
theorem step_addPending (hwf : s.registry.WF) (id : String) (keys : List κ) :
    Returns (fun out => out.1.registry.WF ∧
        (∀ k, out.1.registry.status k = s.registry.status k) ∧
        ∀ id' later, out.1.registry.records.get? id' = some later →
          ∃ record, s.registry.records.get? id' = some record ∧
            later.terminalAt = record.terminalAt ∧
            (later.terminalAt.isSome = true →
              later.pendingRetention = record.pendingRetention) ∧
            ∀ k ∈ later.pendingRetention, k ∈ record.pendingRetention ∨
              s.registry.status k = some false)
      (s.step (.addPending id keys)) := by
  simp only [step]
  split
  · exact Ensures.error trivial
  · next m hm =>
    refine Ensures.ok ⟨hwf, fun _ => rfl, fun id' later hlater => ?_⟩
    rw [addPending, get?_modifyRecord] at hlater
    by_cases hid : id' = id
    · rw [if_pos hid] at hlater
      obtain ⟨record, hrecord, rfl⟩ := Option.map_eq_some_iff.mp hlater
      refine ⟨record, hrecord, ?_, ?_, ?_⟩
      · split <;> rfl
      · split
        · next howns =>
          intro hterminal
          dsimp only at hterminal
          simp [Lifecycle.ownsPreservation] at howns
          rw [howns.1.2] at hterminal
          cases hterminal
        · exact fun _ => rfl
      · intro k hk
        split at hk
        · cases List.mem_append.mp hk with
          | inl hold => exact .inl hold
          | inr hnew =>
              refine .inr ?_
              have hflight := isKeyInFlight_iff_status.mp (List.mem_filter.mp hnew).2
              simpa [LifecycleRegistry.status, hm] using hflight
        · exact .inl hk
    · rw [if_neg hid] at hlater
      exact ⟨later, hlater, rfl, fun _ => rfl, fun k hk => .inl hk⟩

end OffloadState

namespace TokenCakeOffloadingScheduler

variable {c c' : TokenCakeOffloadingScheduler κ σ} {loose landed : List κ}

theorem call_returns {P : OffloadState κ σ × Answer κ → Prop} {op : OffloadOp κ σ}
    (h : Returns P (c.offload.step op)) :
    Yields (fun out => ∃ offload, out.1 = { c with offload := offload } ∧ P (offload, out.2))
      (c.call op) := by
  rw [call]
  split
  · exact Ensures.error trivial
  · next offload answer hstep => exact Ensures.ok ⟨offload, rfl, h.of_eq_ok hstep⟩

theorem run_returns {P : OffloadState κ σ → Prop} {op : OffloadOp κ σ}
    (h : Returns (fun out => P out.1) (c.offload.step op)) :
    Yields (fun c' => ∃ offload, c' = { c with offload := offload } ∧ P offload) (c.run op) :=
  (call_returns h).map fun _ h => h

/-! ## The invariant -/

/-- A store that has not completed writes the key. -/
def StoredBy (c : TokenCakeOffloadingScheduler κ σ) (k : κ) : Prop :=
  ∃ job status, c.jobs.get? job = some status ∧ status.isStore = true ∧ k ∈ status.keys

/-- A record waits for keys in flight, or for `landed` keys which are ready. The keys in
flight are written by stores, but for the `loose` ones. -/
structure Awaited (loose landed : List κ) (c : TokenCakeOffloadingScheduler κ σ) : Prop where
  wf : c.offload.registry.WF
  ended : c.offload.registry.Ended
  pending : ∀ id record, c.offload.registry.records.get? id = some record →
    ∀ k ∈ record.pendingRetention, c.offload.registry.status k = some false ∨
      (k ∈ landed ∧ c.offload.registry.status k = some true)
  stored : ∀ k, c.offload.registry.status k = some false → c.StoredBy k ∨ k ∈ loose
  stale : c.staleJobThreshold ≤ c.jobCounter
  known : ∀ job status, c.jobs.get? job = some status →
    c.staleJobThreshold ≤ job ∧ job < c.jobCounter

/-- The registry and the jobs are as before. -/
theorem Awaited.congr (h : Awaited loose landed c) (hoffload : c'.offload = c.offload)
    (hjobs : c'.jobs = c.jobs) (hcounter : c'.jobCounter = c.jobCounter)
    (hstale : c'.staleJobThreshold = c.staleJobThreshold) : Awaited loose landed c' := by
  refine ⟨hoffload ▸ h.wf, hoffload ▸ h.ended, hoffload ▸ h.pending, ?_, ?_, ?_⟩
  · intro k hk
    rw [hoffload] at hk
    rw [StoredBy, hjobs]
    exact h.stored k hk
  · rw [hstale, hcounter]
    exact h.stale
  · rw [hjobs, hcounter, hstale]
    exact h.known

theorem Awaited.quiet (h : Awaited loose landed c) {offload : OffloadState κ σ}
    (hquiet : Quiet c.offload.registry offload.registry) :
    Awaited loose landed { c with offload := offload } := by
  refine ⟨hquiet.wf, hquiet.ended h.ended, ?_, ?_, h.stale, h.known⟩
  · intro id later hlater k hk
    dsimp only at hlater ⊢
    rw [hquiet.status]
    obtain ⟨record, hrecord, hold⟩ := hquiet.mem_pending hlater hk
    exact h.pending id record hrecord k hold
  · intro k hk
    dsimp only at hk
    rw [hquiet.status] at hk
    exact h.stored k hk

theorem Awaited.run (h : Awaited loose landed c) {op : OffloadOp κ σ}
    (hop : OffloadState.isQuiet op = true) :
    Yields (fun c' => ∃ offload, c' = { c with offload := offload } ∧
      Quiet c.offload.registry offload.registry ∧ Awaited loose landed c') (c.run op) := by
  refine (run_returns (P := fun offload => Quiet c.offload.registry offload.registry)
    (OffloadState.step_quiet h.wf _ hop)).mono ?_
  rintro c' ⟨offload, hc', hquiet⟩
  exact ⟨offload, hc', hquiet, hc' ▸ h.quiet hquiet⟩

/-! ## Stores begin -/

theorem Awaited.prepareStore (h : Awaited [] [] c) (keys : List κ) :
    Yields (fun out => (∃ offload, out.1 = { c with offload := offload }) ∧
        Awaited ((out.2.map (·.keysToStore)).getD []) [] out.1 ∧
        ∀ o ∈ out.2, ∀ id record, out.1.offload.registry.records.get? id = some record →
          ∀ k ∈ record.pendingRetention, k ∉ o.keysToStore)
      (c.prepareStore keys) := by
  refine Ensures.bind (call_returns (OffloadState.step_prepareStore h.wf keys)) ?_
  rintro ⟨c₁, answer⟩ ⟨offload, hc₁, output, hanswer, hwf, hrecords, hnew, hold, habsent⟩
  dsimp only at hc₁ hanswer hwf hrecords hnew hold habsent ⊢
  rw [hanswer]
  subst hc₁
  have hpending : ∀ id record, offload.registry.records.get? id = some record →
      ∀ k ∈ record.pendingRetention, c.offload.registry.status k = some false := by
    intro id record hrecord k hk
    rw [hrecords] at hrecord
    exact (h.pending id record hrecord k hk).resolve_right fun hl => List.not_mem_nil hl.1
  refine Ensures.ok ⟨⟨offload, rfl⟩, ⟨hwf, ?_, ?_, ?_, h.stale, h.known⟩, ?_⟩
  · intro id record hrecord
    rw [hrecords] at hrecord
    exact h.ended id record hrecord
  · exact fun id record hrecord k hk => .inl (hold k (hpending id record hrecord k hk))
  · intro k hk
    cases hnew k hk with
    | inl hflight => exact .inl ((h.stored k hflight).resolve_right List.not_mem_nil)
    | inr hstored =>
        obtain ⟨o, ho, hmem⟩ := hstored
        rw [Option.mem_def.mp ho]
        exact .inr hmem
  · intro o ho id record hrecord k hk hmem
    have hflight := hpending id record hrecord k hk
    rw [habsent o ho k hmem] at hflight
    cases hflight

/-- A job that is inserted writes the loose keys. -/
theorem Awaited.insert (h : Awaited loose landed c) {status : TransferJobStatus κ}
    (hstore : ∀ k ∈ loose, status.isStore = true ∧ k ∈ status.keys)
    (hoffload : c'.offload = c.offload)
    (hjobs : c'.jobs = c.jobs.insert c.jobCounter status)
    (hcounter : c'.jobCounter = c.jobCounter + 1)
    (hstale : c'.staleJobThreshold = c.staleJobThreshold) : Awaited [] landed c' := by
  have hkept : ∀ job, job < c.jobCounter → c'.jobs.get? job = c.jobs.get? job := by
    intro job hjob
    rw [hjobs, OrdDict.get?_insert, if_neg hjob.ne]
  refine ⟨hoffload ▸ h.wf, hoffload ▸ h.ended, hoffload ▸ h.pending, ?_, ?_, ?_⟩
  · intro k hk
    rw [hoffload] at hk
    refine .inl ?_
    cases h.stored k hk with
    | inl hstored =>
        obtain ⟨job, status', hjob, hstatus'⟩ := hstored
        exact ⟨job, status', (hkept job (h.known job status' hjob).2).trans hjob, hstatus'⟩
    | inr hloose =>
        refine ⟨c.jobCounter, status, ?_, hstore k hloose⟩
        rw [hjobs, OrdDict.get?_insert, if_pos rfl]
  · rw [hstale, hcounter]
    exact h.stale.trans (Nat.le_succ _)
  · intro job status' hjob
    rw [hstale, hcounter]
    rw [hjobs, OrdDict.get?_insert] at hjob
    split at hjob
    · next heq =>
      rw [heq]
      exact ⟨h.stale, Nat.lt_succ_self _⟩
    · obtain ⟨hlow, hhigh⟩ := h.known job status' hjob
      exact ⟨hlow, hhigh.trans (Nat.lt_succ_self _)⟩

theorem Awaited.watch (h : Awaited loose landed c) (job : JobId) (blockIds : List BlockId) :
    Awaited loose landed (c.watch job blockIds) := by
  obtain ⟨pending, hpending⟩ := watch_eq c job blockIds
  rw [hpending]
  exact h.congr rfl rfl rfl rfl

/-- A lifecycle waits for what its store puts in flight and for what is in flight already. -/
theorem Awaited.addPending (h : Awaited loose [] c) (id : String) (keys : List κ) :
    Yields (fun c' => ∃ offload, c' = { c with offload := offload } ∧ Awaited loose [] c')
      (c.run (.addPending id keys)) := by
  refine (run_returns (P := fun offload => offload.registry.WF ∧
    (∀ k, offload.registry.status k = c.offload.registry.status k) ∧
    ∀ id' later, offload.registry.records.get? id' = some later →
      ∃ record, c.offload.registry.records.get? id' = some record ∧
        later.terminalAt = record.terminalAt ∧
        (later.terminalAt.isSome = true → later.pendingRetention = record.pendingRetention) ∧
        ∀ k ∈ later.pendingRetention, k ∈ record.pendingRetention ∨
          c.offload.registry.status k = some false)
    (OffloadState.step_addPending h.wf id keys)).mono ?_
  rintro c' ⟨offload, hc', hwf, hstatus, hrecords⟩
  subst hc'
  refine ⟨offload, rfl, hwf, ?_, ?_, ?_, h.stale, h.known⟩
  · intro id' later hlater hterminal
    obtain ⟨record, hrecord, hsame, hpending, -⟩ := hrecords id' later hlater
    rw [hpending hterminal]
    exact h.ended id' record hrecord (hsame ▸ hterminal)
  · intro id' later hlater k hk
    obtain ⟨record, hrecord, -, -, hpending⟩ := hrecords id' later hlater
    dsimp only
    rw [hstatus]
    cases hpending k hk with
    | inl hold => exact h.pending id' record hrecord k hold
    | inr hflight => exact .inl hflight
  · intro k hk
    dsimp only at hk
    rw [hstatus] at hk
    exact h.stored k hk

/-- A store that is given up drops the loose keys again. -/
theorem Awaited.dropLoose (h : Awaited loose [] c)
    (hloose : ∀ id record, c.offload.registry.records.get? id = some record →
      ∀ k ∈ record.pendingRetention, k ∉ loose) :
    Yields (Awaited [] []) (c.run (.completeStore loose false)) := by
  refine (run_returns (P := fun offload => offload.registry.WF ∧
    offload.registry.records = c.offload.registry.records ∧ ∀ k, offload.registry.status k =
      OffloadState.landed loose false k (c.offload.registry.status k))
    (OffloadState.step_completeStore h.wf loose false)).mono ?_
  rintro c' ⟨offload, hc', hwf, hrecords, hstatus⟩
  subst hc'
  have hkept : ∀ k, k ∉ loose → offload.registry.status k = c.offload.registry.status k := by
    intro k hk
    rw [hstatus]
    simp [OffloadState.landed, hk]
  refine ⟨hwf, ?_, ?_, ?_, h.stale, h.known⟩
  · intro id record hrecord
    rw [hrecords] at hrecord
    exact h.ended id record hrecord
  · intro id record hrecord k hk
    dsimp only at hrecord ⊢
    rw [hrecords] at hrecord
    rw [hkept k (hloose id record hrecord k hk)]
    exact h.pending id record hrecord k hk
  · intro k hk
    dsimp only at hk
    by_cases hmem : k ∈ loose
    · rw [hstatus] at hk
      by_cases hflight : c.offload.registry.status k = some false
      · simp [OffloadState.landed, hmem, hflight] at hk
      · simp [OffloadState.landed, hmem, hflight] at hk
    · rw [hkept k hmem] at hk
      exact .inl ((h.stored k hk).resolve_right hmem)

theorem Awaited.addDetached {output : PrepareStoreOutput κ}
    (h : Awaited output.keysToStore [] c) (selection : Selection κ) :
    Awaited [] [] (c.addDetached selection output) := by
  refine Awaited.watch ?_ _ _
  exact h.insert (fun k hk => ⟨rfl, hk⟩) rfl rfl rfl rfl

theorem Awaited.registerStore (h : Awaited [] [] c) (selection : Selection κ) :
    Yields (fun out => Awaited [] [] out.1) (c.registerStore selection) := by
  refine Ensures.bind (h.prepareStore _) ?_
  rintro ⟨c₁, prepared⟩ ⟨hoffload, h₁, hspared⟩
  dsimp only at h₁ hspared ⊢
  split
  · exact Ensures.ok h₁
  · next output =>
    refine Ensures.bind (h₁.run rfl) ?_
    rintro c₂ ⟨offload, hc₂, hquiet, h₂⟩
    have hspared₂ : ∀ id record, c₂.offload.registry.records.get? id = some record →
        ∀ k ∈ record.pendingRetention, k ∉ output.keysToStore := by
      intro id later hlater k hk
      subst hc₂
      obtain ⟨record, hrecord, hold⟩ := hquiet.mem_pending hlater hk
      exact hspared output rfl id record hrecord k hold
    split
    · refine Ensures.bind (h₂.addPending _ _) ?_
      rintro c₃ ⟨_, _, h₃⟩
      split
      · next hempty =>
        refine Ensures.ok ?_
        rw [Option.map_some, Option.getD_some, List.isEmpty_iff.mp hempty] at h₃
        exact h₃
      · exact Ensures.ok (h₃.addDetached selection)
    · exact Ensures.bind (h₂.dropLoose hspared₂) fun c₃ h₃ => Ensures.ok h₃

theorem Awaited.evaluatePending (h : Awaited [] [] c) (selections : List (Selection κ)) :
    Yields (Awaited [] []) (c.evaluatePending selections) := by
  refine Ensures.foldlM (I := fun _ => Awaited [] []) ?_ selections c h
  intro selection _ c₁ h₁
  exact (h₁.registerStore selection).map fun _ h => h

theorem Awaited.storeRequest (h : Awaited [] [] c) (reqId : String)
    (status : RequestOffloadState κ) (plan : StorePlan κ) (stores : OrdDict JobId TransferJob) :
    Yields (fun out => Awaited [] [] out.1) (c.storeRequest reqId status plan stores) := by
  unfold TokenCakeOffloadingScheduler.storeRequest
  split
  · exact Ensures.ok h
  · refine Ensures.bind (h.prepareStore _) ?_
    rintro ⟨c₁, prepared⟩ ⟨hoffload, h₁, hspared⟩
    dsimp only at h₁ ⊢
    split
    · exact Ensures.ok h₁
    · next output =>
      rw [Option.map_some, Option.getD_some] at h₁
      split
      · next hempty =>
        rw [List.isEmpty_iff.mp hempty] at h₁
        exact Ensures.ok h₁
      · refine Ensures.bind (h₁.run rfl) ?_
        rintro c₂ ⟨_, _, _, h₂⟩
        refine Ensures.bind (yields_true _) ?_
        intro _ _
        refine Ensures.ok (Awaited.watch ?_ _ _)
        exact h₂.insert (fun k hk => ⟨rfl, hk⟩) rfl rfl rfl rfl

/-! ## Requests -/

theorem Awaited.getNumNewMatchedTokens (h : Awaited [] [] c) (reqId : String)
    (offloadKeys : List (List κ)) (tokens : ℕ) (lookups touched : List κ) :
    Yields (Awaited [] []) (c.getNumNewMatchedTokens reqId offloadKeys tokens lookups touched) := by
  unfold TokenCakeOffloadingScheduler.getNumNewMatchedTokens
  refine Ensures.bind (Ensures.foldlM (I := fun _ => Awaited [] []) ?_ lookups _
    (h.congr rfl rfl rfl rfl)) ?_
  · intro key _ c₁ h₁
    exact (h₁.run rfl).mono fun c₂ ⟨_, _, _, h₂⟩ => h₂
  · intro c₁ h₁
    exact (h₁.run rfl).mono fun c₂ ⟨_, _, _, h₂⟩ => h₂

theorem Awaited.prepareLoad (h : Awaited [] [] c) (keys : List κ) :
    Yields (fun out => Awaited [] [] out.1) (c.prepareLoad keys) := by
  refine Ensures.bind (call_returns (OffloadState.step_quiet h.wf (.prepareLoad keys) rfl)) ?_
  rintro ⟨c₁, answer⟩ ⟨offload, hc₁, hquiet⟩
  dsimp only at hc₁ ⊢
  split
  · exact Ensures.ok (hc₁ ▸ h.quiet hquiet)
  · exact Ensures.error trivial

theorem Awaited.updateStateAfterAlloc (h : Awaited [] [] c) (reqId : String)
    (blocks : List (List KVBlock)) (external : ℕ) :
    Yields (Awaited [] []) (c.updateStateAfterAlloc reqId blocks external) := by
  unfold TokenCakeOffloadingScheduler.updateStateAfterAlloc
  split
  · exact Ensures.ok h
  · split
    · exact Ensures.error trivial
    · refine Ensures.bind (yields_true _) ?_
      intro groups _
      have hfence : Awaited [] [] (c.fence (groups.flatMap (·.dstBlockIds))) :=
        h.congr rfl rfl rfl rfl
      refine Ensures.bind (hfence.prepareLoad _) ?_
      rintro ⟨c₁, src⟩ h₁
      dsimp only at h₁ ⊢
      split
      · exact Ensures.ok (h₁.insert (fun k hk => absurd hk List.not_mem_nil) rfl rfl rfl rfl)
      · exact Ensures.error trivial

theorem Awaited.flushPreempted (h : Awaited [] [] c) (reqId : String) :
    Yields (Awaited [] []) (c.flushPreempted reqId) := by
  unfold TokenCakeOffloadingScheduler.flushPreempted
  split
  · exact Ensures.ok h
  · refine Ensures.bind (yields_true _) ?_
    intro _ _
    exact Ensures.ok (h.congr rfl rfl rfl rfl)

theorem Awaited.flushFinished (h : Awaited [] [] c) : Awaited [] [] c.flushFinished := by
  unfold TokenCakeOffloadingScheduler.flushFinished
  split
  · exact h.congr rfl rfl rfl rfl
  · exact h

theorem Awaited.buildStoreJobs (h : Awaited [] [] c) (scheduled : List (ScheduledRequest κ)) :
    Yields (fun out => Awaited [] [] out.1) (c.buildStoreJobs scheduled) := by
  refine Ensures.foldlM (I := fun _ out => Awaited [] [] out.1) ?_ scheduled
    ((c, OrdDict.empty) : _ × OrdDict JobId TransferJob) h
  rintro r _ ⟨c₁, stores⟩ h₁
  have hfence : Awaited [] [] (c₁.fence r.newBlocks) := h₁.congr rfl rfl rfl rfl
  unfold buildStoreJob
  split
  · exact Ensures.error trivial
  · next status _ =>
    split
    · exact Ensures.ok hfence
    · next plan _ => exact hfence.storeRequest r.reqId status plan stores

theorem Awaited.buildConnectorMeta (h : Awaited [] [] c) (input : ConnectorInput κ) :
    Yields (fun out => Awaited [] [] out.1) (c.buildConnectorMeta input) := by
  unfold TokenCakeOffloadingScheduler.buildConnectorMeta
  dsimp only
  split
  · exact Ensures.error trivial
  · refine Ensures.bind (P := fun out => Awaited [] [] out.1) ?_ fun out h => Ensures.ok h
    refine Ensures.bind (Ensures.foldlM (I := fun _ => Awaited [] [])
      (fun reqId _ c₁ h₁ => h₁.flushPreempted reqId) input.preemptedReqIds _
      (h.congr rfl rfl rfl rfl)) ?_
    intro c₁ h₁
    refine Ensures.bind (h₁.flushFinished.buildStoreJobs input.scheduled) ?_
    rintro ⟨c₂, stores⟩ h₂
    exact Ensures.ok (h₂.congr rfl rfl rfl rfl)

theorem Awaited.requestFinished (h : Awaited [] [] c) (reqId : String) :
    Yields (Awaited [] []) (c.requestFinished reqId) := by
  unfold TokenCakeOffloadingScheduler.requestFinished
  split
  · exact Ensures.ok h
  · split
    · exact Ensures.ok (h.congr rfl rfl rfl rfl)
    · refine Ensures.foldlM (I := fun _ => Awaited [] []) ?_ _ _ (h.congr rfl rfl rfl rfl)
      intro job _ c₁ h₁
      split
      · exact Ensures.error trivial
      · exact Ensures.ok (h₁.watch _ _)

/-- A reset leaves nothing in flight and nothing to wait for. -/
theorem Awaited.resetCache (h : Awaited [] [] c) (now : ℚ) :
    Yields (Awaited [] []) (c.resetCache now) := by
  have hreset : Returns (fun out => out.1.registry.WF ∧ (∀ k, out.1.registry.status k = none) ∧
      ∀ id later, out.1.registry.records.get? id = some later → later.pendingRetention = [])
      (c.offload.step (.resetCache now)) := by
    simp only [OffloadState.step, OffloadState.onManager]
    cases hm : c.offload.registry.manager with
    | none => exact Ensures.error trivial
    | some m =>
        have hcleared : ({ c.offload.registry with manager := some m.resetCache }).WF := by
          intro m₁ hm₁
          exact Option.some.inj hm₁ ▸ CachePolicy.wf_clear _
        refine Ensures.bind_ok rfl ?_
        refine Ensures.map (externalResetSucceeded_returns hcleared h.ended now) ?_
        rintro r ⟨hwf, hstatus, hrecords⟩
        exact ⟨hwf, fun k => (hstatus k).trans (status_resetCache m k), hrecords⟩
  unfold TokenCakeOffloadingScheduler.resetCache
  split
  · exact Ensures.error trivial
  · refine Ensures.bind (run_returns (P := fun offload => offload.registry.WF ∧
      (∀ k, offload.registry.status k = none) ∧ ∀ id later,
        offload.registry.records.get? id = some later → later.pendingRetention = []) hreset) ?_
    rintro c₁ ⟨offload, hc₁, hwf, hstatus, hrecords⟩
    subst hc₁
    refine Ensures.ok ⟨hwf, ?_, ?_, ?_, le_refl _, ?_⟩
    · exact fun id record hrecord _ => hrecords id record hrecord
    · intro id record hrecord k hk
      rw [hrecords id record hrecord] at hk
      cases hk
    · intro k hk
      dsimp only at hk
      rw [hstatus] at hk
      cases hk
    · intro job status hjob
      cases hjob

end TokenCakeOffloadingScheduler

end TokenCake.Offload
