import TokenCake.Verification.Awaited.Stores

/-! # No key that a record waits for is forgotten

A report completes stores of both kinds. The keys of the completed ones are ready when the
loop over the records begins, so each record that still owns its preservation retains those
it waited for. -/

namespace TokenCake.Offload.TokenCakeOffloadingScheduler

open LifecycleRegistry CPUOffloadingManager

variable {κ σ : Type} [DecidableEq κ]
variable {c c' : TokenCakeOffloadingScheduler κ σ} {landed : List κ} {k : κ}

/-! ## The keys of completed stores -/

/-- A store of `k` completes with the reports of its last workers. -/
def Completes (c : TokenCakeOffloadingScheduler κ σ) (completed : List (JobId × ℕ)) (k : κ) :
    Prop :=
  ∃ p ∈ completed, ∃ status, c.jobs.get? p.1 = some status ∧ status.isStore = true ∧
    status.pendingCount = p.2 ∧ k ∈ status.keys

omit [DecidableEq κ] in
theorem Completes.congr {completed : List (JobId × ℕ)} (h : Completes c completed k)
    (hjobs : ∀ p ∈ completed, c'.jobs.get? p.1 = c.jobs.get? p.1) : Completes c' completed k := by
  obtain ⟨p, hp, status, hstatus, hrest⟩ := h
  exact ⟨p, hp, status, (hjobs p hp).trans hstatus, hrest⟩

omit [DecidableEq κ] in
theorem Completes.mono {completed completed' : List (JobId × ℕ)} (h : Completes c completed k)
    (hsub : completed ⊆ completed') : Completes c completed' k := by
  obtain ⟨p, hp, hrest⟩ := h
  exact ⟨p, hsub hp, hrest⟩

omit [DecidableEq κ] in
theorem completes_append {completed completed' : List (JobId × ℕ)} :
    Completes c (completed ++ completed') k ↔
      Completes c completed k ∨ Completes c completed' k := by
  simp only [Completes, List.mem_append, or_and_right, exists_or]

omit [DecidableEq κ] in
theorem completes_singleton {job : JobId} {count : ℕ} :
    Completes c [(job, count)] k ↔ ∃ status, c.jobs.get? job = some status ∧
      status.isStore = true ∧ status.pendingCount = count ∧ k ∈ status.keys := by
  simp [Completes]

omit [DecidableEq κ] in
theorem completes_cons {p : JobId × ℕ} {rest : List (JobId × ℕ)} :
    Completes c (p :: rest) k ↔ Completes c [p] k ∨ Completes c rest k := by
  simp [Completes]

/-- The landed keys grow. -/
theorem Awaited.mono {landed' : List κ} (h : Awaited [] landed c) (hsub : landed ⊆ landed') :
    Awaited [] landed' c :=
  ⟨h.wf, h.ended, fun id record hrecord k hk =>
    (h.pending id record hrecord k hk).imp_right fun hl => ⟨hsub hl.1, hl.2⟩, h.stored, h.stale,
    h.known⟩

/-- A worker reports a job that others have not completed. -/
theorem Awaited.modifyJob (h : Awaited [] landed c) (job count : ℕ) :
    Awaited [] landed { c with jobs := c.jobs.modify job fun status =>
      { status with pendingCount := status.pendingCount - count } } := by
  refine ⟨h.wf, h.ended, h.pending, fun k hk => .inl ?_, h.stale, fun job' status hjob => ?_⟩
  · obtain ⟨job', status, hjob, hstore, hmem⟩ :=
      (h.stored k hk).resolve_right List.not_mem_nil
    by_cases heq : job' = job
    · refine ⟨job', { status with pendingCount := status.pendingCount - count }, ?_, hstore, hmem⟩
      rw [OrdDict.get?_modify, if_pos heq, hjob, Option.map_some]
    · refine ⟨job', status, ?_, hstore, hmem⟩
      rw [OrdDict.get?_modify, if_neg heq, hjob]
  · dsimp only at hjob
    rw [OrdDict.get?_modify] at hjob
    split at hjob
    · obtain ⟨old, hold, -⟩ := Option.map_eq_some_iff.mp hjob
      exact h.known job' old hold
    · exact h.known job' status hjob

/-- What a job leaves behind when it is forgotten: a load has no key in flight, and the keys
of a store have landed. -/
theorem Awaited.eraseJob (h : Awaited [] landed c) {job : JobId}
    (hoffload : c'.offload = c.offload) (hjobs : c'.jobs = c.jobs.erase job)
    (hcounter : c'.jobCounter = c.jobCounter)
    (hstale : c'.staleJobThreshold = c.staleJobThreshold)
    (hdone : ∀ status, c.jobs.get? job = some status → status.isStore = true →
      ∀ k ∈ status.keys, c.offload.registry.status k ≠ some false) :
    Awaited [] landed c' := by
  refine ⟨hoffload ▸ h.wf, hoffload ▸ h.ended, hoffload ▸ h.pending, ?_, ?_, ?_⟩
  · intro k hk
    rw [hoffload] at hk
    obtain ⟨job', status, hjob, hstore, hmem⟩ :=
      (h.stored k hk).resolve_right List.not_mem_nil
    have hne : job' ≠ job := by
      intro heq
      exact hdone status (heq ▸ hjob) hstore k hmem hk
    refine .inl ⟨job', status, ?_, hstore, hmem⟩
    rw [hjobs, OrdDict.get?_erase, if_neg hne, hjob]
  · rw [hstale, hcounter]
    exact h.stale
  · intro job' status hjob
    rw [hstale, hcounter]
    rw [hjobs, OrdDict.get?_erase] at hjob
    split at hjob
    · cases hjob
    · exact h.known job' status hjob

/-- The keys of a store become ready. -/
theorem Awaited.completeStore (h : Awaited [] landed c) (keys : List κ) :
    Yields (fun c' => ∃ offload, c' = { c with offload := offload } ∧
        Awaited [] (landed ++ keys) c' ∧
        offload.registry.records = c.offload.registry.records ∧
        (∀ k ∈ keys, offload.registry.status k ≠ some false) ∧
        ∀ k, c.offload.registry.status k ≠ some false → offload.registry.status k ≠ some false)
      (c.run (.completeStore keys true)) := by
  refine (run_returns (P := fun offload => offload.registry.WF ∧
    offload.registry.records = c.offload.registry.records ∧ ∀ k, offload.registry.status k =
      OffloadState.landed keys true k (c.offload.registry.status k))
    (OffloadState.step_completeStore h.wf keys true)).mono ?_
  rintro c' ⟨offload, hc', hwf, hrecords, hstatus⟩
  subst hc'
  have hready : ∀ k, c.offload.registry.status k = some true →
      offload.registry.status k = some true := by
    intro k hk
    rw [hstatus]
    simp [OffloadState.landed, hk]
  have hlanded : ∀ k ∈ keys, offload.registry.status k ≠ some false := by
    intro k hk
    rw [hstatus]
    cases c.offload.registry.status k <;> simp [OffloadState.landed, hk]
  refine ⟨offload, rfl, ⟨hwf, ?_, ?_, ?_, h.stale, h.known⟩, hrecords, hlanded, ?_⟩
  · intro id record hrecord
    rw [hrecords] at hrecord
    exact h.ended id record hrecord
  · intro id record hrecord k hk
    dsimp only at hrecord ⊢
    rw [hrecords] at hrecord
    cases h.pending id record hrecord k hk with
    | inl hflight =>
        by_cases hmem : k ∈ keys
        · refine .inr ⟨List.mem_append_right _ hmem, ?_⟩
          rw [hstatus]
          simp [OffloadState.landed, hmem, hflight]
        · refine .inl ?_
          rw [hstatus]
          simp [OffloadState.landed, hmem, hflight]
    | inr hl => exact .inr ⟨List.mem_append_left _ hl.1, hready k hl.2⟩
  · intro k hk
    have hmem : k ∉ keys := fun hmem => hlanded k hmem hk
    dsimp only at hk
    rw [hstatus] at hk
    simp only [OffloadState.landed, if_true, hmem, if_false] at hk
    exact h.stored k hk
  · intro k hk hflight
    have hmem : k ∉ keys := fun hmem => hlanded k hmem hflight
    rw [hstatus] at hflight
    simp only [OffloadState.landed, if_true, hmem, if_false] at hflight
    exact hk hflight

/-! ## Reports of detached stores -/

/-- The loop over the reports: `rest` has not been looked at, the ordinary jobs are left to
the native connector. -/
structure Reporting (c₀ : TokenCakeOffloadingScheduler κ σ) (completed rest : List (JobId × ℕ))
    (out : TokenCakeOffloadingScheduler κ σ × Completion κ) : Prop where
  awaited : Awaited [] out.2.keys out.1
  records : out.1.offload.registry.records = c₀.offload.registry.records
  found : ∀ k, Completes c₀ completed k → k ∈ out.2.keys ∨ Completes out.1 rest k
  landed : ∀ k ∈ out.2.keys, out.1.offload.registry.status k ≠ some false ∨
    Completes out.1 out.2.ordinary k
  predicted : ∀ k, Completes out.1 out.2.ordinary k → k ∈ out.2.keys
  nodup : ((out.2.ordinary ++ rest).map Prod.fst).Nodup

theorem completeDetached_reporting {c₀ : TokenCakeOffloadingScheduler κ σ}
    {completed rest : List (JobId × ℕ)} {p : JobId × ℕ}
    {out : TokenCakeOffloadingScheduler κ σ × Completion κ}
    (h : Reporting c₀ completed (p :: rest) out) :
    Yields (Reporting c₀ completed rest) (completeDetached out p) := by
  obtain ⟨c, done⟩ := out
  obtain ⟨job, count⟩ := p
  have hne : ∀ q ∈ done.ordinary ++ rest, q.1 ≠ job := by
    intro q hq heq
    have hnodup := h.nodup
    rw [List.map_append, List.map_cons, List.nodup_middle, List.nodup_cons,
      ← List.map_append] at hnodup
    exact hnodup.1 (List.mem_map.mpr ⟨q, hq, heq⟩)
  have hnodup : ((done.ordinary ++ rest).map Prod.fst).Nodup := by
    have hnodup := h.nodup
    rw [List.map_append, List.map_cons, List.nodup_middle, List.nodup_cons,
      ← List.map_append] at hnodup
    exact hnodup.2
  unfold completeDetached
  dsimp only
  split
  · -- the job belongs to the native connector
    have hkeys : ∀ k, Completes c [(job, count)] k → ∃ job', c.jobs.get? job = some job' ∧
        (job'.isStore && decide (job'.pendingCount = count)) = true ∧ k ∈ job'.keys := by
      intro k hjob
      obtain ⟨job', hstatus, hstore, hcount, hmem⟩ := completes_singleton.mp hjob
      exact ⟨job', hstatus, by simp [hstore, hcount], hmem⟩
    refine Ensures.ok ⟨h.awaited.mono (List.subset_append_left _ _), h.records, ?_, ?_, ?_, ?_⟩
    · intro k hk
      dsimp only
      cases h.found k hk with
      | inl hmem => exact .inl (List.mem_append_left _ hmem)
      | inr hrest =>
          cases completes_cons.mp hrest with
          | inl hjob =>
              obtain ⟨job', hstatus, hlast, hmem⟩ := hkeys k hjob
              rw [hstatus]
              exact .inl (List.mem_append_right _ (by simpa [hlast] using hmem))
          | inr hrest => exact .inr hrest
    · intro k hk
      dsimp only at hk ⊢
      cases List.mem_append.mp hk with
      | inl hold =>
          exact (h.landed k hold).imp_right fun hc => hc.mono (List.subset_append_left _ _)
      | inr hnew =>
          refine .inr (completes_append.mpr (.inr (completes_singleton.mpr ?_)))
          split at hnew
          · next status hstatus =>
            split at hnew
            · next hcompletes =>
              rw [Bool.and_eq_true, decide_eq_true_eq] at hcompletes
              exact ⟨status, hstatus, hcompletes.1, hcompletes.2, hnew⟩
            · cases hnew
          · cases hnew
    · intro k hk
      cases completes_append.mp hk with
      | inl hold => exact List.mem_append_left _ (h.predicted k hold)
      | inr hjob =>
          obtain ⟨job', hstatus, hlast, hmem⟩ := hkeys k hjob
          dsimp only
          rw [hstatus]
          exact List.mem_append_right _ (by simpa [hlast] using hmem)
    · simpa using h.nodup
  · split
    · exact Ensures.error trivial
    · next status hstatus =>
      split
      · exact Ensures.error trivial
      · split
        · next hpartial =>
          -- other workers have to report the job, too
          have hkept : ∀ q : JobId × ℕ, q.1 ≠ job →
              (c.jobs.modify job fun status => { status with
                pendingCount := status.pendingCount - count }).get? q.1 = c.jobs.get? q.1 :=
            fun q hq => (OrdDict.get?_modify ..).trans (if_neg hq)
          refine Ensures.ok ⟨h.awaited.modifyJob job count, h.records, ?_, ?_, ?_, hnodup⟩
          · intro k hk
            refine (h.found k hk).imp_right fun hrest => ?_
            cases completes_cons.mp hrest with
            | inl hjob =>
                obtain ⟨status', hstatus', -, hcount, -⟩ := completes_singleton.mp hjob
                obtain rfl := Option.some.inj (hstatus.symm.trans hstatus')
                exact absurd hcount hpartial
            | inr hrest =>
                exact hrest.congr fun q hq => hkept q (hne q (List.mem_append_right _ hq))
          · intro k hk
            refine (h.landed k hk).imp_right fun hc => ?_
            exact hc.congr fun q hq => hkept q (hne q (List.mem_append_left _ hq))
          · intro k hk
            refine h.predicted k (hk.congr fun q hq => ?_)
            exact (hkept q (hne q (List.mem_append_left _ hq))).symm
        · next hlast =>
          refine Ensures.bind (h.awaited.completeStore status.keys) ?_
          rintro c₁ ⟨offload, hc₁, h₁, hrecords, hlanded, hstays⟩
          subst hc₁
          refine Ensures.bind (removePendingJob_spec _ job _) ?_
          rintro c₂ ⟨⟨pending, hc₂⟩, _⟩
          subst hc₂
          have hkept : ∀ q : JobId × ℕ, q.1 ≠ job →
              (c.jobs.erase job).get? q.1 = c.jobs.get? q.1 :=
            fun q hq => (OrdDict.get?_erase ..).trans (if_neg hq)
          refine Ensures.ok ⟨h₁.eraseJob rfl rfl rfl rfl ?_, hrecords.trans h.records, ?_, ?_,
            ?_, hnodup⟩
          · intro status' hstatus' _ k hk
            obtain rfl := Option.some.inj (hstatus.symm.trans hstatus')
            exact hlanded k hk
          · intro k hk
            dsimp only
            cases h.found k hk with
            | inl hmem => exact .inl (List.mem_append_left _ hmem)
            | inr hrest =>
                cases completes_cons.mp hrest with
                | inl hjob =>
                    obtain ⟨status', hstatus', -, -, hmem⟩ := completes_singleton.mp hjob
                    obtain rfl := Option.some.inj (hstatus.symm.trans hstatus')
                    exact .inl (List.mem_append_right _ hmem)
                | inr hrest =>
                    exact .inr (hrest.congr fun q hq =>
                      hkept q (hne q (List.mem_append_right _ hq)))
          · intro k hk
            dsimp only at hk ⊢
            cases List.mem_append.mp hk with
            | inl hold =>
                cases h.landed k hold with
                | inl hready => exact .inl (hstays k hready)
                | inr hc =>
                    exact .inr (hc.congr fun q hq => hkept q (hne q (List.mem_append_left _ hq)))
            | inr hnew => exact .inl (hlanded k hnew)

          · intro k hk
            refine List.mem_append_left _ (h.predicted k (hk.congr fun q hq => ?_))
            exact (hkept q (hne q (List.mem_append_left _ hq))).symm

/-! ## Reports of native jobs -/

/-- The loop of the native connector: `rest` has not been looked at. -/
structure Landing (c₀ : TokenCakeOffloadingScheduler κ σ) (keys : List κ)
    (rest : List (JobId × ℕ)) (c : TokenCakeOffloadingScheduler κ σ) : Prop where
  awaited : Awaited [] keys c
  records : c.offload.registry.records = c₀.offload.registry.records
  landed : ∀ k ∈ keys, c.offload.registry.status k ≠ some false ∨ Completes c rest k
  predicted : ∀ k, Completes c rest k → k ∈ keys
  nodup : (rest.map Prod.fst).Nodup

/-- The reported job is none of those that remain. -/
theorem Landing.tail {c₀ : TokenCakeOffloadingScheduler κ σ} {keys : List κ} {job : JobId}
    {count : ℕ} {rest : List (JobId × ℕ)} (h : Landing c₀ keys ((job, count) :: rest) c)
    (hawaited : Awaited [] keys c')
    (hrecords : c'.offload.registry.records = c.offload.registry.records)
    (hjobs : ∀ job', job' ≠ job → c'.jobs.get? job' = c.jobs.get? job')
    (hstays : ∀ k, c.offload.registry.status k ≠ some false →
      c'.offload.registry.status k ≠ some false)
    (hdone : ∀ k, Completes c [(job, count)] k → c'.offload.registry.status k ≠ some false) :
    Landing c₀ keys rest c' := by
  obtain ⟨hnot, hnodup⟩ := List.nodup_cons.mp (List.map_cons ▸ h.nodup)
  have hkept : ∀ q ∈ rest, c'.jobs.get? q.1 = c.jobs.get? q.1 := by
    intro q hq
    exact hjobs q.1 fun heq => hnot (List.mem_map.mpr ⟨q, hq, heq⟩)
  refine ⟨hawaited, hrecords.trans h.records, ?_, ?_, hnodup⟩
  · intro k hk
    cases h.landed k hk with
    | inl hready => exact .inl (hstays k hready)
    | inr hc =>
        cases completes_cons.mp hc with
        | inl hjob => exact .inl (hdone k hjob)
        | inr hrest => exact .inr (hrest.congr hkept)
  · intro k hk
    refine h.predicted k (completes_cons.mpr (.inr (hk.congr fun q hq => ?_)))
    exact (hkept q hq).symm

omit [DecidableEq κ] in
/-- The fences and the request of a completed job. -/
theorem dropTransferJob_spec (c : TokenCakeOffloadingScheduler κ σ) (job : JobId)
    (status : TransferJobStatus κ) (request : RequestOffloadState κ) :
    Yields (fun c' => ∃ pending reqStatus, c' = { c with
        blockIdToPendingJobs := pending, reqStatus := reqStatus, jobs := c.jobs.erase job })
      (c.unwatch job request.finished status >>= fun c =>
        c.dropTransferJob status.reqId request job) := by
  have hunwatch : Yields (fun c' => ∃ pending, c' = { c with blockIdToPendingJobs := pending })
      (c.unwatch job request.finished status) := by
    unfold unwatch
    split
    · exact Ensures.ok ⟨_, rfl⟩
    · refine Ensures.bind (removePendingJob_spec c job _) ?_
      rintro c₁ ⟨⟨pending, hc₁⟩, _⟩
      subst hc₁
      split
      · refine (removePendingJob_spec _ job _).mono ?_
        rintro c₂ ⟨⟨pending', hc₂⟩, _⟩
        exact ⟨pending', hc₂⟩
      · exact Ensures.ok ⟨pending, rfl⟩
  refine Ensures.bind hunwatch ?_
  rintro c₁ ⟨pending, hc₁⟩
  subst hc₁
  unfold dropTransferJob
  split
  · exact Ensures.ok ⟨pending, _, rfl⟩
  · exact Ensures.error trivial

theorem completeNative_landing {c₀ : TokenCakeOffloadingScheduler κ σ} {keys : List κ}
    {p : JobId × ℕ} {rest : List (JobId × ℕ)} (h : Landing c₀ keys (p :: rest) c) :
    Yields (Landing c₀ keys rest) (c.completeNative p) := by
  obtain ⟨job, count⟩ := p
  unfold completeNative
  dsimp only
  split
  · exact Ensures.error trivial
  · split
    · next hstale =>
      -- a job from before the last reset
      refine Ensures.ok (h.tail h.awaited rfl (fun _ _ => rfl) (fun _ hk => hk) ?_)
      intro k hjob
      obtain ⟨status, hstatus, -⟩ := completes_singleton.mp hjob
      have hknown := (h.awaited.known job status hstatus).1
      exact absurd hknown (Nat.not_le_of_lt hstale)
    · split
      · exact Ensures.error trivial
      · next status hstatus =>
        split
        · exact Ensures.error trivial
        · split
          · next hpartial =>
            refine Ensures.ok (h.tail (h.awaited.modifyJob job count) rfl ?_ (fun _ hk => hk) ?_)
            · exact fun job' hne => (OrdDict.get?_modify ..).trans (if_neg hne)
            · intro k hjob
              obtain ⟨status', hstatus', -, hcount, -⟩ := completes_singleton.mp hjob
              obtain rfl := Option.some.inj (hstatus.symm.trans hstatus')
              exact absurd hcount hpartial
          · next hlast =>
            have hcount : status.pendingCount = count := not_not.mp hlast
            split
            · exact Ensures.error trivial
            · next request _ =>
              by_cases hstore : status.isStore = true
              · -- the keys of a store were predicted before the loop
                rw [if_pos hstore]
                have hkeys : ∀ k ∈ status.keys, k ∈ keys := fun k hk => h.predicted k
                  (completes_cons.mpr (.inl (completes_singleton.mpr
                    ⟨status, hstatus, hstore, hcount, hk⟩)))
                refine Ensures.bind (h.awaited.completeStore status.keys) ?_
                rintro c₁ ⟨offload, hc₁, h₁, hrecords, hlanded, hstays⟩
                subst hc₁
                refine (dropTransferJob_spec _ job status request).mono ?_
                rintro c₂ ⟨pending, reqStatus, hc₂⟩
                subst hc₂
                have h₁' := h₁.mono (List.append_subset.mpr ⟨List.Subset.refl _, hkeys⟩)
                refine h.tail (h₁'.eraseJob rfl rfl rfl rfl ?_) hrecords ?_ hstays ?_
                · intro status' hstatus' _ k hk
                  obtain rfl := Option.some.inj (hstatus.symm.trans hstatus')
                  exact hlanded k hk
                · exact fun job' hne => (OrdDict.get?_erase ..).trans (if_neg hne)
                · intro k hjob
                  obtain ⟨status', hstatus', -, -, hmem⟩ := completes_singleton.mp hjob
                  obtain rfl := Option.some.inj (hstatus.symm.trans hstatus')
                  exact hlanded k hmem
              · rw [if_neg hstore]
                refine Ensures.bind (run_returns (P := fun offload =>
                  Quiet c.offload.registry offload.registry ∧
                  offload.registry.records = c.offload.registry.records)
                  (OffloadState.step_completeLoad h.awaited.wf status.keys)) ?_
                rintro c₁ ⟨offload, hc₁, hquiet, hrecords⟩
                subst hc₁
                refine (dropTransferJob_spec _ job status request).mono ?_
                rintro c₂ ⟨pending, reqStatus, hc₂⟩
                subst hc₂
                have hload : ∀ status', c.jobs.get? job = some status' →
                    status'.isStore ≠ true := by
                  intro status' hstatus'
                  exact Option.some.inj (hstatus.symm.trans hstatus') ▸ hstore
                refine h.tail ((h.awaited.quiet hquiet).eraseJob rfl rfl rfl rfl ?_) hrecords
                  ?_ ?_ ?_
                · exact fun status' hstatus' hstore' => absurd hstore' (hload status' hstatus')
                · exact fun job' hne => (OrdDict.get?_erase ..).trans (if_neg hne)
                · exact fun k hk => by rwa [← hquiet.status k] at hk
                · intro k hjob
                  obtain ⟨status', hstatus', hstore', -⟩ := completes_singleton.mp hjob
                  exact absurd hstore' (hload status' hstatus')

/-! ## The retention of the completed keys -/

/-- Nothing that completed is awaited; what the record waited for is retained while it owns
its preservation. -/
def Resolved (keys : List κ) (record later : Lifecycle κ σ) : Prop :=
  (∀ k ∈ keys, k ∉ later.pendingRetention) ∧
    (later.ownsPreservation = true →
      ∀ k ∈ keys, k ∈ record.pendingRetention → k ∈ later.retained)

omit [DecidableEq κ] in
theorem Resolved.later {keys : List κ} {record middle later : Lifecycle κ σ}
    (h : Resolved keys record middle) (hfades : Fades middle later)
    (hkeeps : Keeps middle later) : Resolved keys record later := by
  refine ⟨fun k hk hmem => ?_, fun howns k hk hpending => ?_⟩
  · cases hfades with
    | inl hnil =>
        rw [hnil] at hmem
        cases hmem
    | inr hsub => exact h.1 k hk (hsub.1 hmem)
  · obtain ⟨howns', hretained, -⟩ := hkeeps howns
    exact hretained (h.2 howns' k hk hpending)

/-- The loop over the records: those in `rest` have not been looked at. -/
structure Retaining (c₀ : TokenCakeOffloadingScheduler κ σ) (keys : List κ) (rest : List String)
    (c : TokenCakeOffloadingScheduler κ σ) : Prop where
  jobs : c.jobs = c₀.jobs ∧ c.jobCounter = c₀.jobCounter ∧
    c.staleJobThreshold = c₀.staleJobThreshold
  quiet : Quiet c₀.offload.registry c.offload.registry
  records : ∀ id later, c.offload.registry.records.get? id = some later →
    ∃ record, c₀.offload.registry.records.get? id = some record ∧
      (id ∈ rest → Fades record later ∧ Keeps record later) ∧
      (id ∉ rest → Resolved keys record later)

theorem Retaining.awaited {c₀ : TokenCakeOffloadingScheduler κ σ} {keys : List κ}
    (h : Retaining c₀ keys [] c) (h₀ : Awaited [] keys c₀) : Awaited [] [] c := by
  obtain ⟨hjobs, hcounter, hstale⟩ := h.jobs
  have hawaited : Awaited [] keys c :=
    (h₀.quiet h.quiet).congr rfl hjobs hcounter hstale
  refine ⟨hawaited.wf, hawaited.ended, fun id later hlater k hk => ?_, hawaited.stored,
    hawaited.stale, hawaited.known⟩
  cases hawaited.pending id later hlater k hk with
  | inl hflight => exact .inl hflight
  | inr hlanded =>
      obtain ⟨record, -, -, hresolved⟩ := h.records id later hlater
      exact absurd hk ((hresolved List.not_mem_nil).1 k hlanded.1)

theorem retainCompleted_retaining {c₀ : TokenCakeOffloadingScheduler κ σ} {keys : List κ}
    (hready : ∀ id record, c₀.offload.registry.records.get? id = some record →
      ∀ k ∈ record.pendingRetention, k ∈ keys → c₀.offload.registry.status k = some true)
    (retainedAt : String → ℚ) {identifier : String} {rest : List String}
    (hnot : identifier ∉ rest) (h : Retaining c₀ keys (identifier :: rest) c) :
    Yields (Retaining c₀ keys rest) (retainCompleted retainedAt keys c identifier) := by
  unfold retainCompleted
  split
  · next hnone =>
    refine Ensures.ok ⟨h.jobs, h.quiet, fun id later hlater => ?_⟩
    obtain ⟨record, hrecord, hwaiting, hresolved⟩ := h.records id later hlater
    have hne : id ≠ identifier := by
      intro heq
      rw [heq, hnone] at hlater
      cases hlater
    exact ⟨record, hrecord, fun hmem => hwaiting (List.mem_cons_of_mem _ hmem),
      fun hmem => hresolved (by simp [hne, hmem])⟩
  · next current hcurrent =>
    obtain ⟨record₀, hrecord₀, hwaiting₀, -⟩ := h.records identifier current hcurrent
    obtain ⟨hfades₀, hkeeps₀⟩ := hwaiting₀ (List.mem_cons_self ..)
    dsimp only
    split
    · next hempty =>
      -- the record waits for none of the keys
      refine Ensures.ok ⟨h.jobs, h.quiet, fun id later hlater => ?_⟩
      obtain ⟨record, hrecord, hwaiting, hresolved⟩ := h.records id later hlater
      refine ⟨record, hrecord, fun hmem => hwaiting (List.mem_cons_of_mem _ hmem), fun hmem => ?_⟩
      by_cases hid : id = identifier
      · subst hid
        obtain rfl := Option.some.inj (hcurrent.symm.trans hlater)
        obtain rfl := Option.some.inj (hrecord₀.symm.trans hrecord)
        have hnone : ∀ k ∈ keys, k ∉ current.pendingRetention := by
          intro k hk hpending
          have : k ∈ current.pendingRetention.filter (· ∈ keys) :=
            List.mem_filter.mpr ⟨hpending, by simpa using hk⟩
          rw [List.isEmpty_iff.mp hempty] at this
          cases this
        exact ⟨hnone, fun howns k hk hpending =>
          absurd ((hkeeps₀ howns).2.2 hpending) (hnone k hk)⟩
      · exact hresolved (by simp [hid, hmem])
    · refine Ensures.bind (run_returns (P := fun offload =>
        Expires c.offload.registry offload.registry ∧
        ∀ later, offload.registry.records.get? identifier = some later →
          later.ownsPreservation = true →
          ∀ k ∈ current.pendingRetention.filter (· ∈ keys),
            c.offload.registry.status k = some true → k ∈ later.retained)
        ((retainReady_returns h.quiet.wf _ _ _).map fun _ h => h)) ?_
      rintro c₁ ⟨offload, hc₁, hexpires, hretained⟩
      subst hc₁
      have hstep : Returns (fun out => out.1.registry = offload.registry.dropPending identifier
          (current.pendingRetention.filter (· ∈ keys)))
          (offload.step (.dropPending identifier
            (current.pendingRetention.filter (· ∈ keys)))) := by
        exact rfl
      refine (run_returns (P := fun offload' => offload'.registry =
        offload.registry.dropPending identifier (current.pendingRetention.filter (· ∈ keys)))
        hstep).mono ?_
      rintro c₂ ⟨offload', hc₂, hdrop⟩
      subst hc₂
      have hquiet : Quiet offload.registry offload'.registry :=
        hdrop ▸ dropPending_quiet hexpires.wf identifier _
      refine ⟨h.jobs, (h.quiet.trans hexpires.quiet).trans hquiet, fun id later hlater => ?_⟩
      dsimp only at hlater
      rw [hdrop, dropPending, get?_modifyRecord] at hlater
      by_cases hid : id = identifier
      · subst hid
        rw [if_pos rfl] at hlater
        obtain ⟨middle, hmiddle, rfl⟩ := Option.map_eq_some_iff.mp hlater
        obtain ⟨current', hcurrent', hfades, hkeeps⟩ := hexpires.records id middle hmiddle
        obtain rfl := Option.some.inj (hcurrent.symm.trans hcurrent')
        refine ⟨record₀, hrecord₀, fun hmem => absurd hmem hnot, fun _ => ⟨?_, ?_⟩⟩
        · intro k hk hpending
          obtain ⟨hmem, hkept⟩ := List.mem_filter.mp hpending
          have hne : middle.pendingRetention ≠ [] := List.ne_nil_of_mem hmem
          have hcurrentMem := (hfades.resolve_left hne).1 hmem
          simp [hcurrentMem, hk] at hkept
        · intro howns k hk hpending
          have hcurrentMem := (hkeeps₀ (hkeeps howns).1).2.2 hpending
          refine hretained middle hmiddle howns k ?_ ?_
          · exact List.mem_filter.mpr ⟨hcurrentMem, by simpa using hk⟩
          · rw [h.quiet.status]
            exact hready id record₀ hrecord₀ k hpending hk
      · rw [if_neg hid] at hlater
        obtain ⟨middle, hmiddle, hfades, hkeeps⟩ := hexpires.records id later hlater
        obtain ⟨record, hrecord, hwaiting, hresolved⟩ := h.records id middle hmiddle
        refine ⟨record, hrecord, fun hmem => ?_, fun hmem => ?_⟩
        · obtain ⟨hfades', hkeeps'⟩ := hwaiting (List.mem_cons_of_mem _ hmem)
          exact ⟨hfades'.trans hfades, hkeeps'.trans hkeeps⟩
        · exact (hresolved (by simp [hid, hmem])).later hfades hkeeps

/-- What `update_connector_output` does for the records. -/
theorem Awaited.updateConnectorOutput (h : Awaited [] [] c) (now : ℚ)
    (retainedAt : String → ℚ) {completed : List (JobId × ℕ)}
    (hnodup : (completed.map Prod.fst).Nodup) :
    Yields (fun c' => Awaited [] [] c' ∧ ∀ id later,
        c'.offload.registry.records.get? id = some later →
        ∃ record, c.offload.registry.records.get? id = some record ∧
          ∀ keys : List κ, (∀ k ∈ keys, Completes c completed k) → Resolved keys record later)
      (c.updateConnectorOutput now retainedAt completed) := by
  have hstart : Reporting c completed completed (c, {}) :=
    ⟨h, rfl, fun k hk => .inr hk, fun k hk => absurd hk List.not_mem_nil,
      fun k ⟨p, hp, _⟩ => absurd hp List.not_mem_nil, hnodup⟩
  unfold TokenCakeOffloadingScheduler.updateConnectorOutput
  refine Ensures.bind (Ensures.foldlM (I := Reporting c completed)
    (fun p rest out hout => completeDetached_reporting hout) completed _ hstart) ?_
  rintro ⟨c₁, done⟩ hreported
  have hlanding : Landing c done.keys done.ordinary c₁ :=
    ⟨hreported.awaited, hreported.records, hreported.landed, hreported.predicted, by
      simpa using hreported.nodup⟩
  refine Ensures.bind (Ensures.foldlM (I := Landing c done.keys)
    (fun p rest c hc => completeNative_landing hc) done.ordinary c₁ hlanding) ?_
  intro c₂ hlanded
  have hready : ∀ id record, c₂.offload.registry.records.get? id = some record →
      ∀ k ∈ record.pendingRetention, k ∈ done.keys →
        c₂.offload.registry.status k = some true := by
    intro id record hrecord k hk hmem
    have hnot := (hlanded.landed k hmem).resolve_right fun ⟨p, hp, _⟩ => List.not_mem_nil hp
    exact ((hlanded.awaited.pending id record hrecord k hk).resolve_left hnot).2
  have hfound : ∀ k, Completes c completed k → k ∈ done.keys := by
    intro k hk
    exact (hreported.found k hk).resolve_right fun ⟨p, hp, _⟩ => List.not_mem_nil hp
  refine Ensures.bind (run_returns (P := fun offload =>
    Expires c₂.offload.registry offload.registry)
    (OffloadState.onRegistry_returns _ (expire_expires hlanded.awaited.wf now))) ?_
  rintro c₃ ⟨offload, hc₃, hexpires⟩
  subst hc₃
  have hretaining : Retaining c₂ done.keys offload.registry.records.keys
      { c₂ with offload := offload } := by
    refine ⟨⟨rfl, rfl, rfl⟩, hexpires.quiet, fun id later hlater => ?_⟩
    obtain ⟨record, hrecord, hfades, hkeeps⟩ := hexpires.records id later hlater
    refine ⟨record, hrecord, fun _ => ⟨hfades, hkeeps⟩, fun hmem => ?_⟩
    exact absurd (OrdDict.mem_keys_iff.mpr ⟨later, hlater⟩) hmem
  refine (Ensures.foldlM (I := fun rest c => rest.Nodup ∧ Retaining c₂ done.keys rest c) ?_
    offload.registry.records.keys _ ⟨offload.registry.records.nodupKeys, hretaining⟩).mono ?_
  · rintro id rest c₄ ⟨hnodup, h₄⟩
    obtain ⟨hnot, hnodup⟩ := List.nodup_cons.mp hnodup
    exact (retainCompleted_retaining hready retainedAt hnot h₄).mono fun c₅ h₅ => ⟨hnodup, h₅⟩
  · rintro c₅ ⟨_, h₅⟩
    refine ⟨h₅.awaited hlanded.awaited, fun id later hlater => ?_⟩
    obtain ⟨record, hrecord, -, hresolved⟩ := h₅.records id later hlater
    rw [hlanded.records] at hrecord
    obtain ⟨hnone, hretained⟩ := hresolved List.not_mem_nil
    exact ⟨record, hrecord, fun keys hkeys => ⟨fun k hk => hnone k (hfound k (hkeys k hk)),
      fun howns k hk => hretained howns k (hfound k (hkeys k hk))⟩⟩

/-! ## Runs -/

theorem Awaited.operate (h : Awaited [] [] c) (op : ConnectorOp κ σ) :
    Yields (Awaited [] []) (c.operate op) := by
  cases op with
  | event op =>
      have hquiet : OffloadState.isQuiet op.1 = true := by
        obtain ⟨op, hop⟩ := op
        cases op <;> first | rfl | cases hop
      exact (h.run hquiet).mono fun c' ⟨_, _, _, h'⟩ => h'
  | evaluatePending selections => exact h.evaluatePending selections
  | getNumNewMatchedTokens reqId offloadKeys tokens lookups touched =>
      exact h.getNumNewMatchedTokens reqId offloadKeys tokens lookups touched
  | updateStateAfterAlloc reqId blocks external =>
      exact h.updateStateAfterAlloc reqId blocks external
  | buildConnectorMeta input => exact (h.buildConnectorMeta input).map fun _ h' => h'
  | updateConnectorOutput now retainedAt completed =>
      exact (h.updateConnectorOutput now retainedAt completed.nodupKeys).mono fun _ h' => h'.1
  | requestFinished reqId => exact h.requestFinished reqId
  | resetCache now => exact h.resetCache now

theorem awaited_new (config : SchedulerOffloadConfig) (settings : OffloadConfig) (numBlocks : ℕ)
    (policy : PolicyName) (events : Bool) (threshold tracker : ℕ) :
    Awaited [] [] (new config settings (.new numBlocks policy events threshold tracker) :
      TokenCakeOffloadingScheduler κ σ) := by
  refine ⟨?_, fun id record hrecord => ?_, fun id record hrecord => ?_, fun k hk => ?_,
    le_refl _, fun job status hjob => ?_⟩
  · intro m hm
    exact Option.some.inj hm ▸ (accounts_new numBlocks policy events threshold tracker).wf
  · cases hrecord
  · cases hrecord
  · have hnone := status_new (κ := κ) numBlocks policy events threshold tracker k
    exact absurd (hnone.symm.trans hk) (by simp)
  · cases hjob

/-- No retained key in flight is forgotten. In every reachable state a key that a record waits
for is in the CPU cache, is not ready and is written by a store that has not completed. No
update leaves a record waiting for a key whose store it completed: the record retains the
key unless it owns its preservation no longer. -/
theorem awaited_keys_are_retained {config : SchedulerOffloadConfig} {settings : OffloadConfig}
    {numBlocks : ℕ} {policy : PolicyName} {events : Bool} {threshold tracker : ℕ}
    {ops : List (ConnectorOp κ σ)} {c : TokenCakeOffloadingScheduler κ σ}
    (run : Run Operates (new config settings (.new numBlocks policy events threshold tracker))
      ops c) :
    (∀ id record, c.offload.registry.records.get? id = some record →
      ∀ k ∈ record.pendingRetention,
        (∃ m b, c.offload.registry.manager = some m ∧ m.policy.get k = some b ∧
          b.isReady = false) ∧ c.StoredBy k) ∧
    ∀ now retainedAt completed c',
      Operates c (.updateConnectorOutput now retainedAt completed) c' →
      ∀ k, Completes c completed.entries k →
      ∀ id later, c'.offload.registry.records.get? id = some later →
        k ∉ later.pendingRetention ∧
        ∃ record, c.offload.registry.records.get? id = some record ∧
          (k ∈ record.pendingRetention →
            k ∈ later.retained ∨ later.ownsPreservation = false) := by
  have h : Awaited [] [] c := run.invariant
    (fun c op c' _ hc hstep => (hc.operate op).of_eq_ok hstep)
    (awaited_new config settings numBlocks policy events threshold tracker)
  refine ⟨fun id record hrecord k hk => ?_, fun now retainedAt completed c' hstep k hcompletes id
    later hlater => ?_⟩
  · have hflight := (h.pending id record hrecord k hk).resolve_right
      fun hl => List.not_mem_nil hl.1
    refine ⟨?_, (h.stored k hflight).resolve_right List.not_mem_nil⟩
    obtain ⟨m, hm, hstatus⟩ := Option.bind_eq_some_iff.mp hflight
    obtain ⟨b, hb, hready⟩ := Option.map_eq_some_iff.mp hstatus
    exact ⟨m, b, hm, hb, hready⟩
  · obtain ⟨-, hupdate⟩ := (h.updateConnectorOutput now retainedAt completed.nodupKeys).of_eq_ok
      hstep
    obtain ⟨record, hrecord, hresolved⟩ := hupdate id later hlater
    obtain ⟨hnone, hretained⟩ := hresolved [k] (by simpa using hcompletes)
    refine ⟨hnone k (List.mem_singleton_self k), record, hrecord, fun hpending => ?_⟩
    cases howns : later.ownsPreservation with
    | true => exact .inl (hretained howns k (List.mem_singleton_self k) hpending)
    | false => exact .inr rfl

/-- A lifecycle stalls and its prefix is stored; a second one waits for the same store. -/
def sharedStall : List (ConnectorOp ℕ Unit) :=
  [.event ⟨.associate 0 "p" { lifecycleId := "a" }, rfl⟩,
    .event ⟨.apply 0 0 0 { event := .stallStarted, lifecycleId := "a" }, rfl⟩,
    .event ⟨.associate 0 "q" { lifecycleId := "b" }, rfl⟩,
    .event ⟨.apply 0 0 0 { event := .stallStarted, lifecycleId := "b" }, rfl⟩,
    .evaluatePending [⟨"a", "p", [⟨0, 0, 7, [1], 0⟩], 0⟩, ⟨"b", "q", [⟨0, 0, 7, [1], 0⟩], 0⟩]]

theorem operates_of_toOption {op : ConnectorOp κ σ} (h : (c.operate op).toOption = some c') :
    Operates c op c' := by
  rw [Operates]
  cases hstep : c.operate op with
  | error e =>
      rw [hstep] at h
      cases h
  | ok c₁ =>
      rw [hstep] at h
      exact congrArg Except.ok (Option.some.inj h)

/-- The record that waited for the store of another one retains its key. -/
theorem waiting_record_retains_the_key :
    ∃ c c' : TokenCakeOffloadingScheduler ℕ Unit,
      Run Operates (new ⟨[⟨1, 1, none⟩], 1, 1⟩ ⟨true, 1, 1 / 10, 1 / 2⟩
        (.new 2 .lru false 1 10)) sharedStall c ∧
      Operates c (.updateConnectorOutput 0 (fun _ => 0) (OrdDict.empty.insert 0 1)) c' ∧
      ∃ record later, c.offload.registry.records.get? "b" = some record ∧
        c'.offload.registry.records.get? "b" = some later ∧ 7 ∈ record.pendingRetention ∧
        c.StoredBy 7 ∧ 7 ∈ later.retained ∧ 7 ∉ later.pendingRetention := by
  have hexecute : (sharedStall.foldlM (fun c op => (c.operate op).toOption)
      (new ⟨[⟨1, 1, none⟩], 1, 1⟩ ⟨true, 1, 1 / 10, 1 / 2⟩ (.new 2 .lru false 1 10))).any
      (fun c => (c.offload.registry.records.get? "b").any (fun r => 7 ∈ r.pendingRetention) &&
        (c.jobs.get? 0).any (fun status =>
          status.isStore && decide (status.pendingCount = 1) && decide (7 ∈ status.keys)) &&
        (c.operate (.updateConnectorOutput 0 (fun _ => 0) (OrdDict.empty.insert 0 1))).toOption.any
          fun c' => (c'.offload.registry.records.get? "b").any fun r =>
            r.ownsPreservation) = true := by
    decide +kernel
  rw [Option.any_eq_true] at hexecute
  obtain ⟨c, hrun, hc⟩ := hexecute
  have run := Run.of_foldlM (fun _ _ _ => operates_of_toOption) hrun
  simp only [Bool.and_eq_true, Option.any_eq_true, decide_eq_true_eq] at hc
  obtain ⟨⟨⟨record, hrecord, hpending⟩, status, hstatus, ⟨hstore, hcount⟩, hkey⟩, c', hc', later,
    hlater, howns⟩ := hc
  have hstep := operates_of_toOption hc'
  obtain ⟨hwaiting, hupdate⟩ := awaited_keys_are_retained run
  obtain ⟨hnone, record', hrecord', hretained⟩ := hupdate _ _ _ c' hstep 7
    ⟨(0, 1), by decide, status, hstatus, hstore, hcount, hkey⟩ "b" later hlater
  obtain rfl := Option.some.inj (hrecord.symm.trans hrecord')
  refine ⟨c, c', run, hstep, record, later, hrecord, hlater, hpending,
    (hwaiting "b" record hrecord 7 hpending).2, ?_, hnone⟩
  exact (hretained hpending).resolve_right (by simp [howns])

end TokenCake.Offload.TokenCakeOffloadingScheduler
