import TokenCake.Verification.Fence.Detached

/-! # The fence over whole runs

From its publication on, a detached store is named by every step that hands out one of its
blocks, until all workers have reported it or a reset discards it. After a reset the next step
names it. No worker executes a step that reuses a block before it has read it. -/

namespace TokenCake.Offload

open TokenCakeOffloadingScheduler

namespace Fleet

variable {κ σ : Type} {s s' : Fleet κ σ} {o : Observation} {j : JobId} {S : List BlockId}
variable {p i : ℕ}

/-! ## Unreported jobs -/

/-- The fence stays in place while a worker has not reported the job and no reset happens. -/
theorem Live.move (h : Live j S p i s) (horderly : Orderly s) (hmove : Move s o s')
    (hreset : o ≠ .reset) (hreports : ¬o.Reports i j) : Live j S p i s' := by
  obtain ⟨hsent, -⟩ := h.sent.move horderly hmove
  obtain ⟨w, hw, hdue⟩ := h.due
  have hmem := List.mem_of_getElem? hw
  cases hmove with
  | steady hc =>
      refine ⟨hsent, ?_, w, hw, hdue⟩
      rw [(hc.same j).detached]
      exact h.detached
  | evaluated hc =>
      refine ⟨hsent, ?_, w, hw, hdue⟩
      rw [(hc.frame.same j (.inl h.sent.below)).detached]
      exact h.detached
  | @stepped c₁ c₂ input result hc =>
      have hdetached : result.connector.detached = c₁.detached :=
        Eq.trans hc.published.detached hc.inStep.detached
      have hstores : j ∉ result.metadata.storeJobs.keys := (h.sent.stepped horderly hc).2
      refine ⟨hsent, ?_, w.receive ⟨s.steps, result.metadata, result.newBlocks⟩, ?_, ?_⟩
      · rw [hdetached, (hc.evaluated.frame.same j (.inl h.sent.below)).detached]
        exact h.detached
      · rw [List.getElem?_map, hw, Option.map_some]
      · rw [Worker.due_receive, hdue, List.count_eq_zero.mpr hstores]
  | @updated workers reports c htaken hsettled houtcome =>
      have hlt : i < workers.length := by
        rw [htaken.length]
        exact (List.getElem?_eq_some_iff.mp hw).1
      obtain ⟨w₀, hw₀, -, hcount⟩ := htaken.each i workers[i] (List.getElem?_eq_getElem hlt)
      rw [hw] at hw₀
      obtain rfl := Option.some.inj hw₀
      have hnone : (reportedJobs reports).count (i, j) = 0 := List.count_eq_zero.mpr hreports
      have hdue' : workers[i].due j = 1 := by
        have := hcount j
        omega
      refine ⟨hsent, ?_, workers[i], List.getElem?_eq_getElem hlt, hdue'⟩
      -- this worker keeps the number of missing reports positive
      obtain ⟨-, hcase⟩ := houtcome j S _ (h.sent.status.resolve_right h.detached)
      have hpos : 1 ≤ totalDue workers j := by
        rw [← hdue']
        exact List.single_le_sum (fun _ _ => Nat.zero_le _) _
          (List.mem_map_of_mem (List.getElem_mem hlt))
      have htotal := htaken.total j
      rw [if_pos (.inr (by omega))] at hcase
      exact hcase.isDetached
  | reset _ => exact absurd rfl hreset
  | @worked k w' m rest hw' hinbox =>
      by_cases hk : k = i
      · subst hk
        rw [hw] at hw'
        obtain rfl := Option.some.inj hw'
        obtain ⟨honce, hload⟩ := h.sent.once w hmem
        obtain ⟨-, hkeep⟩ := Worker.execute_spec hinbox (hload m (hinbox ▸ List.mem_cons_self ..))
        have hset := List.getElem?_set_self (a := ({ w with inbox := rest }.execute m).1)
          (List.getElem?_eq_some_iff.mp hw).1
        exact ⟨hsent, h.detached, _, hset, (hkeep honce).trans hdue⟩
      · exact ⟨hsent, h.detached, w, (List.getElem?_set_ne hk).trans hw, hdue⟩
  | @transferred k w' job hw' hjob =>
      by_cases hk : k = i
      · subst hk
        rw [hw] at hw'
        obtain rfl := Option.some.inj hw'
        have hset := List.getElem?_set_self (a := w.transferred job)
          (List.getElem?_eq_some_iff.mp hw).1
        exact ⟨hsent, h.detached, _, hset,
          (Worker.transferred_spec hjob (h.sent.once w hmem).1).1.trans hdue⟩
      · exact ⟨hsent, h.detached, w, (List.getElem?_set_ne hk).trans hw, hdue⟩

/-- A step that hands out a block of the job names the job. -/
theorem Live.names (h : Live j S p i s) (hmove : Move s o s') {b : BlockId} (hb : b ∈ S)
    (hout : o.HandsOut b) : o.Names j := by
  obtain ⟨m, hm, hbm⟩ := hout
  cases hmove with
  | stepped hc =>
      obtain rfl := Option.some.inj hm
      have htracked := h.sent.status.resolve_right h.detached
      have hsame := hc.evaluated.frame.same j (.inl h.sent.below)
      exact ⟨_, rfl, hc.fenced (htracked.frame hc.evaluated.frame)
        (mt hsame.mem_unpublished.mp h.sent.unpublished) hb hbm⟩
  | steady _ => cases hm
  | evaluated _ => cases hm
  | updated _ _ _ => cases hm
  | reset _ => cases hm
  | worked _ _ => cases hm
  | transferred _ _ => cases hm

/-! ## Jobs that a reset has discarded -/

/-- A published job that the next step flushes. -/
structure Flushing (j : JobId) (S : List BlockId) (p : ℕ) (s : Fleet κ σ) : Prop where
  sent : Sent j S p s
  flush : j ∈ s.scheduler.currentBatchJobsToFlush

theorem Live.reset (h : Live j S p i s) (horderly : Orderly s) (hmove : Move s .reset s') :
    Flushing j S p s' := by
  refine ⟨(h.sent.move horderly hmove).1, ?_⟩
  cases hmove with
  | reset hc =>
      obtain ⟨status, hstatus, -⟩ := (h.sent.status.resolve_right h.detached).status
      exact hc.flush j (OrdDict.mem_keys_iff.mpr ⟨status, hstatus⟩) h.sent.unpublished

theorem Flushing.move (h : Flushing j S p s) (horderly : Orderly s) (hmove : Move s o s')
    (hquiet : o.message? = none) : Flushing j S p s' := by
  refine ⟨(h.sent.move horderly hmove).1, ?_⟩
  cases hmove with
  | steady hc => exact (hc.same j).flush h.flush
  | evaluated hc => exact (hc.frame.same j (.inl h.sent.below)).flush h.flush
  | stepped _ => cases hquiet
  | updated _ hsettled _ => exact hsettled.flush j h.flush
  | reset hc =>
      have := h.flush
      rw [hc.noFlush] at this
      exact absurd this List.not_mem_nil
  | worked _ _ => exact h.flush
  | transferred _ _ => exact h.flush

theorem Flushing.names (h : Flushing j S p s) (hmove : Move s o s') (hstep : o.message? ≠ none) :
    o.Names j := by
  cases hmove with
  | stepped hc => exact ⟨_, rfl, hc.named h.sent.below h.sent.unpublished h.flush⟩
  | steady _ => exact absurd rfl hstep
  | evaluated _ => exact absurd rfl hstep
  | updated _ _ _ => exact absurd rfl hstep
  | reset _ => exact absurd rfl hstep
  | worked _ _ => exact absurd rfl hstep
  | transferred _ _ => exact absurd rfl hstep

/-! ## Blocks that are still to be read -/

theorem Unread.move (h : Unread j S p i s) (horderly : Orderly s) (hmove : Move s o s')
    (hfinishes : ¬o.Finishes i j) : Unread j S p i s' := by
  obtain ⟨hsent, -⟩ := h.sent.move horderly hmove
  obtain ⟨w, hw, howed⟩ := h.owed
  have hmem := List.mem_of_getElem? hw
  have hlt := (List.getElem?_eq_some_iff.mp hw).1
  refine ⟨hsent, ?_⟩
  cases hmove with
  | steady _ => exact ⟨w, hw, howed⟩
  | evaluated _ => exact ⟨w, hw, howed⟩
  | @stepped c₁ c₂ input result hc =>
      refine ⟨w.receive ⟨s.steps, result.metadata, result.newBlocks⟩, ?_, ?_⟩
      · rw [List.getElem?_map, hw, Option.map_some]
      · rw [Worker.owed_receive]
        omega
  | @updated workers reports c htaken _ _ =>
      have hlt' : i < workers.length := by
        rw [htaken.length]
        exact hlt
      obtain ⟨w₀, hw₀, htook, -⟩ := htaken.each i workers[i] (List.getElem?_eq_getElem hlt')
      rw [hw] at hw₀
      obtain rfl := Option.some.inj hw₀
      exact ⟨workers[i], List.getElem?_eq_getElem hlt', (htook.owed j).symm ▸ howed⟩
  | reset _ => exact ⟨w, hw, howed⟩
  | @worked k w' m rest hw' hinbox =>
      by_cases hk : k = i
      · subst hk
        rw [hw] at hw'
        obtain rfl := Option.some.inj hw'
        have hload := (h.sent.once w hmem).2 m (hinbox ▸ List.mem_cons_self ..)
        obtain ⟨hsplit, -⟩ := Worker.execute_spec hinbox hload
        have hnone : ({ w with inbox := rest }.execute m).2.count j = 0 :=
          List.count_eq_zero.mpr fun hj => hfinishes ⟨rfl, hj⟩
        exact ⟨_, List.getElem?_set_self hlt, by omega⟩
      · exact ⟨w, (List.getElem?_set_ne hk).trans hw, howed⟩
  | @transferred k w' job hw' hjob =>
      by_cases hk : k = i
      · subst hk
        rw [hw] at hw'
        obtain rfl := Option.some.inj hw'
        have hne : j ≠ job := fun heq => hfinishes ⟨rfl, heq.symm⟩
        obtain ⟨-, -, hkeep⟩ := Worker.transferred_spec hjob (h.sent.once w hmem).1
        exact ⟨_, List.getElem?_set_self hlt, (hkeep hne).symm ▸ howed⟩
      · exact ⟨w, (List.getElem?_set_ne hk).trans hw, howed⟩

/-- A worker that is to overwrite a block of the job finishes the job before. -/
theorem Unread.finishes (h : Unread j S p i s) (horderly : Orderly s) {m : StepMessage}
    {waited : List JobId} (hmove : Move s (.executed i m waited) s') (hindex : p < m.index)
    {b : BlockId} (hb : b ∈ S) (hout : b ∈ m.handedOut) :
    (Observation.executed i m waited).Finishes i j := by
  obtain ⟨w, hw, howed⟩ := h.owed
  have hmem := List.mem_of_getElem? hw
  cases hmove with
  | @worked _ w' _ rest hw' hinbox =>
      rw [hw] at hw'
      obtain rfl := Option.some.inj hw'
      refine ⟨rfl, ?_⟩
      have hguard := h.sent.guarded w hmem howed
      rw [hinbox, List.filter_cons_of_pos (by simpa using hindex)] at hguard
      cases hguard with
      | inl hnamed => exact h.sent.waits horderly hmem hinbox hindex hnamed howed
      | inr hrest => exact absurd hb (hrest.1 b hout)

/-! ## Runs -/

theorem Move.config (hmove : Move s o s') : s'.scheduler.config = s.scheduler.config := by
  cases hmove with
  | steady hc => exact hc.config
  | evaluated hc => exact hc.frame.config
  | stepped hc =>
      exact hc.published.config.trans (hc.evaluated.frame.trans hc.inStep.frame).config
  | updated _ hsettled _ => exact hsettled.config
  | reset hc => exact hc.config
  | worked _ _ => rfl
  | transferred _ _ => rfl

/-- An orderly system with `n` workers. -/
structure Staffed (n : ℕ) (s : Fleet κ σ) : Prop where
  orderly : Orderly s
  workers : s.scheduler.config.numWorkers = n

variable [DecidableEq κ] {n : ℕ} {u : Fleet κ σ}

theorem Staffed.move (h : Staffed n s) (hnext : Next s o s') : Move s o s' :=
  Next.move h.orderly.known h.orderly.loads hnext

theorem Staffed.next (h : Staffed n s) (hnext : Next s o s') : Staffed n s' := by
  refine ⟨hnext.orderly h.orderly, ?_⟩
  rw [(h.move hnext).config]
  exact h.workers

theorem Staffed.run {es : List Observation} (h : Staffed n s) (run : Run Next s es s') :
    Staffed n s' :=
  run.invariant (fun _ _ _ _ hs => hs.next) h

theorem Sent.never_published {es : List Observation} (h : Sent j S p s) (hs : Staffed n s)
    (run : Run Next s es s') : ∀ o ∈ es, ¬o.Publishes j := by
  refine run.labels (I := fun s => Staffed n s ∧ Sent j S p s) ?_ ⟨hs, h⟩
  rintro s o t ⟨hs, h⟩ hnext
  obtain ⟨hsent, hnot⟩ := h.move hs.orderly (hs.move hnext)
  exact ⟨⟨hs.next hnext, hsent⟩, hnot⟩

theorem Lost.never_published {es : List Observation} (h : Lost j s) (hs : Staffed n s)
    (run : Run Next s es s') : ∀ o ∈ es, ¬o.Publishes j := by
  refine run.labels (I := fun s => Staffed n s ∧ Lost j s) ?_ ⟨hs, h⟩
  rintro s o t ⟨hs, h⟩ hnext
  obtain ⟨hlost, hnot⟩ := h.move hs.orderly (hs.move hnext)
  exact ⟨⟨hs.next hnext, hlost⟩, hnot⟩

/-- The part of a run from the publication of the job by `o` on. -/
structure PublicationPoint (n : ℕ) (j : JobId) (S : List BlockId) (o : Observation)
    (rest : List Observation) (t t' u : Fleet κ σ) : Prop where
  staffed : Staffed n t'
  published : PublishedBy j S t o t'
  run : Run Next t' rest u

/-- No step is sent while the job waits for its publication. -/
theorem Waiting.publication {before rest : List Observation} (h : Waiting j S s)
    (hs : Staffed n s) (run : Run Next s (before ++ o :: rest) u) (hpublishes : o.Publishes j) :
    (∀ e ∈ before, e.message? = none) ∧ ∃ t t', PublicationPoint n j S o rest t t' u := by
  induction before generalizing s with
  | nil =>
      cases run with
      | cons hnext hrest =>
          refine ⟨fun e he => absurd he List.not_mem_nil, s, _, hs.next hnext, ?_, hrest⟩
          have hquiet : o.message? ≠ none := by
            obtain ⟨m, hm, -⟩ := hpublishes
            simp [hm]
          cases h.move hs.orderly (hs.move hnext) with
          | inl hwaiting => exact absurd hwaiting.2 hquiet
          | inr hmoved =>
              cases hmoved with
              | inl hpublished => exact hpublished
              | inr hlost => exact absurd hlost.2 hquiet
  | cons e before ih =>
      cases run with
      | cons hnext hrest =>
          have hmem : o ∈ before ++ o :: rest := List.mem_append_right _ (List.mem_cons_self ..)
          cases h.move hs.orderly (hs.move hnext) with
          | inl hwaiting =>
              obtain ⟨hquiet, hpoint⟩ := ih hwaiting.1 (hs.next hnext) hrest
              exact ⟨List.forall_mem_cons.mpr ⟨hwaiting.2, hquiet⟩, hpoint⟩
          | inr hmoved =>
              cases hmoved with
              | inl hpublished =>
                  exact absurd hpublishes
                    (hpublished.sent.never_published (hs.next hnext) hrest o hmem)
              | inr hlost =>
                  exact absurd hpublishes (hlost.1.never_published (hs.next hnext) hrest o hmem)

/-- The publication of a job in a run that starts with its registration. -/
theorem publication_of_registers {before rest after : List Observation} {r : Observation}
    (hs : Staffed n s) (run : Run Next s (r :: after) u) (hreg : r.Registers j S)
    (htrace : r :: after = before ++ o :: rest) (hpublishes : o.Publishes j) :
    (∀ e ∈ before, e.message? = none) ∧ ∃ t t', PublicationPoint n j S o rest t t' u := by
  cases run with
  | cons hnext hrest =>
      have hmoved := (hs.move hnext).registers hs.orderly hreg
      cases before with
      | nil =>
          obtain ⟨rfl, rfl⟩ := List.cons.inj htrace
          refine ⟨fun e he => absurd he List.not_mem_nil, s, _, hs.next hnext, ?_, hrest⟩
          refine hmoved.resolve_left fun hwaiting => ?_
          obtain ⟨m, hm, -⟩ := hpublishes
          rw [hwaiting.2] at hm
          cases hm
      | cons e before =>
          obtain ⟨rfl, rfl⟩ := List.cons.inj htrace
          cases hmoved with
          | inl hwaiting =>
              obtain ⟨hquiet, hpoint⟩ := hwaiting.1.publication (hs.next hnext) hrest hpublishes
              exact ⟨List.forall_mem_cons.mpr ⟨hwaiting.2, hquiet⟩, hpoint⟩
          | inr hpublished =>
              exact absurd hpublishes (hpublished.sent.never_published (hs.next hnext) hrest o
                (List.mem_append_right _ (List.mem_cons_self ..)))

/-- The fence is in place until a reset or the report of the worker. -/
theorem PublicationPoint.live {live tail : List Observation} {t t' : Fleet κ σ}
    (h : PublicationPoint n j S o (live ++ tail) t t' u) (hi : i < n)
    (hlive : ∀ l ∈ live, l ≠ .reset ∧ ¬l.Reports i j) :
    ∃ v, Staffed n v ∧ Live j S t.steps i v ∧ Run Next v tail u := by
  obtain ⟨v, hfirst, htail⟩ := h.run.append_inv
  have hstart := h.published.live i (h.staffed.workers.symm ▸ hi)
  have hend := hfirst.invariant (I := fun s => Staffed n s ∧ Live j S t.steps i s) (by
    rintro s l s' hl ⟨hs, hlives⟩ hnext
    obtain ⟨hreset, hreports⟩ := hlive l hl
    exact ⟨hs.next hnext, hlives.move hs.orderly (hs.move hnext) hreset hreports⟩)
    ⟨h.staffed, hstart⟩
  exact ⟨v, hend.1, hend.2, htail⟩

end Fleet

/-! ## The fence -/

/-- What the fence promises for the detached store `j` of the blocks `S` in a run of a system
with `n` workers that starts with the registration of the store. -/
structure FencedStore (n : ℕ) (j : JobId) (S : List BlockId) (trace : List Observation) : Prop where
  /-- The step that publishes the store is idle and does not name it. -/
  publication : ∀ o ∈ trace, o.Publishes j → o.Idle ∧ ¬o.Names j
  /-- No source block is handed out before the publication. -/
  handover : ∀ before o after, trace = before ++ o :: after → o.Publishes j →
    ∀ e ∈ before, ∀ b ∈ S, ¬e.HandsOut b
  /-- Until all workers have reported the store, a step that hands out a source block names it,
  unless a reset has discarded it. -/
  fence : ∀ before o live e after w, trace = before ++ o :: (live ++ e :: after) →
    o.Publishes j → w < n → (∀ l ∈ live, l ≠ .reset ∧ ¬l.Reports w j) →
    (∃ b ∈ S, e.HandsOut b) → e.Names j
  /-- The first step after a reset names the store. -/
  reset : ∀ before o live quiet e after w,
    trace = before ++ o :: (live ++ .reset :: (quiet ++ e :: after)) → o.Publishes j → w < n →
    (∀ l ∈ live, l ≠ .reset ∧ ¬l.Reports w j) → (∀ l ∈ quiet, l.message? = none) →
    e.message? ≠ none → e.Names j
  /-- A worker finishes the store before it executes a later step that overwrites a source
  block. -/
  overwrite : ∀ before o between w m waited after published,
    trace = before ++ o :: (between ++ .executed w m waited :: after) →
    o.message? = some published → j ∈ published.metadata.storeJobs.keys →
    published.index < m.index → w < n → (∃ b ∈ S, b ∈ m.handedOut) →
    ∃ l ∈ between ++ [.executed w m waited], l.Finishes w j

section

variable {κ σ : Type} [DecidableEq κ]

open Fleet

/-- Every detached store of every run is fenced. -/
theorem detached_stores_are_fenced {config : SchedulerOffloadConfig} {offload : OffloadState κ σ}
    {earlier after : List Observation} {r : Observation} {u : Fleet κ σ} {j : JobId}
    {S : List BlockId} (run : Run Next (initial config offload) (earlier ++ r :: after) u)
    (hreg : r.Registers j S) : FencedStore config.numWorkers j S (r :: after) := by
  obtain ⟨s, hfirst, hrun⟩ := run.append_inv
  have hs : Staffed config.numWorkers s :=
    Staffed.run ⟨orderly_initial config offload, rfl⟩ hfirst
  refine ⟨?_, ?_, ?_, ?_, ?_⟩
  · intro o ho hpublishes
    obtain ⟨before, rest, htrace⟩ := List.append_of_mem ho
    obtain ⟨-, t, t', hpoint⟩ := publication_of_registers hs hrun hreg htrace hpublishes
    exact ⟨hpoint.published.idle, hpoint.published.unnamed⟩
  · intro before o rest htrace hpublishes e he b _ hout
    obtain ⟨hquiet, -⟩ := publication_of_registers hs hrun hreg htrace hpublishes
    obtain ⟨m, hm, -⟩ := hout
    rw [hquiet e he] at hm
    cases hm
  · intro before o live e rest w htrace hpublishes hw hlive hout
    obtain ⟨-, t, t', hpoint⟩ := publication_of_registers hs hrun hreg htrace hpublishes
    obtain ⟨v, hv, hlives, htail⟩ := hpoint.live hw hlive
    obtain ⟨b, hb, hout⟩ := hout
    cases htail with
    | cons hnext _ => exact hlives.names (hv.move hnext) hb hout
  · intro before o live quiet e rest w htrace hpublishes hw hlive hquiet hstep
    obtain ⟨-, t, t', hpoint⟩ := publication_of_registers hs hrun hreg htrace hpublishes
    obtain ⟨v, hv, hlives, htail⟩ := hpoint.live hw hlive
    cases htail with
    | cons hnext hrest =>
        have hflushing := hlives.reset hv.orderly (hv.move hnext)
        obtain ⟨x, hmiddle, hlast⟩ := hrest.append_inv
        have hend := hmiddle.invariant
          (I := fun s => Staffed config.numWorkers s ∧ Flushing j S t.steps s) (by
            rintro s l s' hl ⟨hs, hf⟩ hnext
            exact ⟨hs.next hnext, hf.move hs.orderly (hs.move hnext) (hquiet l hl)⟩)
          ⟨hv.next hnext, hflushing⟩
        cases hlast with
        | cons hnext _ => exact hend.2.names (hend.1.move hnext) hstep
  · intro before o between w m waited rest published htrace hmessage hstore hindex hw hout
    have hpublishes : o.Publishes j := ⟨published, hmessage, hstore⟩
    obtain ⟨-, t, t', hpoint⟩ := publication_of_registers hs hrun hreg htrace hpublishes
    obtain ⟨m₀, hm₀, hindex₀, -⟩ := hpoint.published.message
    rw [hmessage] at hm₀
    obtain rfl := Option.some.inj hm₀
    by_contra hnone
    -- otherwise the worker still owes the job when it executes the step
    have hnot : ∀ l ∈ between ++ [.executed w m waited], ¬l.Finishes w j :=
      fun l hl hfinishes => hnone ⟨l, hl, hfinishes⟩
    obtain ⟨v, hbetween, htail⟩ := hpoint.run.append_inv
    have hend := hbetween.invariant
      (I := fun s => Staffed config.numWorkers s ∧ Unread j S t.steps w s) (by
        rintro s l s' hl ⟨hs, hunread⟩ hnext
        exact ⟨hs.next hnext, hunread.move hs.orderly (hs.move hnext)
          (hnot l (List.mem_append_left _ hl))⟩)
      ⟨hpoint.staffed, hpoint.published.unread w (hpoint.staffed.workers.symm ▸ hw)⟩
    obtain ⟨b, hb, hout⟩ := hout
    cases htail with
    | cons hnext _ =>
        refine hnot _ (List.mem_append_right _ (List.mem_singleton.mpr rfl)) ?_
        exact hend.2.finishes hend.1.orderly (hend.1.move hnext) (hindex₀ ▸ hindex) hb hout

end

/-! ## Two runs with one worker -/

section Runs

open Sched

/-- Collaborators that admit every request. -/
def admitting : Collaborators (Backend ℕ Unit Unit) where
  beginStep s := (none, s.backend)
  hasUnpublished s := (false, s.backend)
  tryScheduleEncoderInputs s _ _ tokens budget := (⟨[], tokens, budget, []⟩, s.backend)
  numEncoderEmbeds _ _ := 0
  mambaBlockAlignedSplit _ _ tokens := tokens
  canGrow s _ _ := (true, s.backend)
  allocateRunning s _ _ := (true, s.backend)
  victimView s _ _ := (⟨1, fun _ => 1, fun _ => 1⟩, s.backend)
  freePreempted s _ := s.backend
  finishedRecving _ _ := false
  updateWaitingForRemoteKv s r := (r.numComputedTokens, s.backend)
  grammarReady _ _ := false
  getComputedBlocks s _ := (0, s.backend)
  deferCacheLookup s _ _ := (false, s.backend)
  getNumNewMatchedTokens s _ _ := ((some 0, false), s.backend)
  canAllocate s _ _ := ((true, false), s.backend)
  allocateSlots s _ _ := (true, s.backend)
  activePrefixAffinity _ _ := (0, 0)
  affinityApplies _ := false

/-- A call of `schedule` with the listed requests waiting; each is given the block 5. -/
def arriving (requests : List Request) : ScheduleCall ℕ Unit Unit where
  env := admitting
  inputs :=
    { selections := fun _ => []
      offloadKeys := fun _ _ => [[]]
      lookups := fun _ _ => []
      touched := fun _ _ => []
      newBlocks := fun _ _ _ => []
      blocks := fun _ _ _ => [[⟨5, false, false⟩]]
      plan := fun _ => none }
  cfg :=
    { policy := .fcfs, maxNumRunningReqs := 8, maxNumScheduledTokens := 64
      maxNumEncoderInputTokens := 0, maxModelLen := 128, hasConnector := true
      hasTokenCakeConnector := true }
  sched :=
    { requests := .ofList (requests.map fun r => (r.requestId, r))
      running := [], waiting := requests.map (·.requestId), skippedWaiting := []
      pauseState := .unpaused, backend := () }

def newcomer : Request := { requestId := "new", promptTokenIds := [1], maxTokens := 1 }

def oneWorker : SchedulerOffloadConfig := ⟨[⟨1, 1, none⟩], 1, 1⟩

/-- A registry and a CPU manager with two blocks. -/
def twoBlocks : OffloadState ℕ Unit :=
  .initial ⟨true, 1, 1 / 10, 1 / 2⟩ (some (.new 2 .lru false 1 10))

/-- A stall begins, and the block 5 of its request is to be stored. -/
def stallOps : List (FleetOp ℕ Unit Unit) :=
  [.lifecycle (.associate 0 "old" { lifecycleId := "a" }),
    .lifecycle (.apply 0 0 0 { event := .stallStarted, lifecycleId := "a" }),
    .evaluate [⟨"a", "old", [⟨0, 0, 7, [5], 0⟩], 0⟩]]

instance (o : Observation) (j : JobId) (S : List BlockId) : Decidable (o.Registers j S) := by
  cases o <;> unfold Observation.Registers <;> infer_instance

instance (o : Observation) (p : StepMessage → Prop) [DecidablePred p] :
    Decidable (∃ m, o.message? = some m ∧ p m) :=
  match o.message? with
  | none => .isFalse fun ⟨_, hm, _⟩ => nomatch hm
  | some m => decidable_of_iff (p m) ⟨fun hp => ⟨m, rfl, hp⟩, fun ⟨_, hm, hp⟩ =>
      Option.some.inj hm ▸ hp⟩

/-- The fifth of five steps hands out the block 5 and names the store that the third registers. -/
def handsOutFlushed : List Observation → Bool
  | [_, _, r, _, e] => decide (r.Registers 0 [5] ∧
      (∃ m, e.message? = some m ∧ 5 ∈ m.handedOut) ∧
      ∃ m, e.message? = some m ∧ 0 ∈ m.metadata.jobsToFlush)
  | _ => false

/-- A request that arrives after the publication is given the block once the store is flushed. -/
theorem newcomer_waits_for_the_store :
    ∃ earlier r after, ∃ u : Fleet ℕ Unit,
      Run Fleet.Next (Fleet.initial oneWorker twoBlocks) (earlier ++ r :: after) u ∧ r.Registers 0 [5] ∧
        (∃ e ∈ after, e.HandsOut 5 ∧ e.Names 0) ∧ FencedStore 1 0 [5] (r :: after) := by
  have hexecute : (((Fleet.initial oneWorker twoBlocks).execute (stallOps ++
      [.schedule (arriving []), .schedule (arriving [newcomer])])).any fun x =>
        handsOutFlushed x.1) = true := by decide +kernel
  rw [Option.any_eq_true] at hexecute
  obtain ⟨⟨observed, u⟩, hrun, hobserved⟩ := hexecute
  have run := Fleet.run_of_execute hrun
  dsimp only at hobserved
  unfold handsOutFlushed at hobserved
  split at hobserved
  · next a b r o e =>
    obtain ⟨hreg, hout, hnames⟩ := of_decide_eq_true hobserved
    have run : Run Fleet.Next (Fleet.initial oneWorker twoBlocks) ([a, b] ++ r :: [o, e]) u := run
    refine ⟨[a, b], r, [o, e], u, run, hreg, ⟨e, by simp, hout, hnames⟩, ?_⟩
    exact detached_stores_are_fenced run hreg
  · cases hobserved

/-- The store is named until all workers have reported it, resets or not. -/
def FencedUntilReported (n : ℕ) (j : JobId) (S : List BlockId) (trace : List Observation) : Prop :=
  ∀ before o live e after w, trace = before ++ o :: (live ++ e :: after) → o.Publishes j →
    w < n → (∀ l ∈ live, ¬l.Reports w j) → (∃ b ∈ S, e.HandsOut b) → e.Names j

/-- After a reset and a step, the last step hands out the block 5 without naming the store. -/
def handsOutUnnamed : List Observation → Bool
  | [_, _, r, o, .reset, .step _ _ _ _, e] => decide (r.Registers 0 [5] ∧
      (∃ m, o.message? = some m ∧ 0 ∈ m.metadata.storeJobs.keys) ∧
      (∃ m, e.message? = some m ∧ 5 ∈ m.handedOut) ∧
      ¬∃ m, e.message? = some m ∧ 0 ∈ m.metadata.jobsToFlush)
  | _ => false

/-- Once the step after a reset has flushed the store, a step hands out its block without naming
it, although the worker has not reported the store. -/
theorem store_unnamed_after_reset :
    ∃ earlier r after, ∃ u : Fleet ℕ Unit,
      Run Fleet.Next (Fleet.initial oneWorker twoBlocks) (earlier ++ r :: after) u ∧ r.Registers 0 [5] ∧
        ¬FencedUntilReported 1 0 [5] (r :: after) := by
  have hexecute : (((Fleet.initial oneWorker twoBlocks).execute (stallOps ++
      [.schedule (arriving []), .reset 0, .schedule (arriving []),
        .schedule (arriving [newcomer])])).any
        fun x => handsOutUnnamed x.1) = true := by decide +kernel
  rw [Option.any_eq_true] at hexecute
  obtain ⟨⟨observed, u⟩, hrun, hobserved⟩ := hexecute
  have run := Fleet.run_of_execute hrun
  dsimp only at hobserved
  unfold handsOutUnnamed at hobserved
  split at hobserved
  · next a b r o stores tokens allocated m e =>
    obtain ⟨hreg, hpublishes, hout, hnames⟩ := of_decide_eq_true hobserved
    refine ⟨[a, b], r, [o, .reset, .step stores tokens allocated m, e], u, run, hreg, ?_⟩
    intro hfenced
    refine hnames (hfenced [r] o [.reset, .step stores tokens allocated m] e [] 0 rfl hpublishes
      Nat.one_pos ?_ ⟨5, by simp, hout⟩)
    simp [Observation.Reports]
  · cases hobserved

end Runs

end TokenCake.Offload
