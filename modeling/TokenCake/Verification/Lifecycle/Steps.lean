import TokenCake.Verification.Lifecycle.Operations

/-! # Steps of the offloading system

What one call of the scheduler does to the references, to the records and to the remembered
durations. -/

namespace TokenCake.Offload

open LifecycleRegistry

variable {κ σ : Type*} [DecidableEq κ]

namespace OffloadState

/-- The number of outstanding loads that contain `key`. -/
def loaders (s : OffloadState κ σ) (key : κ) : ℤ :=
  (s.loads.countP fun keys => decide (key ∈ keys) : ℕ)

/-- The manager backs the records, the outstanding loads and `slack` references that nobody
holds any more. -/
structure Coherent (s : OffloadState κ σ) (slack : κ → ℤ) : Prop where
  backed : s.registry.Backed fun k => s.loaders k + slack k
  nodup : ∀ keys ∈ s.loads, keys.Nodup
  slack_nonneg : ∀ k, 0 ≤ slack k

theorem loaders_nonneg (s : OffloadState κ σ) (k : κ) : 0 ≤ s.loaders k := by
  unfold loaders
  omega

theorem loaders_cons (r : LifecycleRegistry κ σ) (keys : List κ) (loads : List (List κ))
    (k : κ) : loaders ⟨r, keys :: loads⟩ k =
      loaders ⟨r, loads⟩ k + if k ∈ keys then 1 else 0 := by
  unfold loaders
  rw [List.countP_cons]
  by_cases hk : k ∈ keys <;> simp [hk]

theorem loaders_erase (r : LifecycleRegistry κ σ) {keys : List κ} {loads : List (List κ)}
    (hmem : keys ∈ loads) (k : κ) : loaders ⟨r, loads.erase keys⟩ k =
      loaders ⟨r, loads⟩ k + if k ∈ keys then -1 else 0 := by
  have hperm := List.perm_cons_erase hmem
  have hcount := hperm.countP_eq fun keys => decide (k ∈ keys)
  rw [List.countP_cons] at hcount
  unfold loaders
  by_cases hk : k ∈ keys <;> simp [hk] at hcount ⊢ <;> omega

end OffloadState

/-! ## Labels -/

/-- The call created the record under `id`. -/
def Associates (label : OffloadOp κ σ × Answer κ) (id : String) : Prop :=
  ∃ now requestId metadata, metadata.lifecycleId = id ∧
    label = (.associate now requestId metadata, .association .associated)

/-- The call answered `applied` to the end of the stall of `id`. -/
def FinishApplied (label : OffloadOp κ σ × Answer κ) (id : String) : Prop :=
  ∃ expiredAt now now' event result, label = (.apply expiredAt now now' event, .event result) ∧
    event.event = .stallFinished ∧ event.lifecycleId = id ∧ result.disposition = .applied

/-- The registry is told of a reset that the manager did not perform. -/
def BareReset (label : OffloadOp κ σ × Answer κ) : Prop :=
  ∃ now, label.1 = .externalResetSucceeded now

namespace OffloadState

/-! ## One step -/

/-- What every step guarantees about the records and the history. -/
structure Progress (s : OffloadState κ σ) (label : OffloadOp κ σ × Answer κ)
    (s' : OffloadState κ σ) : Prop where
  manager : s'.registry.manager.isSome = s.registry.manager.isSome
  records : ∀ id later, s'.registry.records.get? id = some later →
    Associates label id ∨
      ∃ record, s.registry.records.get? id = some record ∧ record.Evolves later
  history : (∀ id, ¬ FinishApplied label id) → SameHistory s.registry s'.registry

omit [DecidableEq κ] in
theorem Progress.of_advance {s s' : OffloadState κ σ} {label : OffloadOp κ σ × Answer κ}
    (h : Advance s.registry s'.registry) (hhistory : SameHistory s.registry s'.registry) :
    s.Progress label s' :=
  ⟨h.manager, fun id later hget => .inr (h.records id later hget), fun _ => hhistory⟩

/-- A step keeps the state coherent; only a bare reset leaves references behind. -/
def Sound (s : OffloadState κ σ) (slack : κ → ℤ) (label : OffloadOp κ σ × Answer κ)
    (s' : OffloadState κ σ) : Prop :=
  s.Progress label s' ∧
    ∃ slack', s'.Coherent slack' ∧ (¬ BareReset label → (∀ k, slack k = 0) → ∀ k, slack' k = 0)

theorem Coherent.onRegistry {s : OffloadState κ σ} {slack : κ → ℤ} (h : s.Coherent slack)
    {r' : LifecycleRegistry κ σ} {label : OffloadOp κ σ × Answer κ}
    (hbacked : r'.Backed fun k => s.loaders k + slack k)
    (hadvance : Advance s.registry r') (hhistory : SameHistory s.registry r') :
    s.Sound slack label { s with registry := r' } :=
  ⟨.of_advance hadvance hhistory, slack, ⟨hbacked, h.nodup, h.slack_nonneg⟩, fun _ h0 => h0⟩

/-- Exchanging the manager for one that backs the same records. -/
theorem Backed.withManager {r : LifecycleRegistry κ σ} {m' : CPUOffloadingManager κ}
    {others others' : κ → ℤ} (h : r.Backed others) (hnonneg : ∀ k, 0 ≤ others' k)
    (hm' : m'.Accounts fun k => r.retainers k + others' k) :
    Backed { r with manager := some m' } others' :=
  ⟨h.wellFormed, hnonneg, fun m hm => Option.some.inj hm ▸ hm', fun hnone => by cases hnone⟩

theorem Coherent.onManager {s : OffloadState κ σ} {slack : κ → ℤ} (h : s.Coherent slack)
    {m m' : CPUOffloadingManager κ} (hm : s.registry.manager = some m)
    {loads : List (List κ)} (hnodup : ∀ keys ∈ loads, keys.Nodup)
    {label : OffloadOp κ σ × Answer κ}
    (hm' : m'.Accounts fun k =>
      s.registry.retainers k + (loaders ⟨s.registry, loads⟩ k + slack k)) :
    s.Sound slack label ⟨{ s.registry with manager := some m' }, loads⟩ := by
  refine ⟨.of_advance ⟨rfl, by simp [hm], fun id record hget => ⟨record, hget, .refl record⟩⟩
    fun _ => rfl, slack, ⟨Backed.withManager h.backed (fun k => ?_) hm', hnodup,
      h.slack_nonneg⟩, fun _ h0 => h0⟩
  have := loaders_nonneg ⟨s.registry, loads⟩ k
  have := h.slack_nonneg k
  unfold loaders at *
  omega

/-- A call on the manager that moves no reference. -/
theorem Coherent.onManager_same {s : OffloadState κ σ} {slack : κ → ℤ} (h : s.Coherent slack)
    {label : OffloadOp κ σ × Answer κ}
    {f : CPUOffloadingManager κ → Except AssertionFailure (CPUOffloadingManager κ × Answer κ)}
    {s' : OffloadState κ σ} {answer : Answer κ} (hstep : s.onManager f = .ok (s', answer))
    (hf : ∀ m m' answer owed, m.Accounts owed → f m = .ok (m', answer) → m'.Accounts owed) :
    s.Sound slack label s' := by
  unfold OffloadState.onManager at hstep
  cases hm : s.registry.manager with
  | none => simp [hm] at hstep
  | some m =>
      simp only [hm] at hstep
      cases hresult : f m with
      | error e => simp [hresult, Except.map] at hstep
      | ok result =>
          obtain ⟨m', answer'⟩ := result
          simp only [hresult, Except.map, Except.ok.injEq, Prod.mk.injEq] at hstep
          obtain ⟨rfl, rfl⟩ := hstep
          exact h.onManager hm h.nodup (hf m m' _ _ (h.backed.accounts m hm) hresult)

theorem Coherent.modifyRecord {s : OffloadState κ σ} {slack : κ → ℤ} (h : s.Coherent slack)
    {id : String} {f : Lifecycle κ σ → Lifecycle κ σ} {label : OffloadOp κ σ × Answer κ}
    (hf : ∀ record : Lifecycle κ σ, record.WellFormed →
      (f record).WellFormed ∧ (f record).retained = record.retained ∧ record.Evolves (f record)) :
    s.Sound slack label { s with registry := s.registry.modifyRecord id f } := by
  refine h.onRegistry (h.backed.modifyRecord fun record hget => ?_)
    (advance_modifyRecord _ fun record hget => ?_) fun _ => rfl
  · obtain ⟨hwf, hretained, -⟩ := hf record (h.backed.wellFormed id record hget)
    exact ⟨hwf, hretained⟩
  · exact (hf record (h.backed.wellFormed id record hget)).2.2

omit [DecidableEq κ] in
theorem onRegistry_eq_ok {s s' : OffloadState κ σ} {answer : Answer κ}
    {result : Except AssertionFailure (LifecycleRegistry κ σ)}
    (h : s.onRegistry result = .ok (s', answer)) :
    ∃ r', result = .ok r' ∧ s' = { s with registry := r' } := by
  cases result with
  | error e => simp [OffloadState.onRegistry, Except.map] at h
  | ok r' =>
      simp only [OffloadState.onRegistry, Except.map, Except.ok.injEq, Prod.mk.injEq] at h
      exact ⟨r', rfl, h.1.symm⟩

theorem Coherent.associate {s s' : OffloadState κ σ} {slack : κ → ℤ} (h : s.Coherent slack)
    {now : ℚ} {requestId : String} {metadata : TokenCakeMetadata} {answer : Answer κ}
    (hstep : s.step (.associate now requestId metadata) = .ok (s', answer)) :
    s.Sound slack (.associate now requestId metadata, answer) s' := by
  obtain ⟨r₁, hexpire, hbacked₁, hframe₁, hadvance₁, -⟩ := h.backed.expire_advance now
  simp only [OffloadState.step, associate_eq hexpire, Except.map, Except.ok.injEq,
    Prod.mk.injEq] at hstep
  obtain ⟨rfl, rfl⟩ := hstep
  by_cases hnew : r₁.records.get? metadata.lifecycleId = none ∧
      r₁.generations.get? metadata.lifecycleId = none
  · simp only [hnew, and_self, if_true]
    refine ⟨⟨hframe₁.manager, fun id later hlater => ?_, fun _ => hframe₁.sameHistory⟩, slack,
      ⟨hbacked₁.withRecord hnew.1 requestId, h.nodup, h.slack_nonneg⟩, fun _ h0 => h0⟩
    by_cases hid : id = metadata.lifecycleId
    · exact .inl ⟨now, requestId, metadata, hid.symm, rfl⟩
    · right
      refine hadvance₁.records id later ?_
      rw [← hlater]
      exact ((OrdDict.get?_insert ..).trans (if_neg hid)).symm
  · simp only [hnew, if_false]
    exact h.onRegistry hbacked₁ hadvance₁ hframe₁.sameHistory

theorem Coherent.apply {s s' : OffloadState κ σ} {slack : κ → ℤ} (h : s.Coherent slack)
    {expiredAt now now' : ℚ} {event : LifecycleEvent} {answer : Answer κ}
    (hstep : s.step (.apply expiredAt now now' event) = .ok (s', answer)) :
    s.Sound slack (.apply expiredAt now now' event, answer) s' := by
  obtain ⟨r₁, r', result, hexpire, hbacked₁, happly, hbacked', hadvance, -, -, hcase⟩ :=
    h.backed.apply expiredAt now now' event
  simp only [OffloadState.step, happly, Except.map, Except.ok.injEq, Prod.mk.injEq] at hstep
  obtain ⟨rfl, rfl⟩ := hstep
  obtain ⟨r₁', hexpire', -, hframe₁, -, -⟩ := h.backed.expire_advance expiredAt
  obtain rfl : r₁ = r₁' := by simpa [hexpire] using hexpire'
  refine ⟨⟨hadvance.manager, fun id later hlater => .inr (hadvance.records id later hlater),
    fun hfinish => ?_⟩, slack, ⟨hbacked', h.nodup, h.slack_nonneg⟩, fun _ h0 => h0⟩
  rcases hcase with ⟨-, rfl⟩ | ⟨happlied, record, hget, hjudge, hperform⟩
  · exact hframe₁.sameHistory
  · cases hevent : event.event with
    | stallFinished =>
        exact absurd ⟨expiredAt, now, now', event, result, rfl, hevent, rfl, happlied⟩
          (hfinish event.lifecycleId)
    | stallStarted =>
        simp only [perform, hevent] at hperform
        obtain ⟨r₂, hok₂, -, -, -, hhistory₂, -⟩ :=
          hbacked₁.startStall hget (judge_applied hjudge).1 now now'
        obtain rfl : r₂ = r' := by simpa [hok₂] using hperform
        exact fun k => (hhistory₂ k).trans (hframe₁.sameHistory k)

theorem Coherent.prepareLoad {s s' : OffloadState κ σ} {slack : κ → ℤ} (h : s.Coherent slack)
    {keys : List κ} {answer : Answer κ} (hkeys : keys.Nodup)
    (hstep : s.step (.prepareLoad keys) = .ok (s', answer)) :
    s.Sound slack (.prepareLoad keys, answer) s' := by
  simp only [OffloadState.step, OffloadState.onManager] at hstep
  cases hm : s.registry.manager with
  | none => simp [hm, Except.map] at hstep
  | some m =>
      simp only [hm] at hstep
      cases hload : m.prepareLoad keys with
      | error e => simp [hload, Except.map] at hstep
      | ok result =>
          obtain ⟨ids, m'⟩ := result
          simp only [hload, Except.map, Except.ok.injEq, Prod.mk.injEq] at hstep
          obtain ⟨rfl, rfl⟩ := hstep
          refine h.onManager hm ?_ ?_
          · intro keys' hkeys'
            rcases List.mem_cons.mp hkeys' with rfl | hmem
            · exact hkeys
            · exact h.nodup keys' hmem
          · refine ((h.backed.accounts m hm).prepareLoad hkeys hload).congr fun k => ?_
            rw [loaders_cons]
            unfold loaders
            ring

theorem Coherent.completeLoad {s s' : OffloadState κ σ} {slack : κ → ℤ} (h : s.Coherent slack)
    {keys : List κ} {answer : Answer κ} (hkeys : keys ∈ s.loads)
    (hstep : s.step (.completeLoad keys) = .ok (s', answer)) :
    s.Sound slack (.completeLoad keys, answer) s' := by
  simp only [OffloadState.step, OffloadState.onManager] at hstep
  cases hm : s.registry.manager with
  | none => simp [hm, Except.map] at hstep
  | some m =>
      have howed : ∀ k ∈ keys, 0 < s.registry.retainers k + (s.loaders k + slack k) := by
        intro k hk
        have hpos : 0 < s.loaders k := by
          have : 0 < s.loads.countP fun keys => decide (k ∈ keys) :=
            List.countP_pos_iff.mpr ⟨keys, hkeys, by simpa using hk⟩
          unfold loaders
          omega
        have := retainers_nonneg s.registry k
        have := h.slack_nonneg k
        omega
      obtain ⟨m', hload, hm'⟩ :=
        (h.backed.accounts m hm).completeLoad (h.nodup keys hkeys) howed
      simp only [hm, hload, Except.map, Except.ok.injEq, Prod.mk.injEq] at hstep
      obtain ⟨rfl, rfl⟩ := hstep
      refine h.onManager hm ?_ ?_
      · exact fun keys' hkeys' => h.nodup keys' (List.mem_of_mem_erase hkeys')
      · refine hm'.congr fun k => ?_
        rw [loaders_erase s.registry hkeys]
        unfold loaders
        ring

theorem Coherent.resetCache {s s' : OffloadState κ σ} {slack : κ → ℤ} (h : s.Coherent slack)
    {now : ℚ} {answer : Answer κ} (hstep : s.step (.resetCache now) = .ok (s', answer)) :
    s.Sound slack (.resetCache now, answer) s' := by
  simp only [OffloadState.step, OffloadState.onManager] at hstep
  cases hm : s.registry.manager with
  | none => simp [hm, bind, Except.bind] at hstep
  | some m =>
      simp only [hm, Except.map, bind, Except.bind] at hstep
      obtain ⟨r', hreset, rfl⟩ := onRegistry_eq_ok hstep
      obtain ⟨r'', hreset', hbacked, hadvance, hhistory⟩ :=
        @Backed.externalResetSucceeded κ σ _ { s.registry with manager := some m.resetCache }
          (fun _ => 0) h.backed.wellFormed (fun _ => le_rfl)
          (fun m' hm' => Option.some.inj hm' ▸ m.accounts_resetCache) now
      obtain rfl : r'' = r' := by simpa [hreset'] using hreset
      refine ⟨⟨hadvance.manager.trans (by simp [hm]),
        fun id later hlater => .inr (hadvance.records id later hlater), fun _ => hhistory⟩, fun _ => 0, ⟨?_, by simp, fun _ => le_rfl⟩, fun _ _ _ => rfl⟩
      simpa [loaders] using hbacked

theorem Coherent.externalReset {s s' : OffloadState κ σ} {slack : κ → ℤ} (h : s.Coherent slack)
    {now : ℚ} {answer : Answer κ}
    (hstep : s.step (.externalResetSucceeded now) = .ok (s', answer)) :
    s.Sound slack (.externalResetSucceeded now, answer) s' := by
  obtain ⟨r', hreset, rfl⟩ := onRegistry_eq_ok hstep
  -- The references of the records stay behind in the manager.
  set slack' : κ → ℤ := fun k => slack k + s.registry.retainers k with hslack'
  have hnonneg : ∀ k, 0 ≤ slack' k := fun k =>
    add_nonneg (h.slack_nonneg k) (retainers_nonneg s.registry k)
  obtain ⟨r'', hreset', hbacked, hadvance, hhistory⟩ :=
    @Backed.externalResetSucceeded κ σ _ s.registry (fun k => s.loaders k + slack' k)
      h.backed.wellFormed (fun k => add_nonneg (loaders_nonneg s k) (hnonneg k))
      (fun m hm => (h.backed.accounts m hm).congr fun k => by rw [hslack']; ring) now
  obtain rfl : r'' = r' := by simpa [hreset'] using hreset
  exact ⟨.of_advance hadvance hhistory, slack', ⟨hbacked, h.nodup, hnonneg⟩,
    fun hbare => absurd ⟨now, rfl⟩ hbare⟩

/-- Every call keeps the state coherent and lets the records evolve. -/
theorem Coherent.next {s s' : OffloadState κ σ} {slack : κ → ℤ} (h : s.Coherent slack)
    {label : OffloadOp κ σ × Answer κ} (hnext : s.Next label s') : s.Sound slack label s' := by
  obtain ⟨op, answer⟩ := label
  obtain ⟨hpermitted, hstep⟩ := hnext
  cases op with
  | associate now requestId metadata => exact h.associate hstep
  | apply expiredAt now now' event => exact h.apply hstep
  | generationFinished expiredAt now id cause snapshot =>
      obtain ⟨r', hok, rfl⟩ := onRegistry_eq_ok hstep
      obtain ⟨r'', hok', hbacked, hadvance, hhistory⟩ :=
        h.backed.generationFinished expiredAt now id cause snapshot
      obtain rfl : r'' = r' := by simpa [hok'] using hok
      exact h.onRegistry hbacked hadvance hhistory
  | expire now =>
      obtain ⟨r', hok, rfl⟩ := onRegistry_eq_ok hstep
      obtain ⟨r'', hok', hbacked, hframe, hadvance, -⟩ := h.backed.expire_advance now
      obtain rfl : r'' = r' := by simpa [hok'] using hok
      exact h.onRegistry hbacked hadvance hframe.sameHistory
  | setH2dEstimate id seconds now =>
      obtain ⟨r', hok, rfl⟩ := onRegistry_eq_ok hstep
      cases hget : s.registry.records.get? id with
      | none =>
          obtain rfl : s.registry = r' := by
            simpa [LifecycleRegistry.setH2dEstimate, hget] using hok
          exact h.onRegistry h.backed (.refl _) fun _ => rfl
      | some record =>
          cases hstarted : record.startedAt with
          | none => simp [LifecycleRegistry.setH2dEstimate, hget, hstarted] at hok
          | some startedAt =>
              obtain ⟨r'', hok', hbacked, hframe, hrecords⟩ :=
                h.backed.setH2dEstimate hget hstarted seconds now
              obtain rfl : r'' = r' := by simpa [hok'] using hok
              refine h.onRegistry hbacked (hframe.advance_modify hrecords fun record' hget' => ?_)
                hframe.sameHistory
              exact (withDeadline_spec (h.backed.wellFormed id record' hget') _ _).2
  | retainReady now id keys =>
      rcases h.backed.retainReady now id keys with hfail | ⟨retained, r', hok, hbacked, hadv, hhist⟩
      · simp [OffloadState.step, hfail, Except.map] at hstep
      · simp only [OffloadState.step, hok, Except.map, Except.ok.injEq, Prod.mk.injEq] at hstep
        obtain ⟨rfl, rfl⟩ := hstep
        exact h.onRegistry hbacked hadv hhist
  | release id =>
      obtain ⟨r', hok, rfl⟩ := onRegistry_eq_ok hstep
      cases hget : s.registry.records.get? id with
      | none =>
          obtain rfl : s.registry = r' := by
            simpa [LifecycleRegistry.release, hget] using hok
          exact h.onRegistry h.backed (.refl _) fun _ => rfl
      | some record =>
          obtain ⟨r'', hok', hbacked, hframe, hrecords⟩ := h.backed.release hget
          obtain rfl : r'' = r' := by simpa [hok'] using hok
          exact h.onRegistry hbacked
            (hframe.advance_modify hrecords fun record' _ => evolves_clearOwnership record')
            hframe.sameHistory
  | addPending id keys =>
      simp only [OffloadState.step] at hstep
      cases hm : s.registry.manager with
      | none => simp [hm] at hstep
      | some m =>
          simp only [hm] at hstep
          obtain ⟨r', hok, rfl⟩ := onRegistry_eq_ok hstep
          cases hok
          refine h.modifyRecord fun record hwf => ?_
          split
          · rename_i howns
            refine ⟨⟨hwf.cause_iff, hwf.started_iff, hwf.terminal, fun hreleased => ?_⟩, rfl,
              ⟨rfl, fun _ => ⟨rfl, rfl⟩, fun h => h⟩⟩
            have hreleased' : record.ownershipReleased = true := hreleased
            simp [Lifecycle.ownsPreservation, hreleased'] at howns
          · exact ⟨hwf, rfl, .refl record⟩
  | dropPending id keys =>
      obtain ⟨r', hok, rfl⟩ := onRegistry_eq_ok hstep
      cases hok
      refine h.modifyRecord fun record hwf => ⟨⟨hwf.cause_iff, hwf.started_iff, hwf.terminal,
        fun hreleased => ?_⟩, rfl, ⟨rfl, fun _ => ⟨rfl, rfl⟩, fun h => h⟩⟩
      obtain ⟨hretained, hpending⟩ := hwf.released hreleased
      exact ⟨hretained, by simp [hpending]⟩
  | consumeEvaluation id =>
      obtain ⟨r', hok, rfl⟩ := onRegistry_eq_ok hstep
      cases hok
      exact h.modifyRecord fun record hwf => ⟨⟨hwf.cause_iff, hwf.started_iff,
        fun ht => ⟨(hwf.terminal ht).1, (hwf.terminal ht).2.1, rfl⟩, hwf.released⟩, rfl,
        ⟨rfl, fun _ => ⟨rfl, rfl⟩, fun h => h⟩⟩
  | invalidateSnapshots =>
      obtain ⟨r', hok, rfl⟩ := onRegistry_eq_ok hstep
      cases hok
      have hget : ∀ id record, s.registry.invalidateSnapshots.records.get? id = some record →
          ∃ record₀, s.registry.records.get? id = some record₀ ∧
            record = { record₀ with snapshot := none, pendingEvaluation := false } := by
        intro id record hrecord
        rw [LifecycleRegistry.invalidateSnapshots, OrdDict.get?_mapValues] at hrecord
        obtain ⟨record₀, hrecord₀, rfl⟩ := Option.map_eq_some_iff.mp hrecord
        exact ⟨record₀, hrecord₀, rfl⟩
      have hretainers : ∀ k, s.registry.invalidateSnapshots.retainers k =
          s.registry.retainers k := by
        intro k
        unfold retainers LifecycleRegistry.invalidateSnapshots
        rw [OrdDict.sum_mapValues]
      refine h.onRegistry ⟨?_, h.backed.nonneg, ?_, ?_⟩ ⟨rfl, rfl, ?_⟩ fun _ => rfl
      · intro id record hrecord
        obtain ⟨record₀, hrecord₀, rfl⟩ := hget id record hrecord
        have hwf := h.backed.wellFormed id record₀ hrecord₀
        exact ⟨hwf.cause_iff, hwf.started_iff, fun ht => ⟨(hwf.terminal ht).1, rfl, rfl⟩,
          hwf.released⟩
      · exact fun m hm => (h.backed.accounts m hm).congr fun k => by rw [hretainers]
      · intro hm id record hrecord
        obtain ⟨record₀, hrecord₀, rfl⟩ := hget id record hrecord
        exact h.backed.unmanaged hm id record₀ hrecord₀
      · intro id later hlater
        obtain ⟨record₀, hrecord₀, rfl⟩ := hget id later hlater
        exact ⟨record₀, hrecord₀, rfl, fun _ => ⟨rfl, rfl⟩, fun h => h⟩
  | lookup key =>
      refine h.onManager_same hstep fun m m' answer owed haccounts hok => ?_
      cases hok
      exact haccounts.lookup key
  | touch keys =>
      refine h.onManager_same hstep fun m m' answer owed haccounts hok => ?_
      cases hok
      exact haccounts.touch keys
  | prepareLoad keys => exact h.prepareLoad hpermitted hstep
  | completeLoad keys => exact h.completeLoad hpermitted hstep
  | prepareStore keys =>
      refine h.onManager_same hstep fun m m' answer owed haccounts hok => ?_
      cases hstore : m.prepareStore keys with
      | error e => simp [hstore, Except.map] at hok
      | ok result =>
          obtain ⟨output, m''⟩ := result
          simp only [hstore, Except.map, Except.ok.injEq, Prod.mk.injEq] at hok
          obtain ⟨rfl, rfl⟩ := hok
          exact (haccounts.prepareStore hstore).1
  | completeStore keys success =>
      refine h.onManager_same hstep fun m m' answer owed haccounts hok => ?_
      cases hok
      exact haccounts.completeStore keys success
  | resetCache now => exact h.resetCache hstep
  | externalResetSucceeded now => exact h.externalReset hstep

/-! ## Whole runs -/

/-- The managers a run starts from: none at all, or one that has just been created. -/
def FreshManager (manager : Option (CPUOffloadingManager κ)) : Prop :=
  ∀ m ∈ manager, ∃ numBlocks cachePolicy enableEvents storeThreshold maxTrackerSize,
    m = .new numBlocks cachePolicy enableEvents storeThreshold maxTrackerSize

theorem coherent_initial (settings : OffloadConfig) {manager : Option (CPUOffloadingManager κ)}
    (hmanager : FreshManager manager) :
    (initial settings manager : OffloadState κ σ).Coherent fun _ => 0 := by
  refine ⟨⟨by simp [initial, LifecycleRegistry.new], by simp [initial, loaders], ?_,
    by simp [initial, LifecycleRegistry.new]⟩, by simp [initial], fun _ => le_rfl⟩
  intro m hm
  obtain ⟨numBlocks, cachePolicy, enableEvents, storeThreshold, maxTrackerSize, rfl⟩ :=
    hmanager m hm
  refine (CPUOffloadingManager.accounts_new numBlocks cachePolicy enableEvents storeThreshold
    maxTrackerSize).congr fun k => ?_
  simp [initial, LifecycleRegistry.new, retainers, loaders]

theorem Coherent.run {s s' : OffloadState κ σ} {labels : List (OffloadOp κ σ × Answer κ)}
    (run : Run Next s labels s') (h : ∃ slack, s.Coherent slack) :
    ∃ slack, s'.Coherent slack :=
  run.invariant (I := fun s => ∃ slack, s.Coherent slack) (fun s label s' _ hs hnext => by
    obtain ⟨slack, hs⟩ := hs
    obtain ⟨-, slack', hs', -⟩ := hs.next hnext
    exact ⟨slack', hs'⟩) h

/-- Without bare resets nobody loses a reference. -/
theorem Coherent.run_exact {s s' : OffloadState κ σ} {labels : List (OffloadOp κ σ × Answer κ)}
    (run : Run Next s labels s') (hlabels : ∀ label ∈ labels, ¬ BareReset label)
    (h : s.Coherent fun _ => 0) : s'.Coherent fun _ => 0 :=
  run.invariant (I := fun s => s.Coherent fun _ => 0) (fun s label s' hlabel hs hnext => by
    obtain ⟨-, slack', hs', hzero⟩ := hs.next hnext
    have : slack' = fun _ => 0 := funext (hzero (hlabels label hlabel) fun _ => rfl)
    exact this ▸ hs') h

end OffloadState

end TokenCake.Offload
