import TokenCake.Lib.Ensures
import TokenCake.Model.OffloadSystem
import TokenCake.Verification.CPUManager.InFlight
import TokenCake.Verification.Lifecycle.Records

/-! # Keys that wait for their store

A record waits for the keys of its pending retention. No operation of the registry makes a
record wait for more, and expiry takes nothing from a record that still owns its preservation. -/

namespace TokenCake.Offload.LifecycleRegistry

open CPUOffloadingManager

variable {κ σ : Type} [DecidableEq κ] {r r' r'' : LifecycleRegistry κ σ}

/-- The status of a key in the CPU manager. -/
def status (r : LifecycleRegistry κ σ) (k : κ) : Option Bool :=
  r.manager.bind fun m => m.status k

def WF (r : LifecycleRegistry κ σ) : Prop := ∀ m ∈ r.manager, m.policy.WF

/-- The record waits for some of the keys it waited for, unless it waits for none. -/
def Fades (record later : Lifecycle κ σ) : Prop :=
  later.pendingRetention = [] ∨
    (later.pendingRetention ⊆ record.pendingRetention ∧ later.terminalAt = record.terminalAt)

/-- A record that owns its preservation has lost nothing. -/
def Keeps (record later : Lifecycle κ σ) : Prop :=
  later.ownsPreservation = true → record.ownsPreservation = true ∧
    record.retained ⊆ later.retained ∧ record.pendingRetention ⊆ later.pendingRetention

omit [DecidableEq κ] in
theorem Fades.refl (record : Lifecycle κ σ) : Fades record record :=
  .inr ⟨List.Subset.refl _, rfl⟩

omit [DecidableEq κ] in
theorem Fades.trans {a b c : Lifecycle κ σ} (hab : Fades a b) (hbc : Fades b c) : Fades a c := by
  cases hbc with
  | inl hnil => exact .inl hnil
  | inr h =>
      cases hab with
      | inl hnil => exact .inl (List.subset_nil.mp (hnil ▸ h.1))
      | inr h' => exact .inr ⟨List.Subset.trans h.1 h'.1, h.2.trans h'.2⟩

omit [DecidableEq κ] in
theorem Keeps.refl (record : Lifecycle κ σ) : Keeps record record :=
  fun h => ⟨h, List.Subset.refl _, List.Subset.refl _⟩

omit [DecidableEq κ] in
theorem Keeps.trans {a b c : Lifecycle κ σ} (hab : Keeps a b) (hbc : Keeps b c) : Keeps a c := by
  intro hc
  obtain ⟨hb, hretained, hpending⟩ := hbc hc
  obtain ⟨ha, hretained', hpending'⟩ := hab hb
  exact ⟨ha, List.Subset.trans hretained' hretained, List.Subset.trans hpending' hpending⟩

/-! ## The two relations -/

/-- No key changes its status and no record waits for more. -/
structure Quiet (r r' : LifecycleRegistry κ σ) : Prop where
  wf : r'.WF
  status : ∀ k, r'.status k = r.status k
  records : ∀ id later, r'.records.get? id = some later → later.pendingRetention = [] ∨
    ∃ record, r.records.get? id = some record ∧ Fades record later

/-- What expiry does: records disappear or are released, the others stay as they are. -/
structure Expires (r r' : LifecycleRegistry κ σ) : Prop where
  wf : r'.WF
  status : ∀ k, r'.status k = r.status k
  records : ∀ id later, r'.records.get? id = some later →
    ∃ record, r.records.get? id = some record ∧ Fades record later ∧ Keeps record later

theorem Expires.quiet (h : Expires r r') : Quiet r r' :=
  ⟨h.wf, h.status, fun id later hlater => by
    obtain ⟨record, hrecord, hfades, -⟩ := h.records id later hlater
    exact .inr ⟨record, hrecord, hfades⟩⟩

theorem Expires.refl (hwf : r.WF) : Expires r r :=
  ⟨hwf, fun _ => rfl, fun _ later hlater => ⟨later, hlater, Fades.refl later, Keeps.refl later⟩⟩

theorem Expires.trans (h : Expires r r') (h' : Expires r' r'') : Expires r r'' := by
  refine ⟨h'.wf, fun k => (h'.status k).trans (h.status k), fun id later hlater => ?_⟩
  obtain ⟨middle, hmiddle, hfades', hkeeps'⟩ := h'.records id later hlater
  obtain ⟨record, hrecord, hfades, hkeeps⟩ := h.records id middle hmiddle
  exact ⟨record, hrecord, hfades.trans hfades', hkeeps.trans hkeeps'⟩

theorem Quiet.refl (hwf : r.WF) : Quiet r r := (Expires.refl hwf).quiet

theorem Quiet.trans (h : Quiet r r') (h' : Quiet r' r'') : Quiet r r'' := by
  refine ⟨h'.wf, fun k => (h'.status k).trans (h.status k), fun id later hlater => ?_⟩
  cases h'.records id later hlater with
  | inl hnil => exact .inl hnil
  | inr hmiddle =>
      obtain ⟨middle, hmiddle, hfades'⟩ := hmiddle
      cases h.records id middle hmiddle with
      | inl hnil =>
          refine .inl ?_
          cases hfades' with
          | inl hnil' => exact hnil'
          | inr hsub => exact List.subset_nil.mp (hnil ▸ hsub.1)
      | inr hrecord =>
          obtain ⟨record, hrecord, hfades⟩ := hrecord
          exact .inr ⟨record, hrecord, hfades.trans hfades'⟩

omit [DecidableEq κ] in
theorem records_modifyRecord (r : LifecycleRegistry κ σ) (id : String)
    (f : Lifecycle κ σ → Lifecycle κ σ) :
    (r.modifyRecord id f).records = r.records.modify id f := rfl

/-- A record waits for nothing that it did not wait for before. -/
theorem Quiet.mem_pending (h : Quiet r r') {id : String} {later : Lifecycle κ σ}
    (hlater : r'.records.get? id = some later) {k : κ} (hk : k ∈ later.pendingRetention) :
    ∃ record, r.records.get? id = some record ∧ k ∈ record.pendingRetention := by
  have hne : later.pendingRetention ≠ [] := List.ne_nil_of_mem hk
  obtain ⟨record, hrecord, hfades⟩ := (h.records id later hlater).resolve_left hne
  exact ⟨record, hrecord, (hfades.resolve_left hne).1 hk⟩

/-- The assignment of one record. -/
theorem Expires.modify {id : String} {f : Lifecycle κ σ → Lifecycle κ σ} (hwf : r'.WF)
    (hstatus : ∀ k, r'.status k = r.status k) (hrecords : r'.records = r.records.modify id f)
    (hf : ∀ record, r.records.get? id = some record →
      Fades record (f record) ∧ Keeps record (f record)) : Expires r r' := by
  refine ⟨hwf, hstatus, fun id' later hlater => ?_⟩
  rw [hrecords, OrdDict.get?_modify] at hlater
  by_cases hid : id' = id
  · subst hid
    rw [if_pos rfl] at hlater
    obtain ⟨record, hrecord, rfl⟩ := Option.map_eq_some_iff.mp hlater
    exact ⟨record, hrecord, hf record hrecord⟩
  · rw [if_neg hid] at hlater
    exact ⟨later, hlater, Fades.refl later, Keeps.refl later⟩

theorem Quiet.modifyRecord (hwf : r.WF) (id : String) {f : Lifecycle κ σ → Lifecycle κ σ}
    (hf : ∀ record, Fades record (f record)) : Quiet r (r.modifyRecord id f) := by
  refine ⟨hwf, fun _ => rfl, fun id' later hlater => ?_⟩
  rw [get?_modifyRecord] at hlater
  by_cases hid : id' = id
  · rw [if_pos hid] at hlater
    obtain ⟨record, hrecord, rfl⟩ := Option.map_eq_some_iff.mp hlater
    exact .inr ⟨record, hrecord, hf record⟩
  · rw [if_neg hid] at hlater
    exact .inr ⟨later, hlater, Fades.refl later⟩

/-! ## Releasing and expiry -/

/-- Postconditions of the calls of the registry; their failures are not followed. -/
abbrev Returns {α : Type} (P : α → Prop) : Except AssertionFailure α → Prop :=
  Ensures (fun _ => True) P

theorem status_of_manager {m m' : CPUOffloadingManager κ} (hm : r.manager = some m)
    (hcalm : Calm m m') (k : κ) : ({ r with manager := some m' }).status k = r.status k := by
  simp [status, hm, hcalm.status k]

theorem releaseKeys_returns (hwf : r.WF) (keys : List κ) :
    Returns (fun r' => r'.WF ∧ (∀ k, r'.status k = r.status k) ∧ r'.records = r.records)
      (r.releaseKeys keys) := by
  unfold releaseKeys
  split
  · exact Ensures.ok ⟨hwf, fun _ => rfl, rfl⟩
  · split
    · exact Ensures.error trivial
    · next m hm =>
      cases hrelease : m.release keys with
      | error e => exact Ensures.error trivial
      | ok m' =>
          have hcalm := calm_release (hwf m hm) hrelease
          refine Ensures.ok ⟨?_, status_of_manager hm hcalm, rfl⟩
          intro m₁ hm₁
          exact Option.some.inj hm₁ ▸ hcalm.wf

omit [DecidableEq κ] in
theorem cleared (record : Lifecycle κ σ) {f : Lifecycle κ σ → Lifecycle κ σ}
    (hpending : (f record).pendingRetention = []) (howns : (f record).ownsPreservation = false) :
    Fades record (f record) ∧ Keeps record (f record) :=
  ⟨.inl hpending, fun h => by rw [howns] at h; cases h⟩

theorem release_returns (hwf : r.WF) (id : String) :
    Returns (fun r' => r'.WF ∧ (∀ k, r'.status k = r.status k) ∧
      r'.records = r.records.modify id clearOwnership) (r.release id) := by
  unfold release
  split
  · next hnone =>
    refine Ensures.ok ⟨hwf, fun _ => rfl, (OrdDict.modify_eq_self fun record hrecord => ?_).symm⟩
    rw [hnone] at hrecord
    cases hrecord
  · exact releaseKeys_returns (r := r.modifyRecord id clearOwnership) hwf _

theorem release_expires (hwf : r.WF) (id : String) : Returns (Expires r) (r.release id) := by
  refine (release_returns hwf id).mono ?_
  rintro r' ⟨hwf', hstatus, hrecords⟩
  refine Expires.modify hwf' hstatus hrecords fun record _ => cleared record rfl ?_
  simp [Lifecycle.ownsPreservation, clearOwnership]

/-- What `terminalize` makes of a record. -/
def ended (cause : TerminalCause) (now : ℚ) (record : Lifecycle κ σ) : Lifecycle κ σ :=
  if record.terminalAt.isSome then record else endRecord cause now record

theorem terminalize_returns (hwf : r.WF) (id : String) (cause : TerminalCause) (now : ℚ) :
    Returns (fun r' => r'.WF ∧ (∀ k, r'.status k = r.status k) ∧
      r'.records = r.records.modify id (ended cause now)) (r.terminalize id cause now) := by
  unfold terminalize
  split
  · next hnone =>
    refine Ensures.ok ⟨hwf, fun _ => rfl, (OrdDict.modify_eq_self fun record hrecord => ?_).symm⟩
    rw [hnone] at hrecord
    cases hrecord
  · next record hrecord =>
    have hsame : ∀ record', r.records.get? id = some record' → record' = record :=
      fun record' hrecord' => Option.some.inj (hrecord'.symm.trans hrecord)
    split
    · next hterminal =>
      refine Ensures.ok ⟨hwf, fun _ => rfl, (OrdDict.modify_eq_self fun record' hget => ?_).symm⟩
      rw [hsame record' hget, ended, if_pos hterminal]
    · next hlive =>
      refine (release_returns hwf id).map ?_
      rintro r' ⟨hwf', hstatus, hrecords⟩
      refine ⟨hwf', hstatus, ?_⟩
      rw [modifyRecord, hrecords]
      refine (OrdDict.modify_modify ..).trans (OrdDict.modify_congr fun record' hget => ?_)
      rw [hsame record' hget, ended, if_neg hlive]
      rfl

theorem terminalize_expires (hwf : r.WF) (id : String) (cause : TerminalCause) (now : ℚ) :
    Returns (Expires r) (r.terminalize id cause now) := by
  refine (terminalize_returns hwf id cause now).mono ?_
  rintro r' ⟨hwf', hstatus, hrecords⟩
  refine Expires.modify hwf' hstatus hrecords fun record _ => ?_
  unfold ended
  split
  · exact ⟨Fades.refl record, Keeps.refl record⟩
  · refine cleared record (f := endRecord cause now) rfl ?_
    simp [Lifecycle.ownsPreservation, endRecord, markTerminal, clearOwnership]

theorem expireRecord_expires (hwf : r.WF) (now : ℚ) (entry : String × Lifecycle κ σ) :
    Returns (Expires r) (expireRecord now r entry) := by
  have hsame : Returns (Expires r) (.ok r) := Ensures.ok (Expires.refl hwf)
  unfold expireRecord
  dsimp only
  split
  · split
    · -- a tombstone has served its time
      refine Ensures.ok ⟨hwf, fun _ => rfl, fun id later hlater => ?_⟩
      rw [OrdDict.get?_erase] at hlater
      split at hlater
      · cases hlater
      · exact ⟨later, hlater, Fades.refl later, Keeps.refl later⟩
    · exact hsame
  · split
    · exact terminalize_expires hwf ..
    · split
      · exact release_expires hwf _
      · exact hsame
  · split
    · exact terminalize_expires hwf ..
    · exact hsame
  · exact hsame

theorem foldlM_expires {α : Type}
    {step : LifecycleRegistry κ σ → α → Except AssertionFailure (LifecycleRegistry κ σ)}
    (hstep : ∀ (r : LifecycleRegistry κ σ) a, r.WF → Returns (Expires r) (step r a))
    (items : List α) (hwf : r.WF) : Returns (Expires r) (items.foldlM step r) := by
  refine Ensures.foldlM (I := fun _ => Expires r) ?_ items r (Expires.refl hwf)
  intro a _ r₁ h₁
  exact (hstep r₁ a h₁.wf).mono fun r₂ h₂ => h₁.trans h₂

theorem expire_expires (hwf : r.WF) (now : ℚ) : Returns (Expires r) (r.expire now) :=
  foldlM_expires (fun _ entry hwf => expireRecord_expires hwf now entry) _ hwf

/-! ## Events -/

theorem associate_quiet (hwf : r.WF) (now : ℚ) (requestId : String)
    (metadata : TokenCakeMetadata) :
    Returns (fun out => Quiet r out.1) (r.associate now requestId metadata) := by
  refine Ensures.bind (expire_expires hwf now) ?_
  intro r₁ h₁
  dsimp only
  split
  · exact Ensures.ok h₁.quiet
  · refine Ensures.ok (h₁.quiet.trans ⟨h₁.wf, fun _ => rfl, fun id later hlater => ?_⟩)
    dsimp only at hlater
    rw [OrdDict.get?_insert] at hlater
    split at hlater
    · exact .inl (by rw [← Option.some.inj hlater])
    · exact .inr ⟨later, hlater, Fades.refl later⟩

theorem generationFinished_quiet (hwf : r.WF) (expiredAt now : ℚ) (id : String)
    (cause : GenerationCause) (snapshot : Option σ) :
    Returns (Quiet r) (r.generationFinished expiredAt now id cause snapshot) := by
  refine Ensures.bind (expire_expires hwf expiredAt) ?_
  intro r₁ h₁
  have h₂ : Quiet r { r₁ with generations := r₁.generations.erase id } :=
    ⟨h₁.wf, h₁.status, h₁.quiet.records⟩
  dsimp only
  split
  · exact Ensures.ok h₂
  · split
    · exact Ensures.ok h₂
    · split
      · refine (terminalize_expires h₂.wf id cause.toTerminal now).mono ?_
        exact fun r₃ h₃ => h₂.trans h₃.quiet
      · refine Ensures.ok (h₂.trans (Quiet.modifyRecord h₂.wf id fun record => ?_))
        exact .inr ⟨List.Subset.refl _, rfl⟩

theorem setH2dEstimate_quiet (hwf : r.WF) (id : String) (seconds now : ℚ) :
    Returns (Quiet r) (r.setH2dEstimate id seconds now) := by
  unfold setH2dEstimate
  split
  · exact Ensures.ok (Quiet.refl hwf)
  · split
    · exact Ensures.error trivial
    · have h₁ : ∀ deadline : WithTop ℚ, Quiet r (r.modifyRecord id fun record =>
          { record with releaseDeadline := deadline }) := fun _ =>
        Quiet.modifyRecord hwf id fun record => .inr ⟨List.Subset.refl _, rfl⟩
      dsimp only
      split
      · exact (release_expires (h₁ _).wf id).mono fun r₂ h₂ => (h₁ _).trans h₂.quiet
      · exact Ensures.ok (h₁ _)

theorem predict_quiet (hwf : r.WF) (record : Lifecycle κ σ) (event : LifecycleEvent) :
    Quiet r (r.predict record event).2 := by
  unfold predict
  dsimp only
  split
  · exact ⟨hwf, fun _ => rfl, (Quiet.refl hwf).records⟩
  · exact Quiet.refl hwf

theorem startStall_quiet (hwf : r.WF) (record : Lifecycle κ σ) (event : LifecycleEvent)
    (now now' : ℚ) : Returns (Quiet r) (r.startStall record event now now') := by
  have h₁ := predict_quiet hwf record event
  unfold startStall
  generalize r.predict record event = predicted at h₁
  obtain ⟨duration, r₁⟩ := predicted
  dsimp only at h₁ ⊢
  have h₂ := h₁.trans (Quiet.modifyRecord (f := fun record =>
    { record with
      start := some event
      startedAt := some now
      predictedDuration := duration
      safetyDeadline := (safetyDeadlineOf now duration : ℚ) }) h₁.wf event.lifecycleId
    fun record => .inr ⟨List.Subset.refl _, rfl⟩)
  refine (setH2dEstimate_quiet h₂.wf event.lifecycleId 0 now').map ?_
  intro r₃ h₃
  refine (h₂.trans h₃).trans (Quiet.modifyRecord h₃.wf _ fun record => ?_)
  exact .inr ⟨List.Subset.refl _, rfl⟩

theorem learn_quiet (hwf : r.WF) (id : String) (record : Lifecycle κ σ) (now : ℚ) :
    Returns (Quiet r) (r.learn id record now) := by
  unfold learn
  split
  · dsimp only
    split
    · exact Ensures.ok (Quiet.modifyRecord hwf id fun record => .inr ⟨List.Subset.refl _, rfl⟩)
    · unfold learnUnder
      split
      · exact Ensures.ok ⟨hwf, fun _ => rfl, (Quiet.refl hwf).records⟩
      · exact Ensures.ok ⟨hwf, fun _ => rfl, (Quiet.refl hwf).records⟩
  · exact Ensures.error trivial

theorem finishStall_quiet (hwf : r.WF) (record : Lifecycle κ σ) (id : String) (now : ℚ) :
    Returns (Quiet r) (r.finishStall record id now) := by
  refine Ensures.bind (learn_quiet hwf id record now) ?_
  intro r₁ h₁
  have h₂ := h₁.trans (Quiet.modifyRecord (f := fun record =>
    { record with finishAccepted := true }) h₁.wf id
    fun record => .inr ⟨List.Subset.refl _, rfl⟩)
  exact (terminalize_expires h₂.wf id .finished now).mono fun r₃ h₃ => h₂.trans h₃.quiet

theorem apply_quiet (hwf : r.WF) (expiredAt now now' : ℚ) (event : LifecycleEvent) :
    Returns (fun out => Quiet r out.1) (r.apply expiredAt now now' event) := by
  refine Ensures.bind (expire_expires hwf expiredAt) ?_
  intro r₁ h₁
  dsimp only
  split
  · exact Ensures.ok h₁.quiet
  · next record _ =>
    split
    · have hperform : Returns (Quiet r₁) (r₁.perform record event now now') := by
        unfold perform
        split
        · exact startStall_quiet h₁.wf record event now now'
        · exact finishStall_quiet h₁.wf record event.lifecycleId now
      refine Ensures.bind hperform ?_
      exact fun r₂ h₂ => Ensures.ok (h₁.quiet.trans h₂)
    · exact Ensures.ok h₁.quiet

theorem invalidateSnapshots_quiet (hwf : r.WF) : Quiet r r.invalidateSnapshots := by
  refine ⟨hwf, fun _ => rfl, fun id later hlater => ?_⟩
  rw [invalidateSnapshots, OrdDict.get?_mapValues] at hlater
  obtain ⟨record, hrecord, rfl⟩ := Option.map_eq_some_iff.mp hlater
  exact .inr ⟨record, hrecord, .inr ⟨List.Subset.refl _, rfl⟩⟩

theorem dropPending_quiet (hwf : r.WF) (id : String) (keys : List κ) :
    Quiet r (r.dropPending id keys) :=
  Quiet.modifyRecord hwf id fun _ => .inr ⟨List.filter_subset_self _, rfl⟩

/-! ## Retention -/

/-- A record that still owns its preservation retains the ready keys it is offered. -/
theorem retainReady_returns (hwf : r.WF) (now : ℚ) (id : String) (keys : List κ) :
    Returns (fun out => Expires r out.2 ∧ ∀ later, out.2.records.get? id = some later →
      later.ownsPreservation = true → ∀ k ∈ keys, r.status k = some true → k ∈ later.retained)
      (r.retainReady now id keys) := by
  refine Ensures.bind (expire_expires hwf now) ?_
  intro r₁ h₁
  dsimp only
  split
  · next hnone =>
    refine Ensures.ok ⟨h₁, fun later hlater => ?_⟩
    rw [hnone] at hlater
    cases hlater
  · next record hrecord =>
    split
    · split
      · exact Ensures.error trivial
      · next m hm =>
        have hcalm := calm_retain (h₁.wf m hm) (keys.filter (· ∉ record.retained))
        refine Ensures.ok ⟨h₁.trans ?_, ?_⟩
        · dsimp only
          refine Expires.modify ?_ (status_of_manager hm hcalm) (records_modifyRecord ..) ?_
          · intro m₁ hm₁
            exact Option.some.inj hm₁ ▸ hcalm.wf
          · intro record' _
            exact ⟨.inr ⟨List.Subset.refl _, rfl⟩,
              fun howns => ⟨howns, List.subset_append_left _ _, List.Subset.refl _⟩⟩
        · intro later hlater _ k hk hready
          rw [get?_modifyRecord, if_pos rfl] at hlater
          obtain ⟨record', hrecord', rfl⟩ := Option.map_eq_some_iff.mp hlater
          obtain rfl : record = record' := Option.some.inj (hrecord.symm.trans hrecord')
          by_cases hmem : k ∈ record.retained
          · exact List.mem_append_left _ hmem
          · refine List.mem_append_right _ (mem_retain_iff.mpr ⟨?_, ?_⟩)
            · exact List.mem_filter.mpr ⟨hk, by simpa using hmem⟩
            · rw [← h₁.status k] at hready
              rw [isKeyReady_iff_status]
              simpa [status, hm] using hready
    · next howns =>
      refine Ensures.ok ⟨h₁, fun later hlater h => ?_⟩
      rw [hrecord] at hlater
      exact absurd (Option.some.inj hlater ▸ h) howns

/-! ## Reset -/

/-- A record that ended waits for nothing. -/
def Ended (r : LifecycleRegistry κ σ) : Prop :=
  ∀ id record, r.records.get? id = some record → record.terminalAt.isSome = true →
    record.pendingRetention = []

theorem Quiet.ended (h : Quiet r r') (hr : r.Ended) : r'.Ended := by
  intro id later hlater hterminal
  cases h.records id later hlater with
  | inl hnil => exact hnil
  | inr hrecord =>
      obtain ⟨record, hrecord, hfades⟩ := hrecord
      cases hfades with
      | inl hnil => exact hnil
      | inr hsub =>
          have hnil := hr id record hrecord (hsub.2 ▸ hterminal)
          exact List.subset_nil.mp (hnil ▸ hsub.1)

/-- After a reset no record waits for a key. -/
theorem externalResetSucceeded_returns (hwf : r.WF) (hended : r.Ended) (now : ℚ) :
    Returns (fun r' => r'.WF ∧ (∀ k, r'.status k = r.status k) ∧
      ∀ id later, r'.records.get? id = some later → later.pendingRetention = [])
      (r.externalResetSucceeded now) := by
  -- The records that the loop has passed have ended, as had those that it need not change.
  refine (Ensures.foldlM (I := fun rest r' => r'.WF ∧ (∀ k, r'.status k = r.status k) ∧
    ∀ id later, r'.records.get? id = some later →
      (later.terminalAt.isSome = true → later.pendingRetention = []) ∧
      (id ∈ rest ∨ later.pendingRetention = [])) ?_ r.records.keys r
    ⟨hwf, fun _ => rfl, fun id later hlater => ⟨hended id later hlater, .inl ?_⟩⟩).mono ?_
  · rintro id rest r₁ ⟨hwf₁, hstatus₁, hrecords₁⟩
    refine (terminalize_returns (r := r₁.modifyRecord id fun record =>
      { record with retained := [] }) hwf₁ id .reset now).mono ?_
    rintro r₂ ⟨hwf₂, hstatus₂, hrecords₂⟩
    refine ⟨hwf₂, fun k => (hstatus₂ k).trans (hstatus₁ k), fun id' later hlater => ?_⟩
    rw [hrecords₂, OrdDict.get?_modify, get?_modifyRecord] at hlater
    by_cases hid : id' = id
    · rw [if_pos hid, if_pos hid, Option.map_map] at hlater
      obtain ⟨record, hrecord, rfl⟩ := Option.map_eq_some_iff.mp hlater
      have hnil : (ended .reset now { record with retained := [] }).pendingRetention = [] := by
        unfold ended
        split
        · next hterminal => exact (hrecords₁ id' record hrecord).1 hterminal
        · rfl
      exact ⟨fun _ => hnil, .inr hnil⟩
    · rw [if_neg hid, if_neg hid] at hlater
      obtain ⟨hterminal, hrest⟩ := hrecords₁ id' later hlater
      refine ⟨hterminal, hrest.imp_left fun hmem => ?_⟩
      exact (List.mem_cons.mp hmem).resolve_left hid
  · exact OrdDict.mem_keys_iff.mpr ⟨later, hlater⟩
  · rintro r' ⟨hwf', hstatus, hrecords⟩
    refine ⟨hwf', hstatus, fun id later hlater => ?_⟩
    exact (hrecords id later hlater).2.resolve_left List.not_mem_nil

end TokenCake.Offload.LifecycleRegistry
