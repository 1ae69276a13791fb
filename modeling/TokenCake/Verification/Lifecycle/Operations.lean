import Mathlib.Tactic.Linarith
import TokenCake.Model.OffloadSystem
import TokenCake.Verification.Lifecycle.Records

/-! # Operations of the lifecycle registry

Every operation succeeds on a backed registry, keeps it backed and lets each of its records
evolve. -/

namespace TokenCake.Offload.LifecycleRegistry

open Lifecycle

variable {κ σ : Type*}

/-! ## How a registry advances -/

/-- Every record of `r'` is a record of `r` at a later moment. -/
structure Advance (r r' : LifecycleRegistry κ σ) : Prop where
  settings : r'.settings = r.settings
  manager : r'.manager.isSome = r.manager.isSome
  records : ∀ id later, r'.records.get? id = some later →
    ∃ record, r.records.get? id = some record ∧ record.Evolves later

/-- The remembered durations are the same; their order may differ. -/
def SameHistory (r r' : LifecycleRegistry κ σ) : Prop :=
  ∀ k, r'.history.get? k = r.history.get? k

theorem Advance.refl (r : LifecycleRegistry κ σ) : Advance r r :=
  ⟨rfl, rfl, fun _ record hget => ⟨record, hget, .refl record⟩⟩

theorem Advance.trans {r r' r'' : LifecycleRegistry κ σ} (h : Advance r r')
    (h' : Advance r' r'') : Advance r r'' where
  settings := h'.settings.trans h.settings
  manager := h'.manager.trans h.manager
  records id later hget := by
    obtain ⟨record', hget', hevolves'⟩ := h'.records id later hget
    obtain ⟨record, hget₀, hevolves⟩ := h.records id record' hget'
    exact ⟨record, hget₀, hevolves.trans hevolves'⟩

theorem Frame.sameHistory {r r' : LifecycleRegistry κ σ} (h : Frame r r') :
    SameHistory r r' := fun k => by rw [h.history]

/-- Rewriting one record, as long as it evolves. -/
theorem Frame.advance_modify {r r' : LifecycleRegistry κ σ} (h : Frame r r') {id : String}
    {f : Lifecycle κ σ → Lifecycle κ σ} (hrecords : r'.records = r.records.modify id f)
    (hf : ∀ record, r.records.get? id = some record → record.Evolves (f record)) :
    Advance r r' where
  settings := h.settings
  manager := h.manager
  records id' later hget := by
    rw [hrecords, OrdDict.get?_modify] at hget
    by_cases hid : id' = id
    · subst hid
      simp only [if_true] at hget
      obtain ⟨record, hget₀, rfl⟩ := Option.map_eq_some_iff.mp hget
      exact ⟨record, hget₀, hf record hget₀⟩
    · exact ⟨later, by simpa [hid] using hget, .refl later⟩

theorem advance_modifyRecord (r : LifecycleRegistry κ σ) {id : String}
    {f : Lifecycle κ σ → Lifecycle κ σ}
    (hf : ∀ record, r.records.get? id = some record → record.Evolves (f record)) :
    Advance r (r.modifyRecord id f) :=
  Frame.advance_modify ⟨rfl, rfl, rfl, rfl⟩ rfl hf

variable [DecidableEq κ]

theorem Backed.expire_advance {r : LifecycleRegistry κ σ} {others : κ → ℤ}
    (h : r.Backed others) (now : ℚ) :
    ∃ r', r.expire now = .ok r' ∧ r'.Backed others ∧ Frame r r' ∧ Advance r r' ∧
      ∀ id record, r'.records.get? id = some record → settle now record = some record := by
  obtain ⟨r', hok, hbacked, hframe, hget⟩ := h.expire now
  refine ⟨r', hok, hbacked, hframe, ⟨hframe.settings, hframe.manager, ?_⟩, ?_⟩
  · intro id later hlater
    rw [hget] at hlater
    obtain ⟨record, hrecord, hsettle⟩ := Option.bind_eq_some_iff.mp hlater
    exact ⟨record, hrecord, (settle_spec (h.wellFormed id record hrecord) hsettle).2⟩
  · intro id record hrecord
    rw [hget] at hrecord
    obtain ⟨record₀, -, hsettle⟩ := Option.bind_eq_some_iff.mp hrecord
    exact settle_idem hsettle

/-! ## Association and the end of a generation -/

/-- The registry after a successful association. -/
def withRecord (r : LifecycleRegistry κ σ) (requestId : String)
    (metadata : TokenCakeMetadata) : LifecycleRegistry κ σ :=
  { r with
    generations := r.generations.insert metadata.lifecycleId requestId
    records := r.records.insert metadata.lifecycleId { metadata := metadata } }

theorem Backed.withRecord {r : LifecycleRegistry κ σ} {others : κ → ℤ} (h : r.Backed others)
    {metadata : TokenCakeMetadata} (hnew : r.records.get? metadata.lifecycleId = none)
    (requestId : String) : (r.withRecord requestId metadata).Backed others := by
  have hretainers : ∀ k, (r.withRecord requestId metadata).retainers k = r.retainers k := by
    intro k
    unfold retainers LifecycleRegistry.withRecord
    rw [OrdDict.sum_insert_new hnew]
    simp
  have hget : ∀ id, (r.withRecord requestId metadata).records.get? id =
      if id = metadata.lifecycleId then some { metadata := metadata }
      else r.records.get? id := fun id => OrdDict.get?_insert ..
  refine ⟨?_, h.nonneg, fun m hm => (h.accounts m hm).congr fun k => by rw [hretainers], ?_⟩
  · intro id record hrecord
    rw [hget] at hrecord
    split at hrecord
    · exact Option.some.inj hrecord ▸ wellFormed_new metadata
    · exact h.wellFormed id record hrecord
  · intro hm id record hrecord
    rw [hget] at hrecord
    split at hrecord
    · exact Option.some.inj hrecord ▸ rfl
    · exact h.unmanaged hm id record hrecord

/-- Association succeeds exactly when, after expiry, neither a record nor a live generation
carries the identifier; a refused one leaves what expiry leaves. -/
theorem associate_eq {r r₁ : LifecycleRegistry κ σ} {now : ℚ} (hexpire : r.expire now = .ok r₁)
    (requestId : String) (metadata : TokenCakeMetadata) :
    r.associate now requestId metadata = .ok
      (if r₁.records.get? metadata.lifecycleId = none ∧
          r₁.generations.get? metadata.lifecycleId = none
        then (r₁.withRecord requestId metadata, .associated)
        else (r₁, .duplicateLifecycleError)) := by
  simp only [associate, hexpire, bind, Except.bind, pure, Except.pure, withRecord,
    OrdDict.contains, Bool.or_eq_true, decide_eq_true_eq, OrdDict.get?_eq_none_iff]
  by_cases hrecord : metadata.lifecycleId ∈ r₁.records.keys
  · simp [hrecord]
  · by_cases hgeneration : metadata.lifecycleId ∈ r₁.generations.keys <;>
      simp [hrecord, hgeneration]

theorem Backed.generationFinished {r : LifecycleRegistry κ σ} {others : κ → ℤ}
    (h : r.Backed others) (expiredAt now : ℚ) (id : String) (cause : GenerationCause)
    (snapshot : Option σ) :
    ∃ r', r.generationFinished expiredAt now id cause snapshot = .ok r' ∧ r'.Backed others ∧
      Advance r r' ∧ SameHistory r r' := by
  obtain ⟨r₁, hok₁, hbacked₁, hframe₁, hadvance₁, -⟩ := h.expire_advance expiredAt
  set r₂ : LifecycleRegistry κ σ := { r₁ with generations := r₁.generations.erase id } with hr₂
  have hbacked₂ : r₂.Backed others :=
    ⟨hbacked₁.wellFormed, hbacked₁.nonneg, hbacked₁.accounts, hbacked₁.unmanaged⟩
  have hadvance₂ : Advance r r₂ := hadvance₁.trans
    ⟨rfl, rfl, fun id' record hget => ⟨record, hget, .refl record⟩⟩
  have hhistory₂ : SameHistory r r₂ := hframe₁.sameHistory
  simp only [LifecycleRegistry.generationFinished, hok₁, bind, Except.bind, pure, Except.pure]
  cases hget₁ : r₁.records.get? id with
  | none => exact ⟨r₂, rfl, hbacked₂, hadvance₂, hhistory₂⟩
  | some record =>
      have hget : r₂.records.get? id = some record := hget₁
      dsimp only
      cases hterminal : record.terminalAt.isSome with
      | true => exact ⟨r₂, rfl, hbacked₂, hadvance₂, hhistory₂⟩
      | false =>
          simp only [Bool.false_eq_true, if_false]
          split
          · obtain ⟨r₃, hok₃, hbacked₃, hframe₃, hrecords₃⟩ :=
              hbacked₂.terminalize hget hterminal cause.toTerminal now
            refine ⟨r₃, hok₃, hbacked₃, hadvance₂.trans ?_, fun k => ?_⟩
            · refine hframe₃.advance_modify hrecords₃ fun record' hget' => ?_
              obtain rfl : record = record' := by simpa [hget] using hget'
              exact evolves_endRecord hterminal _ _
            · rw [hframe₃.history]
              exact hhistory₂ k
          · refine ⟨_, rfl, hbacked₂.modifyRecord fun record' hget' => ?_,
              hadvance₂.trans (advance_modifyRecord _ fun record' _ => ?_), hhistory₂⟩
            · obtain rfl : record = record' := by simpa [hget] using hget'
              have hwf := hbacked₂.wellFormed id record hget
              exact ⟨⟨hwf.cause_iff, hwf.started_iff, fun ht => by simp [hterminal] at ht,
                hwf.released⟩, rfl⟩
            · exact ⟨rfl, fun _ => ⟨rfl, rfl⟩, fun h => h⟩

/-! ## Stall events -/

/-- The release deadline that an estimate of the transfer back yields. -/
def deadlineOf (settings : OffloadConfig) (startedAt predicted seconds : ℚ) : ℚ :=
  startedAt + predicted - max settings.releaseLeadS (5 / 4 * seconds)

/-- A record with a new release deadline, released if the deadline has passed. -/
def withDeadline (deadline now : ℚ) (record : Lifecycle κ σ) : Lifecycle κ σ :=
  if deadline ≤ now then clearOwnership { record with releaseDeadline := (deadline : ℚ) }
  else { record with releaseDeadline := (deadline : ℚ) }

omit [DecidableEq κ] in
theorem withDeadline_spec {record : Lifecycle κ σ} (h : record.WellFormed) (deadline now : ℚ) :
    (withDeadline deadline now record).WellFormed ∧
      record.Evolves (withDeadline deadline now record) := by
  have hwf : ({ record with releaseDeadline := (deadline : ℚ) } : Lifecycle κ σ).WellFormed :=
    ⟨h.cause_iff, h.started_iff, h.terminal, h.released⟩
  unfold withDeadline
  split
  · exact ⟨wellFormed_clearOwnership hwf, ⟨rfl, fun _ => ⟨rfl, rfl⟩, fun _ => rfl⟩⟩
  · exact ⟨hwf, ⟨rfl, fun _ => ⟨rfl, rfl⟩, id⟩⟩

theorem Backed.setH2dEstimate {r : LifecycleRegistry κ σ} {others : κ → ℤ}
    (h : r.Backed others) {id : String} {record : Lifecycle κ σ} {startedAt : ℚ}
    (hget : r.records.get? id = some record) (hstarted : record.startedAt = some startedAt)
    (seconds now : ℚ) :
    ∃ r', r.setH2dEstimate id seconds now = .ok r' ∧ r'.Backed others ∧ Frame r r' ∧
      r'.records = r.records.modify id (withDeadline
        (deadlineOf r.settings startedAt record.predictedDuration seconds) now) := by
  set deadline := deadlineOf r.settings startedAt record.predictedDuration seconds with hdeadline
  set r₁ := r.modifyRecord id fun record => { record with releaseDeadline := (deadline : ℚ) }
    with hr₁
  have hbacked₁ : r₁.Backed others := h.modifyRecord fun record' hget' => by
    have hwf := h.wellFormed id record' hget'
    exact ⟨⟨hwf.cause_iff, hwf.started_iff, hwf.terminal, hwf.released⟩, rfl⟩
  have hget₁ : r₁.records.get? id =
      some { record with releaseDeadline := (deadline : ℚ) } := by
    rw [hr₁, get?_modifyRecord, if_pos rfl, hget]
    rfl
  have hunfold : r.setH2dEstimate id seconds now =
      if deadline ≤ now then r₁.release id else .ok r₁ := by
    simp only [LifecycleRegistry.setH2dEstimate, hget, hstarted, hr₁, hdeadline, deadlineOf]
  rw [hunfold]
  by_cases hpassed : deadline ≤ now
  · obtain ⟨r₂, hok₂, hbacked₂, hframe₂, hrecords₂⟩ := hbacked₁.release hget₁
    refine ⟨r₂, by rw [if_pos hpassed, hok₂], hbacked₂, ⟨hframe₂.settings, hframe₂.manager,
      hframe₂.generations, hframe₂.history⟩, ?_⟩
    rw [hrecords₂, hr₁, LifecycleRegistry.modifyRecord, OrdDict.modify_modify]
    unfold withDeadline
    simp only [hpassed, if_true]
  · refine ⟨r₁, if_neg hpassed, hbacked₁, ⟨rfl, rfl, rfl, rfl⟩, ?_⟩
    rw [hr₁, LifecycleRegistry.modifyRecord]
    unfold withDeadline
    simp only [hpassed, if_false]

/-- The record of a stall that started. -/
def startedRecord (settings : OffloadConfig) (event : LifecycleEvent) (predicted now now' : ℚ)
    (record : Lifecycle κ σ) : Lifecycle κ σ :=
  let begun := { record with
    start := some event
    startedAt := some now
    predictedDuration := predicted
    safetyDeadline := (safetyDeadlineOf now predicted : ℚ) }
  let placed := withDeadline (deadlineOf settings now predicted 0) now' begun
  { placed with pendingEvaluation := placed.completedAt.isSome }

omit [DecidableEq κ] in
theorem terminalAt_withDeadline (deadline now : ℚ) (record : Lifecycle κ σ) :
    (withDeadline deadline now record).terminalAt = record.terminalAt := by
  unfold withDeadline
  split <;> rfl

omit [DecidableEq κ] in
theorem startedRecord_spec {record : Lifecycle κ σ} (h : record.WellFormed)
    (hlive : record.terminalAt.isSome = false) (settings : OffloadConfig)
    (event : LifecycleEvent) (predicted now now' : ℚ) :
    (startedRecord settings event predicted now now' record).WellFormed ∧
      record.Evolves (startedRecord settings event predicted now now' record) := by
  have hbegun : ({ record with
      start := some event
      startedAt := some now
      predictedDuration := predicted
      safetyDeadline := (safetyDeadlineOf now predicted : ℚ) } : Lifecycle κ σ).WellFormed :=
    ⟨h.cause_iff, rfl, h.terminal, h.released⟩
  obtain ⟨hwf, hevolves⟩ :=
    withDeadline_spec hbegun (deadlineOf settings now predicted 0) now'
  refine ⟨⟨hwf.cause_iff, hwf.started_iff, fun ht => ?_, hwf.released⟩,
    ⟨hevolves.metadata, hevolves.terminal, hevolves.released⟩⟩
  change Option.isSome (withDeadline _ _ _).terminalAt = true at ht
  rw [terminalAt_withDeadline] at ht
  simp [hlive] at ht

omit [DecidableEq κ] in
theorem start_startedRecord (settings : OffloadConfig) (event : LifecycleEvent)
    (predicted now now' : ℚ) (record : Lifecycle κ σ) :
    (startedRecord settings event predicted now now' record).start = some event := by
  unfold startedRecord withDeadline
  dsimp only
  split <;> rfl

omit [DecidableEq κ] in
/-- A stall that has just started is settled: its safety deadline lies ahead, and its release
deadline has already been taken into account. -/
theorem settle_startedRecord {record : Lifecycle κ σ}
    (hlive : record.terminalAt.isSome = false) (settings : OffloadConfig)
    (event : LifecycleEvent) (predicted now : ℚ) :
    settle now (startedRecord settings event predicted now now record) =
      some (startedRecord settings event predicted now now record) := by
  have hnone : record.terminalAt = none := by simpa using hlive
  have hsafe : ¬ safetyDeadlineOf now predicted ≤ now := by
    have : (60 : ℚ) ≤ min 3600 (max 60 (4 * predicted)) :=
      le_min (by norm_num) (le_max_left _ _)
    unfold safetyDeadlineOf
    linarith
  have hsafe' : ¬ ((safetyDeadlineOf now predicted : ℚ) : WithTop ℚ) ≤ (now : ℚ) := by
    simpa using hsafe
  by_cases hpassed : deadlineOf settings now predicted 0 ≤ now
  · have hpassed' : ((deadlineOf settings now predicted 0 : ℚ) : WithTop ℚ) ≤ (now : ℚ) := by
      simpa using hpassed
    simp [settle, startedRecord, withDeadline, hpassed, hpassed', hnone, hsafe', clearOwnership]
  · have hpassed' : ¬ ((deadlineOf settings now predicted 0 : ℚ) : WithTop ℚ) ≤ (now : ℚ) := by
      simpa using hpassed
    simp [settle, startedRecord, withDeadline, hpassed, hpassed', hnone, hsafe']

theorem Backed.startStall {r : LifecycleRegistry κ σ} {others : κ → ℤ} (h : r.Backed others)
    {record : Lifecycle κ σ} {event : LifecycleEvent}
    (hget : r.records.get? event.lifecycleId = some record)
    (hlive : record.terminalAt.isSome = false) (now now' : ℚ) :
    ∃ r', r.startStall record event now now' = .ok r' ∧ r'.Backed others ∧
      r'.settings = r.settings ∧ r'.manager.isSome = r.manager.isSome ∧ SameHistory r r' ∧
      r'.records = r.records.modify event.lifecycleId
        (startedRecord r.settings event (r.predict record event).1 now now') := by
  set predicted := (r.predict record event).1 with hpredicted
  set r₁ := (r.predict record event).2 with hr₁
  have hr₁eq : r₁.records = r.records ∧ r₁.settings = r.settings ∧ r₁.manager = r.manager ∧
      SameHistory r r₁ := by
    rw [hr₁]
    unfold predict
    cases historyKey record event.kind with
    | none => exact ⟨rfl, rfl, rfl, fun _ => rfl⟩
    | some key => exact ⟨rfl, rfl, rfl, fun k => OrdDict.get?_moveToEnd ..⟩
  obtain ⟨hrecords₁, hsettings₁, hmanager₁, hhistory₁⟩ := hr₁eq
  have hbacked₁ : r₁.Backed others := by
    refine ⟨fun id record' hget' => h.wellFormed id record' (hrecords₁ ▸ hget'), h.nonneg,
      fun m hm => (h.accounts m (hmanager₁ ▸ hm)).congr fun k => by
        unfold retainers
        rw [hrecords₁],
      fun hm id record' hget' => h.unmanaged (hmanager₁ ▸ hm) id record' (hrecords₁ ▸ hget')⟩
  set begin : Lifecycle κ σ → Lifecycle κ σ := fun record =>
    { record with
      start := some event
      startedAt := some now
      predictedDuration := predicted
      safetyDeadline := (safetyDeadlineOf now predicted : ℚ) } with hbegin
  set r₂ := r₁.modifyRecord event.lifecycleId begin with hr₂
  have hbacked₂ : r₂.Backed others := hbacked₁.modifyRecord fun record' hget' => by
    have hwf := hbacked₁.wellFormed _ record' hget'
    exact ⟨⟨hwf.cause_iff, rfl, hwf.terminal, hwf.released⟩, rfl⟩
  have hget₂ : r₂.records.get? event.lifecycleId = some (begin record) := by
    rw [hr₂, get?_modifyRecord, if_pos rfl, hrecords₁, hget]
    rfl
  obtain ⟨r₃, hok₃, hbacked₃, hframe₃, hrecords₃⟩ :=
    hbacked₂.setH2dEstimate hget₂ (show (begin record).startedAt = some now from rfl) 0 now'
  have hsettings₂ : r₂.settings = r.settings := hsettings₁
  rw [hsettings₂] at hrecords₃
  set evaluated : Lifecycle κ σ → Lifecycle κ σ := fun record =>
    { record with pendingEvaluation := record.completedAt.isSome } with hevaluated
  refine ⟨r₃.modifyRecord event.lifecycleId evaluated, ?_, ?_,
    hframe₃.settings.trans hsettings₂, ?_, ?_, ?_⟩
  · simp only [LifecycleRegistry.startStall, ← hr₁, ← hpredicted, ← hbegin, ← hr₂, hok₃,
      Except.map, hevaluated]
  · refine hbacked₃.modifyRecord fun record' hget' => ?_
    rw [hrecords₃, OrdDict.get?_modify, if_pos rfl, hget₂, Option.map_some,
      Option.some.injEq] at hget'
    subst hget'
    exact ⟨(startedRecord_spec (h.wellFormed _ record hget) hlive r.settings event predicted
      now now').1, rfl⟩
  · rw [show (r₃.modifyRecord event.lifecycleId evaluated).manager = r₃.manager from rfl,
      hframe₃.manager, ← hmanager₁]
    rfl
  · intro k
    exact (congrArg (OrdDict.get? · k) hframe₃.history).trans (hhistory₁ k)
  · change r₃.records.modify _ _ = _
    rw [hrecords₃, hr₂, LifecycleRegistry.modifyRecord, hrecords₁, OrdDict.modify_modify, OrdDict.modify_modify]
    rfl

/-- The registry after `learn`: the history or the anonymous sample of the record. -/
theorem Backed.learn {r : LifecycleRegistry κ σ} {others : κ → ℤ} (h : r.Backed others)
    {id : String} {record : Lifecycle κ σ} (hget : r.records.get? id = some record)
    (hstart : record.start.isSome = true) (now : ℚ) :
    ∃ r' f, r.learn id record now = .ok r' ∧ r'.Backed others ∧
      r'.settings = r.settings ∧ r'.manager = r.manager ∧
      r'.records = r.records.modify id f ∧
      ∀ record : Lifecycle κ σ, (f record).retained = record.retained ∧
        record.Evolves (f record) ∧ (record.WellFormed → (f record).WellFormed) ∧
        (f record).terminalAt = record.terminalAt := by
  have hwf := h.wellFormed id record hget
  obtain ⟨start, hstart'⟩ := Option.isSome_iff_exists.mp hstart
  obtain ⟨startedAt, hstarted⟩ := Option.isSome_iff_exists.mp (hwf.started_iff ▸ hstart)
  simp only [LifecycleRegistry.learn, hstart', hstarted]
  cases historyKey record start.kind with
  | none =>
      refine ⟨_, fun record => { record with anonymousSample := some (max 0 (now - startedAt)) },
        rfl, h.modifyRecord fun record' hget' => ?_, rfl, rfl, rfl, ?_⟩
      · have hwf' := h.wellFormed id record' hget'
        exact ⟨⟨hwf'.cause_iff, hwf'.started_iff, hwf'.terminal, hwf'.released⟩, rfl⟩
      · exact fun record => ⟨rfl, ⟨rfl, fun _ => ⟨rfl, rfl⟩, fun h => h⟩,
          fun hwf => ⟨hwf.cause_iff, hwf.started_iff, hwf.terminal, hwf.released⟩, rfl⟩
  | some key =>
      have hsame : ∀ sample, (r.learnUnder key sample).records = r.records ∧
          (r.learnUnder key sample).settings = r.settings ∧
          (r.learnUnder key sample).manager = r.manager := by
        intro sample
        unfold learnUnder
        split <;> exact ⟨rfl, rfl, rfl⟩
      obtain ⟨hrecords, hsettings, hmanager⟩ := hsame (max 0 (now - startedAt))
      refine ⟨_, fun record => record, rfl, ?_, hsettings, hmanager, ?_,
        fun record => ⟨rfl, .refl record, fun h => h, rfl⟩⟩
      · refine ⟨fun id record' hget' => h.wellFormed id record' (hrecords ▸ hget'), h.nonneg,
          fun m hm => (h.accounts m (hmanager ▸ hm)).congr fun k => by
            unfold retainers
            rw [hrecords],
          fun hm id record' hget' => h.unmanaged (hmanager ▸ hm) id record'
            (hrecords ▸ hget')⟩
      · rw [hrecords]
        exact (OrdDict.modify_eq_self fun _ _ => rfl).symm

theorem Backed.finishStall {r : LifecycleRegistry κ σ} {others : κ → ℤ} (h : r.Backed others)
    {id : String} {record : Lifecycle κ σ} (hget : r.records.get? id = some record)
    (hlive : record.terminalAt.isSome = false) (hstart : record.start.isSome = true) (now : ℚ) :
    ∃ r' later, r.finishStall record id now = .ok r' ∧ r'.Backed others ∧ Advance r r' ∧
      later.terminalAt = some now ∧ later.finishAccepted = true ∧
      (∀ id', r'.records.get? id' = if id' = id then some later else r.records.get? id') ∧
      ∃ r₁, r.learn id record now = .ok r₁ ∧ r'.history = r₁.history := by
  obtain ⟨r₁, f, hok₁, hbacked₁, hsettings₁, hmanager₁, hrecords₁, hf⟩ :=
    h.learn hget hstart now
  set accept : Lifecycle κ σ → Lifecycle κ σ := fun record =>
    { record with finishAccepted := true } with haccept
  have hbacked₂ : (r₁.modifyRecord id accept).Backed others :=
    hbacked₁.modifyRecord fun record' hget' => by
      have hwf := hbacked₁.wellFormed id record' hget'
      exact ⟨⟨hwf.cause_iff, hwf.started_iff, hwf.terminal, hwf.released⟩, rfl⟩
  have hget₂ : (r₁.modifyRecord id accept).records.get? id = some (accept (f record)) := by
    rw [get?_modifyRecord, if_pos rfl, hrecords₁, OrdDict.get?_modify, if_pos rfl, hget]
    rfl
  have hlive₂ : (accept (f record)).terminalAt.isSome = false := by
    rw [show (accept (f record)).terminalAt = record.terminalAt from (hf record).2.2.2, hlive]
  obtain ⟨r₃, hok₃, hbacked₃, hframe₃, hrecords₃⟩ :=
    hbacked₂.terminalize hget₂ hlive₂ .finished now
  have hrecords : r₃.records = r.records.modify id
      fun record => endRecord .finished now (accept (f record)) := by
    rw [hrecords₃, LifecycleRegistry.modifyRecord, hrecords₁, OrdDict.modify_modify, OrdDict.modify_modify]
  refine ⟨r₃, endRecord .finished now (accept (f record)), ?_, hbacked₃, ?_, rfl, rfl, ?_,
    r₁, hok₁, hframe₃.history⟩
  · simp only [LifecycleRegistry.finishStall, hok₁, bind, Except.bind, ← haccept, hok₃]
  · refine ⟨hframe₃.settings.trans hsettings₁, ?_, fun id' later hlater => ?_⟩
    · rw [hframe₃.manager, ← hmanager₁]
      rfl
    · rw [hrecords, OrdDict.get?_modify] at hlater
      by_cases hid : id' = id
      · subst hid
        simp only [if_true, hget, Option.map_some, Option.some.injEq] at hlater
        subst hlater
        refine ⟨record, hget, (hf record).2.1.trans ?_⟩
        refine ⟨rfl, fun ht => ?_, fun _ => rfl⟩
        rw [(hf record).2.2.2, hlive] at ht
        cases ht
      · exact ⟨later, by simpa [hid] using hlater, .refl later⟩
  · intro id'
    rw [hrecords, OrdDict.get?_modify]
    by_cases hid : id' = id <;> simp [hid, hget]

omit [DecidableEq κ] in
theorem judge_applied {record : Lifecycle κ σ} {event : LifecycleEvent}
    (h : (judge record event).1 = .applied) :
    record.terminalAt.isSome = false ∧ (event.event = .stallStarted → record.start = none) ∧
      (event.event = .stallFinished → record.start.isSome = true) := by
  unfold judge at h
  cases hevent : event.event with
  | stallStarted =>
      simp only [hevent] at h
      split_ifs at h with hduplicate hconflict
      simp only [Bool.or_eq_true, not_or, Bool.not_eq_true] at hconflict
      exact ⟨hconflict.2, fun _ => by simpa using hconflict.1, by simp⟩
  | stallFinished =>
      simp only [hevent] at h
      split_ifs at h with hterminal hfinish hconflict
      refine ⟨by simpa using hterminal, by simp, fun _ => ?_⟩
      cases hstart : record.start <;> simp [hstart] at hconflict ⊢

theorem Backed.perform {r : LifecycleRegistry κ σ} {others : κ → ℤ} (h : r.Backed others)
    {record : Lifecycle κ σ} {event : LifecycleEvent}
    (hget : r.records.get? event.lifecycleId = some record)
    (happlied : (judge record event).1 = .applied) (now now' : ℚ) :
    ∃ r', r.perform record event now now' = .ok r' ∧ r'.Backed others ∧ Advance r r' := by
  obtain ⟨hlive, -, hstart⟩ := judge_applied happlied
  unfold LifecycleRegistry.perform
  cases hevent : event.event with
  | stallStarted =>
      obtain ⟨r', hok, hbacked, hsettings, hmanager, -, hrecords⟩ :=
        h.startStall hget hlive now now'
      refine ⟨r', hok, hbacked, hsettings, hmanager, fun id later hlater => ?_⟩
      rw [hrecords, OrdDict.get?_modify] at hlater
      by_cases hid : id = event.lifecycleId
      · subst hid
        simp only [if_true, hget, Option.map_some, Option.some.injEq] at hlater
        exact ⟨record, hget, hlater ▸
          (startedRecord_spec (h.wellFormed _ record hget) hlive _ _ _ _ _).2⟩
      · exact ⟨later, by simpa [hid] using hlater, .refl later⟩
  | stallFinished =>
      obtain ⟨r', -, hok, hbacked, hadvance, -⟩ := h.finishStall hget hlive (hstart hevent) now
      exact ⟨r', hok, hbacked, hadvance⟩

/-- `apply` expires, judges the record it finds and performs the event if it applies. -/
theorem Backed.apply {r : LifecycleRegistry κ σ} {others : κ → ℤ} (h : r.Backed others)
    (expiredAt now now' : ℚ) (event : LifecycleEvent) :
    ∃ r₁ r' result, r.expire expiredAt = .ok r₁ ∧ r₁.Backed others ∧
      r.apply expiredAt now now' event = .ok (r', result) ∧ r'.Backed others ∧
      Advance r r' ∧ result.event = event.event ∧ result.lifecycleId = event.lifecycleId ∧
      ((result.disposition ≠ .applied ∧ r' = r₁) ∨
        (result.disposition = .applied ∧
          ∃ record, r₁.records.get? event.lifecycleId = some record ∧
            (judge record event).1 = .applied ∧
            r₁.perform record event now now' = .ok r')) := by
  obtain ⟨r₁, hok₁, hbacked₁, hframe₁, hadvance₁, -⟩ := h.expire_advance expiredAt
  simp only [LifecycleRegistry.apply, hok₁, bind, Except.bind, pure, Except.pure]
  cases hget : r₁.records.get? event.lifecycleId with
  | none =>
      exact ⟨r₁, r₁, _, rfl, hbacked₁, rfl, hbacked₁, hadvance₁, rfl, rfl, .inl ⟨by simp, rfl⟩⟩
  | some record =>
      by_cases happlied : (judge record event).1 = .applied
      · obtain ⟨r', hok, hbacked, hadvance⟩ := hbacked₁.perform hget happlied now now'
        simp only [happlied, if_true, hok]
        exact ⟨r₁, r', _, rfl, hbacked₁, rfl, hbacked, hadvance₁.trans hadvance, rfl, rfl,
          .inr ⟨rfl, record, hget, happlied, hok⟩⟩
      · simp only [happlied, if_false]
        exact ⟨r₁, r₁, _, rfl, hbacked₁, rfl, hbacked₁, hadvance₁, rfl, rfl,
          .inl ⟨happlied, rfl⟩⟩

/-- Applying an applied event again at the same moment is refused and changes nothing. -/
theorem Backed.apply_again {r r' : LifecycleRegistry κ σ} {others : κ → ℤ}
    (h : r.Backed others) {now : ℚ} {event : LifecycleEvent} {result : LifecycleEventResult}
    (happly : r.apply now now now event = .ok (r', result))
    (happlied : result.disposition = .applied) :
    ∃ result', r'.apply now now now event = .ok (r', result') ∧
      result'.disposition ≠ .applied := by
  obtain ⟨r₁, r'', result'', hexpire, hbacked₁, happly', hbacked', -, -, -, hcase⟩ :=
    h.apply now now now event
  rw [happly, Except.ok.injEq, Prod.mk.injEq] at happly'
  obtain ⟨rfl, rfl⟩ := happly'
  obtain ⟨-, record, hget, hjudge, hperform⟩ := hcase.resolve_left fun hno => hno.1 happlied
  obtain ⟨r₁', hexpire', -, -, -, hsettled⟩ := h.expire_advance now
  obtain rfl : r₁ = r₁' := by simpa [hexpire] using hexpire'
  obtain ⟨hlive, -, hstart⟩ := judge_applied hjudge
  -- After the event every record is settled, and the record of the event refuses it.
  have hafter : ∃ later, r'.records.get? event.lifecycleId = some later ∧
      (∀ id, r'.records.get? id =
        if id = event.lifecycleId then some later else r₁.records.get? id) ∧
      settle now later = some later ∧ (judge later event).1 ≠ .applied := by
    unfold LifecycleRegistry.perform at hperform
    cases hevent : event.event with
    | stallStarted =>
        simp only [hevent] at hperform
        obtain ⟨r₂, hok₂, -, -, -, -, hrecords₂⟩ := hbacked₁.startStall hget hlive now now
        obtain rfl : r₂ = r' := by simpa [hok₂] using hperform
        set later := startedRecord r₁.settings event (r₁.predict record event).1 now now record
          with hlater
        have hlookup : ∀ id, r₂.records.get? id =
            if id = event.lifecycleId then some later else r₁.records.get? id := by
          intro id
          rw [hrecords₂, OrdDict.get?_modify]
          by_cases hid : id = event.lifecycleId <;> simp [hid, hget, hlater]
        refine ⟨later, by rw [hlookup, if_pos rfl], hlookup, ?_, ?_⟩
        · exact settle_startedRecord hlive _ _ _ _
        · simp [judge, hevent, hlater, start_startedRecord]
    | stallFinished =>
        simp only [hevent] at hperform
        obtain ⟨r₂, later, hok₂, -, -, hterminal, haccepted, hlookup, -⟩ :=
          hbacked₁.finishStall hget hlive (hstart hevent) now
        obtain rfl : r₂ = r' := by simpa [hok₂] using hperform
        refine ⟨later, by rw [hlookup, if_pos rfl], hlookup, ?_, ?_⟩
        · simp [settle, hterminal, tombstoneSeconds]
        · simp [judge, hevent, hterminal, haccepted]
  obtain ⟨later, hgetLater, hlookup, hsettle, hrefused⟩ := hafter
  have hquiet : r'.expire now = .ok r' := expire_of_settled fun id record' hrecord' => by
    rw [hlookup] at hrecord'
    split at hrecord'
    · exact Option.some.inj hrecord' ▸ hsettle
    · exact hsettled id record' hrecord'
  simp only [LifecycleRegistry.apply, hquiet, bind, Except.bind, pure, Except.pure, hgetLater,
    hrefused, if_false]
  exact ⟨_, rfl, hrefused⟩

/-! ## Retention and reset -/

/-- Retaining fails only in a registry without a manager. -/
theorem Backed.retainReady {r : LifecycleRegistry κ σ} {others : κ → ℤ} (h : r.Backed others)
    (now : ℚ) (id : String) (keys : List κ) :
    r.retainReady now id keys = .error .managerMissing ∨
      ∃ retained r', r.retainReady now id keys = .ok (retained, r') ∧ r'.Backed others ∧
        Advance r r' ∧ SameHistory r r' := by
  obtain ⟨r₁, hok₁, hbacked₁, hframe₁, hadvance₁, -⟩ := h.expire_advance now
  simp only [LifecycleRegistry.retainReady, hok₁, bind, Except.bind, pure, Except.pure]
  cases hget : r₁.records.get? id with
  | none => exact .inr ⟨[], r₁, rfl, hbacked₁, hadvance₁, hframe₁.sameHistory⟩
  | some record =>
      dsimp only
      by_cases howns : record.ownsPreservation = true
      · simp only [howns, if_true]
        cases hm : r₁.manager with
        | none => exact .inl rfl
        | some m =>
            right
            set fresh := keys.filter (· ∉ record.retained) with hfresh
            set grow : Lifecycle κ σ → Lifecycle κ σ := fun record =>
              { record with retained := record.retained ++ (m.retain fresh).1 } with hgrow
            refine ⟨_, _, rfl, ?_, hadvance₁.trans ?_, hframe₁.sameHistory⟩
            · have hretainers : ∀ k,
                  ({ r₁ with manager := some (m.retain fresh).2 }.modifyRecord id grow).retainers k
                    = r₁.retainers k + if k ∈ (m.retain fresh).1 then 1 else 0 := by
                intro k
                have hsum := retainers_modifyRecord
                  (r := { r₁ with manager := some (m.retain fresh).2 }) hget grow k
                have hsame : retainers { r₁ with manager := some (m.retain fresh).2 } k =
                    r₁.retainers k := rfl
                have hnew : k ∈ (m.retain fresh).1 → k ∉ record.retained := by
                  intro hk
                  have hin := (CPUOffloadingManager.mem_retain_iff.mp hk).1
                  simpa [hfresh] using (List.mem_filter.mp hin).2
                by_cases hk : k ∈ (m.retain fresh).1
                · simp [hk, hnew hk, hgrow, hsame] at hsum ⊢
                  omega
                · by_cases hold : k ∈ record.retained <;>
                    simp [hk, hold, hgrow, hsame] at hsum ⊢ <;> omega
              refine ⟨?_, hbacked₁.nonneg, ?_, fun hnone => by cases hnone⟩
              · intro id' record' hget'
                rw [get?_modifyRecord] at hget'
                by_cases hid : id' = id
                · subst hid
                  simp only [if_true, hget, Option.map_some, Option.some.injEq] at hget'
                  have hwf := hbacked₁.wellFormed _ record hget
                  subst hget'
                  refine ⟨hwf.cause_iff, hwf.started_iff, hwf.terminal, fun hreleased => ?_⟩
                  have hreleased' : record.ownershipReleased = true := hreleased
                  simp [Lifecycle.ownsPreservation, hreleased'] at howns
                · exact hbacked₁.wellFormed id' record' (by simpa [hid] using hget')
              · intro m' hm'
                obtain rfl := Option.some.inj hm'
                refine ((hbacked₁.accounts m hm).retain fresh).congr fun k => ?_
                rw [hretainers]
                omega
            · refine ⟨rfl, by rw [hm]; rfl, fun id' later hlater => ?_⟩
              rw [get?_modifyRecord] at hlater
              by_cases hid : id' = id
              · subst hid
                simp only [if_true, hget, Option.map_some, Option.some.injEq] at hlater
                exact ⟨record, hget, hlater ▸ ⟨rfl, fun _ => ⟨rfl, rfl⟩, fun h => h⟩⟩
              · exact ⟨later, by simpa [hid] using hlater, .refl later⟩
      · simp only [howns]
        exact .inr ⟨[], r₁, rfl, hbacked₁, hadvance₁, hframe₁.sameHistory⟩

/-- What a reset makes of one record. -/
def resetOf (now : ℚ) (record : Lifecycle κ σ) : Lifecycle κ σ :=
  if record.terminalAt.isSome then { record with retained := [] }
  else endRecord .reset now { record with retained := [] }

omit [DecidableEq κ] in
theorem resetOf_spec {record : Lifecycle κ σ} (h : record.WellFormed) (now : ℚ) :
    (resetOf now record).WellFormed ∧ record.Evolves (resetOf now record) ∧
      (resetOf now record).retained = [] := by
  have hcleared : ({ record with retained := [] } : Lifecycle κ σ).WellFormed :=
    ⟨h.cause_iff, h.started_iff, h.terminal, fun hr => ⟨rfl, (h.released hr).2⟩⟩
  unfold resetOf
  split
  · exact ⟨hcleared, ⟨rfl, fun _ => ⟨rfl, rfl⟩, fun h => h⟩, rfl⟩
  · rename_i hlive
    exact ⟨wellFormed_endRecord hcleared _ _,
      ⟨rfl, fun ht => absurd ht hlive, fun _ => rfl⟩, rfl⟩

theorem resetRecord_eq {r : LifecycleRegistry κ σ} (now : ℚ) (id : String) :
    resetRecord now r id = .ok (r.modifyRecord id (resetOf now)) := by
  set r₁ := r.modifyRecord id fun record => { record with retained := [] } with hr₁
  have hget₁ : r₁.records.get? id =
      (r.records.get? id).map fun record => { record with retained := [] } := by
    rw [hr₁, get?_modifyRecord, if_pos rfl]
  have hcompose : ∀ f : Lifecycle κ σ → Lifecycle κ σ, r₁.modifyRecord id f =
      r.modifyRecord id fun record => f { record with retained := [] } := by
    intro f
    simp only [hr₁, modifyRecord, OrdDict.modify_modify]
  unfold resetRecord
  rw [← hr₁]
  cases hget : r.records.get? id with
  | none =>
      rw [hget] at hget₁
      have hnone : ∀ f : Lifecycle κ σ → Lifecycle κ σ, r.modifyRecord id f = r := by
        intro f
        unfold modifyRecord
        rw [OrdDict.modify_eq_self (by simp [hget])]
      simp only [terminalize, hget₁, Option.map_none]
      rw [hr₁, hnone, hnone]
  | some record =>
      rw [hget] at hget₁
      simp only [terminalize, hget₁, Option.map_some]
      have hwhole : ∀ f g : Lifecycle κ σ → Lifecycle κ σ, f record = g record →
          r.modifyRecord id f = r.modifyRecord id g := by
        intro f g hfg
        unfold modifyRecord
        rw [OrdDict.modify_congr fun record' hget' => ?_]
        obtain rfl : record = record' := by simpa [hget] using hget'
        exact hfg
      cases hterminal : record.terminalAt.isSome with
      | true =>
          simp only [if_true, hr₁]
          rw [hwhole _ (resetOf now)]
          simp [resetOf, hterminal]
      | false =>
          simp only [Bool.false_eq_true, if_false, release, hget₁, Option.map_some, releaseKeys,
            List.isEmpty_nil, if_true, Except.map, hcompose]
          rw [Except.ok.injEq, ← hwhole (fun record => endRecord .reset now
            { record with retained := [] }) (resetOf now) (by simp [resetOf, hterminal])]
          simp only [modifyRecord, OrdDict.modify_modify]
          rfl

/-- A reset empties what every record retains and ends it, whatever the manager holds. -/
theorem externalResetSucceeded_eq (r : LifecycleRegistry κ σ) (now : ℚ) :
    r.externalResetSucceeded now =
      .ok { r with records := r.records.mapValues fun _ record => resetOf now record } := by
  have hloop : ∀ (ids : List String) (r₀ : LifecycleRegistry κ σ),
      ids.foldlM (resetRecord now) r₀ =
        .ok { r₀ with records := ids.foldl (fun d id => d.modify id (resetOf now)) r₀.records } := by
    intro ids
    induction ids with
    | nil => exact fun _ => rfl
    | cons id ids ih =>
        intro r₀
        rw [List.foldlM_cons, resetRecord_eq]
        exact ih _
  unfold externalResetSucceeded
  rw [hloop, OrdDict.foldl_modify_keys]

theorem retainers_eq_zero {r : LifecycleRegistry κ σ} {k : κ}
    (h : ∀ id record, r.records.get? id = some record → k ∉ record.retained) :
    r.retainers k = 0 := by
  have hzero : r.retainers k = r.records.sum fun _ _ => (0 : ℤ) :=
    OrdDict.sum_congr fun id record hget => by simp [h id record hget]
  simpa [OrdDict.sum] using hzero

/-- After a reset the registry is backed by whatever its manager still owes to others. -/
theorem Backed.externalResetSucceeded {r : LifecycleRegistry κ σ} {others : κ → ℤ}
    (hwf : ∀ id record, r.records.get? id = some record → record.WellFormed)
    (hnonneg : ∀ k, 0 ≤ others k) (haccounts : ∀ m, r.manager = some m → m.Accounts others)
    (now : ℚ) :
    ∃ r', r.externalResetSucceeded now = .ok r' ∧ r'.Backed others ∧ Advance r r' ∧
      SameHistory r r' := by
  refine ⟨_, externalResetSucceeded_eq r now, ?_, ⟨rfl, rfl, ?_⟩, fun _ => rfl⟩
  · have hrecords : ∀ id record, (r.records.mapValues fun _ record => resetOf now record).get? id
        = some record → record.WellFormed ∧ record.retained = [] := by
      intro id record hget
      rw [OrdDict.get?_mapValues] at hget
      obtain ⟨record₀, hget₀, rfl⟩ := Option.map_eq_some_iff.mp hget
      obtain ⟨hwf', -, hempty⟩ := resetOf_spec (hwf id record₀ hget₀) now
      exact ⟨hwf', hempty⟩
    refine ⟨fun id record hget => (hrecords id record hget).1, hnonneg, ?_,
      fun _ id record hget => (hrecords id record hget).2⟩
    intro m hm
    refine (haccounts m hm).congr fun k => ?_
    rw [retainers_eq_zero fun id record hget => by simp [(hrecords id record hget).2], zero_add]
  · intro id later hlater
    rw [OrdDict.get?_mapValues] at hlater
    obtain ⟨record, hget, rfl⟩ := Option.map_eq_some_iff.mp hlater
    exact ⟨record, hget, (resetOf_spec (hwf id record hget) now).2.1⟩

end TokenCake.Offload.LifecycleRegistry
