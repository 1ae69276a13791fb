import TokenCake.Verification.Lifecycle.Steps

/-! # Events apply once and terminal records absorb

Clients retry and reorder their events, and expiry runs at the head of almost every call. The
results below hold along every run, for any clock readings. -/

namespace TokenCake.Offload.OffloadState

open LifecycleRegistry

variable {κ σ : Type*} [DecidableEq κ]

/-! ## Records along a run -/

/-- Unless a call associates `id` anew, a record under `id` is the one that was there. -/
theorem Coherent.run_records {s s' : OffloadState κ σ} {id : String}
    {labels : List (OffloadOp κ σ × Answer κ)} (run : Run Next s labels s')
    (hlabels : ∀ label ∈ labels, ¬ Associates label id) (h : ∃ slack, s.Coherent slack) :
    ∀ later, s'.registry.records.get? id = some later →
      ∃ record, s.registry.records.get? id = some record ∧ record.Evolves later := by
  refine Run.rel (I := fun s => ∃ slack, s.Coherent slack)
    (R := fun s s' => ∀ later, s'.registry.records.get? id = some later →
      ∃ record, s.registry.records.get? id = some record ∧ record.Evolves later)
    ?_ ?_ run ?_ ?_ h
  · exact fun s later hlater => ⟨later, hlater, .refl later⟩
  · intro s t u hst htu later hlater
    obtain ⟨record', hrecord', hevolves'⟩ := htu later hlater
    obtain ⟨record, hrecord, hevolves⟩ := hst record' hrecord'
    exact ⟨record, hrecord, hevolves.trans hevolves'⟩
  · rintro s label s' ⟨slack, hs⟩ hnext
    obtain ⟨-, slack', hs', -⟩ := hs.next hnext
    exact ⟨slack', hs'⟩
  · rintro s label s' hlabel ⟨slack, hs⟩ hnext later hlater
    exact ((hs.next hnext).1.records id later hlater).resolve_left (hlabels label hlabel)

/-! ## The end of a stall -/

/-- What one applied end of a stall does: the record it finds is live and becomes terminal,
and the history is what learning from it once yields. -/
theorem Coherent.finishApplied {s s' : OffloadState κ σ} {slack : κ → ℤ} (h : s.Coherent slack)
    {expiredAt now now' : ℚ} {event : LifecycleEvent} {result : LifecycleEventResult}
    (hstep : s.step (.apply expiredAt now now' event) = .ok (s', .event result))
    (hfinish : event.event = .stallFinished) (happlied : result.disposition = .applied) :
    ∃ r₁ record later r₂, s.registry.expire expiredAt = .ok r₁ ∧
      r₁.records.get? event.lifecycleId = some record ∧ record.terminalAt.isSome = false ∧
      s'.registry.records.get? event.lifecycleId = some later ∧
      later.terminalAt.isSome = true ∧
      r₁.learn event.lifecycleId record now = .ok r₂ ∧ s'.registry.history = r₂.history := by
  obtain ⟨r₁, r', result', hexpire, hbacked₁, happly, -, -, -, -, hcase⟩ :=
    h.backed.apply expiredAt now now' event
  simp only [step, happly, Except.map, Except.ok.injEq, Prod.mk.injEq, Answer.event.injEq]
    at hstep
  obtain ⟨rfl, rfl⟩ := hstep
  obtain ⟨-, record, hget, hjudge, hperform⟩ := hcase.resolve_left fun hno => hno.1 happlied
  obtain ⟨hlive, -, hstart⟩ := judge_applied hjudge
  simp only [perform, hfinish] at hperform
  obtain ⟨r₃, later, hok₃, -, -, hterminal, -, hlookup, r₂, hlearn, hhistory⟩ :=
    hbacked₁.finishStall hget hlive (hstart hfinish) now
  obtain rfl : r₃ = r' := by simpa [hok₃] using hperform
  exact ⟨r₁, record, later, r₂, hexpire, hget, hlive, by rw [hlookup, if_pos rfl],
    by simp [hterminal], hlearn, hhistory⟩

/-- Two ends of a stall are applied to one identifier only if it was associated in between. -/
theorem Coherent.finishApplied_twice {s s' : OffloadState κ σ} {slack : κ → ℤ}
    (h : s.Coherent slack) {id : String} {first last : OffloadOp κ σ × Answer κ}
    {middle : List (OffloadOp κ σ × Answer κ)}
    (run : Run Next s (first :: (middle ++ [last])) s')
    (hfirst : FinishApplied first id) (hlast : FinishApplied last id) :
    ∃ label ∈ middle, Associates label id := by
  by_contra hnone
  have hmiddle : ∀ label ∈ middle, ¬ Associates label id :=
    fun label hlabel hassociates => hnone ⟨label, hlabel, hassociates⟩
  obtain ⟨expiredAt, now, now', event, result, rfl, hevent, rfl, happlied⟩ := hfirst
  obtain ⟨expiredAt₂, now₂, now₂', event₂, result₂, rfl, hevent₂, hid₂, happlied₂⟩ := hlast
  cases run with
  | cons hnext hrest =>
      obtain ⟨-, slack₁, hcoherent₁, -⟩ := h.next hnext
      obtain ⟨_, _, later, _, -, -, -, hlater, hterminal, -, -⟩ :=
        h.finishApplied hnext.2 hevent happlied
      obtain ⟨s₂, hmiddleRun, hlastRun⟩ := hrest.append_inv
      obtain ⟨slack₂, hcoherent₂⟩ := Coherent.run hmiddleRun ⟨slack₁, hcoherent₁⟩
      cases hlastRun with
      | cons hnext₂ _ =>
          obtain ⟨r₁, record, _, _, hexpire, hget, hlive, -, -, -, -⟩ :=
            hcoherent₂.finishApplied hnext₂.2 hevent₂ happlied₂
          obtain ⟨r₁', hexpire', -, -, hadvance, -⟩ :=
            hcoherent₂.backed.expire_advance expiredAt₂
          obtain rfl : r₁ = r₁' := by simpa [hexpire] using hexpire'
          rw [hid₂] at hget
          obtain ⟨before, hbefore, hevolves⟩ := hadvance.records _ record hget
          obtain ⟨later', hlater', hevolves'⟩ :=
            Coherent.run_records hmiddleRun hmiddle ⟨slack₁, hcoherent₁⟩ before hbefore
          obtain rfl : later = later' := by simpa [hlater] using hlater'
          rw [((hevolves'.trans hevolves).terminal hterminal).1, hterminal] at hlive
          cases hlive

/-! ## Every run -/

/-- What a state reached by the registry guarantees about its records, about every
continuation, and about the next call. -/
structure EventsApplyOnce (s : OffloadState κ σ) : Prop where
  /-- Terminal and released records are empty, and the terminal fields agree. -/
  wellFormed : ∀ id record, s.registry.records.get? id = some record → record.WellFormed
  /-- A record keeps its terminal cause, its terminal time and its release. -/
  evolves : ∀ labels s' id record later, Run Next s labels s' →
    (∀ label ∈ labels, ¬ Associates label id) →
    s.registry.records.get? id = some record → s'.registry.records.get? id = some later →
    record.Evolves later
  /-- Only an applied end of a stall changes a remembered duration. -/
  unlearned : ∀ label s', Next s label s' → (∀ id, ¬ FinishApplied label id) →
    SameHistory s.registry s'.registry
  /-- An applied end of a stall learns from the live record it finds, once. -/
  learned : ∀ expiredAt now now' event result s',
    Next s (.apply expiredAt now now' event, .event result) s' →
    event.event = .stallFinished → result.disposition = .applied →
    ∃ r₁ record r₂, s.registry.expire expiredAt = .ok r₁ ∧
      r₁.records.get? event.lifecycleId = some record ∧ record.terminalAt = none ∧
      r₁.learn event.lifecycleId record now = .ok r₂ ∧ s'.registry.history = r₂.history
  /-- No record is learned from twice. -/
  learnedOnce : ∀ first middle last s' id, Run Next s (first :: (middle ++ [last])) s' →
    FinishApplied first id → FinishApplied last id → ∃ label ∈ middle, Associates label id
  /-- An applied event is not applied again at the same moment, and changes nothing. -/
  notAgain : ∀ now event result s', Next s (.apply now now now event, .event result) s' →
    result.disposition = .applied →
    ∃ result', s'.step (.apply now now now event) = .ok (s', .event result') ∧
      result'.disposition ≠ .applied
  /-- Association succeeds exactly when neither a record nor a generation is left. -/
  associates : ∀ now requestId metadata, ∃ r₁, s.registry.expire now = .ok r₁ ∧
    s.step (.associate now requestId metadata) = .ok
      (if r₁.records.get? metadata.lifecycleId = none ∧
          r₁.generations.get? metadata.lifecycleId = none
        then ({ s with registry := r₁.withRecord requestId metadata }, .association .associated)
        else ({ s with registry := r₁ }, .association .duplicateLifecycleError))

/-- Along every run of the registry, with or without a CPU manager, each event is applied at
most once and terminal states absorb. -/
theorem lifecycle_events_apply_once (settings : OffloadConfig)
    {manager : Option (CPUOffloadingManager κ)} (hmanager : FreshManager manager)
    {labels : List (OffloadOp κ σ × Answer κ)} {s : OffloadState κ σ}
    (run : Run Next (initial settings manager) labels s) : s.EventsApplyOnce := by
  obtain ⟨slack, h⟩ := Coherent.run run ⟨_, coherent_initial settings hmanager⟩
  refine ⟨h.backed.wellFormed, ?_, ?_, ?_, ?_, ?_, ?_⟩
  · intro labels' s' id record later run' hlabels hrecord hlater
    obtain ⟨record', hrecord', hevolves⟩ :=
      Coherent.run_records run' hlabels ⟨slack, h⟩ later hlater
    obtain rfl : record = record' := by simpa [hrecord] using hrecord'
    exact hevolves
  · exact fun label s' hnext => (h.next hnext).1.history
  · intro expiredAt now now' event result s' hnext hfinish happlied
    obtain ⟨r₁, record, _, r₂, hexpire, hget, hlive, -, -, hlearn, hhistory⟩ :=
      h.finishApplied hnext.2 hfinish happlied
    exact ⟨r₁, record, r₂, hexpire, hget, by simpa using hlive, hlearn, hhistory⟩
  · exact fun first middle last s' id run' => h.finishApplied_twice run'
  · intro now event result s' hnext happlied
    obtain ⟨hpermitted, hstep⟩ := hnext
    simp only [step] at hstep
    cases happly : s.registry.apply now now now event with
    | error e => simp [happly, Except.map] at hstep
    | ok answer =>
        obtain ⟨r', result'⟩ := answer
        simp only [happly, Except.map, Except.ok.injEq, Prod.mk.injEq, Answer.event.injEq]
          at hstep
        obtain ⟨rfl, rfl⟩ := hstep
        obtain ⟨result'', hagain, hrefused⟩ := h.backed.apply_again happly happlied
        exact ⟨result'', by simp [step, hagain, Except.map], hrefused⟩
  · intro now requestId metadata
    obtain ⟨r₁, hexpire, -⟩ := h.backed.expire_advance now
    refine ⟨r₁, hexpire, ?_⟩
    simp only [step, associate_eq hexpire, Except.map]
    split <;> rfl

/-- A stall that starts and finishes; both events are reported twice. -/
def retriedCalls : List (OffloadOp ℕ Unit) :=
  [.associate 0 "request" { lifecycleId := "a", agentType := "coder" },
    .apply 1 1 1 { event := .stallStarted, lifecycleId := "a", kind := "tool" },
    .apply 1 1 1 { event := .stallStarted, lifecycleId := "a", kind := "tool" },
    .apply 3 3 3 { event := .stallFinished, lifecycleId := "a" },
    .apply 4 4 4 { event := .stallFinished, lifecycleId := "a" }]

/-- The run of the retried calls reaches a terminal record and remembers its duration once. -/
theorem retried_calls_apply_once :
    ∃ labels, ∃ s : OffloadState ℕ Unit,
      Run Next (initial ⟨true, 1, 1 / 10, 1 / 2⟩ none) labels s ∧
        (s.registry.records.get? "a").map Lifecycle.terminalAt = some (some 3) ∧
        s.registry.history.entries = [(⟨.type, "coder", "tool"⟩, 2)] ∧
        s.EventsApplyOnce := by
  have hexecute : ((initial ⟨true, 1, 1 / 10, 1 / 2⟩ none).execute retriedCalls).map
      (fun p => ((p.2.registry.records.get? "a").map Lifecycle.terminalAt,
        p.2.registry.history.entries)) =
        some (some (some 3), [(⟨.type, "coder", "tool"⟩, 2)]) := by
    decide +kernel
  obtain ⟨⟨labels, s⟩, hrun, hend⟩ := Option.map_eq_some_iff.mp hexecute
  obtain ⟨hterminal, hhistory⟩ := Prod.mk.inj hend
  have run := (run_of_execute hrun).1
  exact ⟨labels, s, run, hterminal, hhistory,
    lifecycle_events_apply_once _ (by simp [FreshManager]) run⟩

end TokenCake.Offload.OffloadState
