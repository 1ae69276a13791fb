import TokenCake.Model.EncoderSchedule
import TokenCake.Verification.EncoderCache.References
import TokenCake.Verification.Schedule.Backend

/-! # Encoder references of refused requests

An attempt that finds an input in the cache takes a reference for the request. A refusal by
`allocate_slots` gives it back, and a refusal by the controller does not. -/

namespace TokenCake.Sched

open Encoder

variable {ρ : Type} {size : String → ℕ} {cacheSize : ℤ} {ecfg : EncoderConfig}
  {mmFeatures : String → List MultiModalFeatureSpec} {shift : ℤ}
  {env : Collaborators (EncoderBackend ρ)} {m : EncoderCacheManager} {b : EncoderBackend ρ}
  {e : EncoderEvent} {id : String}
  (hsized : ∀ id, ∀ f ∈ mmFeatures id, Sized size f)

/-! ## The fate of a request -/

/-- The request that an event is about. -/
def EncoderEvent.requestId : EncoderEvent → String
  | .attempted requestId | .refusedByController requestId _ | .refusedByAllocation requestId _
  | .allocated requestId | .preempted requestId => requestId

/-- The last thing that happened to a request in the step. -/
def lastEvent (id : String) (events : List EncoderEvent) : Option EncoderEvent :=
  (events.filter fun e => decide (e.requestId = id)).getLast?

theorem lastEvent_self (events : List EncoderEvent) (e : EncoderEvent) :
    lastEvent e.requestId (events ++ [e]) = some e := by
  simp [lastEvent]

theorem lastEvent_other {events : List EncoderEvent} (h : e.requestId ≠ id) :
    lastEvent id (events ++ [e]) = lastEvent id events := by
  simp [lastEvent, h]

/-- The request holds no reference, and the entries without references count as reclaimable. -/
structure Released (id : String) (m : EncoderCacheManager) : Prop where
  unlisted : ∀ mmHash references, m.cached.get? mmHash = some references → id ∉ references
  reclaimable : ∀ mmHash, m.cached.get? mmHash = some ∅ → mmHash ∈ m.freeable.keys
  counted : m.numFreeableSlots = m.numFreeSlots + m.freeable.sum fun _ n => (n : ℤ)

/-- What the last event of a request tells about its references. -/
def Fate (id : String) (m : EncoderCacheManager) : EncoderEvent → Prop
  | .refusedByController _ before => Listed id m ↔ Listed id before
  | .refusedByAllocation _ true => ¬Listed id m
  | _ => True

theorem Fate.congr {m' : EncoderCacheManager} (h : Fate id m e)
    (hlisted : Listed id m' ↔ Listed id m) : Fate id m' e := by
  cases e with
  | refusedByController requestId before => exact hlisted.trans h
  | refusedByAllocation requestId hasEncoderInputs =>
      cases hasEncoderInputs with
      | true => exact fun hnew => h (hlisted.mp hnew)
      | false => trivial
  | _ => trivial

/-- What holds behind a step. Every refusal of the controller is an answer of its collaborator. -/
structure Tracks (size : String → ℕ) (cacheSize : ℤ)
    (mmFeatures : String → List MultiModalFeatureSpec) (env : Collaborators (EncoderBackend ρ))
    (b : EncoderBackend ρ) : Prop where
  ok : b.failed = false
  kept : Kept size cacheSize mmFeatures b.encoder
  fate : ∀ id e, lastEvent id b.events = some e → Fate id b.encoder.manager e
  answered : ∀ id m, .refusedByController id m ∈ b.events → ∃ s r admission,
    r.requestId = id ∧ s.backend.encoder.manager = m ∧
      (env.canAllocate s r admission).1.1 = false

namespace Tracks

theorem keep (h : Tracks size cacheSize mmFeatures env b) (b' : EncoderBackend ρ) :
    Tracks size cacheSize mmFeatures env (b.keep b') :=
  ⟨h.ok, h.kept, h.fate, h.answered⟩

/-- The encoder cache changes for one request, and that is recorded. -/
theorem record (h : Tracks size cacheSize mmFeatures env b) {encoder : EncoderSystem}
    (hkept : Kept size cacheSize mmFeatures encoder)
    (hothers : ∀ id, id ≠ e.requestId →
      (Listed id encoder.manager ↔ Listed id b.encoder.manager))
    (hfate : Fate e.requestId encoder.manager e)
    (hanswered : ∀ id m, e = .refusedByController id m → ∃ s r admission, r.requestId = id ∧
      s.backend.encoder.manager = m ∧ (env.canAllocate s r admission).1.1 = false) :
    Tracks size cacheSize mmFeatures env ({ b with encoder := encoder }.record e) where
  ok := h.ok
  kept := hkept
  fate id e' hlast := by
    change lastEvent id (b.events ++ [e]) = some e' at hlast
    by_cases hid : e.requestId = id
    · subst hid
      rw [lastEvent_self] at hlast
      obtain rfl := Option.some.inj hlast
      exact hfate
    · rw [lastEvent_other hid] at hlast
      exact (h.fate id e' hlast).congr (hothers id (Ne.symm hid))
  answered id m hmem := by
    rcases List.mem_append.mp hmem with hold | hnew
    · exact h.answered id m hold
    · exact hanswered id m (List.mem_singleton.mp hnew).symm

/-- The inputs of a request that got its slots are allocated. -/
theorem allocateFor {requestId : String} (h : Tracks size cacheSize mmFeatures env b)
    (hlast : lastEvent requestId b.events = some (.allocated requestId)) :
    Tracks size cacheSize mmFeatures env (b.allocateFor requestId) := by
  have hsub : (b.scheduledFor requestId).Sublist b.encoder.scheduled := List.filter_sublist
  obtain ⟨m', hrun, hm', -, hholds⟩ :=
    h.kept.sound.accurate.allocateAll (h.kept.sound.reserved.sublist hsub)
  rw [EncoderBackend.allocateFor, hrun]
  refine ⟨h.ok, ⟨⟨hm', .nil hm'⟩, ?_, fun input hinput => absurd hinput List.not_mem_nil⟩, ?_,
    h.answered⟩
  · exact h.kept.owned.allocateAll (fun input hinput => h.kept.scheduled input (hsub.subset hinput))
      hholds
  · intro id e hid
    by_cases hname : id = requestId
    · subst hname
      obtain rfl := Option.some.inj (hlast.symm.trans hid)
      trivial
    · refine (h.fate id e hid).congr (exists_congr fun mmHash =>
        (hholds id mmHash).trans (or_iff_left ?_))
      rintro ⟨input, hinput, rfl, -⟩
      exact hname (by simpa using (List.mem_filter.mp hinput).2)

include hsized in
/-- The references of a request are given up. -/
theorem free {requestId : String} (h : Tracks size cacheSize mmFeatures env b)
    (he : e = .preempted requestId ∨ e = .refusedByAllocation requestId true) :
    Tracks size cacheSize mmFeatures env
      ((b.free ecfg.inputOrder (encoderRequest mmFeatures requestId)).record e) := by
  have hstep : EncoderSystem.Performs ecfg b.encoder (.free (encoderRequest mmFeatures requestId))
      (b.free ecfg.inputOrder (encoderRequest mmFeatures requestId)).encoder := rfl
  have hfreed : ∀ id,
      Listed id (b.free ecfg.inputOrder (encoderRequest mmFeatures requestId)).encoder.manager ↔
        Listed id b.encoder.manager ∧ id ≠ requestId := fun id =>
    h.kept.sound.accurate.listed_free ecfg.inputOrder (hsized requestId) (h.kept.owned requestId)
  have hname : e.requestId = requestId := by rcases he with rfl | rfl <;> rfl
  refine h.record (h.kept.perform hstep (hsized requestId) trivial) (fun id hid => ?_) ?_ ?_
  · exact (hfreed id).trans (and_iff_left (hname ▸ hid))
  · rw [hname]
    rcases he with rfl | rfl
    · trivial
    · exact fun hlisted => ((hfreed requestId).mp hlisted).2 rfl
  · rintro id m rfl
    rcases he with he | he <;> cases he

include hsized in
/-- An attempt takes references for its own request only. -/
theorem attempted {s : Scheduler (EncoderBackend ρ)}
    (h : Tracks size cacheSize mmFeatures env s.backend) (r : Request)
    (computed tokens budget : ℤ) :
    Tracks size cacheSize mmFeatures env
      ((withEncoder env ecfg mmFeatures shift).tryScheduleEncoderInputs s r computed tokens
        budget).2 := by
  have hr := hsized r.requestId
  have hnamed : ∀ f ∈ mmFeatures r.requestId, ∃ g ∈ mmFeatures r.requestId,
      g.identifier = f.identifier := fun f hf => ⟨f, hf, rfl⟩
  obtain ⟨t, hrun, ht⟩ := h.kept.sound.accurate.tryScheduleEncoderInputs
    (r := encoderRequest mmFeatures r.requestId) hr ecfg computed tokens budget shift
  have hstep : EncoderSystem.Performs ecfg s.backend.encoder
      (.trySchedule (encoderRequest mmFeatures r.requestId) computed tokens budget shift)
      ⟨t.manager, (encoderRequest mmFeatures r.requestId).inputs
        (t.encoderInputsToSchedule ++ t.externalLoadEncoderInput)⟩ := by
    simp only [EncoderSystem.Performs, EncoderSystem.perform, hrun, Except.map]
  have hkept := h.kept.perform hstep hr hnamed
  simp only [withEncoder, EncoderBackend.record, hrun]
  refine h.record (e := .attempted r.requestId) hkept (fun id hid => ?_) trivial ?_
  · exact (ht.listed id).trans (or_iff_left fun hhit => hid hhit.1)
  · rintro id m he
    cases he

end Tracks

section Refusals

end Refusals

end TokenCake.Sched
