import TokenCake.Verification.EncoderCache.Correctness

/-! # References of requests

A request holds references to entries of its own inputs only, and freeing the request gives all of
them up. -/

namespace TokenCake.Encoder

variable {size : String → ℕ} {cacheSize : ℤ} {m m' : EncoderCacheManager} {s s' : EncoderSystem}
  {a : EncoderAction} {actions : List EncoderAction} {cfg : EncoderConfig} {r : EncoderRequest}
  {f : MultiModalFeatureSpec} {id : String}
  {inputs : List MultiModalFeatureSpec} {mmFeatures : String → List MultiModalFeatureSpec}

/-! ## Freeing -/

theorem Accurate.holds_freeEncoderInput (h : Accurate size cacheSize m) (hf : Sized size f)
    (id mmHash requestId : String) :
    Holds id mmHash (m.freeEncoderInput requestId f) ↔
      Holds id mmHash m ∧ ¬(id = requestId ∧ f.identifier = mmHash) := by
  obtain ⟨-, -, -, hcached⟩ := h.freeEncoderInput requestId hf
  unfold Holds
  rw [hcached]
  by_cases heq : mmHash = f.identifier
  · rw [if_pos heq]
    cases m.cached.get? mmHash with
    | none => simp
    | some references => simp [heq, and_comm]
  · rw [if_neg heq]
    simp [Ne.symm heq]

theorem Accurate.holds_foldl (h : Accurate size cacheSize m) (hinputs : ∀ f ∈ inputs, Sized size f)
    (id mmHash requestId : String) (p : MultiModalFeatureSpec → Prop) [DecidablePred p] :
    Holds id mmHash (inputs.foldl (fun m f =>
      if p f then m.freeEncoderInput requestId f else m) m) ↔
      Holds id mmHash m ∧ (id = requestId → ∀ f ∈ inputs, p f → f.identifier ≠ mmHash) := by
  induction inputs generalizing m with
  | nil => simp
  | cons f inputs ih =>
      obtain ⟨hf, hinputs⟩ := List.forall_mem_cons.mp hinputs
      rw [List.foldl_cons, List.forall_mem_cons]
      by_cases hp : p f
      · rw [if_pos hp, ih (h.freeEncoderInput requestId hf).1 hinputs, h.holds_freeEncoderInput hf]
        tauto
      · rw [if_neg hp, ih h hinputs]
        tauto

/-- A request that is freed keeps no reference. -/
theorem Accurate.listed_free (h : Accurate size cacheSize m) (order : InputOrder)
    (hr : ∀ f ∈ r.mmFeatures, Sized size f)
    (howned : ∀ mmHash, Holds r.requestId mmHash m → ∃ f ∈ r.mmFeatures, f.identifier = mmHash) :
    Listed id (m.free order r) ↔ Listed id m ∧ id ≠ r.requestId := by
  have hholds : ∀ mmHash, Holds id mmHash (m.free order r) ↔ Holds id mmHash m ∧
      (id = r.requestId → ∀ f ∈ m.cachedInputs order r, f.identifier ≠ mmHash) := by
    intro mmHash
    have hfold := h.holds_foldl (sized_cachedInputs m order hr) id mmHash r.requestId fun _ => True
    simpa [EncoderCacheManager.free] using hfold
  constructor
  · rintro ⟨mmHash, hafter⟩
    obtain ⟨hbefore, hkept⟩ := (hholds mmHash).mp hafter
    refine ⟨⟨mmHash, hbefore⟩, fun heq => ?_⟩
    subst heq
    obtain ⟨f, hf, rfl⟩ := howned mmHash hbefore
    obtain ⟨references, hget, -⟩ := hbefore
    refine hkept rfl f ((mem_cachedInputs m order).mpr ⟨hf, ?_⟩) rfl
    exact OrdDict.mem_keys_iff.mpr ⟨references, hget⟩
  · rintro ⟨⟨mmHash, hbefore⟩, hne⟩
    exact ⟨mmHash, (hholds mmHash).mpr ⟨hbefore, fun heq => absurd heq hne⟩⟩

/-! ## References belong to inputs -/

/-- A request holds references to entries of its own inputs only. -/
def Owned (mmFeatures : String → List MultiModalFeatureSpec) (m : EncoderCacheManager) : Prop :=
  ∀ id mmHash, Holds id mmHash m → ∃ f ∈ mmFeatures id, f.identifier = mmHash

/-- The inputs scheduled for a request have identifiers of its inputs. -/
def OwnedInputs (mmFeatures : String → List MultiModalFeatureSpec)
    (inputs : List (String × MultiModalFeatureSpec)) : Prop :=
  ∀ input ∈ inputs, ∃ f ∈ mmFeatures input.1, f.identifier = input.2.identifier

theorem Owned.mono (h : Owned mmFeatures m) (hle : ∀ id mmHash, Holds id mmHash m' →
    Holds id mmHash m) : Owned mmFeatures m' :=
  fun id mmHash hholds => h id mmHash (hle id mmHash hholds)

theorem Owned.attempted {m₀ : EncoderCacheManager} {t : Attempt} (h : Owned mmFeatures m₀)
    (ht : Attempted size cacheSize r m₀ t)
    (hr : ∀ f ∈ r.mmFeatures, ∃ g ∈ mmFeatures r.requestId, g.identifier = f.identifier) :
    Owned mmFeatures t.manager := by
  rintro id mmHash ⟨references, hget, hid⟩
  obtain ⟨old, hold, -, hnew⟩ := ht.grown mmHash references hget
  rcases hnew id hid with hid | ⟨rfl, f, hf, rfl⟩
  · exact h id mmHash ⟨old, hold, hid⟩
  · exact hr f hf

theorem ownedInputs_inputs (hr : ∀ f ∈ r.mmFeatures,
    ∃ g ∈ mmFeatures r.requestId, g.identifier = f.identifier) (ids : List ℕ) :
    OwnedInputs mmFeatures (r.inputs ids) := by
  intro input hinput
  obtain ⟨i, -, hi⟩ := List.mem_filterMap.mp hinput
  obtain ⟨f, hf, rfl⟩ := Option.map_eq_some_iff.mp hi
  exact hr f (List.mem_of_getElem? hf)

theorem Owned.allocateAll {scheduled : List (String × MultiModalFeatureSpec)}
    (h : Owned mmFeatures m) (hscheduled : OwnedInputs mmFeatures scheduled)
    (hholds : ∀ id mmHash, Holds id mmHash m' ↔ Holds id mmHash m ∨
      ∃ input ∈ scheduled, input.1 = id ∧ input.2.identifier = mmHash) : Owned mmFeatures m' := by
  intro id mmHash hafter
  rcases (hholds id mmHash).mp hafter with hbefore | ⟨input, hinput, rfl, rfl⟩
  · exact h id mmHash hbefore
  · exact hscheduled input hinput

/-- The attempts of the action are for inputs of the request. -/
def EncoderAction.Named (mmFeatures : String → List MultiModalFeatureSpec) :
    EncoderAction → Prop
  | .trySchedule r .. =>
      ∀ f ∈ r.mmFeatures, ∃ g ∈ mmFeatures r.requestId, g.identifier = f.identifier
  | _ => True

/-- What holds of the encoder cache whenever the scheduler uses it. -/
structure Kept (size : String → ℕ) (cacheSize : ℤ)
    (mmFeatures : String → List MultiModalFeatureSpec) (s : EncoderSystem) : Prop where
  sound : Sound size cacheSize s
  owned : Owned mmFeatures s.manager
  scheduled : OwnedInputs mmFeatures s.scheduled

theorem Kept.perform (h : Kept size cacheSize mmFeatures s)
    (hstep : EncoderSystem.Performs cfg s a s') (ha : a.Sized size) (hnamed : a.Named mmFeatures) :
    Kept size cacheSize mmFeatures s' := by
  obtain ⟨s'', hstep', hs''⟩ := h.sound.perform ha cfg
  obtain rfl : s'' = s' := Except.ok.inj (hstep'.symm.trans hstep)
  suffices howned : Owned mmFeatures s''.manager ∧ OwnedInputs mmFeatures s''.scheduled from
    ⟨hs''.sound, howned.1, howned.2⟩
  cases a with
  | trySchedule r numComputedTokens numNewTokens encoderComputeBudget shift =>
      obtain ⟨t, hrun, ht⟩ := h.sound.accurate.tryScheduleEncoderInputs ha cfg numComputedTokens
        numNewTokens encoderComputeBudget shift
      simp only [EncoderSystem.Performs, EncoderSystem.perform, hrun, Except.map] at hstep
      obtain rfl := Except.ok.inj hstep
      exact ⟨h.owned.attempted ht hnamed, ownedInputs_inputs hnamed _⟩
  | allocateScheduled =>
      obtain ⟨m', hrun, -, -, hholds⟩ := h.sound.accurate.allocateAll h.sound.reserved
      simp only [EncoderSystem.Performs, EncoderSystem.perform, hrun, Except.map] at hstep
      obtain rfl := Except.ok.inj hstep
      exact ⟨h.owned.allocateAll h.scheduled hholds, fun input hinput => by simp at hinput⟩
  | freeEncoderInput requestId f =>
      obtain rfl := Except.ok.inj hstep
      refine ⟨h.owned.mono fun id mmHash hholds => ?_, h.scheduled⟩
      exact ((h.sound.accurate.holds_freeEncoderInput ha ..).mp hholds).1
  | freeEncoderInputs r numComputedTokens =>
      obtain rfl := Except.ok.inj hstep
      refine ⟨h.owned.mono fun id mmHash hholds => ?_, h.scheduled⟩
      exact ((h.sound.accurate.holds_foldl (sized_cachedInputs _ cfg.inputOrder ha) ..).mp hholds).1
  | free r =>
      obtain rfl := Except.ok.inj hstep
      refine ⟨h.owned.mono fun id mmHash hholds => ?_, h.scheduled⟩
      have hfold := h.sound.accurate.holds_foldl (sized_cachedInputs s.manager cfg.inputOrder ha) id mmHash
        r.requestId fun _ => True
      simp only [if_true] at hfold
      exact (hfold.mp hholds).1
  | reset =>
      obtain rfl := Except.ok.inj hstep
      refine ⟨?_, h.scheduled⟩
      rintro id mmHash ⟨references, hget, -⟩
      cases hget
  | getFreedMmHashes =>
      obtain rfl := Except.ok.inj hstep
      exact ⟨h.owned, h.scheduled⟩

theorem Kept.run (hsize : 0 ≤ cacheSize)
    (hactions : ∀ a ∈ actions, a.Sized size ∧ a.Named mmFeatures)
    (run : Run (EncoderSystem.Performs cfg) (.init cacheSize) actions s) :
    Kept size cacheSize mmFeatures s := by
  refine run.invariant (I := Kept size cacheSize mmFeatures) ?_ ⟨.init hsize, ?_, ?_⟩
  · intro s a s' ha hs hstep
    exact hs.perform hstep (hactions a ha).1 (hactions a ha).2
  · rintro id mmHash ⟨references, hget, -⟩
    cases hget
  · simp [OwnedInputs, EncoderSystem.init]

end TokenCake.Encoder
