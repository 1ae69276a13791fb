import TokenCake.Lib.Ensures
import TokenCake.Verification.EncoderCache.Attempts

/-! # The encoder cache over whole runs

Space is reserved by an attempt and taken once the request has got its blocks. Between the two,
references may be given up, but no entry is added. -/

namespace TokenCake.Encoder

variable {size : String → ℕ} {cacheSize : ℤ} {m m' : EncoderCacheManager} {s s' : EncoderSystem}
  {a : EncoderAction} {actions : List EncoderAction} {cfg : EncoderConfig}
  {inputs : List (String × MultiModalFeatureSpec)}

/-! ## Reserved space -/

/-- There is room for inputs that are not in the cache. -/
structure Reserved (size : String → ℕ) (m : EncoderCacheManager)
    (inputs : List (String × MultiModalFeatureSpec)) : Prop where
  sized : ∀ input ∈ inputs, Sized size input.2
  nodup : (inputs.map fun input => input.2.identifier).Nodup
  absent : ∀ input ∈ inputs, m.cached.get? input.2.identifier = none
  room : (inputs.map fun input => (input.2.numEncoderEmbeds : ℤ)).sum ≤ m.numFreeSlots

theorem Reserved.nil (h : Accurate size cacheSize m) : Reserved size m [] where
  sized := by simp
  nodup := List.nodup_nil
  absent := by simp
  room := h.free_nonneg

theorem Reserved.frees (h : Reserved size m inputs) (hfrees : Frees m m') :
    Reserved size m' inputs where
  sized := h.sized
  nodup := h.nodup
  absent input hinput := (hfrees.cached _).mpr (h.absent input hinput)
  room := hfrees.numFreeSlots ▸ h.room

theorem Reserved.sublist {taken : List (String × MultiModalFeatureSpec)}
    (h : Reserved size m inputs) (hsub : taken.Sublist inputs) : Reserved size m taken where
  sized input hinput := h.sized input (hsub.subset hinput)
  nodup := h.nodup.sublist (hsub.map _)
  absent input hinput := h.absent input (hsub.subset hinput)
  room := by
    refine ((hsub.map _).sum_le_sum fun n hn => ?_).trans h.room
    obtain ⟨input, -, rfl⟩ := List.mem_map.mp hn
    exact Int.natCast_nonneg _

/-- An attempt reserves the space for what it schedules. -/
theorem Attempted.reserved {r : EncoderRequest} {m₀ : EncoderCacheManager} {t : Attempt}
    (h : Attempted size cacheSize r m₀ t) (hr : ∀ f ∈ r.mmFeatures, Sized size f) :
    Reserved size t.manager
      (r.inputs (t.encoderInputsToSchedule ++ t.externalLoadEncoderInput)) := by
  have hfeatures : r.inputs (t.encoderInputsToSchedule ++ t.externalLoadEncoderInput) =
      (scheduledFeatures r t).map fun f => (r.requestId, f) := by
    rw [scheduledFeatures, List.map_filterMap]
    rfl
  have hsized : ∀ f ∈ scheduledFeatures r t, Sized size f := by
    intro f hf
    obtain ⟨i, -, hi⟩ := List.mem_filterMap.mp hf
    exact hr f (List.mem_of_getElem? hi)
  rw [hfeatures]
  refine ⟨?_, ?_, ?_, ?_⟩
  · simpa using hsized
  · rw [List.map_map]
    exact h.inputs.nodup_iff.mpr h.nodup
  · intro input hinput
    obtain ⟨f, hf, rfl⟩ := List.mem_map.mp hinput
    exact h.absent _ (h.inputs.mem_iff.mp (List.mem_map_of_mem hf))
  · have hsum : ((scheduledFeatures r t).map fun f => (f.numEncoderEmbeds : ℤ)).sum =
        t.numEmbedsToSchedule := by
      rw [h.total, ← (h.inputs.map fun mmHash => (size mmHash : ℤ)).sum_eq, List.map_map]
      refine congrArg List.sum (List.map_congr_left fun f hf => ?_)
      exact congrArg Nat.cast (hsized f hf)
    rw [List.map_map]
    exact hsum.trans_le h.room

/-- A new entry has one reference. -/
theorem holds_insert_new {id requestId mmHash mmHash' : String}
    (hnew : m.cached.get? mmHash' = none)
    (hcached : m'.cached = m.cached.insert mmHash' {requestId}) :
    Holds id mmHash m' ↔ Holds id mmHash m ∨ (requestId = id ∧ mmHash' = mmHash) := by
  unfold Holds
  rw [hcached]
  by_cases heq : mmHash = mmHash'
  · subst heq
    simp [hnew, eq_comm]
  · simp [OrdDict.get?_insert, heq, Ne.symm heq]

/-- The assertions of `allocate` hold where the space is reserved. -/
theorem Accurate.allocateAll (h : Accurate size cacheSize m) (hreserved : Reserved size m inputs) :
    ∃ m', EncoderSystem.allocateAll m inputs = .ok m' ∧ Accurate size cacheSize m' ∧
      m'.freed = m.freed ∧ ∀ id mmHash, Holds id mmHash m' ↔ Holds id mmHash m ∨
        ∃ input ∈ inputs, input.1 = id ∧ input.2.identifier = mmHash := by
  induction inputs generalizing m with
  | nil => exact ⟨m, rfl, h, rfl, by simp⟩
  | cons input inputs ih =>
      obtain ⟨hf, hsized⟩ := List.forall_mem_cons.mp hreserved.sized
      obtain ⟨hnew, habsent⟩ := List.forall_mem_cons.mp hreserved.absent
      obtain ⟨hfresh, hnodup⟩ := List.nodup_cons.mp hreserved.nodup
      have hroom := hreserved.room
      rw [List.map_cons, List.sum_cons] at hroom
      have hrest : 0 ≤ (inputs.map fun input => (input.2.numEncoderEmbeds : ℤ)).sum :=
        List.sum_nonneg fun n hn => by
          obtain ⟨other, -, rfl⟩ := List.mem_map.mp hn
          exact Int.natCast_nonneg _
      obtain ⟨m', hrun, hm', hfreed, hfree, hcached⟩ :=
        h.allocate input.1 hf (by omega) hnew
      have hstill : ∀ other ∈ inputs, m'.cached.get? other.2.identifier = none := by
        intro other hother
        have hne : other.2.identifier ≠ input.2.identifier := by
          intro heq
          exact hfresh (List.mem_map.mpr ⟨other, hother, heq⟩)
        rw [hcached, OrdDict.get?_insert, if_neg hne]
        exact habsent other hother
      obtain ⟨m'', hrun', hm'', hfreed', hholds⟩ := ih hm' ⟨hsized, hnodup, hstill, by omega⟩
      refine ⟨m'', ?_, hm'', hfreed'.trans hfreed, fun id mmHash => ?_⟩
      · simp only [EncoderSystem.allocateAll, List.foldlM_cons, hrun, bind, Except.bind]
        exact hrun'
      · rw [hholds, holds_insert_new hnew hcached, List.exists_mem_cons_iff, or_assoc]

theorem mem_cachedInputs {r : EncoderRequest} {f : MultiModalFeatureSpec}
    (m : EncoderCacheManager) (order : InputOrder) :
    f ∈ m.cachedInputs order r ↔ f ∈ r.mmFeatures ∧ f.identifier ∈ m.cached.keys := by
  simp only [EncoderCacheManager.cachedInputs, List.mem_filterMap, (order.perm _).mem_iff,
    EncoderCacheManager.cachedInputIds, List.mem_filter, List.mem_range, Option.any_eq_true,
    decide_eq_true_eq]
  constructor
  · rintro ⟨i, ⟨-, f', hf', hcached⟩, hf⟩
    obtain rfl := Option.some.inj (hf'.symm.trans hf)
    exact ⟨List.mem_of_getElem? hf, hcached⟩
  · rintro ⟨hf, hcached⟩
    obtain ⟨i, hi⟩ := List.getElem?_of_mem hf
    exact ⟨i, ⟨(List.getElem?_eq_some_iff.mp hi).1, f, hi, hcached⟩, hi⟩

theorem sized_cachedInputs {r : EncoderRequest} (m : EncoderCacheManager) (order : InputOrder)
    (hr : ∀ f ∈ r.mmFeatures, Sized size f) : ∀ f ∈ m.cachedInputs order r, Sized size f :=
  fun f hf => hr f ((mem_cachedInputs m order).mp hf).1

/-! ## One action -/

/-- Every input of the action has the size of its identifier. -/
def EncoderAction.Sized (size : String → ℕ) : EncoderAction → Prop
  | .trySchedule r .. => ∀ f ∈ r.mmFeatures, Encoder.Sized size f
  | .freeEncoderInput _ f => Encoder.Sized size f
  | .freeEncoderInputs r _ => ∀ f ∈ r.mmFeatures, Encoder.Sized size f
  | .free r => ∀ f ∈ r.mmFeatures, Encoder.Sized size f
  | _ => True

/-- The accounts are right, and the space for the inputs of the last attempt is reserved. -/
structure Sound (size : String → ℕ) (cacheSize : ℤ) (s : EncoderSystem) : Prop where
  accurate : Accurate size cacheSize s.manager
  reserved : Reserved size s.manager s.scheduled

/-- The action is an attempt that finds the entry without references, takes none to it, and leaves
without it. -/
def Evicted (cfg : EncoderConfig) (mmHash : String) (s : EncoderSystem) : EncoderAction → Prop
  | .trySchedule r numComputedTokens numNewTokens encoderComputeBudget shift =>
      ∃ t, tryScheduleEncoderInputs cfg s.manager r numComputedTokens numNewTokens
          encoderComputeBudget shift = .ok t ∧
        s.manager.cached.get? mmHash = some ∅ ∧ t.manager.cached.get? mmHash = none ∧
        ∀ i ∈ t.hits, ∀ f, r.mmFeatures[i]? = some f → f.identifier ≠ mmHash
  | _ => False

/-- What one action does. -/
structure Stepped (size : String → ℕ) (cacheSize : ℤ) (cfg : EncoderConfig) (s : EncoderSystem)
    (a : EncoderAction) (s' : EncoderSystem) : Prop where
  sound : Sound size cacheSize s'
  freed : ∀ mmHash ∈ s'.manager.freed, mmHash ∈ s.manager.freed ∨ Evicted cfg mmHash s a

theorem Sound.frees (h : Sound size cacheSize s) (hm' : Accurate size cacheSize m')
    (hfrees : Frees s.manager m') : Stepped size cacheSize cfg s a { s with manager := m' } where
  sound := ⟨hm', h.reserved.frees hfrees⟩
  freed _ hmem := .inl (hfrees.freed ▸ hmem)

theorem Accurate.reset (h : Accurate size cacheSize m) : Accurate size cacheSize m.reset where
  freeable_iff mmHash := by
    simp [EncoderCacheManager.reset, OrdDict.mem_keys_iff]
  freeable_size mmHash n hn := by
    simp [EncoderCacheManager.reset] at hn
  cacheSize_eq := h.cacheSize_eq
  free_eq := by simp [EncoderCacheManager.reset, h.cacheSize_eq]
  freeable_eq := by simp [EncoderCacheManager.reset]
  free_nonneg := by
    have hle := h.free_le_cacheSize
    have hnonneg := h.free_nonneg
    change 0 ≤ m.cacheSize
    rw [h.cacheSize_eq]
    omega

/-- Every action succeeds and keeps the accounts. -/
theorem Sound.perform (h : Sound size cacheSize s) (ha : a.Sized size) (cfg : EncoderConfig) :
    ∃ s', EncoderSystem.Performs cfg s a s' ∧ Stepped size cacheSize cfg s a s' := by
  cases a with
  | trySchedule r numComputedTokens numNewTokens encoderComputeBudget shift =>
      obtain ⟨t, hrun, ht⟩ := h.accurate.tryScheduleEncoderInputs ha cfg numComputedTokens
        numNewTokens encoderComputeBudget shift
      refine ⟨⟨t.manager, r.inputs (t.encoderInputsToSchedule ++ t.externalLoadEncoderInput)⟩,
        ?_, ⟨ht.accurate, ht.reserved ha⟩, fun mmHash hmem => ?_⟩
      · simp [EncoderSystem.Performs, EncoderSystem.perform, hrun, Except.map]
      · obtain ⟨evicted, hfreed, hevicted⟩ := ht.evicted
        rw [hfreed] at hmem
        rcases List.mem_append.mp hmem with hmem | hmem
        · exact .inl hmem
        · obtain ⟨hold, hgone⟩ := hevicted mmHash hmem
          refine .inr ⟨t, hrun, hold, hgone, fun i hi f hf heq => ?_⟩
          obtain ⟨g, references, hg, hget, -⟩ := ht.kept i hi
          obtain rfl : g = f := Option.some.inj (hg.symm.trans hf)
          rw [heq, hgone] at hget
          cases hget
  | allocateScheduled =>
      obtain ⟨m', hrun, hm', hfreed, -⟩ := h.accurate.allocateAll h.reserved
      refine ⟨⟨m', []⟩, ?_, ⟨hm', .nil hm'⟩, fun mmHash hmem => .inl (hfreed ▸ hmem)⟩
      simp [EncoderSystem.Performs, EncoderSystem.perform, hrun, Except.map]
  | freeEncoderInput requestId f =>
      have hinputs : ∀ g ∈ [f], Encoder.Sized size g := List.forall_mem_singleton.mpr ha
      obtain ⟨hm', hfrees⟩ := h.accurate.foldl_freeEncoderInput requestId hinputs fun _ => True
      exact ⟨_, rfl, h.frees hm' hfrees⟩
  | freeEncoderInputs r numComputedTokens =>
      obtain ⟨hm', hfrees⟩ := h.accurate.foldl_freeEncoderInput r.requestId
        (sized_cachedInputs s.manager cfg.inputOrder ha)
        fun f => (f.mmPosition.offset : ℤ) + f.mmPosition.length ≤ numComputedTokens
      exact ⟨_, rfl, h.frees hm' hfrees⟩
  | free r =>
      obtain ⟨hm', hfrees⟩ := h.accurate.foldl_freeEncoderInput r.requestId
        (sized_cachedInputs s.manager cfg.inputOrder ha) fun _ => True
      simp only [if_true] at hm' hfrees
      exact ⟨_, rfl, h.frees hm' hfrees⟩
  | reset =>
      refine ⟨_, rfl, ⟨h.accurate.reset, ⟨h.reserved.sized, h.reserved.nodup, ?_, ?_⟩⟩, ?_⟩
      · exact fun input _ => rfl
      · have hle := h.accurate.free_le_cacheSize
        have hsize := h.accurate.cacheSize_eq
        exact h.reserved.room.trans (hle.trans hsize.ge)
      · exact fun mmHash hmem => absurd hmem List.not_mem_nil
  | getFreedMmHashes =>
      refine ⟨_, rfl, ⟨⟨h.accurate.freeable_iff, h.accurate.freeable_size,
        h.accurate.cacheSize_eq, h.accurate.free_eq, h.accurate.freeable_eq,
        h.accurate.free_nonneg⟩, ⟨h.reserved.sized, h.reserved.nodup, h.reserved.absent,
        h.reserved.room⟩⟩, fun mmHash hmem => absurd hmem List.not_mem_nil⟩

/-! ## Runs -/

theorem Sound.init (hsize : 0 ≤ cacheSize) : Sound size cacheSize (.init cacheSize) where
  accurate := .new hsize
  reserved := .nil (.new hsize)

namespace EncoderSystem

/-- A step of the run from `init` evicted the entry. -/
def EvictedIn (cfg : EncoderConfig) (init : EncoderSystem) (actions : List EncoderAction)
    (mmHash : String) : Prop :=
  ∃ before a after s, actions = before ++ a :: after ∧ Run (Performs cfg) init before s ∧
    Evicted cfg mmHash s a

theorem EvictedIn.snoc {s₀ : EncoderSystem} {mmHash : String}
    (h : EvictedIn cfg s₀ actions mmHash) (a : EncoderAction) :
    EvictedIn cfg s₀ (actions ++ [a]) mmHash := by
  obtain ⟨before, b, after, s, rfl, hrun, hevicted⟩ := h
  exact ⟨before, b, after ++ [a], s, by simp, hrun, hevicted⟩

theorem run_sound (hsize : 0 ≤ cacheSize) (hactions : ∀ a ∈ actions, a.Sized size) :
    ∃ s, Run (Performs cfg) (init cacheSize) actions s ∧ Sound size cacheSize s ∧
      ∀ mmHash ∈ s.manager.freed, EvictedIn cfg (init cacheSize) actions mmHash := by
  induction actions using List.reverseRecOn with
  | nil => exact ⟨_, .nil _, .init hsize, fun mmHash hmem => absurd hmem List.not_mem_nil⟩
  | append_singleton actions a ih =>
      obtain ⟨hactions, ha⟩ := List.forall_mem_append.mp hactions
      obtain ⟨s, hrun, hs, hfreed⟩ := ih hactions
      obtain ⟨s', hstep, hs', hnew⟩ := hs.perform (ha a (List.mem_singleton_self a)) cfg
      refine ⟨s', hrun.snoc hstep, hs', fun mmHash hmem => ?_⟩
      rcases hnew mmHash hmem with hold | hevicted
      · exact (hfreed mmHash hold).snoc a
      · exact ⟨actions, a, [], s, rfl, hrun, hevicted⟩

/-- No action of a run fails, the accounts are exact after it, and only entries without references
have been evicted. -/
theorem accounts_exact (hsize : 0 ≤ cacheSize) (hactions : ∀ a ∈ actions, a.Sized size) :
    ∃ s, Run (Performs cfg) (init cacheSize) actions s ∧ Accurate size cacheSize s.manager ∧
      0 ≤ s.manager.numFreeableSlots ∧
      ∀ mmHash ∈ s.manager.freed, EvictedIn cfg (init cacheSize) actions mmHash := by
  obtain ⟨s, hrun, hs, hfreed⟩ := run_sound hsize hactions
  exact ⟨s, hrun, hs.accurate, hs.accurate.free_nonneg.trans hs.accurate.free_le_freeable, hfreed⟩

/-- Two requests share an image, and a third one evicts it. -/
def sharedImage : List EncoderAction :=
  [.trySchedule ⟨"first", [⟨"image", ⟨0, 3, none⟩⟩]⟩ 0 8 10 0, .allocateScheduled,
    .trySchedule ⟨"second", [⟨"image", ⟨2, 3, none⟩⟩, ⟨"image", ⟨5, 3, none⟩⟩]⟩ 0 8 10 0,
    .free ⟨"first", [⟨"image", ⟨0, 3, none⟩⟩]⟩,
    .freeEncoderInputs ⟨"second", [⟨"image", ⟨2, 3, none⟩⟩, ⟨"image", ⟨5, 3, none⟩⟩]⟩ 8,
    .trySchedule ⟨"third", [⟨"chart", ⟨0, 2, none⟩⟩]⟩ 0 8 10 0, .allocateScheduled]

/-- The inputs of the second request are freed in descending order. -/
def descending : EncoderConfig where
  inputOrder := ⟨List.reverse, List.reverse_perm⟩

/-- The third request has evicted the image and holds its own input. -/
theorem sharedImage_exact : ∃ s, Run (Performs descending) (init 4) sharedImage s ∧
    Accurate (fun mmHash => if mmHash = "image" then 3 else 2) 4 s.manager ∧
    s.manager.cached.entries = [("chart", {"third"})] ∧ s.manager.freed = ["image"] ∧
    s.manager.numFreeSlots = 2 ∧ s.manager.numFreeableSlots = 2 ∧
    ∀ mmHash ∈ s.manager.freed, EvictedIn descending (init 4) sharedImage mmHash := by
  have hcomputed : (sharedImage.foldlM (fun s a => (perform descending s a).toOption)
      (init 4)).any (fun s => decide (s.manager.cached.entries = [("chart", {"third"})] ∧
        s.manager.freed = ["image"] ∧ s.manager.numFreeSlots = 2 ∧
        s.manager.numFreeableSlots = 2)) = true := by decide +kernel
  obtain ⟨s, hs, hfacts⟩ := (Option.any_eq_true _ _).mp hcomputed
  obtain ⟨hcached, hfreed, hfree, hfreeable⟩ := of_decide_eq_true hfacts
  have hrun : Run (Performs descending) (init 4) sharedImage s :=
    .of_foldlM (fun _ _ _ h => Ensures.eq_ok_of_toOption_eq_some h) hs
  have hactions : ∀ a ∈ sharedImage, a.Sized (fun mmHash => if mmHash = "image" then 3 else 2) := by
    simp [sharedImage, EncoderAction.Sized, Encoder.Sized,
      MultiModalFeatureSpec.numEncoderEmbeds, PlaceholderRange.getNumEmbeds]
  have hexact := @accounts_exact _ 4 sharedImage descending (by decide) hactions
  obtain ⟨s', hrun', haccurate, -, hevicted⟩ := hexact
  obtain rfl := hrun'.functional (fun _ _ _ _ h h' => Except.ok.inj (h.symm.trans h')) hrun
  exact ⟨s', hrun, haccurate, hcached, hfreed, hfree, hfreeable, hevicted⟩

end EncoderSystem

end TokenCake.Encoder
