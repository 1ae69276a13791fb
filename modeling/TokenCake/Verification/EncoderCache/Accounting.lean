import TokenCake.Lib.Ensures
import TokenCake.Lib.Run
import TokenCake.Model.EncoderCache

/-! # The accounts of the encoder cache

Entries without references are those that can be evicted, and the two counters say how much space
is free and how much can be freed. -/

namespace TokenCake.Encoder

variable {size : String → ℕ} {cacheSize : ℤ} {m m' : EncoderCacheManager}
  {f : MultiModalFeatureSpec} {mmHash : String} {n : ℕ}

/-- Inputs with one identifier have equally many embeddings. -/
def Sized (size : String → ℕ) (f : MultiModalFeatureSpec) : Prop :=
  f.numEncoderEmbeds = size f.identifier

/-- The accounts of the manager. -/
structure Accurate (size : String → ℕ) (cacheSize : ℤ) (m : EncoderCacheManager) : Prop where
  freeable_iff : ∀ mmHash, mmHash ∈ m.freeable.keys ↔ m.cached.get? mmHash = some ∅
  freeable_size : ∀ mmHash n, m.freeable.get? mmHash = some n → n = size mmHash
  cacheSize_eq : m.cacheSize = cacheSize
  free_eq : m.numFreeSlots = cacheSize - m.cached.sum fun mmHash _ => (size mmHash : ℤ)
  freeable_eq : m.numFreeableSlots = m.numFreeSlots + m.freeable.sum fun _ n => (n : ℤ)
  free_nonneg : 0 ≤ m.numFreeSlots

namespace Accurate

theorem freeable_nonneg (m : EncoderCacheManager) : 0 ≤ m.freeable.sum fun _ n => (n : ℤ) :=
  List.sum_nonneg fun _ hn => by
    obtain ⟨e, -, rfl⟩ := List.mem_map.mp hn
    exact Int.natCast_nonneg e.2

theorem free_le_freeable (h : Accurate size cacheSize m) :
    m.numFreeSlots ≤ m.numFreeableSlots := by
  have hnonneg := freeable_nonneg m
  rw [h.freeable_eq]
  omega

theorem free_le_cacheSize (h : Accurate size cacheSize m) : m.numFreeSlots ≤ cacheSize := by
  have hnonneg : 0 ≤ m.cached.sum fun mmHash _ => (size mmHash : ℤ) :=
    List.sum_nonneg fun _ hn => by
      obtain ⟨e, -, rfl⟩ := List.mem_map.mp hn
      exact Int.natCast_nonneg (size e.1)
  rw [h.free_eq]
  omega

theorem new (hsize : 0 ≤ cacheSize) : Accurate size cacheSize (.new cacheSize) where
  freeable_iff mmHash := by
    simp [EncoderCacheManager.new, OrdDict.mem_keys_iff]
  freeable_size mmHash n h := by
    simp [EncoderCacheManager.new] at h
  cacheSize_eq := rfl
  free_eq := by simp [EncoderCacheManager.new]
  freeable_eq := by simp [EncoderCacheManager.new]
  free_nonneg := hsize

/-! ## Looking up -/

/-- Without a hit nothing changes; a hit adds a reference. -/
theorem checkAndUpdateCache (h : Accurate size cacheSize m) (requestId : String)
    (f : MultiModalFeatureSpec) :
    ∃ hit m', m.checkAndUpdateCache requestId f = .ok (hit, m') ∧ Accurate size cacheSize m' ∧
      m'.numFreeSlots = m.numFreeSlots ∧ m'.freed = m.freed ∧
      (hit = false → m' = m ∧ m.cached.get? f.identifier = none) ∧
      (hit = true → ∃ references, m.cached.get? f.identifier = some references ∧
        m'.cached = m.cached.insert f.identifier (insert requestId references)) := by
  unfold EncoderCacheManager.checkAndUpdateCache
  cases hget : m.cached.get? f.identifier with
  | none => exact ⟨false, m, rfl, h, rfl, rfl, fun _ => ⟨rfl, rfl⟩, by simp⟩
  | some references =>
      have hsum := OrdDict.sum_insert_add hget (insert requestId references)
        fun mmHash _ => (size mmHash : ℤ)
      have hnew : some (insert requestId references) ≠ some (∅ : Finset String) := by simp
      by_cases hempty : references = ∅
      · subst hempty
        obtain ⟨n, hn⟩ := OrdDict.mem_keys_iff.mp ((h.freeable_iff _).mpr hget)
        have hsplit := OrdDict.sum_erase_add hn fun _ n => (n : ℤ)
        simp only [if_true, hn]
        refine ⟨true, _, rfl, ⟨?_, ?_, h.cacheSize_eq, ?_, ?_, h.free_nonneg⟩, rfl, rfl, by simp,
          fun _ => ⟨∅, rfl, rfl⟩⟩
        · intro mmHash
          rw [OrdDict.mem_keys_erase, h.freeable_iff, OrdDict.get?_insert]
          by_cases heq : mmHash = f.identifier
          · simp [heq]
          · simp [heq]
        · intro mmHash k hk
          rw [OrdDict.get?_erase] at hk
          split at hk
          · cases hk
          · exact h.freeable_size mmHash k hk
        · have hfree := h.free_eq
          dsimp only
          omega
        · have hfreeable := h.freeable_eq
          dsimp only
          omega
      · simp only [if_neg hempty]
        refine ⟨true, _, rfl, ⟨?_, h.freeable_size, h.cacheSize_eq, ?_, h.freeable_eq,
          h.free_nonneg⟩, rfl, rfl, by simp, fun _ => ⟨references, rfl, rfl⟩⟩
        · intro mmHash
          rw [h.freeable_iff, OrdDict.get?_insert]
          by_cases heq : mmHash = f.identifier
          · simp [heq, hget, hempty]
          · simp [heq]
        · have hfree := h.free_eq
          dsimp only
          omega

end Accurate

/-! ## Evicting -/

/-- Entries without references have left the cache. -/
def Evicts (m m' : EncoderCacheManager) : Prop :=
  ∃ evicted, m'.freed = m.freed ++ evicted ∧
    (∀ mmHash ∈ evicted, m.cached.get? mmHash = some ∅) ∧
    ∀ mmHash, m'.cached.get? mmHash = if mmHash ∈ evicted then none else m.cached.get? mmHash

theorem Evicts.refl (m : EncoderCacheManager) : Evicts m m :=
  ⟨[], by simp, by simp, by simp⟩

theorem Evicts.trans {m'' : EncoderCacheManager} (h : Evicts m m') (h' : Evicts m' m'') :
    Evicts m m'' := by
  obtain ⟨first, hfreed, hempty, hcached⟩ := h
  obtain ⟨second, hfreed', hempty', hcached'⟩ := h'
  refine ⟨first ++ second, by rw [hfreed', hfreed, List.append_assoc], ?_, ?_⟩
  · intro mmHash hmem
    rcases List.mem_append.mp hmem with hmem | hmem
    · exact hempty mmHash hmem
    · have hget := hempty' mmHash hmem
      rw [hcached] at hget
      split at hget
      · cases hget
      · exact hget
  · intro mmHash
    simp only [hcached', hcached, List.mem_append]
    by_cases hfirst : mmHash ∈ first <;> by_cases hsecond : mmHash ∈ second <;>
      simp [hfirst, hsecond]

namespace Accurate

/-- Evicting the oldest entry. -/
theorem evictFirst (h : Accurate size cacheSize m) {entries : List (String × ℕ)}
    (hentries : m.freeable.entries = (mmHash, n) :: entries) :
    Accurate size cacheSize { m with
      freeable := m.freeable.popFirst
      cached := m.cached.erase mmHash
      freed := m.freed ++ [mmHash]
      numFreeSlots := m.numFreeSlots + n } ∧ m.cached.get? mmHash = some ∅ := by
  have hn : m.freeable.get? mmHash = some n := by
    rw [OrdDict.get?_eq_some_iff, hentries]
    exact List.mem_cons_self ..
  have hcached := (h.freeable_iff mmHash).mp (OrdDict.mem_keys_iff.mpr ⟨n, hn⟩)
  have hpop := OrdDict.popFirst_eq_erase hentries
  have hsize := h.freeable_size mmHash n hn
  have hsum := OrdDict.sum_erase_add hcached fun mmHash _ => (size mmHash : ℤ)
  have hsum' := OrdDict.sum_erase_add hn fun _ n => (n : ℤ)
  have hfree := h.free_eq
  have hfreeable := h.freeable_eq
  refine ⟨⟨?_, ?_, h.cacheSize_eq, ?_, ?_, ?_⟩, hcached⟩
  · intro other
    rw [hpop, OrdDict.mem_keys_erase, OrdDict.get?_erase, h.freeable_iff]
    by_cases heq : other = mmHash <;> simp [heq]
  · intro other k hk
    rw [hpop, OrdDict.get?_erase] at hk
    split at hk
    · cases hk
    · exact h.freeable_size other k hk
  · dsimp only
    rw [hsize]
    omega
  · dsimp only
    rw [hpop]
    omega
  · have hnonneg := h.free_nonneg
    dsimp only
    omega

/-- The loop of `can_allocate` finds enough entries to evict. -/
theorem evict (h : Accurate size cacheSize m) {entries : List (String × ℕ)}
    (hentries : m.freeable.entries = entries) {numEmbeds : ℤ}
    (hle : numEmbeds ≤ m.numFreeableSlots) :
    ∃ m', EncoderCacheManager.evict numEmbeds entries m = .ok m' ∧ Accurate size cacheSize m' ∧
      numEmbeds ≤ m'.numFreeSlots ∧ m.numFreeSlots ≤ m'.numFreeSlots ∧ Evicts m m' := by
  induction entries generalizing m with
  | nil =>
      have hfreeable := h.freeable_eq
      have hnone : (m.freeable.sum fun _ n => (n : ℤ)) = 0 := by
        rw [OrdDict.sum, hentries]
        rfl
      have henough : ¬m.numFreeSlots < numEmbeds := by omega
      exact ⟨m, if_neg henough, h, by omega, le_rfl, .refl m⟩
  | cons entry entries ih =>
      obtain ⟨mmHash, n⟩ := entry
      by_cases hshort : m.numFreeSlots < numEmbeds
      · obtain ⟨hnext, hcached⟩ := h.evictFirst hentries
        have hmem : mmHash ∈ m.cached.keys := OrdDict.mem_keys_iff.mpr ⟨∅, hcached⟩
        obtain ⟨m', hloop, hm', henough, hmore, hevicts⟩ := ih hnext (by
          change m.freeable.entries.drop 1 = entries
          rw [hentries]
          rfl) hle
        refine ⟨m', ?_, hm', henough, ?_, Evicts.trans ⟨[mmHash], rfl, ?_, ?_⟩ hevicts⟩
        · rw [EncoderCacheManager.evict, if_pos hshort, if_pos hmem, hloop]
        · dsimp only at hmore
          omega
        · simpa using hcached
        · intro other
          simp only [OrdDict.get?_erase, List.mem_singleton]
      · exact ⟨m, if_neg hshort, h, by omega, le_rfl, .refl m⟩

/-- `can_allocate` makes room for the inputs that are already scheduled and for this one. -/
theorem canAllocate (h : Accurate size cacheSize m) (budget total : ℤ) :
    ∃ fits m', m.canAllocate f budget total = .ok (fits, m') ∧ Accurate size cacheSize m' ∧
      m.numFreeSlots ≤ m'.numFreeSlots ∧ Evicts m m' ∧
      (fits = true → f.numEncoderEmbeds + total ≤ m'.numFreeSlots) := by
  unfold EncoderCacheManager.canAllocate
  by_cases hbudget : budget < f.numEncoderEmbeds
  · rw [if_pos hbudget]
    exact ⟨false, m, rfl, h, le_rfl, .refl m, by simp⟩
  rw [if_neg hbudget]
  dsimp only
  by_cases hfree : f.numEncoderEmbeds + total ≤ m.numFreeSlots
  · rw [if_pos hfree]
    exact ⟨true, m, rfl, h, le_rfl, .refl m, fun _ => hfree⟩
  rw [if_neg hfree]
  by_cases hfreeable : m.numFreeableSlots < f.numEncoderEmbeds + total
  · rw [if_pos hfreeable]
    exact ⟨false, m, rfl, h, le_rfl, .refl m, by simp⟩
  rw [if_neg hfreeable]
  obtain ⟨m', hloop, hm', henough, hmore, hevicts⟩ := h.evict rfl (not_lt.mp hfreeable)
  exact ⟨true, m', by rw [hloop]; rfl, hm', hmore, hevicts, fun _ => henough⟩

/-! ## Allocating -/

theorem allocate (h : Accurate size cacheSize m) (requestId : String) (hf : Sized size f)
    (hfits : f.numEncoderEmbeds ≤ m.numFreeSlots) (hnew : m.cached.get? f.identifier = none) :
    ∃ m', m.allocate requestId f = .ok m' ∧ Accurate size cacheSize m' ∧ m'.freed = m.freed ∧
      m'.numFreeSlots = m.numFreeSlots - f.numEncoderEmbeds ∧
      m'.cached = m.cached.insert f.identifier {requestId} := by
  have hle := h.free_le_freeable
  have hsum := OrdDict.sum_insert_new hnew {requestId} fun mmHash _ => (size mmHash : ℤ)
  have hroom : ¬(m.numFreeSlots < f.numEncoderEmbeds ∨
      m.numFreeableSlots < f.numEncoderEmbeds) := by omega
  have hfree := h.free_eq
  have hfreeable := h.freeable_eq
  have hsize : f.numEncoderEmbeds = size f.identifier := hf
  have hrun : m.allocate requestId f = .ok
      { m with
        cached := m.cached.insert f.identifier {requestId}
        numFreeSlots := m.numFreeSlots - f.numEncoderEmbeds
        numFreeableSlots := m.numFreeableSlots - f.numEncoderEmbeds } := by
    unfold EncoderCacheManager.allocate
    dsimp only
    rw [if_neg hroom, hnew, Option.getD_none, insert_empty_eq]
  refine ⟨_, hrun, ⟨?_, h.freeable_size, h.cacheSize_eq, ?_, ?_, ?_⟩, rfl, rfl, rfl⟩
  · intro mmHash
    rw [h.freeable_iff, OrdDict.get?_insert]
    by_cases heq : mmHash = f.identifier
    · simp [heq, hnew]
    · simp [heq]
  · dsimp only
    omega
  · dsimp only
    omega
  · dsimp only
    omega

end Accurate

/-! ## Freeing -/

/-- Freeing changes neither the entries nor the free space. -/
structure Frees (m m' : EncoderCacheManager) : Prop where
  numFreeSlots : m'.numFreeSlots = m.numFreeSlots
  freed : m'.freed = m.freed
  cached : ∀ mmHash, m'.cached.get? mmHash = none ↔ m.cached.get? mmHash = none

namespace Accurate

/-- A request gives up its reference to an entry. -/
theorem freeEncoderInput (h : Accurate size cacheSize m) (requestId : String)
    (hf : Sized size f) :
    Accurate size cacheSize (m.freeEncoderInput requestId f) ∧
      (m.freeEncoderInput requestId f).numFreeSlots = m.numFreeSlots ∧
      (m.freeEncoderInput requestId f).freed = m.freed ∧
      ∀ mmHash, (m.freeEncoderInput requestId f).cached.get? mmHash =
        if mmHash = f.identifier then (m.cached.get? mmHash).map (·.erase requestId)
        else m.cached.get? mmHash := by
  unfold EncoderCacheManager.freeEncoderInput
  cases hget : m.cached.get? f.identifier with
  | none =>
      refine ⟨h, rfl, rfl, fun mmHash => ?_⟩
      by_cases heq : mmHash = f.identifier
      · simp [heq, hget]
      · simp [heq]
  | some references =>
      dsimp only
      by_cases hempty : references = ∅
      · rw [if_pos hempty]
        refine ⟨h, rfl, rfl, fun mmHash => ?_⟩
        by_cases heq : mmHash = f.identifier
        · simp [heq, hget, hempty]
        · simp [heq]
      rw [if_neg hempty]
      have hsum := OrdDict.sum_insert_add hget (references.erase requestId)
        fun mmHash _ => (size mmHash : ℤ)
      have hfree := h.free_eq
      have hfreeable := h.freeable_eq
      have hcached : ∀ mmHash, (m.cached.insert f.identifier (references.erase requestId)).get?
          mmHash = if mmHash = f.identifier then (m.cached.get? mmHash).map (·.erase requestId)
            else m.cached.get? mmHash := by
        intro mmHash
        rw [OrdDict.get?_insert]
        by_cases heq : mmHash = f.identifier
        · simp [heq, hget]
        · simp [heq]
      by_cases hlast : references.erase requestId = ∅
      · have habsent : m.freeable.get? f.identifier = none := by
          rw [OrdDict.get?_eq_none_iff, h.freeable_iff, hget]
          simpa using hempty
        have hadd := OrdDict.sum_insert_new habsent f.numEncoderEmbeds fun _ n => (n : ℤ)
        rw [if_pos hlast]
        refine ⟨⟨?_, ?_, h.cacheSize_eq, ?_, ?_, h.free_nonneg⟩, rfl, rfl, hcached⟩
        · intro mmHash
          rw [OrdDict.mem_keys_insert, h.freeable_iff, OrdDict.get?_insert]
          by_cases heq : mmHash = f.identifier <;> simp [heq, hlast]
        · intro mmHash n hn
          rw [OrdDict.get?_insert] at hn
          split at hn
          · next heq =>
              rw [heq, ← Option.some.inj hn]
              exact hf
          · exact h.freeable_size mmHash n hn
        · dsimp only
          omega
        · dsimp only
          omega
      · rw [if_neg hlast]
        refine ⟨⟨?_, h.freeable_size, h.cacheSize_eq, ?_, h.freeable_eq,
          h.free_nonneg⟩, rfl, rfl, hcached⟩
        · intro mmHash
          rw [h.freeable_iff, OrdDict.get?_insert]
          by_cases heq : mmHash = f.identifier
          · simp [heq, hget, hempty, hlast]
          · simp [heq]
        · dsimp only
          omega

theorem foldl_freeEncoderInput {inputs : List MultiModalFeatureSpec}
    (h : Accurate size cacheSize m) (requestId : String) (hinputs : ∀ f ∈ inputs, Sized size f)
    (p : MultiModalFeatureSpec → Prop) [DecidablePred p] :
    Accurate size cacheSize (inputs.foldl (fun m f =>
      if p f then m.freeEncoderInput requestId f else m) m) ∧
    Frees m (inputs.foldl (fun m f => if p f then m.freeEncoderInput requestId f else m) m) := by
  induction inputs generalizing m with
  | nil => exact ⟨h, rfl, rfl, fun _ => Iff.rfl⟩
  | cons f inputs ih =>
      obtain ⟨hf, hinputs⟩ := List.forall_mem_cons.mp hinputs
      rw [List.foldl_cons]
      by_cases hp : p f
      · obtain ⟨hm', hfree, hfreed, hcached⟩ := h.freeEncoderInput requestId hf
        obtain ⟨hm'', hrest⟩ := ih hm' hinputs
        rw [if_pos hp]
        refine ⟨hm'', hrest.numFreeSlots.trans hfree, hrest.freed.trans hfreed, fun mmHash => ?_⟩
        rw [hrest.cached, hcached]
        split <;> simp
      · rw [if_neg hp]
        exact ih h hinputs

end Accurate

end TokenCake.Encoder
