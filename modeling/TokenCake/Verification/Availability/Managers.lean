import TokenCake.Verification.CPUManager.Pool
import TokenCake.Verification.Awaited.Stores

/-! # What the calls do to the CPU manager

No call changes the number of blocks, the kind of the policy, or whether lookups are counted.
The registry only retains and releases keys, so that whatever those two keep holds after every
call of the registry. -/

namespace TokenCake.Offload

/-! ## The kind of a manager -/

namespace CachePolicy

variable {κ : Type*} [DecidableEq κ]

def isLru : CachePolicy κ → Bool
  | lru _ => true
  | arc _ => false

@[simp] theorem isLru_modify (p : CachePolicy κ) (key : κ) (f : BlockStatus → BlockStatus) :
    (p.modify key f).isLru = p.isLru := by
  cases p <;> rfl

@[simp] theorem isLru_insert (p : CachePolicy κ) (key : κ) (b : BlockStatus) :
    (p.insert key b).isLru = p.isLru := by
  cases p <;> rfl

@[simp] theorem isLru_remove (p : CachePolicy κ) (key : κ) : (p.remove key).isLru = p.isLru := by
  cases p <;> rfl

@[simp] theorem isLru_touch (p : CachePolicy κ) (keys : List κ) :
    (p.touch keys).isLru = p.isLru := by
  cases p <;> rfl

omit [DecidableEq κ] in
@[simp] theorem isLru_clear (p : CachePolicy κ) : p.clear.isLru = p.isLru := by
  cases p <;> rfl

theorem isLru_evict {p p' : CachePolicy κ} {n : ℕ} {protectedKeys : List κ}
    {evicted : List (κ × BlockStatus)} (h : p.evict n protectedKeys = (some evicted, p')) :
    p'.isLru = p.isLru := by
  cases p with
  | lru p =>
      obtain ⟨q, -, rfl⟩ := evict_lru h
      rfl
  | arc p =>
      obtain ⟨q, -, rfl⟩ := evict_arc h
      rfl

end CachePolicy

namespace CPUOffloadingManager

variable {κ : Type*} [DecidableEq κ] {m m' : CPUOffloadingManager κ}

/-- The number of blocks, whether lookups are counted, and whether the policy is LRU. -/
def kind (m : CPUOffloadingManager κ) : ℕ × Bool × Bool :=
  (m.numBlocks, m.counts.isSome, m.policy.isLru)

@[simp] theorem kind_addRef (m : CPUOffloadingManager κ) (key : κ) (delta : ℤ) :
    (m.addRef key delta).kind = m.kind := by
  simp [kind, addRef]

@[simp] theorem kind_addRefs (m : CPUOffloadingManager κ) (keys : List κ) (delta : ℤ) :
    (m.addRefs keys delta).kind = m.kind := by
  induction keys generalizing m with
  | nil => rfl
  | cons key keys ih =>
      rw [addRefs_cons, ih]
      exact kind_addRef m key delta

@[simp] theorem kind_retain (m : CPUOffloadingManager κ) (keys : List κ) :
    (m.retain keys).2.kind = m.kind := by
  rw [retain_eq]
  exact kind_addRefs m _ 1

theorem kind_release {keys : List κ} (h : m.release keys = .ok m') : m'.kind = m.kind := by
  rw [release] at h
  split at h
  · rw [← Except.ok.inj h]
    exact kind_addRefs m _ (-1)
  · cases h

theorem kind_prepareLoad {keys : List κ} {ids : List ℕ} (h : m.prepareLoad keys = .ok (ids, m')) :
    m'.kind = m.kind := by
  induction keys generalizing m ids with
  | nil =>
      obtain ⟨-, rfl⟩ := Prod.mk.inj (Except.ok.inj h)
      rfl
  | cons key keys ih =>
      rw [prepareLoad] at h
      split at h
      · cases h
      · split at h
        · cases hrest : (m.addRef key 1).prepareLoad keys with
          | error e =>
              rw [hrest] at h
              cases h
          | ok out =>
              rw [hrest] at h
              obtain ⟨-, rfl⟩ := Prod.mk.inj (Except.ok.inj h)
              exact (ih hrest).trans (kind_addRef m key 1)
        · cases h

theorem kind_completeLoad {keys : List κ} (h : m.completeLoad keys = .ok m') :
    m'.kind = m.kind := by
  induction keys generalizing m with
  | nil => exact Except.ok.inj h ▸ rfl
  | cons key keys ih =>
      rw [completeLoad] at h
      split at h
      · cases h
      · split at h
        · exact (ih h).trans (kind_addRef m key (-1))
        · cases h

@[simp] theorem kind_touch (m : CPUOffloadingManager κ) (keys : List κ) :
    (m.touch keys).kind = m.kind := by
  simp [kind, touch]

@[simp] theorem kind_lookup (m : CPUOffloadingManager κ) (key : κ) :
    (m.lookup key).2.kind = m.kind := by
  rw [lookup]
  split <;> simp [kind, trackLookup]

omit [DecidableEq κ] in
@[simp] theorem kind_emit (m : CPUOffloadingManager κ) (keys : List κ) (removed : Bool) :
    (m.emit keys removed).kind = m.kind := by
  rw [emit]
  split <;> rfl

@[simp] theorem kind_dropUnready (m : CPUOffloadingManager κ) (key : κ) :
    (m.dropUnready key).kind = m.kind := by
  rw [dropUnready]
  split
  · rfl
  · split
    · rfl
    · simp [kind, freeBlock]

@[simp] theorem kind_completeStore (m : CPUOffloadingManager κ) (keys : List κ) (success : Bool) :
    (m.completeStore keys success).kind = m.kind := by
  rw [completeStore]
  split
  · have hfold : ∀ (rest taken : List κ) (m₁ : CPUOffloadingManager κ),
        (rest.foldl (fun s key =>
          if s.2.isKeyInFlight key then (s.1 ++ [key], s.2.markStored key) else s) (taken, m₁)).2.kind = m₁.kind := by
      intro rest
      induction rest with
      | nil => exact fun _ _ => rfl
      | cons key rest ih =>
          intro taken m₁
          rw [List.foldl_cons]
          dsimp only
          split
          · rw [ih]
            simp [kind, markStored]
          · exact ih _ _
    exact (kind_emit _ _ _).trans (hfold keys [] m)
  · induction keys generalizing m with
    | nil => rfl
    | cons key keys ih => exact (ih (m.dropUnready key)).trans (kind_dropUnready m key)

omit [DecidableEq κ] in
@[simp] theorem kind_resetCache (m : CPUOffloadingManager κ) : m.resetCache.kind = m.kind := by
  simp [kind, resetCache]

theorem kind_makeRoom {keys toEvict : List κ} {count : ℕ}
    (h : m.makeRoom keys count = (some toEvict, m')) : m'.kind = m.kind := by
  obtain ⟨-, -, rfl⟩ | ⟨evicted, p, -, hevict, -, rfl⟩ := makeRoom_some h
  · rfl
  · rw [foldl_freeBlock]
    simp [kind, CachePolicy.isLru_evict hevict]

theorem kind_prepareStore {keys : List κ} {output : Option (PrepareStoreOutput κ)}
    (h : m.prepareStore keys = .ok (output, m')) : m'.kind = m.kind := by
  rw [prepareStore] at h
  dsimp only at h
  split at h
  · obtain ⟨-, rfl⟩ := Prod.mk.inj (Except.ok.inj h)
    rfl
  · split at h
    · next m₁ hroom =>
      obtain ⟨-, rfl⟩ := Prod.mk.inj (Except.ok.inj h)
      rw [makeRoom_none hroom]
    · next toEvict m₁ hroom =>
      generalize hcount : (List.filter _ _).length = count at h
      cases halloc : (m₁.emit toEvict true).allocateBlocks count with
      | error e =>
          rw [halloc] at h
          cases h
      | ok out =>
          obtain ⟨blocks, m₂⟩ := out
          rw [halloc] at h
          obtain ⟨-, rfl⟩ := Prod.mk.inj (Except.ok.inj h)
          have halloc' : m₂.kind = m₁.kind := by
            rw [allocateBlocks] at halloc
            dsimp only at halloc
            split at halloc
            · rw [← (Prod.mk.inj (Except.ok.inj halloc)).2]
              exact kind_emit m₁ toEvict true
            · cases halloc
          have hfold : ∀ (items : List (κ × BlockStatus)) (p : CachePolicy κ),
              (items.foldl (fun p e => p.insert e.1 e.2) p).isLru = p.isLru := by
            intro items
            induction items with
            | nil => exact fun _ => rfl
            | cons e items ih => exact fun p => (ih _).trans (CachePolicy.isLru_insert ..)
          have hlast := halloc'.trans (kind_makeRoom hroom)
          simp only [kind, Prod.mk.injEq] at hlast ⊢
          rw [hfold]
          exact hlast

end CPUOffloadingManager

/-! ## The calls of the registry -/

namespace LifecycleRegistry

variable {κ σ : Type} [DecidableEq κ] {r r' : LifecycleRegistry κ σ}
variable {P : CPUOffloadingManager κ → Prop}

/-- Retaining keys and releasing them keeps `P`. -/
structure Stable (P : CPUOffloadingManager κ → Prop) : Prop where
  retain : ∀ m keys, P m → P (m.retain keys).2
  release : ∀ m keys m', P m → m.release keys = .ok m' → P m'

def Manages (P : CPUOffloadingManager κ → Prop) (r : LifecycleRegistry κ σ) : Prop :=
  ∀ m ∈ r.manager, P m

theorem Manages.releaseKeys (hP : Stable P) (h : r.Manages P) (keys : List κ) :
    Returns (Manages P) (r.releaseKeys keys) := by
  unfold LifecycleRegistry.releaseKeys
  split
  · exact Ensures.ok h
  · split
    · exact Ensures.error trivial
    · next m hm =>
      refine Ensures.map (Ensures.of_forall_ok (P := P) ?_) ?_
      · exact fun m' hrelease => hP.release m keys m' (h m hm) hrelease
      · exact fun m' hm' m₁ hm₁ => Option.some.inj hm₁ ▸ hm'

theorem Manages.release (hP : Stable P) (h : r.Manages P) (id : String) :
    Returns (Manages P) (r.release id) := by
  unfold LifecycleRegistry.release
  split
  · exact Ensures.ok h
  · exact Manages.releaseKeys (r := r.modifyRecord id clearOwnership) hP h _

theorem Manages.terminalize (hP : Stable P) (h : r.Manages P) (id : String)
    (cause : TerminalCause) (now : ℚ) : Returns (Manages P) (r.terminalize id cause now) := by
  unfold LifecycleRegistry.terminalize
  split
  · exact Ensures.ok h
  · split
    · exact Ensures.ok h
    · exact (h.release hP id).map fun _ h => h

theorem Manages.expireRecord (hP : Stable P) (h : r.Manages P) (now : ℚ)
    (entry : String × Lifecycle κ σ) : Returns (Manages P) (expireRecord now r entry) := by
  unfold LifecycleRegistry.expireRecord
  dsimp only
  split
  · split
    · exact Ensures.ok h
    · exact Ensures.ok h
  · split
    · exact h.terminalize hP ..
    · split
      · exact h.release hP _
      · exact Ensures.ok h
  · split
    · exact h.terminalize hP ..
    · exact Ensures.ok h
  · exact Ensures.ok h

theorem Manages.expire (hP : Stable P) (h : r.Manages P) (now : ℚ) :
    Returns (Manages P) (r.expire now) :=
  Ensures.foldlM (I := fun _ => Manages P) (fun entry _ _ h => h.expireRecord hP now entry)
    r.records.entries r h

theorem Manages.associate (hP : Stable P) (h : r.Manages P) (now : ℚ) (requestId : String)
    (metadata : TokenCakeMetadata) :
    Returns (fun out => out.1.Manages P) (r.associate now requestId metadata) := by
  refine Ensures.bind (h.expire hP now) ?_
  intro r₁ h₁
  dsimp only
  split <;> exact Ensures.ok h₁

theorem Manages.generationFinished (hP : Stable P) (h : r.Manages P) (expiredAt now : ℚ)
    (id : String) (cause : GenerationCause) (snapshot : Option σ) :
    Returns (Manages P) (r.generationFinished expiredAt now id cause snapshot) := by
  refine Ensures.bind (h.expire hP expiredAt) ?_
  intro r₁ h₁
  have h₂ : Manages P { r₁ with generations := r₁.generations.erase id } := h₁
  dsimp only
  split
  · exact Ensures.ok h₂
  · split
    · exact Ensures.ok h₂
    · split
      · exact h₂.terminalize hP ..
      · exact Ensures.ok h₂

theorem Manages.setH2dEstimate (hP : Stable P) (h : r.Manages P) (id : String)
    (seconds now : ℚ) : Returns (Manages P) (r.setH2dEstimate id seconds now) := by
  unfold LifecycleRegistry.setH2dEstimate
  split
  · exact Ensures.ok h
  · split
    · exact Ensures.error trivial
    · dsimp only
      split
      · exact Manages.release (r := r.modifyRecord id _) hP h id
      · exact Ensures.ok h

theorem Manages.startStall (hP : Stable P) (h : r.Manages P) (record : Lifecycle κ σ)
    (event : LifecycleEvent) (now now' : ℚ) :
    Returns (Manages P) (r.startStall record event now now') := by
  have hpredict : (r.predict record event).2.Manages P := by
    unfold predict
    dsimp only
    split <;> exact h
  unfold LifecycleRegistry.startStall
  generalize r.predict record event = predicted at hpredict
  obtain ⟨duration, r₁⟩ := predicted
  exact (Manages.setH2dEstimate (r := r₁.modifyRecord event.lifecycleId _) hP hpredict
    event.lifecycleId 0 now').map fun _ h => h

theorem Manages.finishStall (hP : Stable P) (h : r.Manages P) (record : Lifecycle κ σ)
    (id : String) (now : ℚ) : Returns (Manages P) (r.finishStall record id now) := by
  have hlearn : Returns (Manages P) (r.learn id record now) := by
    unfold learn
    split
    · dsimp only
      split
      · exact Ensures.ok h
      · unfold learnUnder
        split <;> exact Ensures.ok h
    · exact Ensures.error trivial
  refine Ensures.bind hlearn ?_
  intro r₁ h₁
  exact Manages.terminalize (r := r₁.modifyRecord id _) hP h₁ id .finished now

theorem Manages.apply (hP : Stable P) (h : r.Manages P) (expiredAt now now' : ℚ)
    (event : LifecycleEvent) :
    Returns (fun out => out.1.Manages P) (r.apply expiredAt now now' event) := by
  refine Ensures.bind (h.expire hP expiredAt) ?_
  intro r₁ h₁
  dsimp only
  split
  · exact Ensures.ok h₁
  · next record _ =>
    split
    · have hperform : Returns (Manages P) (r₁.perform record event now now') := by
        unfold perform
        split
        · exact h₁.startStall hP record event now now'
        · exact h₁.finishStall hP record event.lifecycleId now
      exact Ensures.bind hperform fun r₂ h₂ => Ensures.ok h₂
    · exact Ensures.ok h₁

theorem Manages.retainReady (hP : Stable P) (h : r.Manages P) (now : ℚ) (id : String)
    (keys : List κ) : Returns (fun out => out.2.Manages P) (r.retainReady now id keys) := by
  refine Ensures.bind (h.expire hP now) ?_
  intro r₁ h₁
  dsimp only
  split
  · exact Ensures.ok h₁
  · split
    · split
      · exact Ensures.error trivial
      · next m hm =>
        refine Ensures.ok fun m₁ hm₁ => ?_
        exact Option.some.inj hm₁ ▸ hP.retain m _ (h₁ m hm)
    · exact Ensures.ok h₁

theorem Manages.externalResetSucceeded (hP : Stable P) (h : r.Manages P) (now : ℚ) :
    Returns (Manages P) (r.externalResetSucceeded now) :=
  Ensures.foldlM (I := fun _ => Manages P)
    (fun id _ r₁ h₁ => Manages.terminalize (r := r₁.modifyRecord id _) hP h₁ id .reset now)
    r.records.keys r h

end LifecycleRegistry

/-! ## A pool of a fixed kind -/

namespace OffloadState

open LifecycleRegistry

variable {κ σ : Type} [DecidableEq κ] {s : OffloadState κ σ}

/-- The blocks of the pool are accounted for, and its kind is as it was. -/
def Stocked (kind : ℕ × Bool × Bool) (m : CPUOffloadingManager κ) : Prop :=
  m.Pooled ∧ m.kind = kind

variable {kind : ℕ × Bool × Bool}

theorem stocked_stable : Stable (Stocked (κ := κ) kind) where
  retain m keys h := ⟨h.1.retain keys, (m.kind_retain keys).trans h.2⟩
  release _ _ _ h hrelease :=
    ⟨h.1.release hrelease, (CPUOffloadingManager.kind_release hrelease).trans h.2⟩

/-- A store names each key once. -/
def StoresDistinct : OffloadOp κ σ → Prop
  | .prepareStore keys => keys.Nodup
  | _ => True

omit [DecidableEq κ] in
theorem onManager_stocked (h : s.registry.Manages (Stocked kind))
    {f : CPUOffloadingManager κ → Except AssertionFailure (CPUOffloadingManager κ × Answer κ)}
    (hf : ∀ m, Stocked kind m → ∀ out, f m = .ok out → Stocked kind out.1) :
    Returns (fun out => out.1.registry.Manages (Stocked kind)) (s.onManager f) := by
  unfold onManager
  split
  · exact Ensures.error trivial
  · next m hm =>
    refine Ensures.map (Ensures.of_forall_ok (P := fun out => Stocked kind out.1) ?_) ?_
    · exact fun out hout => hf m (h m hm) out hout
    · exact fun out hout m₁ hm₁ => Option.some.inj hm₁ ▸ hout

/-- Every call keeps the pool. -/
theorem step_stocked (h : s.registry.Manages (Stocked kind)) {op : OffloadOp κ σ}
    (hop : StoresDistinct op) :
    Returns (fun out => out.1.registry.Manages (Stocked kind)) (s.step op) := by
  have hstable : Stable (Stocked (κ := κ) kind) := stocked_stable
  cases op with
  | associate now requestId metadata =>
      exact (h.associate hstable now requestId metadata).map fun _ h => h
  | apply expiredAt now now' event =>
      exact (h.apply hstable expiredAt now now' event).map fun _ h => h
  | generationFinished expiredAt now identifier cause snapshot =>
      exact s.onRegistry_returns (h.generationFinished hstable ..)
  | expire now => exact s.onRegistry_returns (h.expire hstable now)
  | setH2dEstimate identifier seconds now =>
      exact s.onRegistry_returns (h.setH2dEstimate hstable ..)
  | retainReady now identifier keys =>
      exact (h.retainReady hstable now identifier keys).map fun _ h => h
  | release identifier => exact s.onRegistry_returns (h.release hstable identifier)
  | addPending identifier keys =>
      unfold step
      dsimp only
      split
      · exact Ensures.error trivial
      · exact Ensures.ok h
  | dropPending identifier keys => exact Ensures.ok h
  | consumeEvaluation identifier => exact Ensures.ok h
  | invalidateSnapshots => exact Ensures.ok h
  | lookup key =>
      refine onManager_stocked h fun m hm out hout => ?_
      obtain rfl := Except.ok.inj hout
      exact ⟨hm.1.lookup key, (m.kind_lookup key).trans hm.2⟩
  | touch keys =>
      refine onManager_stocked h fun m hm out hout => ?_
      obtain rfl := Except.ok.inj hout
      exact ⟨hm.1.touch keys, (m.kind_touch keys).trans hm.2⟩
  | prepareLoad keys =>
      refine Ensures.map (onManager_stocked h fun m hm out hout => ?_) fun _ h => h
      cases hload : m.prepareLoad keys with
      | error e => rw [hload] at hout; cases hout
      | ok result =>
          rw [hload] at hout
          obtain rfl := Except.ok.inj hout
          exact ⟨hm.1.prepareLoad hload,
            (CPUOffloadingManager.kind_prepareLoad hload).trans hm.2⟩
  | completeLoad keys =>
      refine Ensures.map (onManager_stocked h fun m hm out hout => ?_) fun _ h => h
      cases hload : m.completeLoad keys with
      | error e => rw [hload] at hout; cases hout
      | ok m' =>
          rw [hload] at hout
          obtain rfl := Except.ok.inj hout
          exact ⟨hm.1.completeLoad hload,
            (CPUOffloadingManager.kind_completeLoad hload).trans hm.2⟩
  | prepareStore keys =>
      refine onManager_stocked h fun m hm out hout => ?_
      obtain ⟨output, m', hstore, hpooled, -⟩ := hm.1.prepareStore hop
      rw [hstore] at hout
      obtain rfl := Except.ok.inj hout
      exact ⟨hpooled, (CPUOffloadingManager.kind_prepareStore hstore).trans hm.2⟩
  | completeStore keys success =>
      refine onManager_stocked h fun m hm out hout => ?_
      obtain rfl := Except.ok.inj hout
      exact ⟨hm.1.completeStore keys success, (m.kind_completeStore keys success).trans hm.2⟩
  | resetCache now =>
      refine Ensures.bind (onManager_stocked h fun m hm out hout => ?_) ?_
      · obtain rfl := Except.ok.inj hout
        exact ⟨hm.1.resetCache, m.kind_resetCache.trans hm.2⟩
      · intro out hout
        exact onRegistry_returns _ (Manages.externalResetSucceeded hstable hout now)
  | externalResetSucceeded now =>
      exact s.onRegistry_returns (h.externalResetSucceeded hstable now)

end OffloadState

end TokenCake.Offload
