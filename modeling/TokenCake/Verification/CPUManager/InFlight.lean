import TokenCake.Verification.CPUManager.Accounts

/-! # Blocks in flight

A key is absent, in flight or ready. References come and go without changing that; only a
store puts a key in flight, and only its completion ends the flight. -/

namespace TokenCake.Offload.CPUOffloadingManager

variable {κ : Type*} [DecidableEq κ] {m m' m'' : CPUOffloadingManager κ} {k : κ}

/-- `some true` for a ready key, `some false` for a key in flight. -/
def status (m : CPUOffloadingManager κ) (k : κ) : Option Bool :=
  (m.policy.get k).map BlockStatus.isReady

theorem isKeyReady_iff_status : m.isKeyReady k = true ↔ m.status k = some true := by
  unfold isKeyReady status
  cases m.policy.get k <;> simp

theorem isKeyInFlight_iff_status : m.isKeyInFlight k = true ↔ m.status k = some false := by
  unfold isKeyInFlight status
  cases m.policy.get k <;> simp

theorem status_of_policy (h : m'.policy = m.policy) (k : κ) : m'.status k = m.status k := by
  unfold status
  rw [h]

/-! ## Operations that move references only -/

/-- Every key keeps its status. -/
structure Calm (m m' : CPUOffloadingManager κ) : Prop where
  wf : m'.policy.WF
  status : ∀ k, m'.status k = m.status k

theorem Calm.refl (hwf : m.policy.WF) : Calm m m := ⟨hwf, fun _ => rfl⟩

theorem Calm.trans (h : Calm m m') (h' : Calm m' m'') : Calm m m'' :=
  ⟨h'.wf, fun k => (h'.status k).trans (h.status k)⟩

theorem Calm.of_get (hwf : m'.policy.WF) (h : ∀ k, m'.policy.get k = m.policy.get k) :
    Calm m m' :=
  ⟨hwf, fun k => by rw [CPUOffloadingManager.status, h k]; rfl⟩

/-- A reference to a ready block leaves it ready. -/
theorem calm_addRef (hwf : m.policy.WF) {key : κ} {b : BlockStatus} {delta : ℤ}
    (hget : m.policy.get key = some b) (hready : 0 ≤ b.refCnt) (hdelta : 0 ≤ b.refCnt + delta) :
    Calm m (m.addRef key delta) := by
  refine ⟨hwf.modify _ _, fun k => ?_⟩
  unfold CPUOffloadingManager.status
  rw [get_addRef]
  by_cases hk : k = key
  · subst hk
    simp [hget, BlockStatus.isReady, hready, hdelta]
  · rw [if_neg hk]

theorem calm_prepareLoad (hwf : m.policy.WF) {keys : List κ} {ids : List ℕ}
    (h : m.prepareLoad keys = .ok (ids, m')) : Calm m m' := by
  induction keys generalizing m ids with
  | nil =>
      simp only [prepareLoad, Except.ok.injEq, Prod.mk.injEq] at h
      exact h.2 ▸ Calm.refl hwf
  | cons key keys ih =>
      simp only [prepareLoad] at h
      split at h
      · cases h
      · next b hb =>
        split at h
        · next hready =>
          have hnonneg : 0 ≤ b.refCnt := by simpa [BlockStatus.isReady] using hready
          have hcalm : Calm m (m.addRef key 1) := calm_addRef hwf hb hnonneg (by omega)
          cases hrest : (m.addRef key 1).prepareLoad keys with
          | error e => simp [hrest, Except.map] at h
          | ok result =>
              obtain ⟨ids', m₁⟩ := result
              simp only [hrest, Except.map, Except.ok.injEq, Prod.mk.injEq] at h
              exact hcalm.trans (ih hcalm.wf (h.2 ▸ hrest))
        · cases h

theorem calm_completeLoad (hwf : m.policy.WF) {keys : List κ}
    (h : m.completeLoad keys = .ok m') : Calm m m' := by
  induction keys generalizing m with
  | nil => exact Except.ok.inj h ▸ Calm.refl hwf
  | cons key keys ih =>
      simp only [completeLoad] at h
      split at h
      · cases h
      · next b hb =>
        split at h
        · next hpos =>
          have hcalm : Calm m (m.addRef key (-1)) := calm_addRef hwf hb (by omega) (by omega)
          exact hcalm.trans (ih hcalm.wf h)
        · cases h

theorem calm_retain (hwf : m.policy.WF) (keys : List κ) : Calm m (m.retain keys).2 := by
  have hfold : ∀ (rest taken : List κ) (m₁ : CPUOffloadingManager κ), Calm m m₁ →
      Calm m (rest.foldl (fun s key =>
        if s.2.isKeyReady key then (s.1 ++ [key], s.2.addRef key 1) else s)
        (taken, m₁)).2 := by
    intro rest
    induction rest with
    | nil => exact fun _ _ h => h
    | cons key rest ih =>
        intro taken m₁ h₁
        rw [List.foldl_cons]
        by_cases hready : m₁.isKeyReady key = true
        · obtain ⟨b, hb, hnonneg⟩ := isKeyReady_iff.mp hready
          simp only [hready, if_true]
          exact ih _ _ (h₁.trans (calm_addRef h₁.wf hb hnonneg (by omega)))
        · simp only [hready]
          exact ih _ _ h₁
  exact hfold _ [] m (Calm.refl hwf)

theorem calm_release (hwf : m.policy.WF) {keys : List κ} (h : m.release keys = .ok m') :
    Calm m m' := by
  simp only [release] at h
  split at h
  · next hall =>
    rw [← Except.ok.inj h]
    -- Every key is listed once, so the keys that remain keep their references.
    have hfold : ∀ (rest : List κ) (m₁ : CPUOffloadingManager κ), rest.Nodup → Calm m m₁ →
        (∀ key ∈ rest, m₁.isKeyReferenced key = true) →
        Calm m (rest.foldl (fun m key => m.addRef key (-1)) m₁) := by
      intro rest
      induction rest with
      | nil => exact fun _ _ h₁ _ => h₁
      | cons key rest ih =>
          intro m₁ hnodup h₁ hrefs
          obtain ⟨hnot, hnodup⟩ := List.nodup_cons.mp hnodup
          obtain ⟨b, hb, hpos⟩ := isKeyReferenced_iff.mp (hrefs key (List.mem_cons_self ..))
          refine ih _ hnodup (h₁.trans (calm_addRef h₁.wf hb (by omega) (by omega))) ?_
          intro key' hkey'
          have hne : key' ≠ key := fun heq => hnot (heq ▸ hkey')
          have := hrefs key' (List.mem_cons_of_mem _ hkey')
          unfold isKeyReferenced at this ⊢
          rwa [get_addRef, if_neg hne]
    refine hfold _ m (List.nodup_dedup keys) (Calm.refl hwf) ?_
    exact fun key hkey => List.all_eq_true.mp hall key hkey
  · cases h

theorem calm_touch (hwf : m.policy.WF) (keys : List κ) : Calm m (m.touch keys) :=
  .of_get (hwf.touch keys) fun k => CachePolicy.get_touch hwf keys k

theorem calm_lookup (hwf : m.policy.WF) (key : κ) : Calm m (m.lookup key).2 := by
  have hpolicy : (m.lookup key).2.policy = m.policy := by
    simp only [lookup]
    split <;> rfl
  exact .of_get (hpolicy ▸ hwf) fun k => by rw [hpolicy]

/-! ## Stores -/

/-- A key of a prepared store was absent and is in flight; other keys keep their status or
are evicted while ready. -/
theorem status_prepareStore (hwf : m.policy.WF) {keys : List κ}
    {output : Option (PrepareStoreOutput κ)} (h : m.prepareStore keys = .ok (output, m')) :
    m'.policy.WF ∧ ∀ k, m'.status k = m.status k ∨
      (m.status k = some true ∧ m'.status k = none) ∨
      ((∃ out ∈ output, k ∈ out.keysToStore) ∧ m.status k = none ∧
        m'.status k = some false) := by
  obtain ⟨hwf', hevicted, hget⟩ := prepareStore_spec hwf h
  refine ⟨hwf', fun k => ?_⟩
  unfold status
  rcases hget k with hsame | ⟨out, hout, hk, hnone⟩ | ⟨hstored, hnone, hnew⟩
  · exact .inl (by rw [hsame])
  · obtain ⟨b, hb, hzero⟩ := hevicted out hout k hk
    exact .inr (.inl ⟨by simp [hb, BlockStatus.isReady, hzero], by simp [hnone]⟩)
  · obtain ⟨b, hb, hminus⟩ := hnew
    exact .inr (.inr ⟨hstored, by simp [hnone], by simp [hb, BlockStatus.isReady, hminus]⟩)

/-- Only keys that are absent are stored. -/
theorem status_of_mem_keysToStore {keys : List κ} {out : PrepareStoreOutput κ}
    (h : m.prepareStore keys = .ok (some out, m')) (hk : k ∈ out.keysToStore) :
    m.status k = none := by
  have habsent : ∀ stored, k ∈ List.filter (fun k => (m.policy.get k).isNone) stored →
      m.status k = none := by
    intro stored hmem
    have hnone := (List.mem_filter.mp hmem).2
    simpa [status] using hnone
  simp only [prepareStore] at h
  split at h
  · simp only [Except.ok.injEq, Prod.mk.injEq, Option.some.injEq] at h
    simp [← h.1] at hk
  · split at h
    · cases h
    · next toEvict m₁ hroom =>
      cases halloc : (m₁.emit toEvict true).allocateBlocks
          ((m.thresholdFilter keys).filter fun k => (m.policy.get k).isNone).length with
      | error e => simp [halloc, bind, Except.bind] at h
      | ok result =>
          simp only [halloc, bind, Except.bind, pure, Except.pure, Except.ok.injEq,
            Prod.mk.injEq, Option.some.injEq] at h
          rw [← h.1] at hk
          exact habsent _ hk

theorem status_markStored (m : CPUOffloadingManager κ) (key k : κ) :
    (m.markStored key).status k = if k = key then (m.status k).map fun _ => true
      else m.status k := by
  unfold status markStored
  rw [CachePolicy.get_modify]
  by_cases hk : k = key
  · cases m.policy.get k <;> simp [hk, BlockStatus.isReady]
  · simp [hk]

/-- One key of a completed store. -/
def land (m : CPUOffloadingManager κ) (key : κ) : CPUOffloadingManager κ :=
  if m.isKeyInFlight key then m.markStored key else m

theorem policy_completeStore (m : CPUOffloadingManager κ) (keys : List κ) :
    (m.completeStore keys true).policy = (keys.foldl land m).policy := by
  have hfold : ∀ (rest taken : List κ) (m₁ : CPUOffloadingManager κ),
      (rest.foldl (fun s key =>
        if s.2.isKeyInFlight key then (s.1 ++ [key], s.2.markStored key) else s) (taken, m₁)).2 = rest.foldl land m₁ := by
    intro rest
    induction rest with
    | nil => exact fun _ _ => rfl
    | cons key rest ih =>
        intro taken m₁
        rw [List.foldl_cons, List.foldl_cons, land]
        dsimp only
        split
        · exact ih _ _
        · exact ih _ _
  unfold completeStore
  simp only [if_true, policy_emit]
  rw [hfold]

theorem status_land (m : CPUOffloadingManager κ) (key k : κ) :
    (m.land key).status k = if k = key then (m.status k).map fun _ => true
      else m.status k := by
  unfold land
  by_cases hflight : m.isKeyInFlight key = true
  · rw [if_pos hflight, status_markStored]
  · rw [if_neg hflight]
    rw [isKeyInFlight_iff_status] at hflight
    by_cases hk : k = key
    · -- a key that is not in flight is absent or ready already
      subst hk
      rw [if_pos rfl]
      cases hs : m.status k with
      | none => rfl
      | some ready => cases ready <;> simp_all
    · rw [if_neg hk]

theorem wf_land (hwf : m.policy.WF) (key : κ) : (m.land key).policy.WF := by
  unfold land
  split
  · exact hwf.modify _ _
  · exact hwf

/-- A completed store makes its keys ready. -/
theorem status_completeStore (hwf : m.policy.WF) (keys : List κ) :
    (m.completeStore keys true).policy.WF ∧ ∀ k, (m.completeStore keys true).status k =
      if k ∈ keys then (m.status k).map fun _ => true else m.status k := by
  have hfold : ∀ (rest : List κ) (m₁ : CPUOffloadingManager κ), m₁.policy.WF →
      (rest.foldl land m₁).policy.WF ∧ ∀ k, (rest.foldl land m₁).status k =
        if k ∈ rest then (m₁.status k).map fun _ => true else m₁.status k := by
    intro rest
    induction rest with
    | nil => exact fun m₁ h₁ => ⟨h₁, fun k => by simp⟩
    | cons key rest ih =>
        intro m₁ h₁
        obtain ⟨hwf₂, hstatus⟩ := ih (m₁.land key) (wf_land h₁ key)
        refine ⟨hwf₂, fun k => ?_⟩
        rw [List.foldl_cons, hstatus, status_land]
        by_cases hk : k = key <;> by_cases hrest : k ∈ rest <;> simp [hk, hrest]
  obtain ⟨hwf', hstatus⟩ := hfold keys m hwf
  refine ⟨by rw [policy_completeStore]; exact hwf', fun k => ?_⟩
  rw [status_of_policy (policy_completeStore ..), hstatus]

theorem status_dropUnready (hwf : m.policy.WF) (key : κ) :
    (m.dropUnready key).policy.WF ∧ ∀ k, (m.dropUnready key).status k =
      if k = key ∧ m.status k = some false then none else m.status k := by
  unfold dropUnready
  split
  · next hnone =>
    refine ⟨hwf, fun k => (if_neg ?_).symm⟩
    rintro ⟨hk, hs⟩
    simp [status, hk, hnone] at hs
  · next b hb =>
    split
    · next hready =>
      refine ⟨hwf, fun k => (if_neg ?_).symm⟩
      rintro ⟨hk, hs⟩
      simp [status, hk, hb, hready] at hs
    · next hflight =>
      refine ⟨hwf.remove key, fun k => ?_⟩
      unfold status freeBlock
      dsimp only
      rw [CachePolicy.get_remove hwf]
      by_cases hk : k = key
      · simp [hk, hb, hflight]
      · simp [hk]

/-- A store that is given up drops its keys. -/
theorem status_completeStore_false (hwf : m.policy.WF) (keys : List κ) :
    (m.completeStore keys false).policy.WF ∧ ∀ k, (m.completeStore keys false).status k =
      if k ∈ keys ∧ m.status k = some false then none else m.status k := by
  unfold completeStore
  simp only [Bool.false_eq_true, if_false]
  induction keys generalizing m with
  | nil => exact ⟨hwf, fun k => by simp⟩
  | cons key keys ih =>
      obtain ⟨hwf₁, hstatus₁⟩ := status_dropUnready hwf key
      obtain ⟨hwf₂, hstatus₂⟩ := ih hwf₁
      refine ⟨hwf₂, fun k => ?_⟩
      rw [List.foldl_cons, hstatus₂, hstatus₁]
      by_cases hk : k = key <;> by_cases hs : m.status k = some false <;>
        by_cases hrest : k ∈ keys <;> simp_all

theorem status_resetCache (m : CPUOffloadingManager κ) (k : κ) : m.resetCache.status k = none := by
  simp [status, resetCache]

theorem status_new (numBlocks : ℕ) (cachePolicy : PolicyName) (enableEvents : Bool)
    (storeThreshold maxTrackerSize : ℕ) (k : κ) :
    (new numBlocks cachePolicy enableEvents storeThreshold maxTrackerSize :
      CPUOffloadingManager κ).status k = none := by
  cases cachePolicy <;> rfl

end TokenCake.Offload.CPUOffloadingManager
