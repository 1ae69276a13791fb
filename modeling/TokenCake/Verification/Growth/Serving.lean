import TokenCake.Lib.Ensures
import TokenCake.Lib.Run
import TokenCake.Verification.Growth.Cap

/-! # The life of a request

Every call of the manager, for the request or for others, moves the groups of the request in one
of two ways: the window slides, or a call appends blocks. -/

namespace TokenCake.KV

variable {η : Type} [DecidableEq η] {M M' : KVCacheManager η} {id : String}

open KVCacheManager

/-! ## The calls of the manager -/

section Calls

theorem allocateSlots_framed (hreserved : NullReserved M.blockPool) {request : Request η}
    {args : SlotArgs} {result : Option (List (List BlockId))}
    (h : M.allocateSlots request args = .ok (M', result)) :
    NullReserved M'.blockPool ∧ M'.maxModelLen = M.maxModelLen ∧
      List.Forall₂ (Framed request.requestId) M.singleTypeManagers M'.singleTypeManagers := by
  rcases allocateSlots_stages h with ⟨-, rfl | rfl⟩ | ⟨_, blocks, rfl, -⟩
  · exact ⟨hreserved, rfl, List.forall₂_same.mpr fun m _ => .refl _ m⟩
  · obtain ⟨hpool, hslid⟩ := removeSkippedBlocks_forall₂ hreserved request.requestId
      (M.totalComputedTokens request args)
    exact ⟨hpool, rfl, hslid.imp fun _ _ h => h.toFramed⟩
  · obtain ⟨hpool, hlen, hcovers⟩ := allocateSlots_covers hreserved h
    exact ⟨hpool, hlen, hcovers.imp fun _ _ h => h.1⟩

theorem free_framed (hreserved : NullReserved M.blockPool) (request : Request η) :
    NullReserved (M.free request).blockPool ∧
      List.Forall₂ (Framed request.requestId) M.singleTypeManagers
        (M.free request).singleTypeManagers := by
  refine forManagers_forall₂ (fun pool m _ pool' m' hpool h => ?_)
    (M.singleTypeManagers.map fun _ => ()) (by simp) hreserved
    (mapManagers_eq fun pool manager => manager.free pool request.requestId)
  obtain ⟨rfl, rfl⟩ := Prod.mk.inj (Except.ok.inj h)
  refine ⟨hpool.freeBlocks _, ⟨rfl, rfl, rfl⟩, fun r hr => ?_, fun r hr => ?_⟩
  · simp [SingleTypeKVCacheManager.table, OrdDict.get?_erase, hr]
  · simp [OrdDict.get?_erase, hr]

theorem evictBlocks_sameNull (pool : BlockPool η) (blockIds : List BlockId) :
    Ensures (fun _ => True) (SameNull pool) (pool.evictBlocks blockIds) := by
  refine Ensures.foldlM (I := fun _ => SameNull pool) ?_ blockIds pool (.refl pool)
  intro b rest pool' hsame
  split
  · exact .ok (hsame.trans (maybeEvict_sameNull b))
  · exact .error trivial

theorem resetPrefixCache_sameNull (pool : BlockPool η) :
    SameNull pool pool.resetPrefixCache.1 := by
  unfold BlockPool.resetPrefixCache
  split
  · exact .refl pool
  · exact ⟨rfl, fun key hmem => by simp [cachedAt] at hmem⟩

theorem cacheBlocks_unchanged (hreserved : NullReserved M.blockPool) {request : Request η} {n : ℕ}
    (h : M.cacheBlocks request n = .ok M') :
    NullReserved M'.blockPool ∧ M'.maxModelLen = M.maxModelLen ∧
      List.Forall₂ (Unchanged request.requestId) M.singleTypeManagers M'.singleTypeManagers := by
  unfold KVCacheManager.cacheBlocks at h
  split at h
  · exact cacheCoordinatedBlocks_forall₂ hreserved h
  · obtain rfl := Except.ok.inj h
    exact ⟨hreserved, rfl, List.forall₂_same.mpr fun m _ => ⟨.refl _ m, rfl⟩⟩

/-- A call that neither gives the request blocks nor caches any of its blocks. -/
structure Bypassed (id : String) (m m' : SingleTypeKVCacheManager) : Prop
    extends Rested id m m' where
  cached_eq : m'.numCachedBlock.get? id = m.numCachedBlock.get? id

theorem Bypassed.refl (id : String) (m : SingleTypeKVCacheManager) : Bypassed id m m :=
  ⟨⟨.refl m, rfl, le_rfl, fun h => h⟩, rfl⟩

theorem Framed.bypassed {m m' : SingleTypeKVCacheManager} {r : String} (h : Framed r m m')
    (hr : r ≠ id) : Bypassed id m m' :=
  ⟨h.rested hr, h.cached_eq id hr.symm⟩

theorem Slid.bypassed {m m' : SingleTypeKVCacheManager} {n : ℕ} (h : Slid id n m m') :
    Bypassed id m m' :=
  ⟨h.rested, by rw [h.numCachedBlock_eq]⟩

theorem perform_bypassed (hreserved : NullReserved M.blockPool) {op : CacheOp η}
    (hbypasses : op.Bypasses id) (h : M.perform op = .ok M') :
    NullReserved M'.blockPool ∧ M'.maxModelLen = M.maxModelLen ∧
      List.Forall₂ (Bypassed id) M.singleTypeManagers M'.singleTypeManagers := by
  have hrefl : ∀ ms : List SingleTypeKVCacheManager, List.Forall₂ (Bypassed id) ms ms :=
    fun ms => List.forall₂_same.mpr fun m _ => .refl id m
  cases op with
  | allocateSlots request args =>
      cases hslots : M.allocateSlots request args with
      | error e =>
          rw [perform, hslots] at h
          cases h
      | ok result =>
          obtain ⟨next, blocks⟩ := result
          rw [perform, hslots] at h
          obtain rfl : next = M' := Except.ok.inj h
          obtain ⟨hpool, hlen, hframed⟩ := allocateSlots_framed hreserved hslots
          exact ⟨hpool, hlen, hframed.imp fun _ _ h => h.bypassed hbypasses⟩
  | cacheBlocks request n =>
      obtain ⟨hpool, hlen, hsame⟩ := cacheBlocks_unchanged hreserved h
      exact ⟨hpool, hlen, hsame.imp fun _ _ h => h.toFramed.bypassed hbypasses⟩
  | removeSkippedBlocks r n =>
      obtain rfl : M.removeSkippedBlocks r n = M' := Except.ok.inj h
      obtain ⟨hpool, hslid⟩ := removeSkippedBlocks_forall₂ hreserved r n
      refine ⟨hpool, rfl, hslid.imp fun m m' h => ?_⟩
      by_cases hr : r = id
      · subst hr
        exact h.bypassed
      · exact h.toFramed.bypassed hr
  | free request =>
      obtain rfl : M.free request = M' := Except.ok.inj h
      obtain ⟨hpool, hframed⟩ := free_framed hreserved request
      exact ⟨hpool, rfl, hframed.imp fun _ _ h => h.bypassed hbypasses⟩
  | evictBlocks blockIds =>
      change M.evictBlocks blockIds = .ok M' at h
      unfold KVCacheManager.evictBlocks at h
      cases hevict : M.blockPool.evictBlocks blockIds with
      | error e =>
          rw [hevict] at h
          cases h
      | ok pool =>
          rw [hevict] at h
          obtain rfl := Except.ok.inj h
          have hsame := (evictBlocks_sameNull M.blockPool blockIds).of_eq_ok hevict
          exact ⟨hreserved.same hsame, rfl, hrefl _⟩
  | resetPrefixCache =>
      obtain rfl : M.resetPrefixCache.1 = M' := Except.ok.inj h
      exact ⟨hreserved.same (resetPrefixCache_sameNull M.blockPool), rfl, hrefl _⟩

/-- A call that spares the request gives it no blocks. -/
theorem perform_rested (hreserved : NullReserved M.blockPool) {op : CacheOp η}
    (hspares : op.Spares id) (h : M.perform op = .ok M') :
    NullReserved M'.blockPool ∧ M'.maxModelLen = M.maxModelLen ∧
      List.Forall₂ (Rested id) M.singleTypeManagers M'.singleTypeManagers := by
  by_cases hbypasses : op.Bypasses id
  · obtain ⟨hpool, hlen, hbypassed⟩ := perform_bypassed hreserved hbypasses h
    exact ⟨hpool, hlen, hbypassed.imp fun _ _ h => h.toRested⟩
  · -- Only caching blocks of the request itself spares it without bypassing it.
    cases op with
    | cacheBlocks request n =>
        obtain ⟨hpool, hlen, hsame⟩ := cacheBlocks_unchanged hreserved h
        exact ⟨hpool, hlen, hsame.imp fun _ _ h => h.rested⟩
    | allocateSlots | free => exact absurd hspares hbypasses
    | removeSkippedBlocks | evictBlocks | resetPrefixCache => exact absurd trivial hbypasses

end Calls

/-! ## The invariant of an admitted request -/

section Invariant

variable {config : KVCacheConfig} {settings : GrowthSettings} {s t : ServedState η}
  {action : ServeAction η}

theorem forall₂_right {α β : Type} {R : α → β → Prop} {P : α → Prop} {Q : β → Prop}
    {as : List α} {bs : List β} (h : List.Forall₂ R as bs) (hQ : ∀ a b, P a → R a b → Q b) (has : ∀ a ∈ as, P a) :
    ∀ b ∈ bs, Q b := by
  induction h with
  | nil => exact fun b hb => absurd hb List.not_mem_nil
  | cons hab _ ih =>
      obtain ⟨ha, has⟩ := List.forall_mem_cons.mp has
      exact List.forall_mem_cons.mpr ⟨hQ _ _ ha hab, ih has⟩

theorem forall₂_left {α β : Type} {R : α → β → Prop} {as : List α} {bs : List β}
    (h : List.Forall₂ R as bs) : ∀ a ∈ as, ∃ b ∈ bs, R a b := by
  induction h with
  | nil => exact fun a ha => absurd ha List.not_mem_nil
  | cons hab _ ih =>
      refine List.forall_mem_cons.mpr ⟨⟨_, List.mem_cons_self, hab⟩, fun a ha => ?_⟩
      obtain ⟨b, hb, hab⟩ := ih a ha
      exact ⟨b, List.mem_cons_of_mem _ hb, hab⟩

/-- A group as the configuration has it. -/
structure Configured (config : KVCacheConfig) (m : SingleTypeKVCacheManager) : Prop where
  positive : m.spec.Positive
  cap_eq : m.maxAdmissionBlocksPerRequest =
    m.spec.maxAdmissionBlocksPerRequest config.maxNumBatchedTokens config.maxModelLen

theorem Configured.same {m m' : SingleTypeKVCacheManager} (h : Configured config m)
    (hsame : SameSpec m m') : Configured config m' where
  positive := hsame.spec_eq ▸ h.positive
  cap_eq := by
    rw [hsame.spec_eq, hsame.cap_eq]
    exact h.cap_eq

/-- A manager in use. -/
structure InUse (config : KVCacheConfig) (M : KVCacheManager η) : Prop where
  reserved : NullReserved M.blockPool
  maxModelLen_eq : M.maxModelLen = config.maxModelLen
  groups : ∀ m ∈ M.singleTypeManagers, Configured config m

/-- An admitted request has slots for its computed tokens in every group. -/
structure Serving (config : KVCacheConfig) (s : ServedState η) : Prop where
  inUse : InUse config s.manager
  covered : ∀ m ∈ s.manager.singleTypeManagers,
    s.numAllocatedTokens ⌈/⌉ m.blockSize ≤ (m.table s.request.requestId).length
  computed_le : s.request.numComputedTokens ≤ s.numAllocatedTokens
  tokens_le : s.request.numTokens ≤ s.request.numPromptTokens + s.request.maxTokens

theorem Configured.slid_le {m : SingleTypeKVCacheManager} (h : Configured config m)
    {computed allocated : ℕ} (hle : computed ≤ allocated)
    (hcovered : allocated ⌈/⌉ m.blockSize ≤ (m.table id).length) :
    slidBlocks m computed ≤ (m.table id).length := by
  have hskipped := KVCacheSpec.getNumSkippedTokens_le h.positive computed
  have hpos := m.spec.blockSize_pos
  calc slidBlocks m computed ≤ computed / m.blockSize := Nat.div_le_div_right hskipped
    _ ≤ allocated / m.blockSize := Nat.div_le_div_right hle
    _ = allocated ⌊/⌋ m.blockSize := (Nat.floorDiv_eq_div ..).symm
    _ ≤ allocated ⌈/⌉ m.blockSize := floorDiv_le_ceilDiv
    _ ≤ (m.table id).length := hcovered

theorem Serving.admissionTokens_eq (h : Serving config s)
    (hreserve : settings.reserveGenerationTokens = true) :
    s.manager.admissionTokens settings s.request =
      min (s.request.numPromptTokens + s.request.maxTokens) config.maxModelLen := by
  unfold admissionTokens
  rw [if_pos hreserve, Nat.max_eq_right h.tokens_le, h.inUse.maxModelLen_eq]

/-- What a step does to the request and its groups. -/
structure Stepped (config : KVCacheConfig) (settings : GrowthSettings) (s t : ServedState η) :
    Prop where
  requestId_eq : t.request.requestId = s.request.requestId
  tokens_eq : t.manager.admissionTokens settings t.request =
    s.manager.admissionTokens settings s.request
  moved : List.Forall₂ (Moved s.request.requestId (s.manager.admissionTokens settings s.request)
    config.maxNumBatchedTokens) s.manager.singleTypeManagers t.manager.singleTypeManagers

/-- A step of the manager that keeps the slots of the request. -/
theorem Serving.rest (h : Serving config s) (hreserve : settings.reserveGenerationTokens = true)
    {manager : KVCacheManager η} (hpool : NullReserved manager.blockPool)
    (hlen : manager.maxModelLen = s.manager.maxModelLen)
    (hrested : List.Forall₂ (Rested s.request.requestId) s.manager.singleTypeManagers
      manager.singleTypeManagers) :
    Serving config { s with manager := manager } ∧
      Stepped config settings s { s with manager := manager } := by
  have hserving : Serving config { s with manager := manager } := by
    refine ⟨⟨hpool, hlen.trans h.inUse.maxModelLen_eq, ?_⟩, ?_, h.computed_le, h.tokens_le⟩
    · exact forall₂_right hrested (fun m m' hm hrest => hm.same hrest.sameSpec) h.inUse.groups
    · refine forall₂_right hrested (fun m m' hm hrest => ?_) h.covered
      rw [hrest.length_eq]
      rw [hrest.sameSpec.blockSize_eq]
      exact hm
  refine ⟨hserving, rfl, ?_, hrested.imp fun m m' hrest => .inl hrest⟩
  rw [h.admissionTokens_eq hreserve, hserving.admissionTokens_eq hreserve]

theorem Serving.allocate (h : Serving config s)
    (hreserve : settings.reserveGenerationTokens = true) {args : SlotArgs}
    (hcall : Callable settings config.maxNumBatchedTokens s args) {manager : KVCacheManager η}
    {blocks : List (List BlockId)}
    (hslots : s.manager.allocateSlots s.request.toRequest args = .ok (manager, some blocks)) :
    Serving config { s with
        manager := manager
        numAllocatedTokens := max s.numAllocatedTokens
          (s.request.numComputedTokens + args.numNewTokens) } ∧
      Stepped config settings s { s with
        manager := manager
        numAllocatedTokens := max s.numAllocatedTokens
          (s.request.numComputedTokens + args.numNewTokens) } := by
  obtain ⟨hhits, hnone, hexternal, hlookahead, hbudget, hlimit⟩ := hcall
  have htokens := h.admissionTokens_eq hreserve
  -- The call is below the length of the model, which therefore does not cut it.
  have hmodel : s.request.numComputedTokens + args.numNewTokens ≤ s.manager.maxModelLen := by
    rw [h.inUse.maxModelLen_eq]
    omega
  have htotal : s.manager.totalComputedTokens s.request.toRequest args =
      s.request.numComputedTokens := by
    rw [totalComputedTokens, numLocalComputedTokens, hnone, hexternal]
    omega
  have hneed : s.manager.numTokensNeedSlot s.request.toRequest args =
      s.request.numComputedTokens + args.numNewTokens := by
    rw [numTokensNeedSlot, htotal, hlookahead]
    omega
  obtain ⟨hpool, hlen, hserved⟩ :=
    allocateSlots_served h.inUse.reserved hhits hexternal hslots
  rw [htotal, hneed] at hserved
  -- Every group moves, and covers both the old tokens and the new ones.
  have hstep : List.Forall₂ (fun m m' => SameSpec m m' ∧
      (m.table s.request.requestId).length ≤ (m'.table s.request.requestId).length ∧
      (s.request.numComputedTokens + args.numNewTokens) ⌈/⌉ m.blockSize ≤
        (m'.table s.request.requestId).length) s.manager.singleTypeManagers
      manager.singleTypeManagers := by
    refine hserved.imp fun m m' hserved => ⟨hserved.sameSpec, ?_⟩
    obtain ⟨slid, hmid, hextended⟩ := hserved.tables
    obtain ⟨new, htable, -, hlength⟩ := hextended.table_eq
    have hmidLength := hmid.length_eq
    rw [htable, List.length_append]
    omega
  have hserving : Serving config { s with
      manager := manager
      numAllocatedTokens := max s.numAllocatedTokens
        (s.request.numComputedTokens + args.numNewTokens) } := by
    refine ⟨⟨hpool, hlen.trans h.inUse.maxModelLen_eq, ?_⟩, ?_, ?_, h.tokens_le⟩
    · exact forall₂_right hstep (fun m m' hm hm' => hm.same hm'.1) h.inUse.groups
    · refine forall₂_right hstep (fun m m' hm hm' => ?_) h.covered
      rw [hm'.1.blockSize_eq]
      rcases Nat.le_total s.numAllocatedTokens
        (s.request.numComputedTokens + args.numNewTokens) with hle | hle
      · rw [Nat.max_eq_right hle]
        exact hm'.2.2
      · rw [Nat.max_eq_left hle]
        exact hm.trans hm'.2.1
    · exact h.computed_le.trans (Nat.le_max_left ..)
  refine ⟨hserving, rfl, ?_, ?_⟩
  · rw [h.admissionTokens_eq hreserve, hserving.admissionTokens_eq hreserve]
  · have hslid : ∀ m ∈ s.manager.singleTypeManagers, slidBlocks m s.request.numComputedTokens ≤
        (m.table s.request.requestId).length :=
      fun m hm => (h.inUse.groups m hm).slid_le h.computed_le (h.covered m hm)
    have hboth := (List.forall₂_and_left ..).mpr ⟨hslid, hserved⟩
    refine hboth.imp fun m m' hm => .inr ⟨_, _, hm.2, hlimit, ?_, hm.1⟩
    omega

theorem Serving.step (h : Serving config s) (hreserve : settings.reserveGenerationTokens = true)
    (hstep : serve settings config.maxNumBatchedTokens s action = some t) :
    Serving config t ∧ Stepped config settings s t := by
  cases action with
  | allocate args =>
      by_cases hcall : Callable settings config.maxNumBatchedTokens s args
      · rw [serve, if_pos hcall] at hstep
        cases hslots : s.manager.allocateSlots s.request.toRequest args with
        | error e =>
            rw [hslots] at hstep
            cases hstep
        | ok result =>
            obtain ⟨manager, blocks | blocks⟩ := result
            · rw [hslots] at hstep
              obtain rfl := Option.some.inj hstep
              rcases allocateSlots_stages hslots with ⟨-, rfl | rfl⟩ | ⟨_, _, hsome, -⟩
              · refine h.rest hreserve h.inUse.reserved rfl (List.forall₂_same.mpr fun m _ => ?_)
                exact ⟨.refl m, rfl, le_rfl, fun h => h⟩
              · obtain ⟨hpool, hslid⟩ := removeSkippedBlocks_forall₂ h.inUse.reserved
                  s.request.requestId (s.manager.totalComputedTokens s.request.toRequest args)
                exact h.rest hreserve hpool rfl (hslid.imp fun _ _ h => h.rested)
              · cases hsome
            · rw [hslots] at hstep
              obtain rfl := Option.some.inj hstep
              exact h.allocate hreserve hcall hslots
      · rw [serve, if_neg hcall] at hstep
        cases hstep
  | update request =>
      by_cases hupdates : Updates s request
      · rw [serve, if_pos hupdates] at hstep
        obtain rfl := Option.some.inj hstep
        obtain ⟨hid, hprompt, hmax, hcomputed, htokens⟩ := hupdates
        have hserving : Serving config { s with request := request } :=
          ⟨h.inUse, hid.symm ▸ h.covered, hcomputed, htokens⟩
        refine ⟨hserving, hid, ?_, List.forall₂_same.mpr fun m _ => .inl ?_⟩
        · rw [h.admissionTokens_eq hreserve, hserving.admissionTokens_eq hreserve, hprompt, hmax]
        · exact ⟨.refl m, rfl, le_rfl, fun h => h⟩
      · rw [serve, if_neg hupdates] at hstep
        cases hstep
  | other op =>
      by_cases hspares : op.Spares s.request.requestId
      · rw [serve, if_pos hspares] at hstep
        cases hperform : s.manager.perform op with
        | error e =>
            rw [hperform] at hstep
            cases hstep
        | ok manager =>
            rw [hperform] at hstep
            obtain rfl := Option.some.inj hstep
            obtain ⟨hpool, hlen, hrested⟩ := perform_rested h.inUse.reserved hspares hperform
            exact h.rest hreserve hpool hlen hrested
      · rw [serve, if_neg hspares] at hstep
        cases hstep

end Invariant

end TokenCake.KV
