import TokenCake.Verification.Growth.Bounds

/-! # The blocks that a request holds

After each call a request holds at most the cap of a window, and at most the cap of a chunk if
chunks fit the cap. -/

namespace TokenCake.KV

variable {η : Type} [DecidableEq η]

open KVCacheManager

/-! ## The invariant of a processed request -/

section Invariant

variable {config : KVCacheConfig} {s t : ServedState η} {action : ProcessAction η}
  {manager : KVCacheManager η}

/-- Every group has the spec of its id. -/
def SpecsIndexed (M : KVCacheManager η) : Prop :=
  ∀ m ∈ M.singleTypeManagers, M.specs[m.groupId]? = some m.spec

omit [DecidableEq η] in
theorem SpecsIndexed.same {M : KVCacheManager η} (h : SpecsIndexed M)
    (hsame : List.Forall₂ SameSpec M.singleTypeManagers manager.singleTypeManagers) :
    SpecsIndexed manager := by
  have hspecs : manager.specs = M.specs := by
    unfold specs
    generalize M.singleTypeManagers = ms at hsame
    generalize manager.singleTypeManagers = ms' at hsame
    induction hsame with
    | nil => rfl
    | cons hm _ ih => rw [List.map_cons, List.map_cons, hm.spec_eq, ih]
  unfold SpecsIndexed
  rw [hspecs]
  refine forall₂_right hsame (fun m m' hm hm' => ?_) h
  rw [hm'.groupId_eq, hm'.spec_eq]
  exact hm

omit [DecidableEq η] in
theorem new_specsIndexed (hnew : KVCacheManager.new config = .ok manager) : SpecsIndexed manager := by
  unfold KVCacheManager.new at hnew
  dsimp only at hnew
  split at hnew
  · obtain rfl := Except.ok.inj hnew
    intro m hm
    obtain ⟨⟨spec, i⟩, hspec, rfl⟩ := List.mem_map.mp hm
    have hentry := List.mem_zipIdx_iff_getElem?.mp hspec
    simpa [specs, Function.comp_def] using hentry
  · cases hnew

/-- A request in the course of its calls. -/
structure Processing (config : KVCacheConfig) (s : ServedState η) : Prop where
  inUse : InUse config s.manager
  indexed : SpecsIndexed s.manager
  computed_le : s.request.numComputedTokens ≤ s.numAllocatedTokens
  allocated_le : s.numAllocatedTokens ≤ config.maxModelLen
  bounded : ∀ m ∈ s.manager.singleTypeManagers, m.spec.isFullAttention = false →
    ∀ cap, m.spec.CallsFit config.maxNumBatchedTokens config.maxModelLen cap →
      Bounded cap config.maxModelLen s.request.requestId s.numAllocatedTokens m

/-- The groups after a step, given what the step does to each of them. -/
theorem Processing.groups (h : Processing config s) {R : SingleTypeKVCacheManager →
      SingleTypeKVCacheManager → Prop} {request : GrowthRequest η} {allocated : ℕ}
    (hpool : NullReserved manager.blockPool)
    (hlen : manager.maxModelLen = s.manager.maxModelLen)
    (hgroups : List.Forall₂ R s.manager.singleTypeManagers manager.singleTypeManagers)
    (hsame : ∀ m m', R m m' → SameSpec m m')
    (hcomputed : request.numComputedTokens ≤ allocated) (hallocated : allocated ≤ config.maxModelLen)
    (hbounded : ∀ m m', m ∈ s.manager.singleTypeManagers → R m m' →
      m.spec.isFullAttention = false →
      ∀ cap, m.spec.CallsFit config.maxNumBatchedTokens config.maxModelLen cap →
        Bounded cap config.maxModelLen request.requestId allocated m') :
    Processing config ⟨manager, request, allocated⟩ where
  inUse := ⟨hpool, hlen.trans h.inUse.maxModelLen_eq,
    forall₂_right hgroups (fun m m' hm hm' => hm.same (hsame m m' hm')) h.inUse.groups⟩
  indexed := h.indexed.same (hgroups.imp hsame)
  computed_le := hcomputed
  allocated_le := hallocated
  bounded := by
    refine forall₂_right hgroups (fun m m' hm hm' hwindow cap hfit => ?_) fun m hm => hm
    rw [(hsame m m' hm').spec_eq] at hwindow hfit
    exact hbounded m m' hm hm' hwindow cap hfit

/-- A step that gives the request no blocks. -/
theorem Processing.rest (h : Processing config s) (hpool : NullReserved manager.blockPool)
    (hlen : manager.maxModelLen = s.manager.maxModelLen)
    (hgroups : List.Forall₂ (fun m m' => Rested s.request.requestId m m' ∧
      (s.numAllocatedTokens = 0 → m'.numCachedBlock.get? s.request.requestId =
        m.numCachedBlock.get? s.request.requestId))
      s.manager.singleTypeManagers manager.singleTypeManagers) :
    Processing config { s with manager := manager } :=
  h.groups hpool hlen hgroups (fun _ _ hm => hm.1.sameSpec) h.computed_le h.allocated_le
    fun m _ hm hm' hwindow cap hfit => (h.bounded m hm hwindow cap hfit).rested hm'.1 hm'.2

theorem Processing.bypass (h : Processing config s) (hpool : NullReserved manager.blockPool)
    (hlen : manager.maxModelLen = s.manager.maxModelLen)
    (hgroups : List.Forall₂ (Bypassed s.request.requestId) s.manager.singleTypeManagers
      manager.singleTypeManagers) : Processing config { s with manager := manager } :=
  h.rest hpool hlen (hgroups.imp fun _ _ hm => ⟨hm.toRested, fun _ => hm.cached_eq⟩)

/-! ### The calls of the request -/

section Allocate

variable {args : SlotArgs} {blocks : List (List BlockId)}

/-- A call without hits. -/
theorem Processing.allocate_served (h : Processing config s)
    (hbudget : args.numNewTokens ≤ config.maxNumBatchedTokens)
    (hlookahead : args.numLookaheadTokens = 0)
    (hhits : args.newComputedBlocks = s.manager.singleTypeManagers.map fun _ => [])
    (hnone : args.numNewComputedTokens = 0) (hexternal : args.numExternalComputedTokens = 0)
    (hslots : s.manager.allocateSlots s.request.toRequest args = .ok (manager, some blocks)) :
    Processing config { s with
      manager := manager
      numAllocatedTokens := max s.numAllocatedTokens
        (s.manager.numTokensNeedSlot s.request.toRequest args) } := by
  have hmodel := h.inUse.maxModelLen_eq
  have hcomputed := h.computed_le
  have hallocated := h.allocated_le
  have htotal : s.manager.totalComputedTokens s.request.toRequest args =
      s.request.numComputedTokens := by
    rw [totalComputedTokens, numLocalComputedTokens, hnone, hexternal]
    omega
  have hneed : s.manager.numTokensNeedSlot s.request.toRequest args =
      min (s.request.numComputedTokens + args.numNewTokens) config.maxModelLen := by
    rw [numTokensNeedSlot, htotal, hlookahead, hmodel, Nat.add_zero]
  have hsome : 0 < args.numNewTokens := by
    by_contra hzero
    unfold allocateSlots at hslots
    rw [if_pos ⟨by omega, hexternal⟩] at hslots
    cases hslots
  obtain ⟨hpool, hlen, hserved⟩ :=
    allocateSlots_served h.inUse.reserved hhits hexternal hslots
  rw [htotal] at hserved
  refine h.groups hpool hlen hserved (fun _ _ hm => hm.sameSpec)
    (hcomputed.trans (Nat.le_max_left ..)) ?_ fun m m' hm hm' hwindow cap hfit => ?_
  · omega
  · have hbounded := h.bounded m hm hwindow cap hfit
    have hslid : slidBlocks m s.request.numComputedTokens ≤
        (m.table s.request.requestId).length :=
      (h.inUse.groups m hm).slid_le hcomputed hbounded.length_eq.ge
    refine hbounded.served hm' hslid ?_ fun hpos => ?_
    · apply hfit
      · omega
      · omega
    · omega

/-- The first call of a request, with its hits. -/
theorem Processing.allocate_called (h : Processing config s)
    (hbudget : args.numNewTokens ≤ config.maxNumBatchedTokens)
    (hlookahead : args.numLookaheadTokens = 0) (hfirst : s.numAllocatedTokens = 0)
    (hlimit : args.numNewComputedTokens + args.numExternalComputedTokens ≤ s.manager.maxModelLen)
    (hhits : (s.manager.getComputedBlocks s.request.toRequest).toOption =
      some (args.newComputedBlocks, args.numNewComputedTokens))
    (hslots : s.manager.allocateSlots s.request.toRequest args = .ok (manager, some blocks)) :
    Processing config { s with
      manager := manager
      numAllocatedTokens := max s.numAllocatedTokens
        (s.manager.numTokensNeedSlot s.request.toRequest args) } := by
  have hmodel := h.inUse.maxModelLen_eq
  have hzero : s.request.numComputedTokens = 0 := by
    have := h.computed_le
    omega
  have hlocal : numLocalComputedTokens s.request.toRequest args = args.numNewComputedTokens := by
    rw [numLocalComputedTokens, hzero, Nat.zero_add]
  have hhitOf : List.Forall₂ (HitOf (numLocalComputedTokens s.request.toRequest args))
      s.manager.singleTypeManagers args.newComputedBlocks := by
    rw [hlocal]
    cases hcomputed : s.manager.getComputedBlocks s.request.toRequest with
    | error e =>
        rw [hcomputed] at hhits
        cases hhits
    | ok out =>
        rw [hcomputed] at hhits
        obtain rfl : out = _ := Option.some.inj hhits
        exact (getComputedBlocks_hitOf h.inUse.reserved h.indexed _).of_eq_ok hcomputed
  have htotal : s.manager.totalComputedTokens s.request.toRequest args =
      args.numNewComputedTokens + args.numExternalComputedTokens := by
    rw [totalComputedTokens, hlocal]
    exact Nat.min_eq_left hlimit
  have hneed : s.manager.numTokensNeedSlot s.request.toRequest args =
      min (args.numNewComputedTokens + args.numExternalComputedTokens + args.numNewTokens)
        config.maxModelLen := by
    rw [numTokensNeedSlot, htotal, hlookahead, hmodel, Nat.add_zero]
  have hsome : 0 < args.numNewTokens + args.numExternalComputedTokens := by
    by_contra hnone
    unfold allocateSlots at hslots
    rw [if_pos ⟨by omega, by omega⟩] at hslots
    cases hslots
  obtain ⟨hpool, hlen, hcalled⟩ :=
    allocateSlots_called h.inUse.reserved (by rw [hlocal]; exact hlimit) hhitOf hslots
  rw [hlocal, htotal] at hcalled
  -- A window with computed tokens brings hits or external tokens.
  have hbrings : ∀ m ∈ s.manager.singleTypeManagers, m.spec.isFullAttention = false →
      0 < args.numNewComputedTokens + args.numExternalComputedTokens → Brings args := by
    intro m hm hwindow hpos
    rcases Nat.eq_zero_or_pos args.numNewComputedTokens with hnone | hlocalPos
    · exact .inr (by omega)
    · rw [hlocal] at hhitOf
      obtain ⟨hits, hmem, hhit⟩ := forall₂_left hhitOf m hm
      refine .inl ⟨hits, hmem, fun hnil => ?_⟩
      have hlength := hhit.2 hwindow
      rw [hnil, List.length_nil, Nat.zero_mul] at hlength
      omega
  refine h.groups hpool hlen hcalled (fun _ _ hm => hm.sameSpec) ?_ ?_
    fun m m' hm hm' hwindow cap hfit => ?_
  · omega
  · omega
  · have hbounded := h.bounded m hm hwindow cap hfit
    obtain ⟨slid, opened, hslid, hframed, hcases, hextended⟩ := hm'.tables
    have hconfigured := h.inUse.groups m hm
    have hfits : s.manager.numTokensNeedSlot s.request.toRequest args ⌈/⌉ m.blockSize ≤
        slidBlocks m (args.numNewComputedTokens + args.numExternalComputedTokens) + cap := by
      apply hfit
      · omega
      · omega
    have hpositive : 0 < config.maxModelLen →
        0 < s.manager.numTokensNeedSlot s.request.toRequest args := by omega
    rcases hcases with ⟨hcached, htable⟩ | hopened
    · -- Nothing is computed yet.
      have hnone : args.numNewComputedTokens + args.numExternalComputedTokens = 0 := by
        by_contra hpos
        have hfresh := hbounded.fresh hfirst (by omega)
        rw [hcached (hbrings m hm hwindow (by omega))] at hfresh
        cases hfresh
      rw [hnone] at hslid hfits
      refine hbounded.served ⟨hm'.toFramed, slid, hslid, hframed.trans hextended.toFramed, ?_⟩ ?_
        hfits hpositive
      · obtain ⟨new, htable', hnew⟩ := hextended.table_eq
        rw [htable] at htable' hnew
        exact ⟨new, htable', hnew⟩
      · have hle : slidBlocks m s.request.numComputedTokens ≤
            (m.table s.request.requestId).length :=
          hconfigured.slid_le h.computed_le hbounded.length_eq.ge
        rw [hzero] at hle
        exact hle
    · rw [hfirst, Nat.zero_max]
      have hspec := hslid.sameSpec
      rw [← hspec.blockSize_eq] at hextended
      refine Bounded.opened hopened hextended ?_ ?_ (Nat.le_add_right ..) ?_ ?_ hpositive
      · rw [hspec.spec_eq]
        exact hwindow
      · rw [hspec.spec_eq]
        exact hconfigured.positive
      · omega
      · rw [slidBlocks, hspec.spec_eq, hspec.blockSize_eq]
        exact hfits

end Allocate

/-- A request that is freed has no slots. -/
theorem free_fresh (hreserved : NullReserved s.manager.blockPool) (request : Request η) :
    List.Forall₂ (fun m m' => SameSpec m m' ∧ m'.table request.requestId = [] ∧
      m'.numCachedBlock.contains request.requestId = false) s.manager.singleTypeManagers
      (s.manager.free request).singleTypeManagers := by
  refine (forManagers_forall₂ (Q := NullReserved) (fun pool m _ pool' m' hpool h => ?_)
    (s.manager.singleTypeManagers.map fun _ => ()) (by simp) hreserved
    (mapManagers_eq fun pool manager => manager.free pool request.requestId)).2
  obtain ⟨rfl, rfl⟩ := Prod.mk.inj (Except.ok.inj h)
  refine ⟨hpool.freeBlocks _, ⟨rfl, rfl, rfl⟩, ?_, ?_⟩
  · simp [SingleTypeKVCacheManager.table, OrdDict.get?_erase]
  · simp [Bool.eq_false_iff, OrdDict.get?_erase]

theorem Processing.allocate (h : Processing config s) {args : SlotArgs}
    (hcall : ChunkCall config.maxNumBatchedTokens s args)
    (hstep : process config.maxNumBatchedTokens s (.allocate args) = some t) :
    Processing config t := by
  rw [process, if_pos hcall] at hstep
  obtain ⟨hbudget, hlookahead, hcases⟩ := hcall
  cases hslots : s.manager.allocateSlots s.request.toRequest args with
  | error e =>
      rw [hslots] at hstep
      cases hstep
  | ok result =>
      obtain ⟨manager, blocks | blocks⟩ := result
      · rw [hslots] at hstep
        obtain rfl := Option.some.inj hstep
        rcases allocateSlots_stages hslots with ⟨-, rfl | rfl⟩ | ⟨_, _, hsome, -⟩
        · exact h
        · obtain ⟨hpool, hslid⟩ := removeSkippedBlocks_forall₂ h.inUse.reserved
            s.request.requestId (s.manager.totalComputedTokens s.request.toRequest args)
          exact h.bypass hpool rfl (hslid.imp fun _ _ hm => hm.bypassed)
        · cases hsome
      · rw [hslots] at hstep
        obtain rfl := Option.some.inj hstep
        rcases hcases with ⟨hhits, hnone, hexternal⟩ | ⟨hfirst, hlimit, hhits⟩
        · exact h.allocate_served hbudget hlookahead hhits hnone hexternal hslots
        · exact h.allocate_called hbudget hlookahead hfirst hlimit hhits hslots

theorem Processing.step (h : Processing config s)
    (hstep : process config.maxNumBatchedTokens s action = some t) : Processing config t := by
  cases action with
  | allocate args =>
      by_cases hcall : ChunkCall config.maxNumBatchedTokens s args
      · exact h.allocate hcall hstep
      · rw [process, if_neg hcall] at hstep
        cases hstep
  | cache n =>
      by_cases hpos : 0 < s.numAllocatedTokens
      · rw [process, if_pos hpos] at hstep
        cases hcache : s.manager.cacheBlocks s.request.toRequest n with
        | error e =>
            rw [hcache] at hstep
            cases hstep
        | ok manager =>
            rw [hcache] at hstep
            obtain rfl := Option.some.inj hstep
            obtain ⟨hpool, hlen, hsame⟩ := cacheBlocks_unchanged h.inUse.reserved hcache
            exact h.rest hpool hlen (hsame.imp fun _ _ hm =>
              ⟨hm.rested, fun hzero => absurd hzero hpos.ne'⟩)
      · rw [process, if_neg hpos] at hstep
        cases hstep
  | update request =>
      by_cases hadvances : Advances s request
      · rw [process, if_pos hadvances] at hstep
        obtain rfl := Option.some.inj hstep
        obtain ⟨hid, hcomputed⟩ := hadvances
        exact ⟨h.inUse, h.indexed, hcomputed, h.allocated_le, hid.symm ▸ h.bounded⟩
      · rw [process, if_neg hadvances] at hstep
        cases hstep
  | free =>
      obtain rfl := Option.some.inj hstep
      refine h.groups (free_framed h.inUse.reserved _).1 rfl (free_fresh h.inUse.reserved _)
        (fun _ _ hm => hm.1) le_rfl (Nat.zero_le _) fun m m' _ hm' _ cap _ => ?_
      exact .of_fresh hm'.2.1 hm'.2.2
  | other op =>
      by_cases hbypasses : op.Bypasses s.request.requestId
      · rw [process, if_pos hbypasses] at hstep
        cases hperform : s.manager.perform op with
        | error e =>
            rw [hperform] at hstep
            cases hstep
        | ok manager =>
            rw [hperform] at hstep
            obtain rfl := Option.some.inj hstep
            obtain ⟨hpool, hlen, hgroups⟩ := perform_bypassed h.inUse.reserved hbypasses hperform
            exact h.bypass hpool hlen hgroups
      · rw [process, if_neg hbypasses] at hstep
        cases hstep

/-- A request of a new manager. -/
theorem new_processing {request : GrowthRequest η} (hnew : KVCacheManager.new config = .ok manager)
    (hpositive : ∀ spec ∈ config.kvCacheGroups, spec.Positive)
    (hcomputed : request.numComputedTokens = 0) : Processing config ⟨manager, request, 0⟩ where
  inUse := new_inUse hnew hpositive
  indexed := new_specsIndexed hnew
  computed_le := hcomputed.le
  allocated_le := Nat.zero_le _
  bounded m hm _ cap _ := by
    unfold KVCacheManager.new at hnew
    dsimp only at hnew
    split at hnew
    · obtain rfl := Except.ok.inj hnew
      obtain ⟨⟨spec, i⟩, -, rfl⟩ := List.mem_map.mp hm
      exact .of_fresh rfl rfl
    · cases hnew

end Invariant

/-! ## Windows and chunks -/

section Results

variable {config : KVCacheConfig} {m₀ : KVCacheManager η} {request : GrowthRequest η}
  {s : ServedState η} {actions : List (ProcessAction η)} {m : SingleTypeKVCacheManager} {w c cap : ℕ}

/-- Whatever its calls, a request holds at most the cap of a window, and the placeholders of its
table come first. -/
theorem slidingWindow_held_le (hnew : KVCacheManager.new config = .ok m₀)
    (hpositive : ∀ spec ∈ config.kvCacheGroups, spec.Positive)
    (hcomputed : request.numComputedTokens = 0)
    (hrun : Run (fun s a t => process config.maxNumBatchedTokens s a = some t) ⟨m₀, request, 0⟩
      actions s)
    (hm : m ∈ s.manager.singleTypeManagers) (hkind : m.spec.kind = .slidingWindow w)
    (hcap : m.spec.maxAdmissionBlocksPerRequest config.maxNumBatchedTokens config.maxModelLen =
      some cap) :
    numHeld (m.table s.request.requestId) ≤ cap ∧ NullFirst (m.table s.request.requestId) := by
  have hprocessing : Processing config s := hrun.invariant (fun _ _ _ _ h hstep => h.step hstep)
    (new_processing hnew hpositive hcomputed)
  have hw : 0 < w := by
    have hspec := (hprocessing.inUse.groups m hm).positive
    unfold KVCacheSpec.Positive at hspec
    rwa [hkind] at hspec
  have hwindow : m.spec.isFullAttention = false := by
    rw [KVCacheSpec.isFullAttention, hkind]
    rfl
  have hbounded := hprocessing.bounded m hm hwindow cap
    (KVCacheSpec.slidingWindow_callsFit hkind hw hcap)
  exact ⟨hbounded.held_le, hbounded.nullFirst⟩

/-- A request holds at most the cap of a chunk, if chunks fit the cap. -/
theorem chunkedLocal_held_le (hnew : KVCacheManager.new config = .ok m₀)
    (hpositive : ∀ spec ∈ config.kvCacheGroups, spec.Positive)
    (hcomputed : request.numComputedTokens = 0)
    (hrun : Run (fun s a t => process config.maxNumBatchedTokens s a = some t) ⟨m₀, request, 0⟩
      actions s)
    (hm : m ∈ s.manager.singleTypeManagers) (hkind : m.spec.kind = .chunkedLocal c)
    (hfit : m.spec.ChunksFit c config.maxNumBatchedTokens config.maxModelLen)
    (hcap : m.spec.maxAdmissionBlocksPerRequest config.maxNumBatchedTokens config.maxModelLen =
      some cap) :
    numHeld (m.table s.request.requestId) ≤ cap := by
  have hprocessing : Processing config s := hrun.invariant (fun _ _ _ _ h hstep => h.step hstep)
    (new_processing hnew hpositive hcomputed)
  have hc : 0 < c := by
    have hspec := (hprocessing.inUse.groups m hm).positive
    unfold KVCacheSpec.Positive at hspec
    rwa [hkind] at hspec
  have hwindow : m.spec.isFullAttention = false := by
    rw [KVCacheSpec.isFullAttention, hkind]
    rfl
  exact (hprocessing.bounded m hm hwindow cap
    ((KVCacheSpec.chunksFit_iff_callsFit hkind hc hcap).mp hfit)).held_le

end Results

/-! ## Runs -/

section Runs

/-- A chunk of 32 tokens over blocks of 48 tokens; its cap is one block. -/
def misalignedConfig : KVCacheConfig where
  numBlocks := 8
  kvCacheGroups := [⟨.chunkedLocal 32, 48, by decide, 0⟩]
  maxModelLen := 256
  maxNumBatchedTokens := 16
  enableCaching := false
  hashBlockSize := 48

/-- A chunk of 32 tokens over blocks of 16 tokens. -/
def alignedConfig : KVCacheConfig :=
  { misalignedConfig with kvCacheGroups := [⟨.chunkedLocal 32, 16, by decide, 0⟩] }

/-- A prompt of 64 tokens. -/
def longPrompt (numComputedTokens : ℕ) : GrowthRequest ℕ where
  requestId := "r"
  numComputedTokens := numComputedTokens
  numTokens := 64
  blockHashes := []
  numPromptTokens := 64
  maxTokens := 4

/-- The prompt in four batches. -/
def promptCalls : List (ProcessAction ℕ) :=
  [.allocate (callFor 16), .update (longPrompt 16), .allocate (callFor 16),
    .update (longPrompt 32), .allocate (callFor 16), .update (longPrompt 48),
    .allocate (callFor 16)]

/-- The run of one request, with its table at the end and the cap of its group. -/
theorem exists_processRun {config : KVCacheConfig} {request : GrowthRequest ℕ}
    {actions : List (ProcessAction ℕ)} {spec : KVCacheSpec} {cap : ℕ}
    {P : List BlockId → Prop} [DecidablePred P]
    (h : ((KVCacheManager.new (η := ℕ) config).toOption.any fun m₀ =>
      (actions.foldlM (process config.maxNumBatchedTokens) ⟨m₀, request, 0⟩).any fun s =>
        s.manager.singleTypeManagers.any fun m => decide (m.spec = spec ∧
          m.spec.maxAdmissionBlocksPerRequest config.maxNumBatchedTokens config.maxModelLen =
            some cap ∧ P (m.table s.request.requestId))) = true) :
    ∃ m₀ s m, KVCacheManager.new (η := ℕ) config = .ok m₀ ∧
      Run (fun s a t => process config.maxNumBatchedTokens s a = some t) ⟨m₀, request, 0⟩
        actions s ∧ m ∈ s.manager.singleTypeManagers ∧ m.spec = spec ∧
      m.spec.maxAdmissionBlocksPerRequest config.maxNumBatchedTokens config.maxModelLen =
        some cap ∧ P (m.table s.request.requestId) := by
  obtain ⟨m₀, hnew, h⟩ := (Option.any_eq_true ..).mp h
  obtain ⟨s, hrun, h⟩ := (Option.any_eq_true ..).mp h
  obtain ⟨m, hm, h⟩ := List.any_eq_true.mp h
  exact ⟨m₀, s, m, Ensures.eq_ok_of_toOption_eq_some hnew, .of_foldlM (fun _ _ _ h => h) hrun, hm,
    of_decide_eq_true h⟩

/-- The second chunk starts in the first block, which it keeps when it reaches the second. -/
theorem misalignedChunk_exceeds_cap : ∃ m₀ s m,
    KVCacheManager.new (η := ℕ) misalignedConfig = .ok m₀ ∧
    Run (fun s a t => process misalignedConfig.maxNumBatchedTokens s a = some t)
      ⟨m₀, longPrompt 0, 0⟩ promptCalls s ∧
    m ∈ s.manager.singleTypeManagers ∧ m.spec = ⟨.chunkedLocal 32, 48, by decide, 0⟩ ∧
    m.spec.maxAdmissionBlocksPerRequest misalignedConfig.maxNumBatchedTokens
      misalignedConfig.maxModelLen = some 1 ∧
    numHeld (m.table s.request.requestId) = 2 :=
  exists_processRun (P := fun table => numHeld table = 2) (by decide +kernel)

/-- The same calls over blocks that divide the chunk. -/
theorem alignedChunk_held_le : ∃ s : ServedState ℕ, ∃ m ∈ s.manager.singleTypeManagers,
    numHeld (m.table s.request.requestId) = 2 ∧ numHeld (m.table s.request.requestId) ≤ 3 := by
  have hrun : ∃ m₀ s m, KVCacheManager.new (η := ℕ) alignedConfig = .ok m₀ ∧
      Run (fun s a t => process alignedConfig.maxNumBatchedTokens s a = some t)
        ⟨m₀, longPrompt 0, 0⟩ promptCalls s ∧
      m ∈ s.manager.singleTypeManagers ∧ m.spec = ⟨.chunkedLocal 32, 16, by decide, 0⟩ ∧
      m.spec.maxAdmissionBlocksPerRequest alignedConfig.maxNumBatchedTokens
        alignedConfig.maxModelLen = some 3 ∧
      numHeld (m.table s.request.requestId) = 2 :=
    exists_processRun (P := fun table => numHeld table = 2) (by decide +kernel)
  obtain ⟨m₀, s, m, hnew, hrun, hm, hspec, hcap, hheld⟩ := hrun
  have hpositive : ∀ spec ∈ alignedConfig.kvCacheGroups, spec.Positive := by
    intro spec hspec
    obtain rfl := List.mem_singleton.mp hspec
    exact Nat.zero_lt_succ 31
  have hkind : m.spec.kind = .chunkedLocal 32 := by rw [hspec]
  have hfit : m.spec.ChunksFit 32 alignedConfig.maxNumBatchedTokens alignedConfig.maxModelLen := by
    apply KVCacheSpec.chunksFit_of_dvd
    rw [hspec]
    decide
  exact ⟨s, m, hm, hheld, chunkedLocal_held_le hnew hpositive rfl hrun hm hkind hfit hcap⟩

/-- A window of two tokens has slid past the first block in the third call for a prompt of six. -/
theorem slidWindow_held_le : ∃ s : ServedState ℕ, ∃ m ∈ s.manager.singleTypeManagers,
    m.table s.request.requestId = [nullBlock, 2, 3] ∧
      numHeld (m.table s.request.requestId) ≤ 3 ∧ NullFirst (m.table s.request.requestId) := by
  have hrun : ∃ m₀ s m, KVCacheManager.new (η := ℕ) slidingConfig = .ok m₀ ∧
      Run (fun s a t => process slidingConfig.maxNumBatchedTokens s a = some t)
        ⟨m₀, sixTokens 0 6, 0⟩ [.allocate (callFor 2), .update (sixTokens 2 6),
          .allocate (callFor 2), .update (sixTokens 4 6), .allocate (callFor 2)] s ∧
      m ∈ s.manager.singleTypeManagers ∧ m.spec = ⟨.slidingWindow 2, 2, by decide, 0⟩ ∧
      m.spec.maxAdmissionBlocksPerRequest slidingConfig.maxNumBatchedTokens
        slidingConfig.maxModelLen = some 3 ∧
      m.table s.request.requestId = [nullBlock, 2, 3] :=
    exists_processRun (P := (· = [nullBlock, 2, 3])) (by decide +kernel)
  obtain ⟨m₀, s, m, hnew, hrun, hm, hspec, hcap, htable⟩ := hrun
  have hpositive : ∀ spec ∈ slidingConfig.kvCacheGroups, spec.Positive := by
    intro spec hspec
    obtain rfl := List.mem_singleton.mp hspec
    exact Nat.zero_lt_two
  have hkind : m.spec.kind = .slidingWindow 2 := by rw [hspec]
  exact ⟨s, m, hm, htable, slidingWindow_held_le hnew hpositive rfl hrun hm hkind hcap⟩

end Runs

end TokenCake.KV
