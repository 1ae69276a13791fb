import TokenCake.Lib.Run
import TokenCake.Verification.KVCache.HitLists
import TokenCake.Verification.KVCache.Managers

/-! # The representation invariant of the block pool

Every call of the manager goes through the groups, and what it does to one group it does to all.
Only the external tokens of a new request can make the counter of the free queue drift. -/

namespace TokenCake.KV

variable {η β : Type} [DecidableEq η] {hash : η → β → η} {base : η} {m m' m'' : KVCacheManager η}
  {P : Prop}

/-- A group keeps its spec and its id. -/
def SameKey (manager manager' : SingleTypeKVCacheManager) : Prop :=
  manager'.spec = manager.spec ∧ manager'.groupId = manager.groupId

theorem SameGroup.sameKey {r : String} {manager manager' : SingleTypeKVCacheManager}
    (h : SameGroup r manager manager') : SameKey manager manager' := ⟨h.spec_eq, h.groupId_eq⟩

theorem SameKey.map_eq {α : Type} (f : SingleTypeKVCacheManager → α)
    {ms ms' : List SingleTypeKVCacheManager} (hf : ∀ a b, SameKey a b → f b = f a)
    (h : List.Forall₂ SameKey ms ms') : ms'.map f = ms.map f := by
  induction h with
  | nil => rfl
  | cons hfirst _ ih => rw [List.map_cons, List.map_cons, hf _ _ hfirst, ih]

namespace KVCacheManager

/-! ## One call -/

/-- The ledger of the pool counts the tables of all groups. -/
structure Managed (m : KVCacheManager η) : Prop where
  balanced : Balanced (fun _ => 0) (fun _ => 0) m.blockPool m.singleTypeManagers
  caching_eq : m.blockPool.enableCaching = m.enableCaching
  scale_pos : m.enableCaching = true → ∀ spec ∈ m.specs, 0 < m.scaleOf spec
  groupIds_nodup : (m.singleTypeManagers.map (·.groupId)).Nodup

/-- What a call does to the manager; the counter of the queue does not drift when `P` holds. -/
structure Advanced (P : Prop) (m m' : KVCacheManager η) : Prop where
  managed : m'.Managed
  setup : Setup P m.blockPool m'.blockPool
  enableCaching_eq : m'.enableCaching = m.enableCaching
  specs_eq : m'.specs = m.specs
  groupIds_eq : m'.singleTypeManagers.map (·.groupId) = m.singleTypeManagers.map (·.groupId)

theorem Managed.advanced (h : m.Managed) : m.Advanced P m :=
  ⟨h, .refl _, rfl, rfl, rfl⟩

theorem Advanced.trans (h : m.Advanced P m') (h' : m'.Advanced P m'') : m.Advanced P m'' :=
  ⟨h'.managed, h.setup.trans h'.setup, h'.enableCaching_eq.trans h.enableCaching_eq,
    h'.specs_eq.trans h.specs_eq, h'.groupIds_eq.trans h.groupIds_eq⟩

theorem Managed.advance (h : m.Managed)
    (hbalanced : Balanced (fun _ => 0) (fun _ => 0) m'.blockPool m'.singleTypeManagers)
    (hsetup : Setup P m.blockPool m'.blockPool) (hcaching : m'.enableCaching = m.enableCaching)
    (hspecs : m'.specs = m.specs)
    (hids : m'.singleTypeManagers.map (·.groupId) = m.singleTypeManagers.map (·.groupId)) :
    m.Advanced P m' where
  managed := by
    refine ⟨hbalanced, ?_, ?_, hids ▸ h.groupIds_nodup⟩
    · rw [hsetup.enableCaching_eq, h.caching_eq, hcaching]
    · rw [hspecs, hcaching]
      unfold scaleOf
      rw [hsetup.hashBlockSize_eq]
      exact h.scale_pos
  setup := hsetup
  enableCaching_eq := hcaching
  specs_eq := hspecs
  groupIds_eq := hids

/-- A group with its spec and the requests whose blocks are cached. -/
def SameCached (manager manager' : SingleTypeKVCacheManager) : Prop :=
  manager'.spec = manager.spec ∧ manager'.numCachedBlock = manager.numCachedBlock

/-- The manager after its groups had their turns. -/
theorem Managed.advanceGroups {pool : BlockPool η} {ms : List SingleTypeKVCacheManager}
    (h : m.Managed) (hbalanced : Balanced (fun _ => 0) (fun _ => 0) pool ms)
    (hsetup : Setup P m.blockPool pool) (hsame : List.Forall₂ SameKey m.singleTypeManagers ms) :
    m.Advanced P { m with blockPool := pool, singleTypeManagers := ms } :=
  h.advance hbalanced hsetup rfl (SameKey.map_eq (·.spec) (fun _ _ h => h.1) hsame)
    (SameKey.map_eq (·.groupId) (fun _ _ h => h.2) hsame)

/-- The rule for a call that goes through the groups. -/
theorem Managed.forManagers {α : Type} {E : KVError → Prop} {r : String}
    {R : SingleTypeKVCacheManager → SingleTypeKVCacheManager → Prop}
    {f : BlockPool η → SingleTypeKVCacheManager → α →
      Except KVError (BlockPool η × SingleTypeKVCacheManager)}
    (as : List α) (h : m.Managed) (hlength : m.singleTypeManagers.length ≤ as.length)
    (hf : ∀ o v pool manager a, (manager, a) ∈ m.singleTypeManagers.zip as →
      Setup P m.blockPool pool → Sound o v pool manager →
        Ensures E (fun result => Kept o v P r pool manager result ∧ R manager result.2)
          (f pool manager a)) :
    Ensures E (fun result => m.Advanced P
        { m with blockPool := result.1, singleTypeManagers := result.2 } ∧
          List.Forall₂ R m.singleTypeManagers result.2)
      (forManagers f m.blockPool m.singleTypeManagers as) := by
  have hrule := h.balanced.forManagers (P := P) (E := E) (f := f)
    (R := fun manager manager' => SameKey manager manager' ∧ R manager manager') as hlength
    fun o v pool manager a hmem hsetup hsound => (hf o v pool manager a hmem hsetup hsound).mono
      fun result hresult => ⟨hresult.1.sound, hresult.1.setup, hresult.1.group.sameKey, hresult.2⟩
  refine hrule.mono fun result hresult => ?_
  obtain ⟨hbalanced, hsetup, hall⟩ := hresult
  exact ⟨h.advanceGroups hbalanced hsetup (hall.imp fun _ _ h => h.1), hall.imp fun _ _ h => h.2⟩

/-- The rule for a call that cannot fail. -/
theorem Managed.mapManagers {r : String}
    {R : SingleTypeKVCacheManager → SingleTypeKVCacheManager → Prop}
    {f : BlockPool η → SingleTypeKVCacheManager → BlockPool η × SingleTypeKVCacheManager}
    (h : m.Managed)
    (hf : ∀ o v pool manager, Sound o v pool manager →
      Kept o v P r pool manager (f pool manager) ∧ R manager (f pool manager).2) :
    m.Advanced P (m.mapManagers f) ∧
      List.Forall₂ R m.singleTypeManagers (m.mapManagers f).singleTypeManagers := by
  have hrule := h.forManagers (P := P) (E := fun _ => False) (R := R)
    (m.singleTypeManagers.map fun _ => ()) (List.length_map _).ge
    (f := fun pool manager _ => .ok (f pool manager))
    fun o v pool manager _ _ _ hsound => hf o v pool manager hsound
  exact hrule.of_eq_ok (mapManagers_eq f)

theorem Managed.removeSkippedBlocks (h : m.Managed) (r : String) (numTokens : ℕ) :
    m.Advanced P (m.removeSkippedBlocks r numTokens) ∧
      List.Forall₂ SameCached m.singleTypeManagers
        (m.removeSkippedBlocks r numTokens).singleTypeManagers := by
  refine h.mapManagers (r := r) fun o v pool manager hsound => ?_
  obtain ⟨hkept, hcached, -⟩ := hsound.removeSkippedBlocks (P := P) r numTokens
  exact ⟨hkept, hkept.group.spec_eq, hcached⟩

theorem Managed.free (h : m.Managed) (request : Request η) : m.Advanced P (m.free request) := by
  have hrule := h.mapManagers (P := P) (R := fun _ _ => True)
    (f := fun pool manager => manager.free pool request.requestId)
    fun o v pool manager hsound => ⟨(hsound.free request.requestId).1, trivial⟩
  exact hrule.1

theorem Managed.cacheCoordinatedBlocks (h : m.Managed) (hcaching : m.enableCaching = true)
    (request : Request η) (numComputedTokens : ℕ) :
    Ensures KVError.Ordinary (m.Advanced P)
      (m.cacheCoordinatedBlocks request numComputedTokens) := by
  unfold KVCacheManager.cacheCoordinatedBlocks
  dsimp only
  refine (h.forManagers (P := P) (R := fun _ _ => True) (r := request.requestId)
    (m.singleTypeManagers.map fun _ => ()) (List.length_map _).ge ?_).bind fun result hresult =>
      .ok hresult.1
  intro o v pool manager _ _ hsetup hsound
  have hpool : pool.enableCaching = true := by
    rw [hsetup.enableCaching_eq, h.caching_eq, hcaching]
  exact (hsound.cacheBlocks hpool request _ _).mono fun result hresult => ⟨hresult.1, trivial⟩

theorem Managed.allocateNewBlocks (h : m.Managed) (r : String) (numTokens : ℕ) :
    Ensures KVError.Ordinary (fun result => m.Advanced P result.1)
      (m.allocateNewBlocks r numTokens) := by
  rw [← Ensures.map_iff (f := Prod.fst), allocateNewBlocks_eq, Ensures.map_iff]
  refine (h.forManagers (P := P) (R := fun _ _ => True) (r := r)
    (m.singleTypeManagers.map fun _ => ()) (List.length_map _).ge ?_).mono fun result hresult =>
      hresult.1
  intro o v pool manager _ _ _ hsound
  refine Ensures.map ((hsound.allocateNewBlocks r numTokens (P := P)).imp_error ?_) ?_
  · exact fun e he => he.1
  · exact fun result hresult => ⟨hresult.1, trivial⟩

/-! ## Allocating slots -/

/-- No group has more blocks for a new request than its computed tokens fill, if the connector
provides some of them. -/
def ExternalFits (m : KVCacheManager η) (requestId : String) (numTotal numExternal : ℕ)
    (newComputedBlocks : List (List BlockId)) : Prop :=
  ∀ item ∈ m.singleTypeManagers.zip newComputedBlocks,
    item.1.numCachedBlock.contains requestId = false →
      0 < Sound.usedExternal item.1 numTotal numExternal →
        0 ≤ Sound.externalBlocks item.1 item.2 numTotal

def SlotsFit (m : KVCacheManager η) (request : Request η) (args : SlotArgs) : Prop :=
  m.ExternalFits request.requestId
    (numLocalComputedTokens request args + args.numExternalComputedTokens)
    args.numExternalComputedTokens args.newComputedBlocks

omit [DecidableEq η] in
theorem ExternalFits.same {r : String} {numTotal numExternal : ℕ} {blocks : List (List BlockId)}
    (h : m.ExternalFits r numTotal numExternal blocks)
    (hsame : List.Forall₂ SameCached m.singleTypeManagers m'.singleTypeManagers) :
    m'.ExternalFits r numTotal numExternal blocks := by
  unfold ExternalFits at *
  generalize m.singleTypeManagers = ms at h hsame
  generalize m'.singleTypeManagers = ms' at hsame ⊢
  induction hsame generalizing blocks with
  | nil => simp
  | cons hfirst _ ih =>
      cases blocks with
      | nil => simp
      | cons hits blocks =>
          rw [List.zip_cons_cons, List.forall_mem_cons] at h ⊢
          refine ⟨?_, ih h.2⟩
          have := h.1
          unfold Sound.usedExternal Sound.externalBlocks Sound.firstTable Sound.usedHits
            Sound.numSkippedBlocks SingleTypeKVCacheManager.blockSize at *
          rw [hfirst.1, hfirst.2]
          exact this

theorem Managed.allocateNewComputedBlocks (h : m.Managed) {r : String}
    {blocks : List (List BlockId)} {numLocal numExternal : ℕ} (hhits : m.HitLists blocks)
    (hfits : P → m.ExternalFits r (numLocal + numExternal) numExternal blocks) :
    Ensures KVError.Ordinary (m.Advanced P)
      (m.allocateNewComputedBlocks r blocks numLocal numExternal) := by
  unfold KVCacheManager.allocateNewComputedBlocks
  refine (h.forManagers (P := P) (R := fun _ _ => True) (r := r) blocks hhits.1.ge ?_).bind
    fun result hresult => .ok hresult.1
  intro o v pool manager hits hmem hsetup hsound
  have hlist := hhits.2 hits (List.of_mem_zip hmem).2
  rw [← hsetup.numGpuBlocks_eq] at hlist
  refine (hsound.allocateNewComputedBlocks r numLocal numExternal hlist ?_).mono
    fun result hresult => ⟨hresult, trivial⟩
  exact fun hP hcached => hfits hP (manager, hits) hmem hcached

theorem Managed.allocateChecked (h : m.Managed) {request : Request η} {args : SlotArgs}
    (hhits : m.HitLists args.newComputedBlocks) (hfits : P → m.SlotsFit request args) :
    Ensures KVError.Ordinary (fun result => m.Advanced P result.1)
      (m.allocateChecked request args) := by
  have hrest : ∀ next, m.Advanced P next → Ensures KVError.Ordinary
      (fun result => m.Advanced P result.1)
      (next.allocateNewBlocks request.requestId (m.numTokensNeedSlot request args)) :=
    fun next hnext => (hnext.managed.allocateNewBlocks _ _).mono fun _ h => hnext.trans h
  unfold KVCacheManager.allocateChecked
  split
  · exact (h.allocateNewComputedBlocks hhits hfits).bind hrest
  · exact hrest m h.advanced

omit [DecidableEq η] in
theorem getNumBlocksToAllocate_ordinary (r : String) (numTokens : ℕ)
    (blocks : List (List BlockId)) (numComputed : ℕ) (cap : Bool) :
    Ensures KVError.Ordinary (fun _ => True)
      (m.getNumBlocksToAllocate r numTokens blocks numComputed cap) := by
  refine Ensures.foldlM (I := fun _ _ => True) ?_ _ 0 trivial
  intro item rest sum _
  refine Ensures.map (P := fun _ => True) ?_ fun _ _ => trivial
  unfold SingleTypeKVCacheManager.getNumBlocksToAllocate
  dsimp only
  split
  · split
    · exact .ok trivial
    · exact .error ⟨by decide, by decide⟩
  · exact .ok trivial

/-- `allocate_slots` keeps the ledger, whatever comes of it. -/
theorem Managed.allocateSlots (h : m.Managed) {request : Request η} {args : SlotArgs}
    (hhits : m.HitLists args.newComputedBlocks) (hfits : P → m.SlotsFit request args) :
    Ensures KVError.Ordinary (fun result => m.Advanced P result.1)
      (m.allocateSlots request args) := by
  have hordinary : KVError.Ordinary .valueError := ⟨by decide, by decide⟩
  unfold KVCacheManager.allocateSlots
  split
  · exact .error hordinary
  · have hfull : Ensures KVError.Ordinary (fun _ => True) (m.fullSequenceFits request args) := by
      unfold fullSequenceFits
      split
      · refine Ensures.map (P := fun _ => True) ?_ fun _ _ => trivial
        exact (getNumBlocksToAllocate_ordinary ..).bind fun _ _ => .ok trivial
      · exact .ok trivial
    refine hfull.bind fun fits _ => ?_
    split
    · exact .ok h.advanced
    · dsimp only
      obtain ⟨hremoved, hsame⟩ := h.removeSkippedBlocks (P := P) request.requestId
        (m.totalComputedTokens request args)
      generalize m.removeSkippedBlocks request.requestId (m.totalComputedTokens request args) =
        removed at hremoved hsame
      refine (getNumBlocksToAllocate_ordinary ..).bind fun numBlocks _ => ?_
      split
      · exact .ok hremoved
      · have hlists : removed.HitLists args.newComputedBlocks := by
          refine ⟨hhits.1.trans hsame.length_eq, ?_⟩
          rw [hremoved.setup.numGpuBlocks_eq]
          exact hhits.2
        refine (hremoved.managed.allocateChecked hlists fun hP => (hfits hP).same hsame).bind
          fun result hresult => ?_
        have hchecked := hremoved.trans hresult
        split
        · exact .ok hchecked
        · next hcache =>
            have hcaching : result.1.enableCaching = true := by
              rw [not_or, Bool.not_eq_false] at hcache
              exact hcache.1
            exact (hresult.managed.cacheCoordinatedBlocks hcaching request _).bind
              fun final hfinal => .ok (hchecked.trans hfinal)

/-! ## The first state -/

theorem scale_pos_of_mod {blockSize hashBlockSize : ℕ} (hpos : 0 < blockSize)
    (hmod : blockSize % hashBlockSize = 0) : 0 < blockSize / hashBlockSize := by
  have hdvd := Nat.dvd_of_mod_eq_zero hmod
  exact Nat.div_pos (Nat.le_of_dvd hpos hdvd) (Nat.pos_of_dvd_of_pos hdvd hpos)

theorem new_ledger {numBlocks : ℕ} (hpos : 0 < numBlocks) (enableCaching : Bool)
    (hashBlockSize : ℕ) {n u : BlockId → ℕ} (hn : ∀ b, n b = 0) (hu : ∀ b, u b = 0) :
    Ledger (.new numBlocks enableCaching hashBlockSize : BlockPool η) n u where
  indexed := by
    constructor <;> simp [BlockPool.new, cachedAt]
  refCnt_eq := fun b _ => by rw [hn]; rfl
  held_lt := fun b _ h => by
    rw [hn] at h
    exact absurd h (Nat.lt_irrefl 0)
  queue_nodup := List.nodup_range'
  mem_queue := fun b => by
    have hrange : ∀ k : ℕ, k ∈ List.range' 1 (numBlocks - 1) ↔ k ≠ 0 ∧ k < numBlocks ∧ 0 = 0 := by
      intro k
      rw [List.mem_range'_1]
      omega
    rw [hn]
    exact hrange b
  drift_nonneg := by
    simp only [drift, BlockPool.new, List.length_range']
    omega
  uncached_le := fun b _ => by rw [hu, hn]
  uncached_one := fun b _ => by
    rw [hu]
    exact Nat.zero_le 1
  uncached_hash := fun _ _ _ => rfl

theorem new_managed {config : KVCacheConfig} (hnew : new config = .ok m) :
    m.Managed ∧ drift m.blockPool = 0 := by
  unfold new at hnew
  dsimp only at hnew
  split at hnew
  · next hvalid =>
      obtain rfl := Except.ok.inj hnew
      obtain ⟨hpos, hgroups⟩ := hvalid
      have hempty : ∀ manager ∈ config.kvCacheGroups.zipIdx.map fun item =>
          ({ spec := item.1, groupId := item.2, maxAdmissionBlocksPerRequest :=
              item.1.maxAdmissionBlocksPerRequest config.maxNumBatchedTokens config.maxModelLen } :
            SingleTypeKVCacheManager), manager.reqToBlocks = .empty := by
        intro manager hmanager
        obtain ⟨item, -, rfl⟩ := List.mem_map.mp hmanager
        rfl
      refine ⟨⟨⟨new_ledger hpos _ _ (fun b => ?_) fun b => ?_, ?_, fun _ => le_rfl⟩, rfl, ?_, ?_⟩, ?_⟩
      · rw [Nat.zero_add, totalHeld, List.sum_eq_zero]
        intro k hk
        obtain ⟨manager, hmanager, rfl⟩ := List.mem_map.mp hk
        simp [SingleTypeKVCacheManager.held, hempty manager hmanager]
      · rw [Nat.zero_add, totalUncached, List.sum_eq_zero]
        intro k hk
        obtain ⟨manager, hmanager, rfl⟩ := List.mem_map.mp hk
        simp [SingleTypeKVCacheManager.uncached, hempty manager hmanager]
      · intro manager hmanager r b _
        simp [SingleTypeKVCacheManager.table, hempty manager hmanager]
      · intro hcaching spec hspec
        have hmem : spec ∈ config.kvCacheGroups := by
          simpa [specs, Function.comp_def] using hspec
        rcases hgroups hcaching with hunitary | hhybrid
        · refine scale_pos_of_mod spec.blockSize_pos ?_
          rw [hunitary.2 spec hmem]
          exact Nat.mod_self _
        · exact scale_pos_of_mod spec.blockSize_pos (hhybrid.2.2 spec hmem)
      · have hids := List.zipIdx_map_snd 0 config.kvCacheGroups
        rw [List.map_map]
        exact (congrArg List.Nodup hids).mpr List.nodup_range'
      · simp only [drift, BlockPool.new, List.length_range']
        omega
  · cases hnew

/-! ## Runs -/

theorem HitLists.advanced {blocks : List (List BlockId)} (h : m.HitLists blocks)
    (hadvanced : m.Advanced P m') : m'.HitLists blocks := by
  have hlength := congrArg List.length hadvanced.specs_eq
  simp only [specs, List.length_map] at hlength
  refine ⟨h.1.trans hlength.symm, ?_⟩
  rw [hadvanced.setup.numGpuBlocks_eq]
  exact h.2

end KVCacheManager

/-- The manager of a scheduler, and the lists of hits that it has reported so far. -/
structure CacheState (η : Type) where
  manager : KVCacheManager η
  reported : List (List (List BlockId)) := []

inductive PoolCall (η : Type)
  | getComputedBlocks (request : Request η)
  | perform (op : KVCacheManager.CacheOp η)

namespace CacheState

variable {s t : CacheState η} {call : PoolCall η} {calls : List (PoolCall η)}

def step (s : CacheState η) : PoolCall η → Except KVError (CacheState η)
  | .getComputedBlocks request => do
      let (blocks, _) ← s.manager.getComputedBlocks request
      return { s with reported := blocks :: s.reported }
  | .perform op => do
      let manager ← s.manager.perform op
      return { s with manager := manager }

/-- The hashes of a request form a chain, and it is allocated hits that were reported, or none. -/
def Issued (hash : η → β → η) (base : η) (s : CacheState η) : PoolCall η → Prop
  | .getComputedBlocks request => Chained hash base request.blockHashes
  | .perform (.allocateSlots _ args) =>
      args.newComputedBlocks = s.manager.singleTypeManagers.map (fun _ => []) ∨
        args.newComputedBlocks ∈ s.reported
  | .perform _ => True

/-- No group of a new request gets more blocks than its computed tokens fill. -/
def Fits (s : CacheState η) : PoolCall η → Prop
  | .perform (.allocateSlots request args) => s.manager.SlotsFit request args
  | _ => True

structure InOrder (s : CacheState η) : Prop where
  managed : s.manager.Managed
  hitLists : ∀ blocks ∈ s.reported, s.manager.HitLists blocks
  apart : ∀ blocks ∈ s.reported, KVCacheManager.HitsApart blocks

theorem InOrder.start {config : KVCacheConfig} (hnew : KVCacheManager.new config = .ok m) :
    InOrder { manager := m } :=
  ⟨(KVCacheManager.new_managed hnew).1, fun _ hblocks => absurd hblocks List.not_mem_nil,
    fun _ hblocks => absurd hblocks List.not_mem_nil⟩

theorem InOrder.lists (h : s.InOrder) {request : Request η} {args : KVCacheManager.SlotArgs}
    (hissued : s.Issued hash base (.perform (.allocateSlots request args))) :
    s.manager.HitLists args.newComputedBlocks ∧
      KVCacheManager.HitsApart args.newComputedBlocks := by
  rcases hissued with hnil | hreported
  · rw [hnil]
    exact ⟨.nil _, .nil _⟩
  · exact ⟨h.hitLists _ hreported, h.apart _ hreported⟩

theorem InOrder.perform (h : s.InOrder) {op : KVCacheManager.CacheOp η}
    (hissued : s.Issued hash base (.perform op)) (hfits : P → s.Fits (.perform op)) :
    Ensures KVError.Ordinary (s.manager.Advanced P) (s.manager.perform op) := by
  cases op with
  | allocateSlots request args =>
      exact (h.managed.allocateSlots (h.lists hissued).1 hfits).map fun _ hresult => hresult
  | cacheBlocks request n =>
      unfold KVCacheManager.perform KVCacheManager.cacheBlocks
      dsimp only
      split
      · next hcaching => exact h.managed.cacheCoordinatedBlocks hcaching request n
      · exact .ok h.managed.advanced
  | removeSkippedBlocks r n => exact .ok (h.managed.removeSkippedBlocks r n).1
  | free request => exact .ok (h.managed.free request)
  | evictBlocks blockIds =>
      have hevict := h.managed.balanced.ledger.evictBlocks blockIds
      refine Ensures.map (hevict.imp_error ?_) fun pool hpool => ?_
      · rintro e rfl
        exact ⟨by decide, by decide⟩
      · exact h.managed.advance ⟨hpool.1, h.managed.balanced.one, fun _ => le_rfl⟩
          hpool.2.setup rfl rfl rfl
  | resetPrefixCache =>
      have hledger := h.managed.balanced.ledger.resetPrefixCache
      refine .ok (h.managed.advance ⟨hledger, h.managed.balanced.one, fun _ => le_rfl⟩ ?_ rfl rfl
        rfl)
      change Setup P s.manager.blockPool s.manager.blockPool.resetPrefixCache.1
      unfold BlockPool.resetPrefixCache
      split
      · exact .refl _
      · exact ⟨le_rfl, fun _ => rfl, rfl, rfl, rfl⟩

/-- Every call keeps the manager in order; the counter drifts only when the call does not fit. -/
theorem InOrder.step (h : s.InOrder) (hfree : KVCacheManager.CollisionFree hash base)
    (hissued : s.Issued hash base call) (hfits : P → s.Fits call) :
    Ensures (fun _ => True)
      (fun t => t.InOrder ∧ (P → drift t.manager.blockPool = drift s.manager.blockPool))
      (s.step call) := by
  cases call with
  | getComputedBlocks request =>
      have hreported : Ensures (fun _ => True)
          (fun result => s.manager.HitLists result.1 ∧ KVCacheManager.HitsApart result.1)
          (s.manager.getComputedBlocks request) := by
        cases hcaching : s.manager.enableCaching with
        | false =>
            unfold KVCacheManager.getComputedBlocks
            rw [if_pos (.inl hcaching)]
            exact .ok ⟨.nil _, .nil _⟩
        | true =>
            exact KVCacheManager.Lookup.getComputedBlocks ⟨hfree, hissued,
              h.managed.balanced.ledger.indexed, h.managed.scale_pos hcaching,
              h.managed.groupIds_nodup⟩
      refine hreported.bind fun result hresult => .ok ⟨⟨h.managed, ?_, ?_⟩, fun _ => rfl⟩
      · exact List.forall_mem_cons.mpr ⟨hresult.1, h.hitLists⟩
      · exact List.forall_mem_cons.mpr ⟨hresult.2, h.apart⟩
  | perform op =>
      refine Ensures.bind ((h.perform hissued hfits).weaken fun _ hnext => hnext)
        fun next hnext => .ok ⟨⟨hnext.managed, fun blocks hblocks => ?_, h.apart⟩,
          hnext.setup.drift_eq⟩
      exact (h.hitLists blocks hblocks).advanced hnext

/-! ## The representation of the pool -/

/-- What the bookkeeping of the pool stands for. -/
structure Represented (m : KVCacheManager η) : Prop where
  refCnt_eq : ∀ b, b ≠ nullBlock →
    (m.blockPool.blocks b).refCnt = totalHeld m.singleTypeManagers b
  queue_nodup : m.blockPool.freeBlockQueue.Nodup
  mem_queue : ∀ b, b ∈ m.blockPool.freeBlockQueue ↔
    b ≠ nullBlock ∧ b < m.blockPool.numGpuBlocks ∧ (m.blockPool.blocks b).refCnt = 0
  mem_cachedAt : ∀ key b, b ∈ cachedAt m.blockPool.cachedBlockHashToBlock key ↔
    (m.blockPool.blocks b).blockHash = some key
  hit_hash : ∀ key b, m.blockPool.cachedBlockHashToBlock.getOneBlock key = some b →
    (m.blockPool.blocks b).blockHash = some key
  new_unreachable : ∀ k blocks pool, m.blockPool.getNewBlocks k = .ok (blocks, pool) →
    ∀ b ∈ blocks, ∀ key, b ∉ cachedAt pool.cachedBlockHashToBlock key

theorem InOrder.represented (h : s.InOrder) : Represented s.manager := by
  have hledger := h.managed.balanced.ledger
  have hrefs : ∀ b, b ≠ nullBlock → (s.manager.blockPool.blocks b).refCnt =
      totalHeld s.manager.singleTypeManagers b := by
    intro b hb
    rw [hledger.refCnt_eq b hb, Nat.zero_add]
  constructor
  case refCnt_eq => exact hrefs
  case queue_nodup => exact hledger.queue_nodup
  case mem_queue =>
    intro b
    rw [hledger.mem_queue]
    refine and_congr_right fun hb => and_congr_right fun _ => ?_
    rw [hrefs b hb, Nat.zero_add, Nat.cast_eq_zero]
  case mem_cachedAt => exact hledger.indexed.mem_cachedAt
  case hit_hash =>
    intro key b hone
    rw [BlockHashToBlockMap.getOneBlock_eq] at hone
    exact (hledger.indexed.mem_cachedAt key b).mp (List.mem_of_mem_head? hone)
  case new_unreachable =>
    intro k blocks pool hget b hb key hmem
    have hnew := (hledger.getNewBlocks k).of_eq_ok hget
    have hhash := (hnew.ledger.indexed.mem_cachedAt key b).mp hmem
    rw [hnew.unhashed b hb] at hhash
    cases hhash

/-- A call that the scheduler may make in a state, with the state it leads to. -/
def Next (hash : η → β → η) (base : η) (s : CacheState η) (call : PoolCall η)
    (t : CacheState η) : Prop :=
  s.Issued hash base call ∧ s.step call = .ok t

theorem InOrder.run (h : s.InOrder) (hfree : KVCacheManager.CollisionFree hash base)
    (hrun : Run (Next hash base) s calls t) : t.InOrder := by
  refine hrun.invariant (fun s call t _ hs hnext => ?_) h
  exact ((hs.step (P := False) hfree hnext.1 False.elim).of_eq_ok hnext.2).1

/-- In a run whose calls all fit, the counter does not drift. -/
theorem InOrder.run_fits {config : KVCacheConfig} (hfree : KVCacheManager.CollisionFree hash base)
    (hnew : KVCacheManager.new config = .ok m)
    (hrun : Run (fun s call t => Next hash base s call t ∧ s.Fits call) { manager := m } calls s) :
    s.InOrder ∧ drift s.manager.blockPool = 0 := by
  refine hrun.invariant (I := fun s => s.InOrder ∧ drift s.manager.blockPool = 0)
    (fun s call t _ hs hnext => ?_) ⟨.start hnew, (KVCacheManager.new_managed hnew).2⟩
  obtain ⟨ht, hdrift⟩ := (hs.1.step hfree hnext.1.1 fun _ : True => hnext.2).of_eq_ok hnext.1.2
  exact ⟨ht, (hdrift trivial).trans hs.2⟩

/-- In a run whose calls all fit, the tables, the counts, the free queue with its counter and the
map from hashes agree, and no call fails on the state of a block. -/
theorem pool_represented {config : KVCacheConfig} (hfree : KVCacheManager.CollisionFree hash base)
    (hnew : KVCacheManager.new config = .ok m)
    (hrun : Run (fun s call t => Next hash base s call t ∧ s.Fits call) { manager := m } calls s) :
    Represented s.manager ∧
      s.manager.blockPool.numFreeBlocks = s.manager.blockPool.freeBlockQueue.length ∧
      ∀ op e, s.Issued hash base (.perform op) → s.manager.perform op = .error e →
        e ≠ .refCntAssertion ∧ e ≠ .blockHashAssertion := by
  obtain ⟨hs, hdrift⟩ := InOrder.run_fits hfree hnew hrun
  refine ⟨hs.represented, ?_, fun op e hissued herror => ?_⟩
  · unfold drift at hdrift
    omega
  · exact (hs.perform (P := False) hissued False.elim).of_eq_error herror

/-! ## A run with a shared hit -/

section SharedHit

/-- A request whose hashes list its tokens. -/
def listRequest (requestId : String) (tokens : List ℕ) (numComputedTokens : ℕ) :
    Request (List ℕ) where
  requestId := requestId
  numTokens := tokens.length
  numComputedTokens := numComputedTokens
  blockHashes := hashChain KVCacheManager.listHash [] tokens

/-- A request computes five tokens and is freed; another one takes its oldest block, and a third
one gets the hits of its lookup and three external tokens. -/
def sharedCalls : List (PoolCall (List ℕ)) :=
  let p := listRequest "p" [1, 2, 3, 4] 0
  let extended := listRequest "p" [1, 2, 3, 4, 5] 4
  let r := listRequest "r" [1, 2, 3, 7] 0
  [.getComputedBlocks p,
    .perform (.allocateSlots p { numNewTokens := 4, newComputedBlocks := [[], [], []] }),
    .perform (.allocateSlots extended { numNewTokens := 1, newComputedBlocks := [[], [], []] }),
    .perform (.free extended),
    .perform (.allocateSlots (listRequest "q" [9] 0)
      { numNewTokens := 1, newComputedBlocks := [[], [], []] }),
    .getComputedBlocks r,
    .perform (.allocateSlots r
      { numNewTokens := 1, newComputedBlocks := [[], [5, 6, 7], []],
        numExternalComputedTokens := 3 })]

instance (m : KVCacheManager (List ℕ)) (request : Request (List ℕ))
    (args : KVCacheManager.SlotArgs) : Decidable (m.SlotsFit request args) :=
  inferInstanceAs (Decidable (∀ item ∈ m.singleTypeManagers.zip args.newComputedBlocks,
    item.1.numCachedBlock.contains request.requestId = false →
      0 < Sound.usedExternal item.1 _ _ → 0 ≤ Sound.externalBlocks item.1 item.2 _))

/-- The state after a call that is issued in order and fits. -/
def follow (s : CacheState (List ℕ)) (call : PoolCall (List ℕ)) : Option (CacheState (List ℕ)) :=
  match call with
  | .getComputedBlocks request =>
      if request.blockHashes = hashChain KVCacheManager.listHash []
          (request.blockHashes.filterMap List.head?) then
        (s.step call).toOption
      else none
  | .perform (.allocateSlots request args) =>
      if (args.newComputedBlocks = s.manager.singleTypeManagers.map (fun _ => []) ∨
          args.newComputedBlocks ∈ s.reported) ∧ s.manager.SlotsFit request args then
        (s.step call).toOption
      else none
  | .perform _ => (s.step call).toOption

instance (s : CacheState (List ℕ)) (hits : List (List BlockId)) : Decidable (hits ∈ s.reported) :=
  inferInstance

theorem follow_next {s t : CacheState (List ℕ)} {call : PoolCall (List ℕ)}
    (h : follow s call = some t) :
    Next KVCacheManager.listHash [] s call t ∧ s.Fits call := by
  unfold follow at h
  split at h
  · split at h
    · next hchained => exact ⟨⟨⟨_, hchained⟩, Ensures.eq_ok_of_toOption_eq_some h⟩, trivial⟩
    · cases h
  · split at h
    · next hissued => exact ⟨⟨hissued.1, Ensures.eq_ok_of_toOption_eq_some h⟩, hissued.2⟩
    · cases h
  · next op hother =>
      cases op with
      | allocateSlots request args => exact absurd rfl (hother request args)
      | _ => exact ⟨⟨trivial, Ensures.eq_ok_of_toOption_eq_some h⟩, trivial⟩

/-- The third request holds the reported blocks, and two blocks are left. -/
theorem sharedRun_represented : ∃ m s, KVCacheManager.new KVCacheManager.twoFullConfig = .ok m ∧
    Run (fun s call t => Next KVCacheManager.listHash [] s call t ∧ s.Fits call) { manager := m }
      sharedCalls s ∧
    s.manager.singleTypeManagers.map (·.table "r") =
      [[13, 4, 3, 1], [5, 6, 7, 14], [0, 0, 2, 8]] ∧
    s.manager.blockPool.freeBlockQueue = [15, 12] ∧
    s.manager.blockPool.numFreeBlocks = s.manager.blockPool.freeBlockQueue.length ∧
    Represented s.manager := by
  have hcomputed : (KVCacheManager.new (η := List ℕ) KVCacheManager.twoFullConfig).toOption.any
      (fun m => (sharedCalls.foldlM follow { manager := m }).any fun s => decide
        (s.manager.singleTypeManagers.map (·.table "r") =
          [[13, 4, 3, 1], [5, 6, 7, 14], [0, 0, 2, 8]] ∧
        s.manager.blockPool.freeBlockQueue = [15, 12])) = true := by decide +kernel
  obtain ⟨m, hm, hrest⟩ := (Option.any_eq_true _ _).mp hcomputed
  obtain ⟨s, hs, hfacts⟩ := (Option.any_eq_true _ _).mp hrest
  obtain ⟨htables, hqueue⟩ := of_decide_eq_true hfacts
  have hnew := Ensures.eq_ok_of_toOption_eq_some hm
  have hrun : Run (fun s call t => Next KVCacheManager.listHash [] s call t ∧ s.Fits call)
      { manager := m } sharedCalls s := .of_foldlM (fun _ _ _ h => follow_next h) hs
  obtain ⟨hrepresented, hcounter, -⟩ :=
    pool_represented KVCacheManager.listHash_collisionFree hnew hrun
  exact ⟨m, s, hnew, hrun, htables, hqueue, hcounter, hrepresented⟩

end SharedHit

end CacheState

end TokenCake.KV
