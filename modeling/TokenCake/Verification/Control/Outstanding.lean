import TokenCake.Verification.Control.Demand

/-! # What a request still lacks

With full attention only, an allocation lowers what its request lacks by as many blocks as it was
predicted to take. -/

namespace TokenCake.KV

variable {η : Type} {pool pool' : BlockPool η} {m m' : SingleTypeKVCacheManager} {r : String}
  {hits : List BlockId} {numTokens limit numComputedTokens : ℕ}

/-! ## One group -/

/-- A group that keeps all blocks of a request and does not cap what it counts for one. -/
structure FullAttention (m : SingleTypeKVCacheManager) : Prop where
  kind_eq : m.spec.kind = .fullAttention
  cap_eq : m.maxAdmissionBlocksPerRequest = none

theorem FullAttention.same (h : FullAttention m) (hsame : SameSpec m m') : FullAttention m' :=
  ⟨hsame.spec_eq ▸ h.kind_eq, hsame.cap_eq.trans h.cap_eq⟩

theorem FullAttention.getNumSkippedTokens_eq (h : FullAttention m) (n : ℕ) :
    m.spec.getNumSkippedTokens n = 0 := by
  simp [KVCacheSpec.getNumSkippedTokens, h.kind_eq]

theorem FullAttention.numSkippedBlocks_eq (h : FullAttention m) (n : ℕ) :
    Sound.numSkippedBlocks m n = 0 := by
  simp [Sound.numSkippedBlocks, h.getNumSkippedTokens_eq]

theorem FullAttention.requiredBlocks_eq (h : FullAttention m) (cap : Bool) :
    requiredBlocks m numTokens cap = numTokens ⌈/⌉ m.blockSize := by
  cases cap <;> simp [requiredBlocks, numRequired, h.cap_eq]

/-- What a group needs beyond the hits and the table of a request. -/
theorem FullAttention.needed_eq (h : FullAttention m)
    (hhits : m.numCachedBlock.contains r = true → hits = []) (cap : Bool) :
    needed m pool r numTokens hits numComputedTokens cap =
      numTokens ⌈/⌉ m.blockSize - (hits.length + (m.table r).length) +
        SingleTypeKVCacheManager.numEvictableBlocks pool hits := by
  unfold needed
  rw [h.requiredBlocks_eq, h.numSkippedBlocks_eq]
  cases hcached : m.numCachedBlock.contains r with
  | true => simp [hhits hcached, SingleTypeKVCacheManager.numEvictableBlocks]
  | false => simp

theorem FullAttention.needed_nil (h : FullAttention m) (cap : Bool) :
    needed m pool r numTokens [] numComputedTokens cap = lacks m r numTokens := by
  rw [h.needed_eq fun _ => rfl]
  simp [lacks, SingleTypeKVCacheManager.numEvictableBlocks]

theorem lacks_mono (hle : numTokens ≤ limit) : lacks m r numTokens ≤ lacks m r limit :=
  Nat.sub_le_sub_right ((gc_mul_ceilDiv m.spec.blockSize_pos).monotone_l hle) _

/-- The table of a request after an allocation holds its hits, its old blocks and slots for all
tokens. -/
def Holds (r : String) (numTokens : ℕ) (item : SingleTypeKVCacheManager × List BlockId)
    (m' : SingleTypeKVCacheManager) : Prop :=
  Framed r item.1 m' ∧ max (numTokens ⌈/⌉ item.1.blockSize)
    (item.2.length + (item.1.table r).length) ≤ (m'.table r).length

theorem Holds.lacks_add_needed (h : Holds r numTokens (m, hits) m') (hfull : FullAttention m)
    (hhits : m.numCachedBlock.contains r = true → hits = []) (hle : numTokens ≤ limit) :
    lacks m' r limit + needed m pool r numTokens hits numComputedTokens false ≤
      needed m pool r limit hits numComputedTokens true := by
  obtain ⟨hframed, hslots⟩ := h
  have hblocks : numTokens ⌈/⌉ m.blockSize ≤ limit ⌈/⌉ m.blockSize :=
    (gc_mul_ceilDiv m.spec.blockSize_pos).monotone_l hle
  rw [hfull.needed_eq hhits, hfull.needed_eq hhits, lacks, hframed.sameSpec.blockSize_eq]
  dsimp only at hslots ⊢
  omega

/-! ## The stages of an allocation -/

theorem FullAttention.removeSkippedBlocks_eq (h : FullAttention m) (pool : BlockPool η) (n : ℕ) :
    m.removeSkippedBlocks pool r n = (pool, m) := by
  unfold SingleTypeKVCacheManager.removeSkippedBlocks
  rw [if_pos (h.getNumSkippedTokens_eq n)]

variable [DecidableEq η]

theorem allocateExternal_keeps {numTotal numExternal : ℕ}
    (h : m.allocateExternal pool r numTotal numExternal = .ok (pool', m')) :
    m.table r <+: m'.table r := by
  unfold SingleTypeKVCacheManager.allocateExternal at h
  dsimp only at h
  split at h
  · cases hget : pool.getNewBlocks
        (((numTotal ⌈/⌉ m.blockSize : ℕ) : ℤ) - ((m.table r).length : ℤ)) with
    | error e =>
        rw [hget] at h
        cases h
    | ok result =>
        rw [hget] at h
        cases h
        rw [SingleTypeKVCacheManager.table_setTable, if_pos rfl]
        exact List.prefix_append ..
  · cases h
    exact List.prefix_rfl

/-- The hits and the external tokens of a new request. -/
theorem FullAttention.allocateNewComputedBlocks_length (h : FullAttention m)
    (hhits : m.numCachedBlock.contains r = true → hits = [])
    (htable : m.numCachedBlock.contains r = false → m.table r = []) {numLocal numExternal : ℕ}
    (hok : m.allocateNewComputedBlocks pool r hits numLocal numExternal = .ok (pool', m')) :
    hits.length + (m.table r).length ≤ (m'.table r).length := by
  cases hcached : m.numCachedBlock.contains r with
  | true =>
      unfold SingleTypeKVCacheManager.allocateNewComputedBlocks at hok
      rw [if_pos hcached, if_pos (hhits hcached)] at hok
      cases hok
      simp [hhits hcached]
  | false =>
      rw [Sound.allocateNewComputedBlocks_eq hcached (htable hcached)] at hok
      cases htouch : Sound.touchHits pool (Sound.usedHits m hits (numLocal + numExternal)) with
      | error e =>
          rw [htouch] at hok
          cases hok
      | ok touched =>
          rw [htouch] at hok
          have hprefix := (allocateExternal_keeps hok).length_le
          simpa [Sound.withFirstTable, Sound.firstTable, Sound.usedHits,
            h.numSkippedBlocks_eq, htable hcached] using hprefix

namespace KVCacheManager

variable {M M' : KVCacheManager η} {request : Request η} {args : SlotArgs}

omit [DecidableEq η] in
/-- No window slides. -/
theorem removeSkippedBlocks_eq (hfull : ∀ m ∈ M.singleTypeManagers, FullAttention m) (r : String)
    (n : ℕ) : M.removeSkippedBlocks r n = M := by
  have hloop : ∀ (ms done : List SingleTypeKVCacheManager), (∀ m ∈ ms, FullAttention m) →
      ms.foldl (fun s m => ((m.removeSkippedBlocks s.1 r n).1,
        s.2 ++ [(m.removeSkippedBlocks s.1 r n).2])) (M.blockPool, done) =
        (M.blockPool, done ++ ms) := by
    intro ms
    induction ms with
    | nil => simp
    | cons m ms ih =>
        intro done hms
        obtain ⟨hm, hms⟩ := List.forall_mem_cons.mp hms
        rw [List.foldl_cons, hm.removeSkippedBlocks_eq, ih _ hms, List.append_assoc]
        rfl
  have heq := hloop M.singleTypeManagers [] hfull
  unfold KVCacheManager.removeSkippedBlocks mapManagers
  dsimp only
  rw [heq]
  rfl

omit [DecidableEq η] in
/-- What one group's turn does to it, next to the item that it has used. -/
theorem forManagers_zip {α : Type} {Q : BlockPool η → Prop}
    {P : SingleTypeKVCacheManager × α → Prop}
    {R : SingleTypeKVCacheManager × α → SingleTypeKVCacheManager → Prop}
    {f : BlockPool η → SingleTypeKVCacheManager → α →
      Except KVError (BlockPool η × SingleTypeKVCacheManager)}
    (hf : ∀ pool m a pool' m', Q pool → P (m, a) → f pool m a = .ok (pool', m') →
      Q pool' ∧ R (m, a) m')
    {ms ms' : List SingleTypeKVCacheManager} {as : List α} (hlength : as.length = ms.length)
    (hP : ∀ item ∈ ms.zip as, P item) (hpool : Q pool)
    (h : forManagers f pool ms as = .ok (pool', ms')) : List.Forall₂ R (ms.zip as) ms' := by
  induction ms generalizing pool as ms' with
  | nil =>
      obtain ⟨rfl, rfl⟩ := Prod.mk.inj (Except.ok.inj h)
      exact .nil
  | cons m ms ih =>
      cases as with
      | nil => cases hlength
      | cons a as =>
          obtain ⟨next, m', rest, hfirst, hrest, rfl⟩ := forManagers_cons h
          obtain ⟨ha, hP⟩ := List.forall_mem_cons.mp hP
          obtain ⟨hnext, hR⟩ := hf pool m a next m' hpool ha hfirst
          exact .cons hR (ih (Nat.succ.inj hlength) hP hnext hrest)

/-- The groups after the hits and the external tokens of a call. -/
theorem allocateChecked_brought (hreserved : NullReserved M.blockPool)
    (hfull : ∀ m ∈ M.singleTypeManagers, FullAttention m)
    (hlength : args.newComputedBlocks.length = M.singleTypeManagers.length)
    (hready : M.Ready request args) {blocks : List (List BlockId)}
    (h : M.allocateChecked request args = .ok (M', blocks)) :
    ∃ M₁ : KVCacheManager η, NullReserved M₁.blockPool ∧ M₁.maxModelLen = M.maxModelLen ∧
      List.Forall₂ (fun item m' => Framed request.requestId item.1 m' ∧
        item.2.length + (item.1.table request.requestId).length ≤
          (m'.table request.requestId).length)
        (M.singleTypeManagers.zip args.newComputedBlocks) M₁.singleTypeManagers ∧
      M₁.allocateNewBlocks request.requestId (M₁.numTokensNeedSlot request args) =
        .ok (M', blocks) := by
  unfold allocateChecked at h
  split at h
  · next hbrings =>
      cases hcomputed : M.allocateNewComputedBlocks request.requestId args.newComputedBlocks
          (numLocalComputedTokens request args) args.numExternalComputedTokens with
      | error e =>
          rw [hcomputed] at h
          cases h
      | ok M₁ =>
          rw [hcomputed] at h
          obtain ⟨hpool, hlen, -⟩ := allocateNewComputedBlocks_forall₂ hreserved hcomputed
          refine ⟨M₁, hpool, hlen, ?_, ?_⟩
          · unfold allocateNewComputedBlocks at hcomputed
            obtain ⟨result, hloop, rfl⟩ := Ensures.exists_of_map_eq_ok hcomputed
            refine forManagers_zip (Q := NullReserved) (P := fun item =>
                FullAttention item.1 ∧
                  (item.1.numCachedBlock.contains request.requestId = true → item.2 = []) ∧
                  (item.1.numCachedBlock.contains request.requestId = false →
                    item.1.table request.requestId = []))
              (fun pool m hits pool' m' hpool hitem hok => ?_) hlength (fun item hitem => ?_)
              hreserved hloop
            · obtain ⟨hframed, hpool'⟩ := allocateNewComputedBlocks_framed hpool hok
              exact ⟨hpool', hframed,
                hitem.1.allocateNewComputedBlocks_length hitem.2.1 hitem.2.2 hok⟩
            · exact ⟨hfull _ (List.of_mem_zip hitem).1, hready.hitsForNew item hitem,
                fun hcached => (hready.first hbrings item hitem hcached).1⟩
          · rw [numTokensNeedSlot, totalComputedTokens, hlen]
            exact h
  · next hnone =>
      refine ⟨M, hreserved, rfl, ?_, h⟩
      have hnil : ∀ hits ∈ args.newComputedBlocks, hits = [] := by
        intro hits hmem
        by_contra hne
        exact hnone (.inl ⟨hits, hmem, hne⟩)
      clear hready hnone
      generalize M.singleTypeManagers = ms at hlength
      generalize args.newComputedBlocks = hits at hlength hnil
      induction ms generalizing hits with
      | nil => exact .nil
      | cons m ms ih =>
          cases hits with
          | nil => cases hlength
          | cons first hits =>
              obtain ⟨rfl, hrest⟩ := List.forall_mem_cons.mp hnil
              exact .cons ⟨.refl _ m, by simp⟩ (ih hits (Nat.succ.inj hlength) hrest)

/-- A call that is served leaves the request its hits, its old blocks and slots for all tokens. -/
theorem allocateSlots_holds (hreserved : NullReserved M.blockPool)
    (hfull : ∀ m ∈ M.singleTypeManagers, FullAttention m)
    (hlength : args.newComputedBlocks.length = M.singleTypeManagers.length)
    (hready : M.Ready request args) {blocks : List (List BlockId)}
    (h : M.allocateSlots request args = .ok (M', some blocks)) :
    List.Forall₂ (Holds request.requestId (M.numTokensNeedSlot request args))
      (M.singleTypeManagers.zip args.newComputedBlocks) M'.singleTypeManagers := by
  obtain ⟨M₂, hchecked, hcached⟩ := allocateSlots_some h
  rw [removeSkippedBlocks_eq hfull] at hchecked
  obtain ⟨M₁, hpool₁, hlen₁, hfirst, hnew⟩ :=
    allocateChecked_brought hreserved hfull hlength hready hchecked
  have hneed : M₁.numTokensNeedSlot request args = M.numTokensNeedSlot request args := by
    rw [numTokensNeedSlot, numTokensNeedSlot, totalComputedTokens, totalComputedTokens, hlen₁]
  obtain ⟨hpool₂, -, hextended⟩ := allocateNewBlocks_forall₂ hpool₁ hnew
  rw [hneed] at hextended
  have hholds : List.Forall₂ (Holds request.requestId (M.numTokensNeedSlot request args))
      (M.singleTypeManagers.zip args.newComputedBlocks) M₂.singleTypeManagers := by
    refine forall₂_comp (fun item m₁ m₂ hitem hext => ?_) hfirst hextended
    obtain ⟨new, htable, -, hnum⟩ := hext.table_eq
    refine ⟨hitem.1.trans hext.toFramed, ?_⟩
    rw [hitem.1.sameSpec.blockSize_eq] at hnum
    rw [htable, List.length_append]
    have := hitem.2
    omega
  rcases hcached with rfl | ⟨n, hcached⟩
  · exact hholds
  · obtain ⟨-, -, htables⟩ := cacheCoordinatedBlocks_forall₂ hpool₂ hcached
    refine forall₂_comp (fun item m₂ m₃ hitem hsame => ?_) hholds htables
    exact ⟨hitem.1.trans hsame.toFramed, hsame.table_eq.symm ▸ hitem.2⟩

/-! ## All groups -/

omit [DecidableEq η]

/-- What a request lacks in all groups together. -/
def outstanding (M : KVCacheManager η) (r : String) (numTokens : ℕ) : ℕ :=
  (M.singleTypeManagers.map (lacks · r numTokens)).sum

theorem outstanding_mono (hle : numTokens ≤ limit) :
    M.outstanding r numTokens ≤ M.outstanding r limit :=
  List.sum_le_sum fun _ _ => lacks_mono hle

theorem totalNeeded_nil (hfull : ∀ m ∈ M.singleTypeManagers, FullAttention m) (cap : Bool) :
    M.totalNeeded r numTokens (M.singleTypeManagers.map fun _ => []) numComputedTokens cap =
      M.outstanding r numTokens := by
  unfold totalNeeded outstanding
  generalize M.singleTypeManagers = ms at hfull
  induction ms with
  | nil => rfl
  | cons m ms ih =>
      obtain ⟨hm, hms⟩ := List.forall_mem_cons.mp hfull
      rw [List.map_cons, List.zip_cons_cons, List.map_cons, List.map_cons, List.sum_cons,
        List.sum_cons, ih hms, hm.needed_nil]

/-- A request lacks as much as before if its tables have the same lengths. -/
theorem outstanding_congr (h : List.Forall₂ (fun m m' => SameSpec m m' ∧
    (m'.table r).length = (m.table r).length) M.singleTypeManagers M'.singleTypeManagers)
    (numTokens : ℕ) : M'.outstanding r numTokens = M.outstanding r numTokens := by
  unfold outstanding
  generalize M.singleTypeManagers = ms at h
  generalize M'.singleTypeManagers = ms' at h
  induction h with
  | nil => rfl
  | cons hfirst _ ih =>
      rw [List.map_cons, List.map_cons, List.sum_cons, List.sum_cons, ih]
      rw [lacks, lacks, hfirst.1.blockSize_eq, hfirst.2]

/-- What a request lacks after an allocation and what the allocation has taken are together no
more than what it needed before. -/
theorem outstanding_add_totalNeeded {blocks : List (List BlockId)}
    (hfull : ∀ m ∈ M.singleTypeManagers, FullAttention m) (hhits : M.HitsForNew r blocks)
    (hholds : List.Forall₂ (Holds r numTokens) (M.singleTypeManagers.zip blocks)
      M'.singleTypeManagers) (hle : numTokens ≤ limit) :
    M'.outstanding r limit + M.totalNeeded r numTokens blocks numComputedTokens false ≤
      M.totalNeeded r limit blocks numComputedTokens true := by
  unfold outstanding totalNeeded
  have hitems : ∀ item ∈ M.singleTypeManagers.zip blocks, FullAttention item.1 ∧
      (item.1.numCachedBlock.contains r = true → item.2 = []) :=
    fun item hitem => ⟨hfull _ (List.of_mem_zip hitem).1, hhits item hitem⟩
  generalize M.singleTypeManagers.zip blocks = items at hholds hitems
  generalize M'.singleTypeManagers = ms' at hholds
  induction hholds with
  | nil => simp
  | @cons item m' items ms' hfirst _ ih =>
      obtain ⟨hitem, hrest⟩ := List.forall_mem_cons.mp hitems
      have hone : lacks m' r limit +
          needed item.1 M.blockPool r numTokens item.2 numComputedTokens false ≤
          needed item.1 M.blockPool r limit item.2 numComputedTokens true :=
        hfirst.lacks_add_needed hitem.1 hitem.2 hle
      have hrest := ih hrest
      simp only [List.map_cons, List.sum_cons]
      omega

end KVCacheManager

end TokenCake.KV
