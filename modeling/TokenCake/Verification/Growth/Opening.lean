import TokenCake.Verification.Growth.Hits

/-! # The first call for a request

A request without a table gets placeholders for what lies before its window, the rest of its
hits, and new blocks. -/

namespace TokenCake.KV

variable {η : Type} [DecidableEq η]

/-! ## One group -/

section Group

variable {m m' : SingleTypeKVCacheManager} {pool pool' : BlockPool η} {id : String}
  {hits : List BlockId} {numLocal numTotal : ℕ}

open Sound (firstTable)

theorem NullFirst.drop {blocks : List BlockId} (h : NullFirst blocks) (n : ℕ) :
    NullFirst (blocks.drop n) := by
  intro i j hij hj
  rw [List.getElem?_drop] at hj ⊢
  exact h (n + i) (n + j) (by omega) hj

theorem NullFirst.replicate_append {blocks : List BlockId} (h : NullFirst blocks) (n : ℕ) :
    NullFirst (List.replicate n nullBlock ++ blocks) := by
  intro i j hij hj
  rw [List.getElem?_append, List.length_replicate] at hj ⊢
  by_cases hi : i < n
  · rw [if_pos hi, List.getElem?_replicate, if_pos hi]
  · rw [if_neg (by omega)] at hj
    rw [if_neg hi]
    exact h (i - n) (j - n) (by omega) hj

theorem firstTable_nullFirst (h : HitOf numLocal m hits) (numTotal : ℕ) :
    NullFirst (firstTable m hits numTotal) := (h.1.drop _).replicate_append _

theorem firstTable_null {i : ℕ} (hi : i < slidBlocks m numTotal) :
    (firstTable m hits numTotal)[i]? = some nullBlock := by
  unfold firstTable
  change i < Sound.numSkippedBlocks m numTotal at hi
  rw [List.getElem?_append_left (by rwa [List.length_replicate]), List.getElem?_replicate, if_pos hi]

theorem length_firstTable : (firstTable m hits numTotal).length =
    max (slidBlocks m numTotal) hits.length := by
  unfold firstTable
  rw [List.length_append, List.length_replicate, Sound.usedHits, List.length_drop]
  change slidBlocks m numTotal + (hits.length - slidBlocks m numTotal) = _
  omega

theorem HitOf.same {manager manager' : SingleTypeKVCacheManager} (h : HitOf numLocal manager hits)
    (hspec : SameSpec manager manager') : HitOf numLocal manager' hits := by
  refine ⟨h.1, fun hwindow => ?_⟩
  rw [hspec.spec_eq] at hwindow
  rw [hspec.blockSize_eq]
  exact h.2 hwindow

/-- A table with placeholders up to the window, and no more blocks than the tokens require. -/
structure Opened (id : String) (numLocal numTotal : ℕ) (m m' : SingleTypeKVCacheManager) : Prop
    extends Framed id m m' where
  empty : m.table id = []
  tables : ∃ hits new, HitOf numLocal m hits ∧ nullBlock ∉ new ∧
    m'.table id = firstTable m hits numTotal ++ new ∧
    (m'.table id).length ≤ max (firstTable m hits numTotal).length (numTotal ⌈/⌉ m.blockSize)

theorem allocateExternal_extends (hreserved : NullReserved pool) {numExternal : ℕ}
    (h : m.allocateExternal pool id numTotal numExternal = .ok (pool', m')) :
    ∃ new, m'.table id = m.table id ++ new ∧ nullBlock ∉ new ∧
      (m'.table id).length ≤ max (m.table id).length (numTotal ⌈/⌉ m.blockSize) := by
  unfold SingleTypeKVCacheManager.allocateExternal at h
  dsimp only at h
  split at h
  · cases hget : pool.getNewBlocks
        (((numTotal ⌈/⌉ m.blockSize : ℕ) : ℤ) - ((m.table id).length : ℤ)) with
    | error e =>
        rw [hget] at h
        cases h
    | ok result =>
        obtain ⟨new, next⟩ := result
        rw [hget] at h
        cases h
        have hlength : new.length = _ := (getNewBlocks_ok hget).2.1
        refine ⟨new, by simp, (hreserved.getNewBlocks hget).1, ?_⟩
        rw [SingleTypeKVCacheManager.table_setTable, if_pos rfl, List.length_append]
        dsimp only
        omega
  · cases h
    exact ⟨[], (List.append_nil _).symm, List.not_mem_nil, Nat.le_max_left ..⟩

/-- A request with cached blocks keeps its table, and a new one gets its first. -/
theorem allocateNewComputedBlocks_opened (hreserved : NullReserved pool) {numExternal : ℕ}
    (hhits : HitOf numLocal m hits)
    (h : m.allocateNewComputedBlocks pool id hits numLocal numExternal = .ok (pool', m')) :
    (m.numCachedBlock.contains id = true ∧ m'.table id = m.table id) ∨
      Opened id numLocal (numLocal + numExternal) m m' := by
  have hframed := (allocateNewComputedBlocks_framed hreserved h).1
  cases hcached : m.numCachedBlock.contains id with
  | true =>
      unfold SingleTypeKVCacheManager.allocateNewComputedBlocks at h
      rw [if_pos hcached] at h
      split at h
      · cases h
        exact .inl ⟨rfl, rfl⟩
      · cases h
  | false =>
      by_cases htable : m.table id = []
      · rw [Sound.allocateNewComputedBlocks_eq hcached htable] at h
        cases htouch : Sound.touchHits pool
            (Sound.usedHits m hits (numLocal + numExternal)) with
        | error e =>
            rw [htouch] at h
            cases h
        | ok touched =>
            rw [htouch] at h
            have htouched : NullReserved touched := by
              unfold Sound.touchHits at htouch
              split at htouch
              · exact hreserved.touch _ htouch
              · split at htouch
                · exact Except.ok.inj htouch ▸ hreserved
                · cases htouch
            have hfirst : (Sound.withFirstTable m id hits (numLocal + numExternal)).table id =
                firstTable m hits (numLocal + numExternal) := by
              simp [Sound.withFirstTable]
            obtain ⟨new, htable', hnew, hlength⟩ := allocateExternal_extends htouched h
            rw [hfirst] at htable' hlength
            exact .inr ⟨hframed, htable, hits, new, hhits, hnew, htable', hlength⟩
      · unfold SingleTypeKVCacheManager.allocateNewComputedBlocks at h
        rw [if_neg (by simp [hcached]), if_pos htable] at h
        cases h

end Group

/-! ## All groups -/

section Groups

open KVCacheManager

variable {M M' : KVCacheManager η} {request : Request η} {args : SlotArgs}

/-- A call with hits or with tokens of the connector. -/
def Brings (args : SlotArgs) : Prop :=
  (∃ hits ∈ args.newComputedBlocks, hits ≠ []) ∨ 0 < args.numExternalComputedTokens

/-- What a call with the hits of a request does to its table: the window slides, a new request
gets its first table, and blocks are appended. -/
structure Called (id : String) (args : SlotArgs) (numLocal numTotal numTokens : ℕ)
    (m m' : SingleTypeKVCacheManager) : Prop extends Framed id m m' where
  tables : ∃ slid opened : SingleTypeKVCacheManager, Slid id numTotal m slid ∧
    Framed id slid opened ∧ ((Brings args → m.numCachedBlock.contains id = true) ∧ opened.table id = slid.table id ∨
      Opened id numLocal numTotal slid opened) ∧
    Extended id (numTokens ⌈/⌉ m.blockSize) opened m'

theorem allocateSlots_called (hreserved : NullReserved M.blockPool)
    (hlimit : numLocalComputedTokens request args + args.numExternalComputedTokens ≤ M.maxModelLen)
    (hhits : List.Forall₂ (HitOf (numLocalComputedTokens request args)) M.singleTypeManagers
      args.newComputedBlocks) {blocks : List (List BlockId)}
    (h : M.allocateSlots request args = .ok (M', some blocks)) :
    NullReserved M'.blockPool ∧ M'.maxModelLen = M.maxModelLen ∧
      List.Forall₂ (Called request.requestId args (numLocalComputedTokens request args)
        (M.totalComputedTokens request args) (M.numTokensNeedSlot request args))
        M.singleTypeManagers M'.singleTypeManagers := by
  have htotal : M.totalComputedTokens request args =
      numLocalComputedTokens request args + args.numExternalComputedTokens :=
    Nat.min_eq_left hlimit
  obtain ⟨M₂, hchecked, hcached⟩ := allocateSlots_some h
  obtain ⟨hpool₁, hslid⟩ := removeSkippedBlocks_forall₂ hreserved request.requestId
    (M.totalComputedTokens request args)
  have hneed : (M.removeSkippedBlocks request.requestId
      (M.totalComputedTokens request args)).numTokensNeedSlot request args =
        M.numTokensNeedSlot request args := rfl
  have hlen₁ : (M.removeSkippedBlocks request.requestId
      (M.totalComputedTokens request args)).maxModelLen = M.maxModelLen := rfl
  generalize M.removeSkippedBlocks request.requestId
    (M.totalComputedTokens request args) = M₁ at hchecked hpool₁ hslid hneed hlen₁
  -- The groups after the hits and the external tokens of a new request.
  obtain ⟨M₁', hpool₁', hlen₁', hopened, hnew⟩ : ∃ M₁' : KVCacheManager η,
      NullReserved M₁'.blockPool ∧ M₁'.maxModelLen = M₁.maxModelLen ∧
        List.Forall₂ (fun m m' => Framed request.requestId m m' ∧
          ((Brings args → m.numCachedBlock.contains request.requestId = true) ∧
              m'.table request.requestId = m.table request.requestId ∨
            Opened request.requestId (numLocalComputedTokens request args)
              (M.totalComputedTokens request args) m m'))
          M₁.singleTypeManagers M₁'.singleTypeManagers ∧
        M₁'.allocateNewBlocks request.requestId (M₁'.numTokensNeedSlot request args) =
          .ok (M₂, blocks) := by
    unfold allocateChecked at hchecked
    split at hchecked
    · cases hcomputed : M₁.allocateNewComputedBlocks request.requestId args.newComputedBlocks
          (numLocalComputedTokens request args) args.numExternalComputedTokens with
      | error e =>
          rw [hcomputed] at hchecked
          cases hchecked
      | ok M₁' =>
          rw [hcomputed] at hchecked
          have hback : List.Forall₂ (fun m₁ m => SameSpec m m₁) M₁.singleTypeManagers
              M.singleTypeManagers := List.Forall₂.flip (hslid.imp fun _ _ h => h.sameSpec)
          have hhits₁ : List.Forall₂ (HitOf (numLocalComputedTokens request args))
              M₁.singleTypeManagers args.newComputedBlocks :=
            forall₂_comp (fun _ _ _ hspec hhit => hhit.same hspec) hback hhits
          unfold KVCacheManager.allocateNewComputedBlocks at hcomputed
          cases hloop : forManagers (fun pool manager hits =>
              manager.allocateNewComputedBlocks pool request.requestId hits
                (numLocalComputedTokens request args) args.numExternalComputedTokens)
              M₁.blockPool M₁.singleTypeManagers args.newComputedBlocks with
          | error e =>
              rw [hloop] at hcomputed
              cases hcomputed
          | ok result =>
              rw [hloop] at hcomputed
              obtain rfl := Except.ok.inj hcomputed
              obtain ⟨hpool, hopened⟩ := forManagers_items (Q := NullReserved)
                (R := fun m m' => Framed request.requestId m m' ∧
                  ((Brings args → m.numCachedBlock.contains request.requestId = true) ∧
                      m'.table request.requestId = m.table request.requestId ∨
                    Opened request.requestId (numLocalComputedTokens request args)
                      (M.totalComputedTokens request args) m m'))
                (fun pool m hits pool' m' hpool hhit h => by
                  obtain ⟨hframed, hpool'⟩ := allocateNewComputedBlocks_framed hpool h
                  refine ⟨hpool', hframed, ?_⟩
                  rw [htotal]
                  refine (allocateNewComputedBlocks_opened hpool hhit h).imp_left fun hold => ?_
                  exact ⟨fun _ => hold.1, hold.2⟩)
                hhits₁ hpool₁ hloop
              refine ⟨{ M₁ with blockPool := result.1, singleTypeManagers := result.2 }, hpool, rfl,
                hopened, ?_⟩
              rw [numTokensNeedSlot, totalComputedTokens]
              exact hchecked
    · next hnothing =>
        refine ⟨M₁, hpool₁, rfl, ?_, hchecked⟩
        exact List.forall₂_same.mpr fun m _ =>
          ⟨.refl _ m, .inl ⟨fun hbrings => absurd hbrings hnothing, rfl⟩⟩
  obtain ⟨hpool₂, hlen₂, hextended⟩ := allocateNewBlocks_forall₂ hpool₁' hnew
  have hneed' : M₁'.numTokensNeedSlot request args = M.numTokensNeedSlot request args := by
    rw [← hneed, numTokensNeedSlot, numTokensNeedSlot, totalComputedTokens,
      totalComputedTokens, hlen₁']
  rw [hneed'] at hextended
  have hcalled : List.Forall₂ (Called request.requestId args (numLocalComputedTokens request args)
      (M.totalComputedTokens request args) (M.numTokensNeedSlot request args))
      M.singleTypeManagers M₂.singleTypeManagers := by
    have hboth := forall₂_comp (T := fun m opened => ∃ slid,
        Slid request.requestId (M.totalComputedTokens request args) m slid ∧
          Framed request.requestId slid opened ∧
          ((Brings args → m.numCachedBlock.contains request.requestId = true) ∧
              opened.table request.requestId = slid.table request.requestId ∨
            Opened request.requestId (numLocalComputedTokens request args)
              (M.totalComputedTokens request args) slid opened))
      (fun m slid opened hslid hopened =>
        ⟨slid, hslid, hopened.1, hslid.numCachedBlock_eq ▸ hopened.2⟩) hslid hopened
    refine forall₂_comp (fun m opened m' hopened hextended => ?_) hboth hextended
    obtain ⟨slid, hslid, hframed, hcases⟩ := hopened
    have hfirst := hslid.toFramed.trans hframed
    refine ⟨hfirst.trans hextended.toFramed, slid, opened, hslid, hframed, hcases, ?_⟩
    rw [hfirst.sameSpec.blockSize_eq] at hextended
    exact hextended
  rcases hcached with rfl | ⟨n, hcached⟩
  · exact ⟨hpool₂, hlen₂.trans (hlen₁'.trans hlen₁), hcalled⟩
  · obtain ⟨hpool₃, hlen₃, hsame⟩ := cacheCoordinatedBlocks_forall₂ hpool₂ hcached
    refine ⟨hpool₃, hlen₃.trans (hlen₂.trans (hlen₁'.trans hlen₁)), ?_⟩
    refine forall₂_comp (fun m m' m'' hcalled hsame => ?_) hcalled hsame
    obtain ⟨hframed, slid, opened, hslid, hopened, hcases, hextended⟩ := hcalled
    refine ⟨hframed.trans hsame.toFramed, slid, opened, hslid, hopened, hcases,
      hextended.toFramed.trans hsame.toFramed, ?_⟩
    rw [hsame.table_eq]
    exact hextended.table_eq

end Groups

end TokenCake.KV
