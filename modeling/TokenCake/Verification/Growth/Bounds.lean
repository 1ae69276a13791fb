import TokenCake.Verification.Growth.Opening
import TokenCake.Verification.Growth.Peak

/-! # What a request holds of a window or chunk

Whatever its calls, a request never holds more blocks of a group than the cap of the group, as
long as every call fits into the cap from its first block on. -/

namespace TokenCake.KV

variable {η : Type} [DecidableEq η]

/-! ## Calls that fit the cap -/

section Fit

namespace KVCacheSpec

variable {spec : KVCacheSpec} {maxNumBatchedTokens maxModelLen cap c w : ℕ}

/-- A call for a batch of tokens takes at most `cap` blocks from the first block in use on. -/
def CallsFit (spec : KVCacheSpec) (maxNumBatchedTokens maxModelLen cap : ℕ) : Prop :=
  ∀ computed total, total ≤ computed + maxNumBatchedTokens → total ≤ maxModelLen →
    total ⌈/⌉ spec.blockSize ≤ spec.getNumSkippedTokens computed / spec.blockSize + cap

theorem slidingWindow_callsFit (hkind : spec.kind = .slidingWindow w) (hw : 0 < w)
    (hcap : spec.maxAdmissionBlocksPerRequest maxNumBatchedTokens maxModelLen = some cap) :
    spec.CallsFit maxNumBatchedTokens maxModelLen cap := by
  have hpositive : spec.Positive := by
    unfold Positive
    rw [hkind]
    exact hw
  have haligned : spec.ChunksAligned := by
    intro c hc
    rw [hkind] at hc
    cases hc
  intro computed total hbudget hmodel
  exact call_le_cap hcap hpositive haligned hbudget hmodel

/-- From every chunk on, what the chunk is off its block and the tokens of a batch fit into the
cap together. -/
def ChunksFit (spec : KVCacheSpec) (c maxNumBatchedTokens maxModelLen : ℕ) : Prop :=
  ∀ k, k * c < maxModelLen →
    k * c % spec.blockSize + min (c + maxNumBatchedTokens - 1) (maxModelLen - k * c) ≤
      min (c + maxNumBatchedTokens) maxModelLen ⌈/⌉ spec.blockSize * spec.blockSize

/-- Chunks fit if and only if calls do. -/
theorem chunksFit_iff_callsFit (hkind : spec.kind = .chunkedLocal c) (hc : 0 < c)
    (hcap : spec.maxAdmissionBlocksPerRequest maxNumBatchedTokens maxModelLen = some cap) :
    spec.ChunksFit c maxNumBatchedTokens maxModelLen ↔
      spec.CallsFit maxNumBatchedTokens maxModelLen cap := by
  have hpos := spec.blockSize_pos
  have hskipped : ∀ n, spec.getNumSkippedTokens n = n / c * c := by
    intro n
    unfold getNumSkippedTokens
    rw [hkind]
  obtain rfl : min (c + maxNumBatchedTokens) maxModelLen ⌈/⌉ spec.blockSize = cap := by
    unfold maxAdmissionBlocksPerRequest at hcap
    rw [hkind] at hcap
    exact Option.some.inj hcap
  have hceil := (ceilDiv_le_iff_le_mul hpos).mp
    (le_refl (min (c + maxNumBatchedTokens) maxModelLen ⌈/⌉ spec.blockSize))
  rw [Nat.mul_comm] at hceil
  unfold ChunksFit CallsFit
  generalize min (c + maxNumBatchedTokens) maxModelLen ⌈/⌉ spec.blockSize = cap at hceil ⊢
  -- Both sides count the tokens from the first block of a chunk on.
  have hcount : ∀ start total, total ⌈/⌉ spec.blockSize ≤ start / spec.blockSize + cap ↔
      start % spec.blockSize + total ≤ start + cap * spec.blockSize := by
    intro start total
    have hdiv := Nat.div_add_mod start spec.blockSize
    rw [ceilDiv_le_iff_le_mul hpos, Nat.mul_add, Nat.mul_comm _ cap]
    omega
  constructor
  · intro hfit computed total hbudget hmodel
    rw [hskipped, hcount]
    have hchunk := Nat.div_add_mod' computed c
    have hrest := Nat.mod_lt computed hc
    rcases Nat.lt_or_ge (computed / c * c) maxModelLen with hlt | hge
    · have := hfit (computed / c) hlt
      omega
    · -- The chunk starts behind the model, and one block is enough.
      have hmod := Nat.mod_lt (computed / c * c) hpos
      rcases Nat.eq_zero_or_pos maxModelLen with hzero | hpositive
      · have := Nat.mod_le (computed / c * c) spec.blockSize
        omega
      · have hone : 1 * spec.blockSize ≤ cap * spec.blockSize := by
          apply Nat.mul_le_mul_right
          by_contra hnone
          obtain rfl : cap = 0 := by omega
          omega
        omega
  · intro hfit k hk
    have hlast : (k * c + (c - 1)) / c = k := by
      rw [Nat.mul_comm, Nat.mul_add_div hc, Nat.div_eq_of_lt (by omega), Nat.add_zero]
    have := hfit (k * c + (c - 1))
      (min (k * c + (c - 1) + maxNumBatchedTokens) maxModelLen) (Nat.min_le_left ..)
      (Nat.min_le_right ..)
    rw [hskipped, hlast, hcount] at this
    omega

/-- Chunks that start at blocks fit the cap. -/
theorem chunksFit_of_dvd (h : spec.blockSize ∣ c) :
    spec.ChunksFit c maxNumBatchedTokens maxModelLen := by
  intro k _
  have hceil := (ceilDiv_le_iff_le_mul spec.blockSize_pos).mp
    (le_refl (min (c + maxNumBatchedTokens) maxModelLen ⌈/⌉ spec.blockSize))
  rw [Nat.mul_comm] at hceil
  rw [Nat.mod_eq_zero_of_dvd (h.mul_left k), Nat.zero_add]
  omega

end KVCacheSpec

end Fit

/-! ## One group -/

section Group

variable {m m' : SingleTypeKVCacheManager} {id : String}
  {cap maxModelLen allocated computed total numLocal numTotal : ℕ}

/-- What the calls for a request leave true of a window or chunk. -/
structure Bounded (cap maxModelLen : ℕ) (id : String) (allocated : ℕ)
    (m : SingleTypeKVCacheManager) : Prop where
  nullFirst : NullFirst (m.table id)
  length_eq : (m.table id).length = allocated ⌈/⌉ m.blockSize
  held_le : numHeld (m.table id) ≤ cap
  fresh : allocated = 0 → 0 < maxModelLen → m.numCachedBlock.contains id = false

/-- A request that has no slots. -/
theorem Bounded.of_fresh (htable : m.table id = []) (hfresh : m.numCachedBlock.contains id = false) :
    Bounded cap maxModelLen id 0 m where
  nullFirst := htable ▸ .of_not_mem List.not_mem_nil
  length_eq := by rw [htable, zero_ceilDiv, List.length_nil]
  held_le := by
    rw [htable]
    exact Nat.zero_le cap
  fresh _ _ := hfresh

/-- A call that gives the request no blocks. -/
theorem Bounded.rested (h : Bounded cap maxModelLen id allocated m) (hrested : Rested id m m')
    (hcached : allocated = 0 → m'.numCachedBlock.get? id = m.numCachedBlock.get? id) :
    Bounded cap maxModelLen id allocated m' where
  nullFirst := hrested.nullFirst h.nullFirst
  length_eq := by
    rw [hrested.length_eq, hrested.sameSpec.blockSize_eq]
    exact h.length_eq
  held_le := hrested.held_le.trans h.held_le
  fresh hzero hpos := by
    have hfresh := h.fresh hzero hpos
    rw [Bool.eq_false_iff, ne_eq, OrdDict.contains_iff] at hfresh ⊢
    rw [hcached hzero]
    exact hfresh

theorem ceilDiv_max {size : ℕ} (hsize : 0 < size) (a b : ℕ) :
    max a b ⌈/⌉ size = max (a ⌈/⌉ size) (b ⌈/⌉ size) :=
  ((gc_mul_ceilDiv hsize).monotone_l).map_max

/-- The blocks of a call replace what slides out of the table. -/
theorem Bounded.served (h : Bounded cap maxModelLen id allocated m)
    (hserved : Served id computed total m m') (hslid : slidBlocks m computed ≤ (m.table id).length)
    (hfit : total ⌈/⌉ m.blockSize ≤ slidBlocks m computed + cap) (htotal : 0 < maxModelLen → 0 < total) :
    Bounded cap maxModelLen id (max allocated total) m' := by
  obtain ⟨slid, hmid, hextended⟩ := hserved.tables
  obtain ⟨new, htable, hnew, hlength⟩ := hextended.table_eq
  obtain ⟨hfirst, hnulls⟩ := hmid.null h.nullFirst
  rw [Nat.min_eq_left hslid] at hnulls
  have hheld : numHeld (m'.table id) = numHeld (slid.table id) + new.length := by
    rw [htable, numHeld_append, numHeld_eq_length hnew]
  have hmidLength := hmid.length_eq
  have holdLength := h.length_eq
  refine ⟨htable ▸ hfirst.append hnew, ?_, ?_, fun hzero hpos => ?_⟩
  · have hsize : m'.blockSize = m.blockSize := hserved.sameSpec.blockSize_eq
    have hmax : max allocated total ⌈/⌉ m.blockSize =
        max (allocated ⌈/⌉ m.blockSize) (total ⌈/⌉ m.blockSize) :=
      ceilDiv_max m.spec.blockSize_pos allocated total
    rw [hsize, hmax, htable, List.length_append]
    omega
  · rcases Nat.eq_zero_or_pos new.length with hnone | hsome
    · have := hmid.held_le
      have := h.held_le
      omega
    · have := numHeld_le_of_null hnulls
      omega
  · have := htotal hpos
    omega

/-- The first table of a request, with its hits, its external tokens and the blocks of the call. -/
theorem Bounded.opened {slid opened : SingleTypeKVCacheManager}
    (hopened : Opened id numLocal numTotal slid opened)
    (hextended : Extended id (total ⌈/⌉ slid.blockSize) opened m')
    (hwindow : slid.spec.isFullAttention = false) (hpositive : slid.spec.Positive)
    (hlocal : numLocal ≤ numTotal) (hle : numTotal ≤ total)
    (hfit : total ⌈/⌉ slid.blockSize ≤ slidBlocks slid numTotal + cap)
    (htotal : 0 < maxModelLen → 0 < total) : Bounded cap maxModelLen id total m' := by
  obtain ⟨hits, first, hhits, hfirst, htable, hshort⟩ := hopened.tables
  obtain ⟨new, htable', hnew, hlength⟩ := hextended.table_eq
  have hpos := slid.spec.blockSize_pos
  have hsize : m'.blockSize = slid.blockSize :=
    hextended.sameSpec.blockSize_eq.trans hopened.sameSpec.blockSize_eq
  -- Neither the placeholders nor the hits reach behind the computed tokens.
  have hmono : numTotal ⌈/⌉ slid.blockSize ≤ total ⌈/⌉ slid.blockSize :=
    (gc_mul_ceilDiv hpos).monotone_l hle
  have hslid : slidBlocks slid numTotal ≤ numTotal ⌈/⌉ slid.blockSize :=
    (Nat.div_le_div_right (KVCacheSpec.getNumSkippedTokens_le hpositive numTotal)).trans
      ((Nat.floorDiv_eq_div ..).symm.trans_le floorDiv_le_ceilDiv)
  have hhitsLength : hits.length ≤ numTotal ⌈/⌉ slid.blockSize := by
    have hceil := (ceilDiv_le_iff_le_mul hpos).mp (le_refl (numTotal ⌈/⌉ slid.spec.blockSize))
    rw [Nat.mul_comm] at hceil
    exact Nat.le_of_mul_le_mul_right ((hhits.2 hwindow).trans_le (hlocal.trans hceil)) hpos
  rw [length_firstTable] at hshort
  have htotalLength : (m'.table id).length = total ⌈/⌉ slid.blockSize := by
    rw [htable', List.length_append]
    omega
  have hnull : NullFirst (m'.table id) := by
    rw [htable', htable]
    exact ((firstTable_nullFirst hhits numTotal).append hfirst).append hnew
  refine ⟨hnull, by rw [hsize, htotalLength], ?_, fun hzero hmodel => ?_⟩
  · have hnulls : ∀ i < slidBlocks slid numTotal, (m'.table id)[i]? = some nullBlock := by
      intro i hi
      have hentry : (Sound.firstTable slid hits numTotal)[i]? = some nullBlock := firstTable_null hi
      rw [htable', htable, List.append_assoc]
      exact (List.getElem?_append_left (List.getElem?_eq_some_iff.mp hentry).1).trans hentry
    have := numHeld_le_of_null hnulls
    omega
  · have := htotal hmodel
    omega

end Group

end TokenCake.KV
