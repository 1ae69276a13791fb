import TokenCake.Lib.Run
import TokenCake.Verification.Growth.Calls

/-! # What a group requires and what it holds

A cap bounds what a window or chunk holds at a time, and the growth of a group is what its table
lacks of its capped requirement. -/

namespace TokenCake.KV

variable {η : Type} [DecidableEq η]

/-! ## The admission cap -/

section Cap

namespace KVCacheSpec

/-- Windows and chunks have tokens. -/
def Positive (spec : KVCacheSpec) : Prop :=
  match spec.kind with
  | .fullAttention => True
  | .slidingWindow w => 0 < w
  | .chunkedLocal c => 0 < c

/-- Chunks start at the beginning of a block. -/
def ChunksAligned (spec : KVCacheSpec) : Prop :=
  ∀ c, spec.kind = .chunkedLocal c → spec.blockSize ∣ c

variable {spec : KVCacheSpec}

theorem getNumSkippedTokens_le (h : spec.Positive) (n : ℕ) : spec.getNumSkippedTokens n ≤ n := by
  unfold Positive at h
  unfold getNumSkippedTokens
  cases hkind : spec.kind with
  | fullAttention => exact Nat.zero_le n
  | slidingWindow w =>
      rw [hkind] at h
      dsimp only at h ⊢
      omega
  | chunkedLocal c => exact Nat.div_mul_le_self n c

theorem ceilDiv_add_le {a b k size : ℕ} (hsize : 0 < size) (h : a ≤ k * size + b) :
    a ⌈/⌉ size ≤ k + b ⌈/⌉ size := by
  rw [ceilDiv_le_iff_le_mul hsize, Nat.mul_add, Nat.mul_comm size k]
  have := (ceilDiv_le_iff_le_mul hsize).mp (le_refl (b ⌈/⌉ size))
  omega

/-- The tokens of a call from the window on fit into the cap. -/
theorem call_le_cap {maxNumBatchedTokens maxModelLen cap computed total : ℕ}
    (hcap : spec.maxAdmissionBlocksPerRequest maxNumBatchedTokens maxModelLen = some cap)
    (hpositive : spec.Positive) (haligned : spec.ChunksAligned)
    (hbudget : total ≤ computed + maxNumBatchedTokens) (hmodel : total ≤ maxModelLen) :
    total ⌈/⌉ spec.blockSize ≤
      spec.getNumSkippedTokens computed / spec.blockSize + cap := by
  have hpos := spec.blockSize_pos
  have hdiv := Nat.div_add_mod (spec.getNumSkippedTokens computed) spec.blockSize
  have hmod := Nat.mod_lt (spec.getNumSkippedTokens computed) hpos
  rw [Nat.mul_comm] at hdiv
  unfold Positive at hpositive
  unfold maxAdmissionBlocksPerRequest at hcap
  unfold getNumSkippedTokens at hdiv hmod ⊢
  cases hkind : spec.kind with
  | fullAttention => simp [hkind] at hcap
  | slidingWindow w =>
      rw [hkind] at hcap hpositive hdiv hmod
      dsimp only at hcap hpositive hdiv hmod ⊢
      obtain rfl := Option.some.inj hcap
      generalize hslid : (computed + 1 - w) / spec.blockSize = slid at hdiv ⊢
      rcases Nat.le_total (w - 1 + maxNumBatchedTokens) maxModelLen with hle | hle
      · rw [Nat.min_eq_left hle, Nat.add_comm _ 1, ← Nat.add_assoc]
        apply ceilDiv_add_le hpos
        rw [Nat.succ_mul]
        omega
      · rw [Nat.min_eq_right hle, Nat.add_comm _ 1, ← Nat.add_assoc]
        apply ceilDiv_add_le hpos
        omega
  | chunkedLocal c =>
      rw [hkind] at hcap hpositive hdiv hmod
      dsimp only at hcap hpositive hdiv hmod ⊢
      obtain rfl := Option.some.inj hcap
      -- The chunk starts at a block.
      have hstart : computed / c * c / spec.blockSize * spec.blockSize = computed / c * c :=
        Nat.div_mul_cancel ((haligned c hkind).trans (Dvd.intro_left _ rfl))
      have hchunk := Nat.div_add_mod computed c
      have hrest := Nat.mod_lt computed hpositive
      rw [Nat.mul_comm] at hchunk
      rcases Nat.le_total (c + maxNumBatchedTokens) maxModelLen with hle | hle
      · rw [Nat.min_eq_left hle]
        apply ceilDiv_add_le hpos
        omega
      · rw [Nat.min_eq_right hle]
        apply ceilDiv_add_le hpos
        omega

end KVCacheSpec

end Cap

/-! ## The growth of a request -/

section Growth

variable (m : SingleTypeKVCacheManager) (id : String) (numTokens : ℕ)

/-- The blocks that a group requires for all tokens of a request, clamped by its cap. -/
def numRequired : ℕ :=
  match m.maxAdmissionBlocksPerRequest with
  | some cap => min (numTokens ⌈/⌉ m.blockSize) cap
  | none => numTokens ⌈/⌉ m.blockSize

/-- What the table of the request lacks of them. -/
def groupGrowth : ℕ := numRequired m numTokens - (m.table id).length

variable {m id numTokens}

omit [DecidableEq η] in
theorem getNumBlocksToAllocate_running (pool : BlockPool η) {numComputedTokens : ℕ}
    (hslid : slidBlocks m numComputedTokens ≤ (m.table id).length) :
    m.getNumBlocksToAllocate pool id numTokens [] numComputedTokens true =
      .ok (groupGrowth m id numTokens) := by
  have hmax : max (slidBlocks m numComputedTokens) (m.table id).length = (m.table id).length :=
    Nat.max_eq_right hslid
  -- A request without hits lacks the same blocks before and after its first cached block.
  have hlacks : ∀ required : ℕ, (if m.numCachedBlock.contains id = true then
      (if ([] : List BlockId) = [] then .ok (required - (m.table id).length)
        else .error .assertion : Except KVError ℕ)
      else .ok (required - max (m.spec.getNumSkippedTokens numComputedTokens / m.blockSize)
          (([] : List BlockId).length + (m.table id).length) +
        SingleTypeKVCacheManager.numEvictableBlocks pool (([] : List BlockId).drop
          (m.spec.getNumSkippedTokens numComputedTokens / m.blockSize - (m.table id).length)))) =
      .ok (required - (m.table id).length) := by
    intro required
    split
    · rfl
    · rw [List.length_nil, Nat.zero_add, List.drop_nil]
      change Except.ok (required - max (slidBlocks m numComputedTokens) (m.table id).length) = _
      rw [hmax]
  unfold SingleTypeKVCacheManager.getNumBlocksToAllocate groupGrowth numRequired
  cases hcap : m.maxAdmissionBlocksPerRequest with
  | none => exact hlacks _
  | some cap => exact hlacks _

/-- The cap does not cut what the group requires, or the table has it already, or nothing has
slid out of the table yet and chunks start at blocks. -/
def CapHolds (m : SingleTypeKVCacheManager) (id : String) (numTokens : ℕ) : Prop :=
  (∀ cap, m.maxAdmissionBlocksPerRequest = some cap → numTokens ⌈/⌉ m.blockSize ≤ cap) ∨
    numTokens ⌈/⌉ m.blockSize ≤ (m.table id).length ∨
    nullBlock ∉ m.table id ∧ m.spec.ChunksAligned

omit [DecidableEq η] in
theorem growth_loop (pool : BlockPool η) {numComputedTokens : ℕ}
    (ms : List SingleTypeKVCacheManager)
    (hslid : ∀ m ∈ ms, slidBlocks m numComputedTokens ≤ (m.table id).length) (sum : ℕ) :
    (ms.zip (ms.map fun _ => ([] : List BlockId))).foldlM (fun sum (m, hits) =>
      (m.getNumBlocksToAllocate pool id numTokens hits numComputedTokens true).map (sum + ·))
      sum = .ok (sum + (ms.map fun m => groupGrowth m id numTokens).sum) := by
  induction ms generalizing sum with
  | nil => rfl
  | cons m ms ih =>
      obtain ⟨hm, hms⟩ := List.forall_mem_cons.mp hslid
      rw [List.map_cons, List.zip_cons_cons, List.foldlM_cons]
      dsimp only
      rw [getNumBlocksToAllocate_running pool hm]
      refine (ih hms _).trans ?_
      rw [List.map_cons, List.sum_cons, Nat.add_assoc]

end Growth

/-! ## One group in the course of a request -/

section Course

variable {m₀ m m' : SingleTypeKVCacheManager} {id : String} {numTokens maxNumBatchedTokens : ℕ}

/-- A call that gives the request no blocks. -/
structure Rested (id : String) (m m' : SingleTypeKVCacheManager) : Prop where
  sameSpec : SameSpec m m'
  length_eq : (m'.table id).length = (m.table id).length
  held_le : numHeld (m'.table id) ≤ numHeld (m.table id)
  nullFirst : NullFirst (m.table id) → NullFirst (m'.table id)

theorem Slid.rested {n : ℕ} (h : Slid id n m m') : Rested id m m' :=
  ⟨h.sameSpec, h.length_eq, h.held_le, fun hnull => (h.null hnull).1⟩

theorem Framed.rested {r : String} (h : Framed r m m') (hr : r ≠ id) : Rested id m m' := by
  have htable := h.other_eq id hr.symm
  exact ⟨h.sameSpec, congrArg List.length htable, (congrArg numHeld htable).le,
    fun hnull => htable ▸ hnull⟩

theorem Unchanged.rested {r : String} (h : Unchanged r m m') : Rested id m m' := by
  by_cases hr : r = id
  · subst hr
    have htable := h.table_eq
    exact ⟨h.sameSpec, congrArg List.length htable, (congrArg numHeld htable).le,
      fun hnull => htable ▸ hnull⟩
  · exact h.toFramed.rested hr

/-- A call for at most `maxNumBatchedTokens` new tokens of `numTokens` in all. -/
def Moved (id : String) (numTokens maxNumBatchedTokens : ℕ) (m m' : SingleTypeKVCacheManager) :
    Prop :=
  Rested id m m' ∨ ∃ computed total, Served id computed total m m' ∧ total ≤ numTokens ∧
    total ≤ computed + maxNumBatchedTokens ∧ slidBlocks m computed ≤ (m.table id).length

/-- What the calls after `m₀` leave true of a group. -/
structure Within (id : String) (numTokens : ℕ) (m₀ m : SingleTypeKVCacheManager) : Prop where
  sameSpec : SameSpec m₀ m
  length_ge : (m₀.table id).length ≤ (m.table id).length
  length_le : (m.table id).length ≤ max (m₀.table id).length (numTokens ⌈/⌉ m₀.blockSize)
  held_le : numHeld (m.table id) + (m₀.table id).length ≤
    numHeld (m₀.table id) + (m.table id).length
  capped : nullBlock ∉ m₀.table id → m₀.spec.ChunksAligned → NullFirst (m.table id) ∧
    ∀ cap, m₀.maxAdmissionBlocksPerRequest = some cap →
      numHeld (m.table id) ≤ max (m₀.table id).length cap

theorem Within.refl (m₀ : SingleTypeKVCacheManager) : Within id numTokens m₀ m₀ where
  sameSpec := .refl m₀
  length_ge := le_rfl
  length_le := Nat.le_max_left ..
  held_le := le_rfl
  capped hnull _ := ⟨.of_not_mem hnull,
    fun _ _ => (numHeld_le_length _).trans (Nat.le_max_left ..)⟩

theorem Within.rested (h : Within id numTokens m₀ m) (hrested : Rested id m m') :
    Within id numTokens m₀ m' where
  sameSpec := h.sameSpec.trans hrested.sameSpec
  length_ge := hrested.length_eq ▸ h.length_ge
  length_le := hrested.length_eq ▸ h.length_le
  held_le := by
    have := h.held_le
    have := hrested.held_le
    have := hrested.length_eq
    omega
  capped hnull haligned := by
    obtain ⟨hfirst, hheld⟩ := h.capped hnull haligned
    exact ⟨hrested.nullFirst hfirst, fun cap hcap => hrested.held_le.trans (hheld cap hcap)⟩

/-- New blocks replace what slides out, up to the cap. -/
theorem Within.served {maxModelLen computed total : ℕ} (h : Within id numTokens m₀ m)
    (hserved : Served id computed total m m') (htotal : total ≤ numTokens)
    (hbudget : total ≤ computed + maxNumBatchedTokens) (hmodel : numTokens ≤ maxModelLen)
    (hslid : slidBlocks m computed ≤ (m.table id).length) (hpositive : m₀.spec.Positive)
    (hcaps : m₀.maxAdmissionBlocksPerRequest =
      m₀.spec.maxAdmissionBlocksPerRequest maxNumBatchedTokens maxModelLen) :
    Within id numTokens m₀ m' := by
  have hsize : m.blockSize = m₀.blockSize := h.sameSpec.blockSize_eq
  obtain ⟨slid, hmid, hextended⟩ := hserved.tables
  obtain ⟨new, htable, hnew, hlength⟩ := hextended.table_eq
  have hmidWithin := h.rested hmid.rested
  have hlen : (m'.table id).length = (slid.table id).length + new.length := by
    rw [htable, List.length_append]
  have hheld : numHeld (m'.table id) = numHeld (slid.table id) + new.length := by
    rw [htable, numHeld_append, numHeld_eq_length hnew]
  have hmono : total ⌈/⌉ m₀.blockSize ≤ numTokens ⌈/⌉ m₀.blockSize :=
    (gc_mul_ceilDiv m₀.spec.blockSize_pos).monotone_l htotal
  rw [hsize] at hlength
  refine ⟨h.sameSpec.trans hserved.sameSpec, ?_, ?_, ?_, fun hnull haligned => ?_⟩
  · have := hmidWithin.length_ge
    omega
  · have := hmidWithin.length_le
    omega
  · have := hmidWithin.held_le
    omega
  · obtain ⟨hfirst, hcapped⟩ := hmidWithin.capped hnull haligned
    refine ⟨htable ▸ hfirst.append hnew, fun cap hcap => ?_⟩
    rcases Nat.eq_zero_or_pos new.length with hnone | hsome
    · rw [hheld, hnone]
      exact hcapped cap hcap
    · -- The table has become as long as the tokens require, and the window has slid.
      have hcall : total ⌈/⌉ m₀.blockSize ≤
          m₀.spec.getNumSkippedTokens computed / m₀.blockSize + cap :=
        KVCacheSpec.call_le_cap (hcaps ▸ hcap) hpositive haligned hbudget (htotal.trans hmodel)
      have hslidEq : slidBlocks m computed =
          m₀.spec.getNumSkippedTokens computed / m₀.blockSize := by
        rw [slidBlocks, h.sameSpec.spec_eq, hsize]
      obtain ⟨-, hnulls⟩ := hmid.null (h.capped hnull haligned).1
      rw [Nat.min_eq_left hslid] at hnulls
      have hslidHeld := numHeld_le_of_null hnulls
      omega

/-- If the cap holds, blocks and growth together cover what the group holds later. -/
theorem Within.held_le_growth (h : Within id numTokens m₀ m) (hcap : CapHolds m₀ id numTokens) :
    numHeld (m.table id) ≤ numHeld (m₀.table id) + groupGrowth m₀ id numTokens := by
  have hle := h.length_le
  have hheld := h.held_le
  have hnot : numRequired m₀ numTokens = numTokens ⌈/⌉ m₀.blockSize →
      numHeld (m.table id) ≤ numHeld (m₀.table id) + groupGrowth m₀ id numTokens := by
    intro hrequired
    rw [groupGrowth, hrequired]
    omega
  rcases hcap with huncut | hcomplete | ⟨hnull, haligned⟩
  · apply hnot
    unfold numRequired
    cases hcap : m₀.maxAdmissionBlocksPerRequest with
    | none => rfl
    | some cap => exact Nat.min_eq_left (huncut cap hcap)
  · omega
  · cases hcap : m₀.maxAdmissionBlocksPerRequest with
    | none =>
        apply hnot
        rw [numRequired, hcap]
    | some cap =>
        have hcapped := (h.capped hnull haligned).2 cap hcap
        have hfull := numHeld_eq_length hnull
        have hrequired : numRequired m₀ numTokens = min (numTokens ⌈/⌉ m₀.blockSize) cap := by
          rw [numRequired, hcap]
        rcases Nat.le_total (numTokens ⌈/⌉ m₀.blockSize) cap with hlt | hlt
        · exact hnot (hrequired.trans (Nat.min_eq_left hlt))
        · rw [groupGrowth, hrequired, Nat.min_eq_right hlt]
          omega

end Course

end TokenCake.KV
