import Mathlib.Order.Bounds.Basic
import TokenCake.Verification.KVCache.Hits

/-! # The longest hit of one group

A group needs the blocks from some index on: all of them, or those of its window. Its hit is the
longest aligned prefix whose needed blocks are all cached. -/

namespace TokenCake.KV

variable {η : Type} [DecidableEq η]

namespace KVCacheSpec

/-- The first block that a prefix of `n` blocks needs. -/
def neededFrom (spec : KVCacheSpec) (n : ℕ) : ℕ :=
  match spec.kind with
  | .slidingWindow w => n - (w - 1) ⌈/⌉ spec.blockSize
  | _ => 0

/-- The specs that the search of several groups is about. -/
def Searchable (spec : KVCacheSpec) : Prop :=
  spec.kind = .fullAttention ∨ ∃ w, 2 ≤ w ∧ spec.kind = .slidingWindow w

end KVCacheSpec

section Rows

variable {lookup : ℕ → Option Row} {nullRow : Row}

/-- The blocks from `start` up to `n` are cached. -/
def Covers (lookup : ℕ → Option Row) (start n : ℕ) : Prop :=
  ∀ i, start ≤ i → i < n → (lookup i).isSome

/-- A hit of `n` blocks, with a placeholder in the rows below `start`. -/
def hitRows (lookup : ℕ → Option Row) (nullRow : Row) (start n : ℕ) : List Row :=
  (List.range n).map fun i => if i < start then nullRow else (lookup i).getD nullRow

@[simp]
theorem length_hitRows (start n : ℕ) : (hitRows lookup nullRow start n).length = n := by
  simp [hitRows]

theorem take_hitRows {start n k : ℕ} (h : k ≤ n) :
    (hitRows lookup nullRow start n).take k = hitRows lookup nullRow start k := by
  simp [hitRows, ← List.map_take, List.take_range, h]

theorem getElem?_hitRows {start n i : ℕ} (h : i < n) :
    (hitRows lookup nullRow start n)[i]? =
      some (if i < start then nullRow else (lookup i).getD nullRow) := by
  simp [hitRows, h]

theorem Covers.mono {start start' n n' : ℕ} (h : Covers lookup start n) (hs : start ≤ start')
    (hn : n' ≤ n) : Covers lookup start' n' :=
  fun i hi hlt => h i (hs.trans hi) (hlt.trans_le hn)

/-- A list of rows is the hit as soon as it agrees with it below its length. -/
theorem eq_hitRows {rows : List Row} {start n : ℕ} (hlength : rows.length = n)
    (hnull : ∀ i < start, i < n → rows[i]? = some nullRow)
    (hfound : ∀ i, start ≤ i → i < n → rows[i]? = lookup i)
    (hcovers : Covers lookup start n) : rows = hitRows lookup nullRow start n := by
  apply List.ext_getElem?
  intro i
  by_cases hi : i < n
  · rw [getElem?_hitRows hi]
    by_cases hstart : i < start
    · rw [if_pos hstart, hnull i hstart hi]
    · have hsome := hcovers i (Nat.le_of_not_lt hstart) hi
      rw [if_neg hstart, hfound i (Nat.le_of_not_lt hstart) hi]
      obtain ⟨row, hrow⟩ := Option.isSome_iff_exists.mp hsome
      rw [hrow, Option.getD_some]
  · rw [List.getElem?_eq_none (by omega), List.getElem?_eq_none (by simp; omega)]

/-! ## Full attention -/

theorem popToAlignment_greatest (blockSize alignment k : ℕ) :
    IsGreatest {n | n ≤ k ∧ alignment ∣ n * blockSize} (popToAlignment blockSize alignment k) := by
  induction k with
  | zero => exact ⟨⟨le_rfl, by simp [popToAlignment]⟩, fun n hn => hn.1⟩
  | succ k ih =>
      unfold popToAlignment
      split
      · next haligned =>
          refine ⟨⟨le_rfl, ?_⟩, fun n hn => hn.1⟩
          rcases haligned with rfl | haligned
          · exact Dvd.intro_left _ rfl
          · exact Nat.dvd_of_mod_eq_zero haligned
      · next haligned =>
          refine ⟨⟨ih.1.1.trans (Nat.le_succ k), ih.1.2⟩, ?_⟩
          intro n hn
          have hne : n ≠ k + 1 := by
            rintro rfl
            exact haligned (.inr (Nat.mod_eq_zero_of_dvd hn.2))
          have hle : n ≤ k := by have := hn.1; omega
          exact ih.2 ⟨hle, hn.2⟩

/-- The rows of `hitsFrom` stop at the first miss. -/
theorem hitsFrom_eq (lookup : ℕ → Option Row) (nullRow : Row) (i n : ℕ) :
    ∃ k ≤ n, hitsFrom lookup i n = (List.range' i k).map (fun j => (lookup j).getD nullRow) ∧
      Covers lookup i (i + k) ∧ (k < n → lookup (i + k) = none) := by
  induction n generalizing i with
  | zero => exact ⟨0, le_rfl, rfl, fun j hj hlt => by omega, fun h => absurd h (Nat.lt_irrefl 0)⟩
  | succ n ih =>
      unfold hitsFrom
      cases hfound : lookup i with
      | none => exact ⟨0, Nat.zero_le _, rfl, fun j hj hlt => by omega, fun _ => hfound⟩
      | some row =>
          obtain ⟨k, hk, heq, hcovers, hmiss⟩ := ih (i + 1)
          refine ⟨k + 1, Nat.succ_le_succ hk, ?_, ?_, ?_⟩
          · simp [heq, List.range'_succ, hfound]
          · intro j hj hlt
            by_cases hji : j = i
            · simp [hji, hfound]
            · exact hcovers j (by omega) (by omega)
          · intro hlt
            have := hmiss (by omega)
            rwa [show i + 1 + k = i + (k + 1) by omega] at this

variable (lookup nullRow) in
theorem fullAttentionHit_greatest {blockSize : ℕ} (hpos : 0 < blockSize)
    (maxLength alignment : ℕ) :
    ∃ n, fullAttentionHit lookup blockSize maxLength alignment false =
        hitRows lookup nullRow 0 n ∧
      IsGreatest {n | n * blockSize ≤ maxLength ∧ alignment ∣ n * blockSize ∧
        Covers lookup 0 n} n := by
  obtain ⟨k, hk, heq, hcovers, hmiss⟩ := hitsFrom_eq lookup nullRow 0 (maxLength / blockSize)
  rw [Nat.zero_add] at hcovers hmiss
  have hrows : hitsFrom lookup 0 (maxLength / blockSize) = hitRows lookup nullRow 0 k := by
    simp [heq, hitRows, List.range_eq_range']
  have hgreatest := popToAlignment_greatest blockSize alignment k
  refine ⟨popToAlignment blockSize alignment k, ?_, ⟨?_, ?_, ?_⟩, ?_⟩
  · unfold fullAttentionHit
    dsimp only
    rw [if_neg (by decide), hrows, alignRows, length_hitRows, take_hitRows hgreatest.1.1]
  · exact (Nat.le_div_iff_mul_le hpos).mp (hgreatest.1.1.trans hk)
  · exact hgreatest.1.2
  · exact hcovers.mono le_rfl hgreatest.1.1
  · rintro n ⟨hn, haligned, hcovered⟩
    refine hgreatest.2 ⟨?_, haligned⟩
    by_contra hlt
    have hmissing := hmiss (by have := (Nat.le_div_iff_mul_le hpos).mpr hn; omega)
    have hsome := hcovered k (Nat.zero_le _) (by omega)
    rw [hmissing] at hsome
    cases hsome

/-! ## Sliding windows -/

/-- The lengths at which a window of `c` blocks is cached. -/
def WindowLength (lookup : ℕ → Option Row) (blockSize alignment c n : ℕ) : Prop :=
  alignment ∣ n * blockSize ∧ Covers lookup (n - c) n

/-- What holds of the scan from the right before it looks at the blocks below `i`: the last
`contiguous` blocks are a beginning of a hit, and no longer hit exists. -/
structure Scanning (lookup : ℕ → Option Row) (nullRow : Row) (blockSize alignment c N i : ℕ)
    (rows : List Row) (contiguous : ℕ) : Prop where
  length : rows.length = N
  bound : i + contiguous ≤ N
  short : contiguous < c
  aligned : 0 < contiguous → alignment ∣ (i + contiguous) * blockSize
  below : ∀ j < i, rows[j]? = some nullRow
  found : ∀ j, i ≤ j → j < i + contiguous → rows[j]? = lookup j
  covers : Covers lookup i (i + contiguous)
  longest : ∀ n, n ≤ N → WindowLength lookup blockSize alignment c n → n ≤ i + contiguous

variable {blockSize alignment c N i contiguous : ℕ} {rows : List Row}

variable (lookup) in
theorem Scanning.start (nullRow : Row) (blockSize alignment N : ℕ) (hc : 0 < c) :
    Scanning lookup nullRow blockSize alignment c N N (List.replicate N nullRow) 0 where
  length := List.length_replicate
  bound := le_rfl
  short := hc
  aligned := fun h => absurd h (Nat.lt_irrefl 0)
  below := fun j hj => by simp [hj]
  found := fun j hj hlt => by omega
  covers := fun j hj hlt => by omega
  longest := fun n hn _ => hn

/-- A miss ends the hit that was begun. -/
theorem Scanning.miss
    (h : Scanning lookup nullRow blockSize alignment c N (i + 1) rows contiguous)
    (hfound : lookup i = none) : Scanning lookup nullRow blockSize alignment c N i rows 0 where
  length := h.length
  bound := by have := h.bound; omega
  short := by have := h.short; omega
  aligned := fun hpos => absurd hpos (Nat.lt_irrefl 0)
  below := fun j hj => h.below j (by omega)
  found := fun j hj hlt => by omega
  covers := fun j hj hlt => by omega
  longest := by
    intro n hn hwindow
    have hle := h.longest n hn hwindow
    by_contra hlt
    have hsome := hwindow.2 i (by have := h.short; omega) (by omega)
    rw [hfound] at hsome
    cases hsome

/-- A block that does not end at the alignment begins no hit. -/
theorem Scanning.skip (h : Scanning lookup nullRow blockSize alignment c N (i + 1) rows 0)
    (halignment : (i + 1) * blockSize % alignment ≠ 0) :
    Scanning lookup nullRow blockSize alignment c N i rows 0 where
  length := h.length
  bound := by have := h.bound; omega
  short := h.short
  aligned := fun hpos => absurd hpos (Nat.lt_irrefl 0)
  below := fun j hj => h.below j (by omega)
  found := fun j hj hlt => by omega
  covers := fun j hj hlt => by omega
  longest := by
    intro n hn hwindow
    have hle := h.longest n hn hwindow
    have hne : n ≠ i + 1 := by
      rintro rfl
      exact halignment (Nat.mod_eq_zero_of_dvd hwindow.1)
    omega

/-- The rows once the block at `i` joins the hit. -/
theorem Scanning.set {row : Row}
    (h : Scanning lookup nullRow blockSize alignment c N (i + 1) rows contiguous)
    (hfound : lookup i = some row) :
    (∀ j < i, (rows.set i row)[j]? = some nullRow) ∧
      (∀ j, i ≤ j → j < i + (contiguous + 1) → (rows.set i row)[j]? = lookup j) ∧
      Covers lookup i (i + (contiguous + 1)) := by
  have hlength := h.length
  have hbound := h.bound
  refine ⟨?_, ?_, ?_⟩
  · intro j hj
    rw [List.getElem?_set_ne (by omega)]
    exact h.below j (by omega)
  · intro j hj hlt
    by_cases hji : j = i
    · rw [hji, List.getElem?_set_self (by omega), hfound]
    · rw [List.getElem?_set_ne (by omega)]
      exact h.found j (by omega) (by omega)
  · intro j hj hlt
    by_cases hji : j = i
    · simp [hji, hfound]
    · exact h.covers j (by omega) (by omega)

/-- A block that continues the hit, or begins one at the alignment. -/
theorem Scanning.join {row : Row}
    (h : Scanning lookup nullRow blockSize alignment c N (i + 1) rows contiguous)
    (hfound : lookup i = some row) (haligned : alignment ∣ (i + (contiguous + 1)) * blockSize)
    (hshort : contiguous + 1 < c) :
    Scanning lookup nullRow blockSize alignment c N i (rows.set i row) (contiguous + 1) where
  length := (List.length_set ..).trans h.length
  bound := by have := h.bound; omega
  short := hshort
  aligned := fun _ => haligned
  below := (h.set hfound).1
  found := (h.set hfound).2.1
  covers := (h.set hfound).2.2
  longest := by
    intro n hn hwindow
    have := h.longest n hn hwindow
    omega

/-- The outcome of the scan: a full window, or what is left of one at the beginning. -/
theorem scanWindow_greatest (h : Scanning lookup nullRow blockSize alignment c N i rows contiguous) :
    ∃ rows' contiguous' matchFound,
      scanWindow lookup blockSize alignment c false i rows contiguous =
        (rows', contiguous', matchFound) ∧
      ∃ n, IsGreatest {n | n ≤ N ∧ WindowLength lookup blockSize alignment c n} n ∧
        (if matchFound then rows' else alignRows blockSize alignment (rows'.take contiguous')) =
          hitRows lookup nullRow (n - c) n := by
  induction i generalizing rows contiguous with
  | zero =>
      have hbound := h.bound
      have hlength := h.length
      have hshort := h.short
      have haligned : alignment ∣ contiguous * blockSize := by
        rcases Nat.eq_zero_or_pos contiguous with rfl | hpos
        · simp
        · simpa using h.aligned hpos
      have hcovers : Covers lookup 0 contiguous := by simpa using h.covers
      have hpop : popToAlignment blockSize alignment contiguous = contiguous :=
        le_antisymm (popToAlignment_greatest ..).1.1
          ((popToAlignment_greatest ..).2 ⟨le_rfl, haligned⟩)
      have hzero : contiguous - c = 0 := by omega
      refine ⟨rows, contiguous, false, rfl, contiguous, ⟨⟨by omega, haligned, ?_⟩, ?_⟩, ?_⟩
      · exact hcovers.mono (Nat.zero_le _) le_rfl
      · rintro n ⟨hn, hwindow⟩
        simpa using h.longest n hn hwindow
      · rw [if_neg (by decide), alignRows, List.length_take, Nat.min_eq_left (by omega), hpop,
          List.take_take, Nat.min_self, hzero]
        apply eq_hitRows (by simp; omega) (fun j hj => absurd hj (Nat.not_lt_zero j)) _ hcovers
        intro j hj hlt
        rw [List.getElem?_take_of_lt hlt]
        exact h.found j hj (by omega)
  | succ i ih =>
      unfold scanWindow
      cases hfound : lookup i with
      | none => exact ih (h.miss hfound)
      | some row =>
          simp only [Bool.false_eq_true, if_false]
          split
          · next hskip =>
              obtain ⟨rfl, -, halignment⟩ := hskip
              exact ih (h.skip halignment)
          · next hskip =>
              -- The block continues a hit, or it ends at the alignment.
              have haligned : alignment ∣ (i + (contiguous + 1)) * blockSize := by
                rcases Nat.eq_zero_or_pos contiguous with rfl | hpos
                · by_cases hsize : blockSize = alignment
                  · exact hsize ▸ Dvd.intro_left _ rfl
                  · by_contra hdvd
                    exact hskip ⟨rfl, hsize, fun hmod => hdvd (Nat.dvd_of_mod_eq_zero hmod)⟩
                · have := h.aligned hpos
                  rwa [show i + 1 + contiguous = i + (contiguous + 1) by omega] at this
              obtain ⟨hbelow, hrows, hcovers⟩ := h.set hfound
              have hbound := h.bound
              have hlength := h.length
              have hshort := h.short
              split
              · next hfull =>
                  have hstart : i + (contiguous + 1) - c = i := by omega
                  refine ⟨_, _, true, rfl, i + (contiguous + 1), ⟨⟨by omega, haligned, ?_⟩, ?_⟩, ?_⟩
                  · rwa [hstart]
                  · rintro n ⟨hn, hwindow⟩
                    have := h.longest n hn hwindow
                    omega
                  · rw [if_pos rfl, hstart]
                    apply eq_hitRows _ _ _ hcovers
                    · rw [List.length_take, List.length_set]
                      omega
                    · intro j hj hlt
                      rw [List.getElem?_take_of_lt hlt]
                      exact hbelow j hj
                    · intro j hj hlt
                      rw [List.getElem?_take_of_lt hlt]
                      exact hrows j hj hlt
              · next hfull => exact ih (h.join hfound haligned (by omega))

variable (lookup) in
theorem slidingWindowHit_greatest {w : ℕ} (numGroups : ℕ) (hpos : 0 < blockSize) (hw : 2 ≤ w)
    (maxLength alignment : ℕ) :
    ∃ n, slidingWindowHit lookup w numGroups blockSize maxLength alignment false =
        hitRows lookup (List.replicate numGroups nullBlock) (n - (w - 1) ⌈/⌉ blockSize) n ∧
      IsGreatest {n | n * blockSize ≤ maxLength ∧ alignment ∣ n * blockSize ∧
        Covers lookup (n - (w - 1) ⌈/⌉ blockSize) n} n := by
  have hc : 0 < (w - 1) ⌈/⌉ blockSize := by
    rw [Nat.pos_iff_ne_zero]
    intro hzero
    have hle := (ceilDiv_le_iff_le_mul hpos).mp hzero.le
    omega
  obtain ⟨rows, contiguous, matchFound, hscan, n, hgreatest, hrows⟩ := scanWindow_greatest
    (Scanning.start lookup (List.replicate numGroups nullBlock) blockSize alignment
      (maxLength / blockSize) hc)
  refine ⟨n, ?_, ⟨?_, hgreatest.1.2⟩, ?_⟩
  · unfold slidingWindowHit
    simp only [Bool.false_eq_true, if_false, Nat.add_zero, hscan, false_and]
    exact hrows
  · exact (Nat.le_div_iff_mul_le hpos).mp hgreatest.1.1
  · rintro k ⟨hk, hwindow⟩
    exact hgreatest.2 ⟨(Nat.le_div_iff_mul_le hpos).mpr hk, hwindow⟩

variable (lookup) in
/-- Without the drop of the last block, the hit of a group is the longest one there is. -/
theorem findLongestCacheHit_greatest {spec : KVCacheSpec} (hspec : spec.Searchable)
    (numGroups maxLength alignment : ℕ) :
    ∃ n, findLongestCacheHit spec lookup numGroups maxLength alignment false =
        .ok (hitRows lookup (List.replicate numGroups nullBlock) (spec.neededFrom n) n) ∧
      IsGreatest {n | n * spec.blockSize ≤ maxLength ∧ alignment ∣ n * spec.blockSize ∧
        Covers lookup (spec.neededFrom n) n} n := by
  rcases hspec with hkind | ⟨w, hw, hkind⟩
  · obtain ⟨n, heq, hgreatest⟩ := fullAttentionHit_greatest lookup
      (List.replicate numGroups nullBlock) spec.blockSize_pos maxLength alignment
    refine ⟨n, ?_, ?_⟩
    · simp only [findLongestCacheHit, KVCacheSpec.neededFrom, hkind, heq]
    · simpa only [KVCacheSpec.neededFrom, hkind] using hgreatest
  · obtain ⟨n, heq, hgreatest⟩ := slidingWindowHit_greatest lookup numGroups
      spec.blockSize_pos hw maxLength alignment
    refine ⟨n, ?_, ?_⟩
    · simp only [findLongestCacheHit, KVCacheSpec.neededFrom, hkind, heq]
    · simpa only [KVCacheSpec.neededFrom, hkind] using hgreatest

end Rows

end TokenCake.KV
