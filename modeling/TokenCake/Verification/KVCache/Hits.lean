import TokenCake.Verification.KVCache.Managers

/-! # Hits of the prefix cache

Every block of a hit is cached under the hash of its own index, so a hit holds no block twice. -/

namespace TokenCake.KV

variable {η : Type} [DecidableEq η]

/-! ## Rows -/

section Rows

variable {lookup : ℕ → Option Row} {nullRow : Row} {rows : List Row} {numGroups blockSize : ℕ}

/-- Every row is the one found at its index, or stands for a skipped block. -/
def RowsFrom (lookup : ℕ → Option Row) (nullRow : Row) (rows : List Row) : Prop :=
  ∀ i row, rows[i]? = some row → row = nullRow ∨ lookup i = some row

theorem RowsFrom.take (h : RowsFrom lookup nullRow rows) (n : ℕ) :
    RowsFrom lookup nullRow (rows.take n) := by
  intro i row hrow
  rw [List.getElem?_take] at hrow
  split at hrow
  · exact h i row hrow
  · cases hrow

theorem RowsFrom.alignRows (h : RowsFrom lookup nullRow rows) (alignment : ℕ) :
    RowsFrom lookup nullRow (alignRows blockSize alignment rows) := h.take _

theorem length_alignRows_le (blockSize alignment : ℕ) (rows : List Row) :
    (alignRows blockSize alignment rows).length ≤ rows.length :=
  (List.take_sublist ..).length_le

theorem getElem?_hitsFrom {i n j : ℕ} {row : Row} (h : (hitsFrom lookup i n)[j]? = some row) :
    lookup (i + j) = some row := by
  induction n generalizing i j with
  | zero => cases h
  | succ n ih =>
      unfold hitsFrom at h
      cases hfound : lookup i with
      | none =>
          rw [hfound] at h
          cases h
      | some first =>
          rw [hfound] at h
          cases j with
          | zero => exact hfound.trans h
          | succ j =>
              rw [List.getElem?_cons_succ] at h
              have := ih h
              rwa [Nat.add_right_comm] at this

theorem length_hitsFrom_le (i n : ℕ) : (hitsFrom lookup i n).length ≤ n := by
  induction n generalizing i with
  | zero => exact le_rfl
  | succ n ih =>
      unfold hitsFrom
      cases lookup i with
      | none => exact Nat.zero_le _
      | some row => exact Nat.succ_le_succ (ih (i + 1))

/-- The length of a hit in blocks; a group that drops its last block looks one block further. -/
def ShortHit (maxNumBlocks : ℕ) (useEagle : Bool) (rows : List Row) : Prop :=
  rows = [] ∨ rows.length + (if useEagle then 1 else 0) ≤ maxNumBlocks

theorem ShortHit.alignRows {maxNumBlocks alignment : ℕ} {useEagle : Bool}
    (h : ShortHit maxNumBlocks useEagle rows) :
    ShortHit maxNumBlocks useEagle (alignRows blockSize alignment rows) := by
  rcases h with hnil | hle
  · exact .inl (by simp [KV.alignRows, hnil])
  · have := length_alignRows_le blockSize alignment rows
    exact .inr (by omega)

theorem ShortHit.dropLast {maxNumBlocks : ℕ} (h : rows.length ≤ maxNumBlocks) :
    ShortHit maxNumBlocks true rows.dropLast := by
  cases rows with
  | nil => exact .inl rfl
  | cons row rows =>
      refine .inr ?_
      rw [List.length_dropLast]
      simpa using h

theorem fullAttentionHit_spec (maxLength alignment : ℕ) (useEagle : Bool) :
    RowsFrom lookup nullRow (fullAttentionHit lookup blockSize maxLength alignment useEagle) ∧
      ShortHit (maxLength / blockSize) useEagle
        (fullAttentionHit lookup blockSize maxLength alignment useEagle) := by
  have hrows : RowsFrom lookup nullRow (hitsFrom lookup 0 (maxLength / blockSize)) := by
    intro i row hrow
    rw [← Nat.zero_add i]
    exact .inr (getElem?_hitsFrom hrow)
  have hlength : (hitsFrom lookup 0 (maxLength / blockSize)).length ≤ maxLength / blockSize :=
    length_hitsFrom_le ..
  cases useEagle with
  | true =>
      refine ⟨?_, (ShortHit.dropLast hlength).alignRows⟩
      exact (List.dropLast_eq_take ▸ hrows.take _ : RowsFrom _ _ (List.dropLast _)).alignRows _
  | false => exact ⟨hrows.alignRows _, ShortHit.alignRows (.inr hlength)⟩

theorem scanWindow_spec (blockSize alignment contiguousBlocks : ℕ) (useEagle : Bool)
    (i contiguous : ℕ) (h : RowsFrom lookup nullRow rows) :
    RowsFrom lookup nullRow
        (scanWindow lookup blockSize alignment contiguousBlocks useEagle i rows contiguous).1 ∧
      (scanWindow lookup blockSize alignment contiguousBlocks useEagle i rows contiguous).1.length ≤
        rows.length := by
  induction i generalizing rows contiguous with
  | zero => exact ⟨h, le_rfl⟩
  | succ i ih =>
      unfold scanWindow
      cases hfound : lookup i with
      | none => exact ih 0 h
      | some row =>
          have hset : RowsFrom lookup nullRow (rows.set i row) := by
            intro j row' hrow
            rw [List.getElem?_set] at hrow
            split at hrow
            · next hj =>
                split at hrow
                · obtain rfl := Option.some.inj hrow
                  exact .inr (hj ▸ hfound)
                · cases hrow
            · exact h j row' hrow
          dsimp only
          generalize (if useEagle then i else i + 1) = postPopBlocks
          split
          · exact ih contiguous h
          · split
            · refine ⟨hset.take _, ?_⟩
              rw [List.length_take, List.length_set]
              exact Nat.min_le_right ..
            · have hrest := ih (contiguous + 1) hset
              rw [List.length_set] at hrest
              exact hrest

theorem slidingWindowHit_spec (slidingWindow maxLength alignment : ℕ) (useEagle : Bool) :
    RowsFrom lookup (List.replicate numGroups nullBlock)
        (slidingWindowHit lookup slidingWindow numGroups blockSize maxLength alignment useEagle) ∧
      ShortHit (maxLength / blockSize) useEagle
        (slidingWindowHit lookup slidingWindow numGroups blockSize maxLength alignment useEagle) := by
  have hstart : RowsFrom lookup (List.replicate numGroups nullBlock)
      (List.replicate (maxLength / blockSize) (List.replicate numGroups nullBlock)) := by
    intro i row hrow
    exact .inl (List.eq_of_mem_replicate (List.mem_of_getElem? hrow))
  have hscan := scanWindow_spec blockSize alignment
    ((slidingWindow - 1) ⌈/⌉ blockSize + if useEagle then 1 else 0) useEagle
    (maxLength / blockSize) 0 hstart
  rw [List.length_replicate] at hscan
  unfold slidingWindowHit
  dsimp only
  generalize hrows : scanWindow lookup blockSize alignment _ useEagle (maxLength / blockSize) _ 0 =
    found at hscan ⊢
  -- The rows before the last block is dropped.
  obtain ⟨hfrom, hlength⟩ : RowsFrom lookup (List.replicate numGroups nullBlock)
      (if found.2.2 then found.1
        else alignRows blockSize alignment (found.1.take found.2.1)) ∧
      (if found.2.2 then found.1
        else alignRows blockSize alignment (found.1.take found.2.1)).length ≤
        maxLength / blockSize := by
    split
    · exact hscan
    · refine ⟨(hscan.1.take _).alignRows _, (length_alignRows_le ..).trans ?_⟩
      exact ((List.take_sublist ..).length_le).trans hscan.2
  generalize (if found.2.2 then found.1
    else alignRows blockSize alignment (found.1.take found.2.1)) = rows at hfrom hlength ⊢
  split
  · next heagle =>
      rw [heagle.1]
      refine ⟨?_, (ShortHit.dropLast hlength).alignRows⟩
      exact (List.dropLast_eq_take ▸ hfrom.take _ : RowsFrom _ _ (List.dropLast _)).alignRows _
  · next heagle =>
      refine ⟨hfrom, ?_⟩
      cases useEagle with
      | true =>
          refine .inl ?_
          by_contra hne
          exact heagle ⟨rfl, hne⟩
      | false => exact .inr hlength

theorem findLongestCacheHit_spec (spec : KVCacheSpec) (maxLength alignment : ℕ)
    (useEagle : Bool) :
    Ensures KVError.Ordinary
      (fun rows => RowsFrom lookup (List.replicate numGroups nullBlock) rows ∧
        ShortHit (maxLength / spec.blockSize) useEagle rows)
      (findLongestCacheHit spec lookup numGroups maxLength alignment useEagle) := by
  unfold findLongestCacheHit
  split
  · exact .ok (fullAttentionHit_spec ..)
  · exact .ok (slidingWindowHit_spec ..)
  · next c _ =>
      unfold chunkedLocalHit
      split
      · exact .error ⟨by decide, by decide⟩
      · next hvalid =>
          refine .ok ⟨?_, .inr ?_⟩
          · intro i row hrow
            rw [List.getElem?_append] at hrow
            split at hrow
            · exact .inl (List.eq_of_mem_replicate (List.mem_of_getElem? hrow))
            · next hi =>
                have hfound := getElem?_hitsFrom hrow
                rw [List.length_replicate] at hi hfound
                rw [Nat.add_sub_cancel' (by omega)] at hfound
                exact .inr hfound
          · have hstart : maxLength / c * c / spec.blockSize ≤ maxLength / spec.blockSize :=
              Nat.div_le_div_right (Nat.div_mul_le_self ..)
            have hlength : (hitsFrom lookup (maxLength / c * c / spec.blockSize)
                (maxLength / spec.blockSize - maxLength / c * c / spec.blockSize)).length ≤
                  maxLength / spec.blockSize - maxLength / c * c / spec.blockSize :=
              length_hitsFrom_le ..
            have hoff : useEagle = false := by
              cases useEagle with
              | true => exact absurd (.inl rfl) hvalid
              | false => rfl
            rw [List.length_append, List.length_replicate, hoff]
            simp only [Bool.false_eq_true, if_false]
            omega

end Rows

end TokenCake.KV
