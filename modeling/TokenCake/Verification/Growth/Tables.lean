import TokenCake.Model.Growth
import TokenCake.Verification.KVCache.Managers

/-! # How one call changes the tables of a request

A call of `allocate_slots` replaces the blocks before the window by placeholders and appends new
blocks. -/

namespace TokenCake.KV

variable {η : Type} [DecidableEq η]

/-! ## Tables -/

section Tables

variable {blocks : List BlockId} {i n : ℕ}

/-- The blocks of a table that are no placeholders. -/
def numHeld (blocks : List BlockId) : ℕ := blocks.countP (· ≠ nullBlock)

/-- The placeholders of a table come first. -/
def NullFirst (blocks : List BlockId) : Prop :=
  ∀ i j : ℕ, i ≤ j → blocks[j]? = some nullBlock → blocks[i]? = some nullBlock

theorem numHeld_append (blocks blocks' : List BlockId) :
    numHeld (blocks ++ blocks') = numHeld blocks + numHeld blocks' :=
  List.countP_append ..

theorem numHeld_le_length (blocks : List BlockId) : numHeld blocks ≤ blocks.length :=
  List.countP_le_length

theorem numHeld_eq_length (h : nullBlock ∉ blocks) : numHeld blocks = blocks.length := by
  rw [numHeld, List.countP_eq_length]
  intro b hb
  exact decide_eq_true fun hnull => h (hnull ▸ hb)

theorem NullFirst.of_not_mem (h : nullBlock ∉ blocks) : NullFirst blocks :=
  fun _ _ _ hj => absurd (List.mem_of_getElem? hj) h

theorem NullFirst.append (h : NullFirst blocks) {new : List BlockId} (hnew : nullBlock ∉ new) :
    NullFirst (blocks ++ new) := by
  intro i j hij hj
  rw [List.getElem?_append] at hj
  split at hj
  · next hlt =>
      rw [List.getElem?_append_left (hij.trans_lt hlt)]
      exact h i j hij hj
  · exact absurd (List.mem_of_getElem? hj) hnew

/-- Placeholders at the front do not count. -/
theorem numHeld_le_of_null (h : ∀ i < n, blocks[i]? = some nullBlock) :
    numHeld blocks + n ≤ blocks.length := by
  have hlength : (blocks.take n).length = n := by
    rw [List.length_take]
    rcases Nat.eq_zero_or_pos n with rfl | hpos
    · simp
    · have := (List.getElem?_eq_some_iff.mp (h (n - 1) (by omega))).1
      omega
  have hzero : numHeld (blocks.take n) = 0 := by
    rw [numHeld, List.countP_eq_zero]
    intro b hb
    obtain ⟨i, hi⟩ := List.mem_iff_getElem?.mp hb
    have hlt := (List.getElem?_eq_some_iff.mp hi).1
    rw [hlength] at hlt
    rw [List.getElem?_take_of_lt hlt, h i hlt] at hi
    simp [Option.some.inj hi]
  have hsplit := numHeld_append (blocks.take n) (blocks.drop n)
  have hdrop := numHeld_le_length (blocks.drop n)
  have hle : n ≤ blocks.length := by
    rw [← hlength]
    exact (List.take_sublist ..).length_le
  rw [List.take_append_drop] at hsplit
  rw [List.length_drop] at hdrop
  omega

theorem numHeld_set_null (blocks : List BlockId) (i : ℕ) :
    numHeld (blocks.set i nullBlock) ≤ numHeld blocks := by
  induction blocks generalizing i with
  | nil => exact le_rfl
  | cons b blocks ih =>
      cases i with
      | zero =>
          rw [List.set_cons_zero, numHeld, numHeld, List.countP_cons, List.countP_cons]
          simp
      | succ i =>
          rw [List.set_cons_succ, numHeld, numHeld, List.countP_cons, List.countP_cons]
          exact Nat.add_le_add_right (ih i) _

open SingleTypeKVCacheManager (removeBelow)

/-- Removing the blocks below `n`. -/
theorem removeBelow_table (blocks : List BlockId) (n : ℕ) :
    (removeBelow blocks n).2.length = blocks.length ∧
      numHeld (removeBelow blocks n).2 ≤ numHeld blocks := by
  induction n generalizing blocks with
  | zero => exact ⟨rfl, le_rfl⟩
  | succ i ih =>
      unfold removeBelow
      cases blocks[i]? with
      | none => exact ⟨rfl, le_rfl⟩
      | some b =>
          dsimp only
          by_cases hb : b = nullBlock
          · rw [if_pos hb]
            exact ⟨rfl, le_rfl⟩
          · rw [if_neg hb]
            obtain ⟨hlength, hheld⟩ := ih (blocks.set i nullBlock)
            exact ⟨hlength.trans (List.length_set ..), hheld.trans (numHeld_set_null ..)⟩

/-- If the placeholders come first, the loop leaves no other block below `n`. -/
theorem removeBelow_null (h : ∀ i j : ℕ, i ≤ j → j < n → blocks[j]? = some nullBlock →
      blocks[i]? = some nullBlock) (hn : n ≤ blocks.length) :
    (∀ i < n, (removeBelow blocks n).2[i]? = some nullBlock) ∧
      ∀ i, n ≤ i → (removeBelow blocks n).2[i]? = blocks[i]? := by
  induction n generalizing blocks with
  | zero => exact ⟨fun i hi => absurd hi (Nat.not_lt_zero i), fun i _ => rfl⟩
  | succ k ih =>
      unfold removeBelow
      rw [List.getElem?_eq_getElem (show k < blocks.length by omega)]
      dsimp only
      by_cases hb : blocks[k] = nullBlock
      · rw [if_pos hb]
        refine ⟨fun i hi => ?_, fun i _ => rfl⟩
        exact h i k (by omega) (Nat.lt_succ_self k)
          (by rw [List.getElem?_eq_getElem (show k < blocks.length by omega), hb])
      · rw [if_neg hb]
        have hset : ∀ i, i ≠ k → (blocks.set k nullBlock)[i]? = blocks[i]? :=
          fun i hi => List.getElem?_set_ne (Ne.symm hi)
        obtain ⟨hbelow, habove⟩ := @ih (blocks.set k nullBlock)
          (fun i j hij hj hnull => by
            rw [hset j (by omega)] at hnull
            rw [hset i (by omega)]
            exact h i j hij (by omega) hnull)
          (by rw [List.length_set]; omega)
        refine ⟨fun i hi => ?_, fun i hi => ?_⟩
        · by_cases hik : i = k
          · rw [hik, habove k le_rfl, List.getElem?_set_self (by omega)]
          · exact hbelow i (by omega)
        · rw [habove i (by omega), hset i (by omega)]

end Tables

end TokenCake.KV
