import Mathlib.Tactic.Linarith
import TokenCake.Lib.HashChain
import TokenCake.Model.BlockHash

/-! # The extra keys of a block

The loop over the multimodal items resumes where the last block stopped. What it finds does
not depend on that place, as long as the items before it end before the block. -/

namespace TokenCake.Hash

variable {δ : Type} {features : List MultiModalFeature} {start stop idx : ℕ}

/-! ## One block -/

/-- Items that end before the block are skipped. -/
theorem mmKeysFrom_append_of_passed {before rest : List MultiModalFeature} (hlt : start < stop)
    (hbefore : ∀ f ∈ before, f.stop ≤ start) :
    mmKeysFrom δ start stop (before ++ rest) idx =
      mmKeysFrom δ start stop rest (idx + before.length) := by
  induction before generalizing idx with
  | nil => rfl
  | cons f before ih =>
      have hf : f.stop ≤ start := hbefore f (List.mem_cons_self ..)
      have hoffset : f.offset < stop := by
        unfold MultiModalFeature.stop at hf
        omega
      rw [List.cons_append, mmKeysFrom, if_pos hoffset, if_pos hf,
        ih fun g hg => hbefore g (List.mem_cons_of_mem _ hg), List.length_cons]
      congr 1
      omega

/-- The loop stops at an item that reaches past the block, or at the end. -/
theorem mmKeysFrom_index (hlt : start ≤ stop) (rest : List MultiModalFeature) (idx : ℕ) :
    ∃ n ≤ rest.length, (mmKeysFrom δ start stop rest idx).2 = idx + n ∧
      ∀ f ∈ rest.take n, f.stop ≤ stop := by
  induction rest generalizing idx with
  | nil => exact ⟨0, le_refl _, rfl, by simp⟩
  | cons f rest ih =>
      obtain ⟨n, hn, hidx, htaken⟩ := ih (idx + 1)
      have hnext : f.stop ≤ stop → ∀ g ∈ (f :: rest).take (n + 1), g.stop ≤ stop := by
        intro hf g hg
        rw [List.take_succ_cons, List.mem_cons] at hg
        cases hg with
        | inl heq => exact heq ▸ hf
        | inr hmem => exact htaken g hmem
      have hcount : idx + 1 + n = idx + (n + 1) := by omega
      rw [mmKeysFrom]
      split
      · split
        · next hpassed =>
          exact ⟨n + 1, by simpa using hn, hidx.trans hcount, hnext (hpassed.trans hlt)⟩
        · dsimp only
          split
          · next hinside =>
            exact ⟨n + 1, by simpa using hn, hidx.trans hcount, hnext hinside⟩
          · exact ⟨0, Nat.zero_le _, rfl, by simp⟩
      · exact ⟨0, Nat.zero_le _, rfl, by simp⟩

/-- Items outside of the block give no keys. -/
theorem mmKeysFrom_of_disjoint {rest : List MultiModalFeature}
    (hrest : ∀ f ∈ rest, f.stop ≤ start ∨ stop ≤ f.offset) (idx : ℕ) :
    (mmKeysFrom δ start stop rest idx).1 = [] := by
  induction rest generalizing idx with
  | nil => rfl
  | cons f rest ih =>
      rw [mmKeysFrom]
      split
      · next hoffset =>
        have hpassed := (hrest f (List.mem_cons_self ..)).resolve_right (Nat.not_le_of_lt hoffset)
        rw [if_pos hpassed]
        exact ih (fun g hg => hrest g (List.mem_cons_of_mem _ hg)) _
      · rfl

/-- Items behind the block give no keys. -/
theorem mmKeysFrom_append_of_behind {rest behind : List MultiModalFeature}
    (hbehind : ∀ f ∈ behind, stop ≤ f.offset) (idx : ℕ) :
    (mmKeysFrom δ start stop (rest ++ behind) idx).1 =
      (mmKeysFrom δ start stop rest idx).1 := by
  induction rest generalizing idx with
  | nil => exact mmKeysFrom_of_disjoint (fun f hf => .inr (hbehind f hf)) idx
  | cons f rest ih =>
      rw [List.cons_append, mmKeysFrom, mmKeysFrom]
      split
      · split
        · exact ih _
        · dsimp only
          split
          · exact congrArg (List.cons _) (ih _)
          · rfl
      · rfl

/-- The index is only counted along. -/
theorem mmKeysFrom_keys (rest : List MultiModalFeature) (idx idx' : ℕ) :
    (mmKeysFrom δ start stop rest idx).1 = (mmKeysFrom δ start stop rest idx').1 := by
  induction rest generalizing idx idx' with
  | nil => rfl
  | cons f rest ih =>
      rw [mmKeysFrom, mmKeysFrom]
      split
      · split
        · exact ih _ _
        · dsimp only
          split
          · exact congrArg (List.cons _) (ih _ _)
          · rfl
      · rfl

/-! ## The index from which a block is searched -/

/-- The place that an index stands for. -/
def place (features : List MultiModalFeature) (idx : ℤ) : ℕ :=
  (if idx < 0 then features.length + idx else idx).toNat

/-- The items before the index end before the token. -/
def Passed (features : List MultiModalFeature) (idx : ℤ) (start : ℕ) : Prop :=
  ∀ f ∈ features.take (place features idx), f.stop ≤ start

theorem passed_zero (features : List MultiModalFeature) (start : ℕ) : Passed features 0 start := by
  simp [Passed, place]

theorem Passed.mono {idx : ℤ} {later : ℕ} (h : Passed features idx start) (hle : start ≤ later) :
    Passed features idx later :=
  fun f hf => (h f hf).trans hle

/-- The keys of a block, searched from the first item on. -/
def mmKeys (δ : Type) (features : List MultiModalFeature) (start stop : ℕ) :
    List (ExtraKey δ) :=
  (genMmExtraHashKeys δ features start stop 0).1

/-- The search may start at any index whose items before it have passed. -/
theorem genMmExtraHashKeys_of_passed {idx : ℤ} (hlt : start < stop)
    (h : Passed features idx start) :
    (genMmExtraHashKeys δ features start stop idx).1 = mmKeys δ features start stop ∧
      Passed features (genMmExtraHashKeys δ features start stop idx).2 stop := by
  unfold mmKeys genMmExtraHashKeys
  split
  · exact ⟨rfl, h.mono hlt.le⟩
  · split
    · exact ⟨rfl, h.mono hlt.le⟩
    · change (mmKeysFrom δ start stop (features.drop (place features idx))
          (place features idx)).1 = (mmKeysFrom δ start stop (features.drop 0) 0).1 ∧
        Passed features ((mmKeysFrom δ start stop (features.drop (place features idx))
          (place features idx)).2 : ℕ) stop
      generalize hplace : place features idx = n
      have hbefore : ∀ f ∈ features.take n, f.stop ≤ start := hplace ▸ h
      constructor
      · rw [List.drop_zero]
        conv_rhs => rw [← List.take_append_drop n features,
          mmKeysFrom_append_of_passed hlt hbefore]
        exact mmKeysFrom_keys _ _ _
      · obtain ⟨m, -, hidx, htaken⟩ := mmKeysFrom_index (δ := δ) hlt.le (features.drop n) n
        intro f hf
        rw [hidx] at hf
        have hplace' : place features ((n + m : ℕ) : ℤ) = n + m := by
          simp [place]
          omega
        rw [hplace', List.take_add, List.mem_append] at hf
        cases hf with
        | inl hf => exact (hbefore f hf).trans hlt.le
        | inr hf => exact htaken f hf

/-- Items outside of the block give no keys, wherever the search starts. -/
theorem genMmExtraHashKeys_of_disjoint
    (h : ∀ f ∈ features, f.stop ≤ start ∨ stop ≤ f.offset) (idx : ℤ) :
    (genMmExtraHashKeys δ features start stop idx).1 = [] := by
  unfold genMmExtraHashKeys
  split
  · rfl
  · split
    · rfl
    · exact mmKeysFrom_of_disjoint (fun f hf => h f (List.mem_of_mem_drop hf)) _

theorem mmKeys_of_reached {last : MultiModalFeature} (hlast : features.getLast? = some last)
    (hreach : start < last.stop) :
    mmKeys δ features start stop = (mmKeysFrom δ start stop features 0).1 := by
  unfold mmKeys genMmExtraHashKeys
  rw [hlast]
  dsimp only
  rw [if_neg (Nat.not_le_of_lt hreach)]
  rfl

/-! ## A search that resumes at the last item -/

/-- The index is the last item, until that one has passed. -/
def AtLast (features : List MultiModalFeature) (idx : ℤ) (start : ℕ) : Prop :=
  ∀ last ∈ features.getLast?, start < last.stop → place features idx = features.length - 1

theorem atLast_neg_one (features : List MultiModalFeature) (start : ℕ) :
    AtLast features (-1) start := by
  intro _ _ _
  unfold place
  rw [if_pos (by omega)]
  omega

/-- A search that starts at the last item misses none in the block: the last item has passed, or the
others have, or no item overlaps the block. -/
def LastSuffices (features : List MultiModalFeature) (start stop : ℕ) : Prop :=
  ∀ last ∈ features.getLast?, start < last.stop → (∀ f ∈ features.dropLast, f.stop ≤ start) ∨
    ∀ f ∈ features, f.stop ≤ start ∨ stop ≤ f.offset

theorem genMmExtraHashKeys_of_atLast {idx : ℤ} (hlt : start < stop)
    (h : AtLast features idx start) (hlast : LastSuffices features start stop) :
    (genMmExtraHashKeys δ features start stop idx).1 = mmKeys δ features start stop ∧
      AtLast features (genMmExtraHashKeys δ features start stop idx).2 stop := by
  cases hget : features.getLast? with
  | none =>
      unfold mmKeys genMmExtraHashKeys AtLast
      rw [hget]
      exact ⟨rfl, fun last hmem => by cases hmem⟩
  | some last =>
      by_cases hpassed : last.stop ≤ start
      · unfold mmKeys genMmExtraHashKeys AtLast
        rw [hget]
        dsimp only
        rw [if_pos hpassed, if_pos hpassed]
        refine ⟨rfl, fun _ hmem hreach => ?_⟩
        obtain rfl := Option.some.inj hmem
        omega
      · have hplace := h last hget (Nat.lt_of_not_le hpassed)
        have hdrop : features.drop (features.length - 1) = [last] := by
          obtain ⟨front, hfront⟩ := List.getLast?_eq_some_iff.mp hget
          rw [hfront]
          simp
        constructor
        · rcases hlast last hget (Nat.lt_of_not_le hpassed) with hothers | hdisjoint
          · refine (genMmExtraHashKeys_of_passed hlt ?_).1
            rw [Passed, hplace, ← List.dropLast_eq_take]
            exact hothers
          · rw [mmKeys, genMmExtraHashKeys_of_disjoint hdisjoint,
              genMmExtraHashKeys_of_disjoint hdisjoint]
        · intro last' hmem hreach
          obtain rfl : last = last' := Option.some.inj (hget.symm.trans hmem)
          -- An item that reaches past the block stays the next one.
          have hnext : (genMmExtraHashKeys δ features start stop idx).2 =
              ((features.length - 1 : ℕ) : ℤ) := by
            unfold genMmExtraHashKeys
            rw [hget]
            dsimp only
            rw [if_neg hpassed]
            change ((mmKeysFrom δ start stop (features.drop (place features idx))
              (place features idx)).2 : ℤ) = _
            rw [hplace, hdrop, mmKeysFrom, if_neg hpassed]
            dsimp only
            rw [if_neg (Nat.not_le_of_lt hreach)]
            split <;> rfl
          rw [hnext, place, if_neg (by omega)]
          rfl

/-- Items that are added behind a block leave its keys alone, unless the last of the others has
passed and an earlier one has not. -/
theorem mmKeys_append {behind : List MultiModalFeature} (hlt : start < stop)
    (hbehind : ∀ f ∈ behind, stop ≤ f.offset)
    (hlast : behind = [] ∨ ∀ last ∈ features.getLast?, last.stop ≤ start →
      ∀ f ∈ features, f.stop ≤ start ∨ stop ≤ f.offset) :
    mmKeys δ (features ++ behind) start stop = mmKeys δ features start stop := by
  cases hnew : behind.getLast? with
  | none => rw [List.getLast?_eq_none_iff.mp hnew, List.append_nil]
  | some g =>
      have hg : stop ≤ g.offset := hbehind g (List.mem_of_getLast? hnew)
      have hne : behind ≠ [] := fun heq => by rw [heq] at hnew; cases hnew
      have hlast' : (features ++ behind).getLast? = some g := by
        rw [List.getLast?_append, hnew, Option.some_or]
      rw [mmKeys_of_reached hlast' (by unfold MultiModalFeature.stop; omega),
        mmKeysFrom_append_of_behind hbehind]
      cases hold : features.getLast? with
      | none => rw [List.getLast?_eq_none_iff.mp hold]; rfl
      | some last =>
          by_cases hpassed : last.stop ≤ start
          · -- the old search returned at once, the new one passes all items
            have hall := hlast.resolve_left hne last hold hpassed
            rw [mmKeysFrom_of_disjoint hall]
            exact (genMmExtraHashKeys_of_disjoint hall 0).symm
          · rw [mmKeys_of_reached hold (Nat.lt_of_not_le hpassed)]

/-! ## The items that a search shows -/

/-- The items that the loop reaches. It ends at the first one that reaches past the block, and before
the first one that begins behind it. -/
def reachedItems (stop : ℕ) : List MultiModalFeature → List MultiModalFeature
  | [] => []
  | f :: rest =>
      if f.offset < stop then f :: (if f.stop ≤ stop then reachedItems stop rest else []) else []

/-- The items that are shown in the keys of a block: those that are reached and overlap it. Nothing
is shown once the last item has ended. -/
def shownItems (features : List MultiModalFeature) (start stop : ℕ) : List MultiModalFeature :=
  match features.getLast? with
  | none => []
  | some last =>
      if last.stop ≤ start then []
      else (reachedItems stop features).filter fun f => decide (start < f.stop)

theorem reachedItems_subset (stop : ℕ) (rest : List MultiModalFeature) :
    reachedItems stop rest ⊆ rest := by
  induction rest with
  | nil => exact List.Subset.refl _
  | cons f rest ih =>
      rw [reachedItems]
      split
      · refine List.cons_subset_cons f ?_
        split
        · exact ih
        · exact List.nil_subset _
      · exact List.nil_subset _

theorem mem_of_mem_shownItems {f : MultiModalFeature} (h : f ∈ shownItems features start stop) :
    f ∈ features := by
  unfold shownItems at h
  split at h
  · cases h
  · split at h
    · cases h
    · exact reachedItems_subset stop features (List.mem_filter.mp h).1

/-- Items that neither overlap nor come out of order. -/
def Exclusive (features : List MultiModalFeature) : Prop :=
  features.Pairwise fun f g => f.stop ≤ g.offset

/-- Of such items, every one that overlaps the block is shown. -/
theorem mem_shownItems {f : MultiModalFeature} (hexclusive : Exclusive features)
    (hf : f ∈ features) (hoffset : f.offset < stop) (hstop : start < f.stop) :
    f ∈ shownItems features start stop := by
  have hreached : ∀ rest : List MultiModalFeature, Exclusive rest → f ∈ rest →
      f ∈ reachedItems stop rest := by
    intro rest
    induction rest with
    | nil => exact fun _ hmem => absurd hmem List.not_mem_nil
    | cons g rest ih =>
        intro hpairs hmem
        obtain ⟨hfirst, hrest⟩ := List.pairwise_cons.mp hpairs
        rw [reachedItems]
        rcases List.mem_cons.mp hmem with rfl | htail
        · rw [if_pos hoffset]
          exact List.mem_cons_self
        · -- the items before `f` end before it begins
          have hg : g.stop ≤ f.offset := hfirst f htail
          have hgoffset : g.offset < stop := by
            unfold MultiModalFeature.stop at hg
            omega
          rw [if_pos hgoffset, if_pos (by omega)]
          exact List.mem_cons_of_mem _ (ih hrest htail)
  unfold shownItems
  cases hlast : features.getLast? with
  | none =>
      rw [List.getLast?_eq_none_iff.mp hlast] at hf
      cases hf
  | some last =>
      have hreach : f.stop ≤ last.stop := by
        obtain ⟨front, hfront⟩ := List.getLast?_eq_some_iff.mp hlast
        rw [hfront, List.mem_append, List.mem_singleton] at hf
        rcases hf with hmem | rfl
        · rw [hfront, Exclusive, List.pairwise_append] at hexclusive
          have := hexclusive.2.2 f hmem last (List.mem_singleton_self _)
          unfold MultiModalFeature.stop at *
          omega
        · exact le_rfl
      dsimp only
      rw [if_neg (by omega)]
      exact List.mem_filter.mpr ⟨hreached features hexclusive hf, decide_eq_true hstop⟩

end TokenCake.Hash
