import TokenCake.Lib.Run
import TokenCake.Verification.BlockHash.Keys

/-! # Incremental hashing

The hashes of a request form a chain over the contents of its blocks. Extending the chain
gives the hashes of the current tokens as long as the contents of the hashed blocks stay the
same and the resumed search for multimodal items misses none. -/

namespace TokenCake.Hash

variable {η ε δ : Type} {hasher : BlockHasher η ε δ} {r r' : Request η ε}

namespace Request

/-! ## The contents of the blocks -/

/-- What the hash of a block is computed from, apart from its parent. -/
def blockContent (hasher : BlockHasher η ε δ) (r : Request η ε) (j : ℕ) :
    List ℕ × Option (List (ExtraKey δ)) :=
  let start := j * hasher.blockSize
  let stop := start + hasher.blockSize
  (slice r.allTokenIds start stop, (r.generateBlockHashExtraKeys hasher start stop 0).1)

/-- The hash of a block in the chain. -/
def chainHash (hasher : BlockHasher η ε δ) (parent : η)
    (content : List ℕ × Option (List (ExtraKey δ))) : η :=
  hasher.hashFunction (parent, content)

/-- The extra keys depend on the items through the keys that were found for them. -/
theorem generateBlockHashExtraKeys_congr {start stop : ℕ} {idx idx' : ℤ}
    (hmm : (genMmExtraHashKeys δ r.mmFeatures start stop idx).1 =
      (genMmExtraHashKeys δ r'.mmFeatures start stop idx').1)
    (hlora : r.loraName = r'.loraName) (hsalt : r.cacheSalt = r'.cacheSalt)
    (hembeds : r.promptEmbeds = r'.promptEmbeds) :
    (r.generateBlockHashExtraKeys hasher start stop idx).1 =
      (r'.generateBlockHashExtraKeys hasher start stop idx').1 := by
  unfold generateBlockHashExtraKeys genLoraExtraHashKeys cacheSaltKeys
    genPromptEmbedsExtraHashKeys
  dsimp only
  rw [hmm, hlora, hsalt, hembeds]

theorem generateBlockHashExtraKeys_index (start stop : ℕ) (idx : ℤ) :
    (r.generateBlockHashExtraKeys hasher start stop idx).2 =
      (genMmExtraHashKeys δ r.mmFeatures start stop idx).2 := rfl

/-- The index finds the items of the blocks: those before it have passed, or it is the last item
and that one suffices for every block. -/
def Finds (hasher : BlockHasher η ε δ) (features : List MultiModalFeature) (idx : ℤ)
    (j count : ℕ) : Prop :=
  Passed features idx (j * hasher.blockSize) ∨ AtLast features idx (j * hasher.blockSize) ∧
    ∀ i, j ≤ i → i < j + count →
      LastSuffices features (i * hasher.blockSize) (i * hasher.blockSize + hasher.blockSize)

/-- It finds the items of a block, and goes on to find those of the others. -/
theorem Finds.next {features : List MultiModalFeature} {idx : ℤ} {j count : ℕ}
    (h : Finds hasher features idx j (count + 1)) :
    (genMmExtraHashKeys δ features (j * hasher.blockSize)
        (j * hasher.blockSize + hasher.blockSize) idx).1 =
      mmKeys δ features (j * hasher.blockSize) (j * hasher.blockSize + hasher.blockSize) ∧
    Finds hasher features (genMmExtraHashKeys δ features (j * hasher.blockSize)
      (j * hasher.blockSize + hasher.blockSize) idx).2 (j + 1) count := by
  have hpos := Nat.lt_add_of_pos_right (n := j * hasher.blockSize) hasher.blockSize_pos
  unfold Finds at h ⊢
  rw [Nat.add_mul, Nat.one_mul]
  rcases h with hpassed | ⟨hlast, hsuffices⟩
  · obtain ⟨hsame, hpassed'⟩ := genMmExtraHashKeys_of_passed (δ := δ) hpos hpassed
    exact ⟨hsame, .inl hpassed'⟩
  · obtain ⟨hsame, hlast'⟩ := genMmExtraHashKeys_of_atLast (δ := δ) hpos hlast
      (hsuffices j le_rfl (by omega))
    exact ⟨hsame, .inr ⟨hlast', fun i hi hlt => hsuffices i (by omega) (by omega)⟩⟩

end Request

open Request

theorem hashBlocks_eq (count j : ℕ) (idx : ℤ) (prev : Option η)
    (hfinds : Finds hasher r.mmFeatures idx j count) :
    hashBlocks hasher r count (j * hasher.blockSize) idx prev =
      hashChain (chainHash hasher) (prev.getD hasher.noneHash)
        ((List.range' j count).map (blockContent hasher r)) := by
  induction count generalizing j idx prev with
  | zero => rfl
  | succ count ih =>
      have hnext : j * hasher.blockSize + hasher.blockSize = (j + 1) * hasher.blockSize := by
        rw [Nat.add_mul, Nat.one_mul]
      obtain ⟨hkeys, hrest⟩ := hfinds.next
      have hextra : (r.generateBlockHashExtraKeys hasher (j * hasher.blockSize)
            (j * hasher.blockSize + hasher.blockSize) idx).1 =
          (r.generateBlockHashExtraKeys hasher (j * hasher.blockSize)
            (j * hasher.blockSize + hasher.blockSize) 0).1 :=
        generateBlockHashExtraKeys_congr hkeys rfl rfl rfl
      have hhash : hashBlockTokens hasher prev (slice r.allTokenIds (j * hasher.blockSize)
            (j * hasher.blockSize + hasher.blockSize))
            (r.generateBlockHashExtraKeys hasher (j * hasher.blockSize)
              (j * hasher.blockSize + hasher.blockSize) idx).1 =
          chainHash hasher (prev.getD hasher.noneHash) (blockContent hasher r j) := by
        unfold hashBlockTokens chainHash blockContent
        rw [hextra]
      have hrest := ih (j + 1) _ (some (chainHash hasher (prev.getD hasher.noneHash)
        (blockContent hasher r j))) hrest
      rw [List.range'_succ, List.map_cons, hashChain, hashBlocks]
      dsimp only
      rw [hhash, generateBlockHashExtraKeys_index, hnext]
      exact congrArg (List.cons _) (by rw [hnext] at hrest; exact hrest)

/-- The hashes of the blocks that have none yet. -/
theorem requestBlockHasher_eq (hasher : BlockHasher η ε δ) (r : Request η ε)
    (hfinds : Finds hasher r.mmFeatures
      (if 0 < r.blockHashes.length * hasher.blockSize then -1 else 0) r.blockHashes.length
      (r.numTokens / hasher.blockSize - r.blockHashes.length)) :
    requestBlockHasher hasher r =
      hashChain (chainHash hasher) (r.blockHashes.getLast?.getD hasher.noneHash)
        ((List.range' r.blockHashes.length
          (r.numTokens / hasher.blockSize - r.blockHashes.length)).map
            (blockContent hasher r)) := by
  have hcount : (r.numTokens - r.blockHashes.length * hasher.blockSize) / hasher.blockSize =
      r.numTokens / hasher.blockSize - r.blockHashes.length := by
    rw [Nat.mul_comm, Nat.sub_mul_div]
  unfold requestBlockHasher
  dsimp only
  split
  · next hfew =>
    have hnone : r.numTokens / hasher.blockSize - r.blockHashes.length = 0 := by
      have hpos := hasher.blockSize_pos
      rw [← hcount]
      apply Nat.div_eq_of_lt
      omega
    rw [hnone]
    rfl
  · next hmany =>
    rw [hcount]
    exact hashBlocks_eq _ _ _ _ hfinds

/-- The hashes of the current tokens, as a chain. -/
theorem scratchHashes_eq (hasher : BlockHasher η ε δ) (r : Request η ε) :
    r.scratchHashes hasher = hashChain (chainHash hasher) hasher.noneHash
      ((List.range (r.numTokens / hasher.blockSize)).map (blockContent hasher r)) := by
  have hfresh := requestBlockHasher_eq hasher { r with blockHashes := [] }
    (.inl (by simpa using passed_zero r.mmFeatures 0))
  rw [scratchHashes, hfresh, List.range_eq_range']
  rfl

/-! ## One step -/

namespace Request

/-- A search that resumes at the last item misses none: there is no hash yet, or the last item
suffices for every block that is completed. -/
def Resumes (hasher : BlockHasher η ε δ) (r : Request η ε) (features : List MultiModalFeature)
    (numTokens : ℕ) : Prop :=
  r.blockHashes = [] ∨ ∀ j < numTokens / hasher.blockSize, r.blockHashes.length ≤ j →
    LastSuffices features (j * hasher.blockSize) (j * hasher.blockSize + hasher.blockSize)

/-- The tokens of a session after an update. -/
def sessionTokens (session : Request η ε) (update : StreamingUpdate) : List ℕ :=
  session.allTokenIds.take session.numComputedTokens ++ update.promptTokenIds

/-- The items of a session after an update. -/
def sessionFeatures (session : Request η ε) (update : StreamingUpdate) :
    List MultiModalFeature :=
  session.mmFeatures ++ update.mmFeatures.map fun f =>
    { f with offset := f.offset + (session.allTokenIds.take session.numComputedTokens).length }

/-- New items leave the keys of the hashed blocks alone: none of these blocks starts behind the last
of the old items and overlaps another one. -/
def KeepsKeys (hasher : BlockHasher η ε δ) (r : Request η ε) : Prop :=
  ∀ last ∈ r.mmFeatures.getLast?, ∀ j < r.blockHashes.length, last.stop ≤ j * hasher.blockSize →
    ∀ f ∈ r.mmFeatures, f.stop ≤ j * hasher.blockSize ∨
      j * hasher.blockSize + hasher.blockSize ≤ f.offset

/-- The condition on a step. An update cuts no hashed block and brings items only if they leave the
keys of the hashed blocks alone, and like appended tokens it leaves the resumed search complete. -/
def Harmless (hasher : BlockHasher η ε δ) (r : Request η ε) : RequestOp → Prop
  | .compute _ => True
  | .append tokenIds => r.Resumes hasher r.mmFeatures (r.numTokens + tokenIds.length)
  | .update update =>
      r.blockHashes.length * hasher.blockSize ≤ r.numComputedTokens ∧
      (update.mmFeatures = [] ∨ r.KeepsKeys hasher) ∧
      r.Resumes hasher (r.sessionFeatures update) (r.sessionTokens update).length

theorem Resumes.finds {features : List MultiModalFeature} {numTokens : ℕ}
    (h : r.Resumes hasher features numTokens) :
    Finds hasher features (if 0 < r.blockHashes.length * hasher.blockSize then -1 else 0)
      r.blockHashes.length (numTokens / hasher.blockSize - r.blockHashes.length) := by
  rcases h with hnil | hsuffices
  · refine .inl ?_
    simpa [hnil] using passed_zero features 0
  · split
    · exact .inr ⟨atLast_neg_one features _, fun j hj hlt => hsuffices j (by omega) hj⟩
    · exact .inl (passed_zero features _)

/-- Extending the hashes of a request whose hashed blocks are as before. -/
theorem updateBlockHashes_scratch (r' : Request η ε) (hr : r.blockHashes = r.scratchHashes hasher)
    (hhashes : r'.blockHashes = r.blockHashes)
    (hresumes : r.Resumes hasher r'.mmFeatures r'.numTokens)
    (htokens : r.numTokens / hasher.blockSize * hasher.blockSize ≤ r'.numTokens)
    (hcontent : ∀ j < r.numTokens / hasher.blockSize,
      blockContent hasher r' j = blockContent hasher r j) :
    (r'.updateBlockHashes hasher).blockHashes = r'.scratchHashes hasher := by
  have hchain := hr.trans (scratchHashes_eq hasher r)
  have hlength : r.blockHashes.length = r.numTokens / hasher.blockSize := by
    rw [hchain, hashChain.length_eq, List.length_map, List.length_range]
  have hle : r.blockHashes.length ≤ r'.numTokens / hasher.blockSize := by
    rw [Nat.le_div_iff_mul_le hasher.blockSize_pos, hlength]
    exact htokens
  have hold : r'.blockHashes = hashChain (chainHash hasher) hasher.noneHash
      ((List.range r.blockHashes.length).map (blockContent hasher r')) := by
    rw [hhashes, hlength, List.map_congr_left (g := blockContent hasher r)]
    · exact hchain
    · exact fun j hj => hcontent j (List.mem_range.mp hj)
  have hsplit : List.range (r'.numTokens / hasher.blockSize) =
      List.range r.blockHashes.length ++ List.range' r.blockHashes.length
        (r'.numTokens / hasher.blockSize - r.blockHashes.length) := by
    have happend := List.range'_append_1 (s := 0) (m := r.blockHashes.length)
      (n := r'.numTokens / hasher.blockSize - r.blockHashes.length)
    rw [Nat.zero_add, Nat.add_sub_cancel' hle] at happend
    rw [List.range_eq_range', List.range_eq_range', happend]
  have hnew := requestBlockHasher_eq hasher r' (by
    rw [hhashes]
    exact hresumes.finds)
  rw [scratchHashes_eq, hsplit, List.map_append, hashChain.append, ← hold, updateBlockHashes,
    hnew, hhashes]

theorem blockContent_congr {j : ℕ}
    (htokens : slice r'.allTokenIds (j * hasher.blockSize)
        (j * hasher.blockSize + hasher.blockSize) =
      slice r.allTokenIds (j * hasher.blockSize) (j * hasher.blockSize + hasher.blockSize))
    (hmm : mmKeys δ r'.mmFeatures (j * hasher.blockSize)
        (j * hasher.blockSize + hasher.blockSize) =
      mmKeys δ r.mmFeatures (j * hasher.blockSize) (j * hasher.blockSize + hasher.blockSize))
    (hlora : r'.loraName = r.loraName) (hsalt : r'.cacheSalt = r.cacheSalt)
    (hembeds : r'.promptEmbeds = r.promptEmbeds) :
    blockContent hasher r' j = blockContent hasher r j := by
  unfold blockContent
  dsimp only
  rw [htokens, generateBlockHashExtraKeys_congr hmm hlora hsalt hembeds]

theorem take_length_take {α : Type} (n : ℕ) (l : List α) : l.take (l.take n).length = l.take n := by
  rw [List.length_take, List.take_eq_take_iff]
  omega

/-- A slice is determined by the tokens before its end. -/
theorem slice_congr {α : Type} {tokens tokens' : List α} {start stop n : ℕ} (hstop : stop ≤ n)
    (h : tokens'.take n = tokens.take n) : slice tokens' start stop = slice tokens start stop := by
  have htake : ∀ l : List α, l.take stop = (l.take n).take stop := fun l => by
    rw [List.take_take, Nat.min_eq_left hstop]
  rw [slice, slice, htake tokens', h, ← htake tokens]

/-- The hashes depend on what the keys are made of. -/
theorem scratchHashes_congr (htokens : r'.allTokenIds = r.allTokenIds)
    (hmm : r'.mmFeatures = r.mmFeatures) (hlora : r'.loraName = r.loraName)
    (hsalt : r'.cacheSalt = r.cacheSalt) (hembeds : r'.promptEmbeds = r.promptEmbeds) :
    r'.scratchHashes hasher = r.scratchHashes hasher := by
  rw [scratchHashes_eq, scratchHashes_eq, numTokens, htokens]
  refine congrArg _ (List.map_congr_left fun j _ => ?_)
  exact blockContent_congr (by rw [htokens]) (by rw [hmm]) hlora hsalt hembeds

/-- The hashes are those of the current tokens after every harmless step. -/
theorem step_scratch {op : RequestOp} (hr : r.blockHashes = r.scratchHashes hasher)
    (hop : r.Harmless hasher op) (hstep : Next hasher r op r') :
    r'.blockHashes = r'.scratchHashes hasher := by
  have hblock : ∀ j < r.numTokens / hasher.blockSize,
      j * hasher.blockSize + hasher.blockSize ≤
        r.numTokens / hasher.blockSize * hasher.blockSize := by
    intro j hj
    calc j * hasher.blockSize + hasher.blockSize = (j + 1) * hasher.blockSize := by
          rw [Nat.add_mul, Nat.one_mul]
      _ ≤ r.numTokens / hasher.blockSize * hasher.blockSize := Nat.mul_le_mul_right _ hj
  have hwhole : r.numTokens / hasher.blockSize * hasher.blockSize ≤ r.numTokens :=
    Nat.div_mul_le_self _ _
  cases op with
  | compute n =>
      obtain rfl := Option.some.inj hstep
      exact hr.trans (scratchHashes_congr rfl rfl rfl rfl rfl)
  | append tokenIds =>
      obtain rfl := Option.some.inj hstep
      have happended : (r.allTokenIds ++ tokenIds).length = r.numTokens + tokenIds.length :=
        List.length_append
      refine (updateBlockHashes_scratch { r with
          outputTokenIds := r.outputTokenIds ++ tokenIds
          allTokenIds := r.allTokenIds ++ tokenIds } hr rfl ?_ ?_ ?_).trans
        (scratchHashes_congr rfl rfl rfl rfl rfl)
      · rw [numTokens, happended]
        exact hop
      · exact hwhole.trans ((Nat.le_add_right _ _).trans happended.ge)
      · intro j hj
        refine blockContent_congr (slice_congr ((hblock j hj).trans hwhole) ?_) rfl rfl rfl rfl
        simp [numTokens]
  | update update =>
      obtain ⟨hcut, hitems, hresumes⟩ := hop
      obtain ⟨promptTokenIds, -, rfl⟩ := Option.map_eq_some_iff.mp hstep
      have hlength : r.blockHashes.length = r.numTokens / hasher.blockSize := by
        rw [hr, scratchHashes_eq, hashChain.length_eq, List.length_map, List.length_range]
      rw [hlength] at hcut
      have hkept : r.numTokens / hasher.blockSize * hasher.blockSize ≤
          (r.allTokenIds.take r.numComputedTokens).length := by
        rw [List.length_take]
        exact le_min hcut hwhole
      refine (updateBlockHashes_scratch { r with
          allTokenIds := r.sessionTokens update
          outputTokenIds := []
          promptTokenIds := some (promptTokenIds ++
            slice r.allTokenIds r.numPromptTokens r.numComputedTokens ++ update.promptTokenIds)
          mmFeatures := r.sessionFeatures update } hr rfl hresumes ?_ ?_).trans
        (scratchHashes_congr rfl rfl rfl rfl rfl)
      · exact hkept.trans (by simp [numTokens, sessionTokens])
      · intro j hj
        refine blockContent_congr (slice_congr ((hblock j hj).trans hkept) ?_) ?_ rfl rfl rfl
        · exact List.take_left.trans (take_length_take _ _).symm
        · refine mmKeys_append (Nat.lt_add_of_pos_right hasher.blockSize_pos) ?_ ?_
          · intro f hf
            obtain ⟨g, -, rfl⟩ := List.mem_map.mp hf
            exact ((hblock j hj).trans hkept).trans (Nat.le_add_left _ _)
          · rw [← hlength] at hj
            exact hitems.imp (fun hnil => by rw [hnil]; rfl) fun hkeeps last hlast =>
              hkeeps last hlast j hj

/-! ## Runs -/

theorem new_scratch {input : Input ε} (h : new hasher input = some r) :
    r.blockHashes = r.scratchHashes hasher := by
  obtain ⟨numPromptTokens, -, rfl⟩ := Option.map_eq_some_iff.mp h
  refine Eq.trans ?_ (scratchHashes_congr rfl rfl rfl rfl rfl)
  rfl

/-- Along every run whose steps are harmless the hashes of a request describe its tokens. -/
theorem harmless_run_keeps_hashes {input : Input ε} {r₀ : Request η ε} {ops : List RequestOp}
    (hnew : new hasher input = some r₀)
    (run : Run (fun r op r' => r.Harmless hasher op ∧ Next hasher r op r') r₀ ops r) :
    r.blockHashes = r.scratchHashes hasher :=
  run.invariant (fun _ _ _ _ hr hstep => step_scratch hr hstep.1 hstep.2) (new_scratch hnew)

instance (hasher : BlockHasher η ε δ) (r : Request η ε) (op : RequestOp) :
    Decidable (r.Harmless hasher op) := by
  cases op <;> unfold Harmless Resumes LastSuffices KeepsKeys <;> infer_instance

/-- The hash that keeps everything it is computed from. -/
def recordingHasher (blockSize : ℕ) (hpos : 0 < blockSize) :
    BlockHasher (List (List ℕ × Option (List (ExtraKey (List ℕ))))) ℕ (List ℕ) where
  blockSize := blockSize
  blockSize_pos := hpos
  hashFunction := fun (parent, content) => parent ++ [content]
  noneHash := []
  embedsDigest := id

theorem recordingHasher_injective (blockSize : ℕ) (hpos : 0 < blockSize) :
    Function.Injective (recordingHasher blockSize hpos).hashFunction := by
  rintro ⟨parent, content⟩ ⟨parent', content'⟩ heq
  obtain ⟨hparent, hcontent⟩ := List.append_inj' heq rfl
  rw [hparent, List.singleton_inj.mp hcontent]

/-- Perform a step that is harmless. -/
def harmlessStep (hasher : BlockHasher η ε δ) (r : Request η ε) (op : RequestOp) :
    Option (Request η ε) :=
  if r.Harmless hasher op then r.step hasher op else none

theorem next_of_harmlessStep {op : RequestOp} (h : harmlessStep hasher r op = some r') :
    r.Harmless hasher op ∧ Next hasher r op r' := by
  rw [harmlessStep] at h
  split at h
  · next hharmless => exact ⟨hharmless, h⟩
  · cases h

/-- Blocks of two tokens. -/
def pairHasher : BlockHasher (List (List ℕ × Option (List (ExtraKey (List ℕ))))) ℕ (List ℕ) :=
  recordingHasher 2 (by decide)

def picturePrompt : Input ℕ where
  promptTokenIds := some [1, 2, 3]
  mmFeatures := [⟨"a", 0, 1⟩]

/-- A session with an item in its prompt and one in its update. -/
theorem session_keeps_hashes :
    ∃ r₀ r, new pairHasher picturePrompt = some r₀ ∧
      Run (fun r op r' => r.Harmless pairHasher op ∧ Next pairHasher r op r') r₀
        [.append [4], .compute 4, .update ⟨[⟨"b", 0, 1⟩], [5, 6]⟩] r ∧
      r.allTokenIds = [1, 2, 3, 4, 5, 6] ∧ r.blockHashes.length = 3 ∧
      r.blockHashes = r.scratchHashes pairHasher := by
  have hexecute : ((new pairHasher picturePrompt).any fun r₀ =>
      ([.append [4], .compute 4, .update ⟨[⟨"b", 0, 1⟩], [5, 6]⟩].foldlM
        (harmlessStep pairHasher) r₀).any fun r =>
          decide (r.allTokenIds = [1, 2, 3, 4, 5, 6]) && decide (r.blockHashes.length = 3)) =
      true := by decide +kernel
  rw [Option.any_eq_true] at hexecute
  obtain ⟨r₀, hnew, hsteps⟩ := hexecute
  rw [Option.any_eq_true] at hsteps
  obtain ⟨r, hsteps, hr⟩ := hsteps
  rw [Bool.and_eq_true, decide_eq_true_eq, decide_eq_true_eq] at hr
  have run := Run.of_foldlM (fun _ _ _ => next_of_harmlessStep) hsteps
  exact ⟨r₀, r, hnew, run, hr.1, hr.2, harmless_run_keeps_hashes hnew run⟩

/-- The sampled token completes a block that is hashed; the next input chunk replaces it. -/
theorem discarded_token_stays_hashed :
    Function.Injective pairHasher.hashFunction ∧
    ∃ r₀ r, new pairHasher { promptTokenIds := some [1] } = some r₀ ∧
      Run (Next pairHasher) r₀ [.append [2], .compute 1, .update ⟨[], [3]⟩] r ∧
      r.allTokenIds = [1, 3] ∧ r.blockHashes = [[([1, 2], none)]] ∧
      r.blockHashes ≠ r.scratchHashes pairHasher := by
  refine ⟨recordingHasher_injective 2 _, ?_⟩
  have hexecute : ((new pairHasher { promptTokenIds := some [1] }).any fun r₀ =>
      ([.append [2], .compute 1, .update ⟨[], [3]⟩].foldlM (step pairHasher) r₀).any fun r =>
        decide (r.allTokenIds = [1, 3]) && decide (r.blockHashes = [[([1, 2], none)]]) &&
          decide (r.blockHashes ≠ r.scratchHashes pairHasher)) = true := by decide +kernel
  rw [Option.any_eq_true] at hexecute
  obtain ⟨r₀, hnew, hsteps⟩ := hexecute
  rw [Option.any_eq_true] at hsteps
  obtain ⟨r, hsteps, hr⟩ := hsteps
  simp only [Bool.and_eq_true, decide_eq_true_eq] at hr
  exact ⟨r₀, r, hnew, Run.of_foldlM (fun _ _ _ h => h) hsteps, hr.1.1, hr.1.2, hr.2⟩

end Request

end TokenCake.Hash
