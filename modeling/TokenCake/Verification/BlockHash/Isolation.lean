import Mathlib.Data.List.Forall2
import TokenCake.Verification.BlockHash.Incremental

/-! # Prefix-cache keys isolate requests

Equal hashes stand for equal contents of all blocks up to them. The kinds of extra keys can be
told apart but for two: the name of an adapter and a cache salt are both plain strings. The keys of
the items tell requests apart as far as the items are shown: one that overlaps another may not be. -/

namespace TokenCake.Hash

open Request

variable {η ε δ : Type} {hasher : BlockHasher η ε δ} {a b : Request η ε} {i : ℕ}

/-! ## Reading the extra keys -/

inductive KeyKind where
  | text
  | item
  | digest
  deriving DecidableEq

def ExtraKey.kind : ExtraKey δ → KeyKind
  | text _ => .text
  | item _ _ => .item
  | digest _ => .digest

/-- The salt of a request; an empty one counts as none. -/
def salt (r : Request η ε) : String := r.cacheSalt.getD ""

/-- One request uses an adapter and no salt, the other has the adapter's name as its salt. -/
def Mistaken (a b : Request η ε) : Prop :=
  ∃ name, name ≠ "" ∧ a.loraName = some name ∧ salt a = "" ∧ b.loraName = none ∧ salt b = name

/-- The items that are shown in a block. -/
def shownIn (hasher : BlockHasher η ε δ) (r : Request η ε) (j : ℕ) : List MultiModalFeature :=
  shownItems r.mmFeatures (j * hasher.blockSize) (j * hasher.blockSize + hasher.blockSize)

/-- The digest of the embeddings of a block. -/
def embedsIn (hasher : BlockHasher η ε δ) (r : Request η ε) (j : ℕ) : List (ExtraKey δ) :=
  r.genPromptEmbedsExtraHashKeys hasher (j * hasher.blockSize)
    (j * hasher.blockSize + hasher.blockSize)

/-- The first blocks of two requests differ only in that one uses an adapter whose name is the
salt of the other. -/
def Confused (hasher : BlockHasher η ε δ) (a b : Request η ε) (i : ℕ) : Prop :=
  i = 0 ∧ hasher.blockSize ≤ a.numTokens ∧ hasher.blockSize ≤ b.numTokens ∧
    a.allTokenIds.take hasher.blockSize = b.allTokenIds.take hasher.blockSize ∧
    embedsIn hasher a 0 = embedsIn hasher b 0 ∧
    shownIn hasher a 0 = [] ∧ shownIn hasher b 0 = [] ∧ (Mistaken a b ∨ Mistaken b a)

/-- The first `i + 1` blocks of two requests differ only in items that are not shown. -/
structure Overlooked (hasher : BlockHasher η ε δ) (a b : Request η ε) (i : ℕ) : Prop where
  full : (i + 1) * hasher.blockSize ≤ a.numTokens
  full' : (i + 1) * hasher.blockSize ≤ b.numTokens
  tokens : a.allTokenIds.take ((i + 1) * hasher.blockSize) =
    b.allTokenIds.take ((i + 1) * hasher.blockSize)
  lora : a.loraName = b.loraName
  salt : salt a = salt b
  embeds : ∀ j ≤ i, embedsIn hasher a j = embedsIn hasher b j
  shown : ∀ j ≤ i, shownIn hasher a j = shownIn hasher b j
  differ : ∃ f : MultiModalFeature, 0 < f.length ∧ f.offset < (i + 1) * hasher.blockSize ∧
    ¬(f ∈ a.mmFeatures ↔ f ∈ b.mmFeatures)

theorem Confused.symm (h : Confused hasher a b i) : Confused hasher b a i := by
  obtain ⟨hzero, hfull, hfull', htokens, hembeds, hshown, hshown', hmistaken⟩ := h
  exact ⟨hzero, hfull', hfull, htokens.symm, hembeds.symm, hshown', hshown, hmistaken.symm⟩

/-! ## Requests that are not told apart -/

/-- Only items that overlap or are out of order are overlooked. -/
theorem Overlooked.not_exclusive (h : Overlooked hasher a b i) :
    ¬(Exclusive a.mmFeatures ∧ Exclusive b.mmFeatures) := by
  rintro ⟨hexclusive, hexclusive'⟩
  obtain ⟨f, hlength, hoffset, hdiffer⟩ := h.differ
  have hpos := hasher.blockSize_pos
  -- the block in which the item begins
  have hj : f.offset / hasher.blockSize ≤ i :=
    Nat.lt_succ_iff.mp ((Nat.div_lt_iff_lt_mul hpos).mpr hoffset)
  have hstart : f.offset / hasher.blockSize * hasher.blockSize ≤ f.offset :=
    Nat.div_mul_le_self _ _
  have hstop : f.offset < f.offset / hasher.blockSize * hasher.blockSize + hasher.blockSize := by
    have := Nat.lt_div_mul_add (a := f.offset) hpos
    omega
  have hends : f.offset / hasher.blockSize * hasher.blockSize < f.stop := by
    unfold MultiModalFeature.stop
    omega
  have hshown := h.shown _ hj
  refine hdiffer ⟨fun hf => ?_, fun hf => ?_⟩
  · have hmem : f ∈ shownIn hasher a (f.offset / hasher.blockSize) :=
      mem_shownItems hexclusive hf hstop hends
    rw [hshown] at hmem
    exact mem_of_mem_shownItems hmem
  · have hmem : f ∈ shownIn hasher b (f.offset / hasher.blockSize) :=
      mem_shownItems hexclusive' hf hstop hends
    rw [← hshown] at hmem
    exact mem_of_mem_shownItems hmem

/-- A video with its sound: the items share one range, and the video comes first. -/
def soundPrompt (sound : String) : Input ℕ where
  promptTokenIds := some [1, 2, 3, 4, 5]
  mmFeatures := [⟨"video", 0, 5⟩, ⟨sound, 0, 5⟩]

-- The video reaches past the second block, so no key tells the sounds apart.
example : ((new pairHasher (soundPrompt "x")).bind fun r => r.blockHashes[1]?) =
    (new pairHasher (soundPrompt "y")).bind fun r => r.blockHashes[1]? := by decide +kernel

end TokenCake.Hash
