import Mathlib.Data.List.Basic
import Mathlib.Logic.Function.Basic

/-! # Hash chains

The hash of a block is computed from the hash of the block before it, so it stands for the
whole sequence of blocks up to it. -/

variable {η β : Type*}

/-- The hashes of a list of blocks; `base` is the parent of the first one. -/
def hashChain (hash : η → β → η) : η → List β → List η
  | _, [] => []
  | base, b :: bs => hash base b :: hashChain hash (hash base b) bs

namespace hashChain

variable {hash : η → β → η} {base : η} {bs cs : List β}

@[simp] theorem length_eq (hash : η → β → η) (base : η) (bs : List β) :
    (hashChain hash base bs).length = bs.length := by
  induction bs generalizing base with
  | nil => rfl
  | cons b bs ih => simp [hashChain, ih]

/-- A chain is continued from its last hash. -/
theorem append (hash : η → β → η) (base : η) (bs cs : List β) :
    hashChain hash base (bs ++ cs) = hashChain hash base bs ++
      hashChain hash ((hashChain hash base bs).getLast?.getD base) cs := by
  induction bs generalizing base with
  | nil => rfl
  | cons b bs ih =>
      rw [List.cons_append, hashChain, ih, hashChain, List.cons_append]
      cases hlast : (hashChain hash (hash base b) bs).getLast? with
      | none => rw [List.getLast?_eq_none_iff.mp hlast]; rfl
      | some h => rw [List.getLast?_cons, hlast]; rfl

theorem take (hash : η → β → η) (base : η) (bs : List β) (n : ℕ) :
    (hashChain hash base bs).take n = hashChain hash base (bs.take n) := by
  induction bs generalizing base n with
  | nil => simp [hashChain]
  | cons b bs ih =>
      cases n with
      | zero => rfl
      | succ n => rw [hashChain, List.take_succ_cons, ih, List.take_succ_cons, hashChain]

theorem getElem?_succ {i : ℕ} {h : η} (hb : (hashChain hash base bs)[i + 1]? = some h) :
    ∃ parent b, (hashChain hash base bs)[i]? = some parent ∧ h = hash parent b := by
  induction i generalizing base bs with
  | zero =>
      cases bs with
      | nil => cases hb
      | cons b bs =>
          cases bs with
          | nil => cases hb
          | cons c cs => exact ⟨hash base b, c, rfl, (Option.some.inj hb).symm⟩
  | succ i ih =>
      cases bs with
      | nil => cases hb
      | cons b bs => exact ih hb

theorem getElem?_zero {h : η} (hb : (hashChain hash base bs)[0]? = some h) :
    ∃ b, h = hash base b := by
  cases bs with
  | nil => cases hb
  | cons b bs => exact ⟨b, (Option.some.inj hb).symm⟩

/-- If no two blocks collide and no block hashes to the base, a hash has one place only. -/
theorem index_eq (hinj : Function.Injective2 hash) (hbase : ∀ h b, hash h b ≠ base) {i j : ℕ}
    {h : η} (hb : (hashChain hash base bs)[i]? = some h)
    (hc : (hashChain hash base cs)[j]? = some h) : i = j := by
  induction i generalizing j h with
  | zero =>
      cases j with
      | zero => rfl
      | succ j =>
          obtain ⟨b, rfl⟩ := getElem?_zero hb
          obtain ⟨parent, c, hparent, heq⟩ := getElem?_succ hc
          obtain ⟨rfl, rfl⟩ := hinj heq
          -- The parent would be the base and a hash of the chain.
          cases j with
          | zero =>
              obtain ⟨d, hd⟩ := getElem?_zero hparent
              exact absurd hd.symm (hbase _ _)
          | succ j =>
              obtain ⟨parent', d, -, hd⟩ := getElem?_succ hparent
              exact absurd hd.symm (hbase _ _)
  | succ i ih =>
      obtain ⟨parent, b, hparent, rfl⟩ := getElem?_succ hb
      cases j with
      | zero =>
          obtain ⟨c, heq⟩ := getElem?_zero hc
          obtain ⟨rfl, rfl⟩ := hinj heq
          cases i with
          | zero =>
              obtain ⟨d, hd⟩ := getElem?_zero hparent
              exact absurd hd.symm (hbase _ _)
          | succ i =>
              obtain ⟨parent', d, -, hd⟩ := getElem?_succ hparent
              exact absurd hd.symm (hbase _ _)
      | succ j =>
          obtain ⟨parent', c, hparent', heq⟩ := getElem?_succ hc
          obtain ⟨rfl, rfl⟩ := hinj heq
          rw [ih hparent hparent']

end hashChain
