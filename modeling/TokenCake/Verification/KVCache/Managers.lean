import Mathlib.Data.List.Forall2
import TokenCake.Verification.KVCache.Tables

/-! # All groups

The pool is shared by the groups. Going through the managers one after the other keeps the
ledger that counts the tables of all groups. -/

namespace TokenCake.KV

variable {η : Type} [DecidableEq η] {pool pool' : BlockPool η} {o v : BlockId → ℕ}
  {m : SingleTypeKVCacheManager} {ms : List SingleTypeKVCacheManager} {P : Prop}

def totalHeld (ms : List SingleTypeKVCacheManager) (b : BlockId) : ℕ :=
  (ms.map (·.held b)).sum

def totalUncached (ms : List SingleTypeKVCacheManager) (b : BlockId) : ℕ :=
  (ms.map (·.uncached b)).sum

/-- The ledger for a list of groups; `o` and `v` count what other groups hold. -/
structure Balanced (o v : BlockId → ℕ) (pool : BlockPool η)
    (ms : List SingleTypeKVCacheManager) : Prop where
  ledger : Ledger pool (fun b => o b + totalHeld ms b) (fun b => v b + totalUncached ms b)
  one : ∀ m ∈ ms, ∀ r b, b ≠ nullBlock → (m.table r).count b ≤ 1
  others_le : ∀ b, v b ≤ o b

namespace Balanced

theorem totalUncached_le (ms : List SingleTypeKVCacheManager) (b : BlockId) :
    totalUncached ms b ≤ totalHeld ms b :=
  List.sum_le_sum fun m _ => m.uncached_le_held b

/-- The first group, to which all others are others. -/
theorem head (h : Balanced o v pool (m :: ms)) :
    Sound (fun b => o b + totalHeld ms b) (fun b => v b + totalUncached ms b) pool m where
  ledger := by
    refine h.ledger.congr (fun b _ => ?_) fun b _ => ?_
    · simp only [totalHeld, List.map_cons, List.sum_cons]
      omega
    · simp only [totalUncached, List.map_cons, List.sum_cons]
      omega
  one := h.one m (List.mem_cons_self ..)
  others_le := fun b => Nat.add_le_add (h.others_le b) (totalUncached_le ms b)

/-- The first group has had its turn and joins the others. -/
theorem tail (h : Sound (fun b => o b + totalHeld ms b) (fun b => v b + totalUncached ms b) pool m)
    (hone : ∀ m ∈ ms, ∀ r b, b ≠ nullBlock → (m.table r).count b ≤ 1)
    (hle : ∀ b, v b ≤ o b) :
    Balanced (fun b => o b + m.held b) (fun b => v b + m.uncached b) pool ms where
  ledger := h.ledger.congr (fun b _ => by omega) fun b _ => by omega
  one := hone
  others_le := fun b => Nat.add_le_add (hle b) (m.uncached_le_held b)

theorem cons (h : Balanced (fun b => o b + m.held b) (fun b => v b + m.uncached b) pool ms)
    (hone : ∀ r b, b ≠ nullBlock → (m.table r).count b ≤ 1) (hle : ∀ b, v b ≤ o b) :
    Balanced o v pool (m :: ms) where
  ledger := by
    refine h.ledger.congr (fun b _ => ?_) fun b _ => ?_
    · simp only [totalHeld, List.map_cons, List.sum_cons]
      omega
    · simp only [totalUncached, List.map_cons, List.sum_cons]
      omega
  one := List.forall_mem_cons.mpr ⟨hone, h.one⟩
  others_le := hle

/-- The rule for going through the managers: what `f` does to one group, whatever the others
hold, it does to all of them. -/
theorem forManagers {α : Type} {E : KVError → Prop}
    {R : SingleTypeKVCacheManager → SingleTypeKVCacheManager → Prop}
    {f : BlockPool η → SingleTypeKVCacheManager → α →
      Except KVError (BlockPool η × SingleTypeKVCacheManager)}
    (as : List α) (h : Balanced o v pool ms) (hlength : ms.length ≤ as.length)
    (hf : ∀ o v pool' m a, (m, a) ∈ ms.zip as → Setup P pool pool' → Sound o v pool' m →
      Ensures E (fun result => Sound o v result.1 result.2 ∧ Setup P pool' result.1 ∧ R m result.2)
        (f pool' m a)) :
    Ensures E (fun result => Balanced o v result.1 result.2 ∧ Setup P pool result.1 ∧
        List.Forall₂ R ms result.2) (KVCacheManager.forManagers f pool ms as) := by
  induction ms generalizing o v pool as with
  | nil => exact .ok ⟨h, .refl pool, .nil⟩
  | cons m ms ih =>
      cases as with
      | nil => exact absurd hlength (by simp)
      | cons a as =>
          refine (hf _ _ pool m a (by simp) (.refl pool) h.head).bind fun first hfirst => ?_
          obtain ⟨hsound, hsetup, hR⟩ := hfirst
          have hrest := ih as (tail hsound (fun m' hm' => h.one m' (List.mem_cons_of_mem _ hm'))
            h.others_le) (Nat.le_of_succ_le_succ hlength) fun o v pool' m' a' hmem hsetup' =>
              hf o v pool' m' a' (List.mem_cons_of_mem _ hmem) (hsetup.trans hsetup')
          refine hrest.bind fun rest hrest => .ok ⟨?_, hsetup.trans hrest.2.1, .cons hR hrest.2.2⟩
          exact hrest.1.cons hsound.one h.others_le

end Balanced

/-! ## The loop over the managers -/

section Loop

open KVCacheManager (forManagers)

omit [DecidableEq η] in
theorem KVCacheManager.forManagers_cons {α : Type} {f : BlockPool η → SingleTypeKVCacheManager → α →
      Except KVError (BlockPool η × SingleTypeKVCacheManager)}
    {manager : SingleTypeKVCacheManager} {ms ms' : List SingleTypeKVCacheManager} {a : α}
    {as : List α} (h : forManagers f pool (manager :: ms) (a :: as) = .ok (pool', ms')) :
    ∃ next manager' rest, f pool manager a = .ok (next, manager') ∧
      forManagers f next ms as = .ok (pool', rest) ∧ ms' = manager' :: rest := by
  unfold forManagers at h
  cases hfirst : f pool manager a with
  | error e =>
      rw [hfirst] at h
      cases h
  | ok first =>
      rw [hfirst] at h
      change (forManagers f first.1 ms as >>= _) = _ at h
      cases hrest : forManagers f first.1 ms as with
      | error e =>
          rw [hrest] at h
          cases h
      | ok rest =>
          rw [hrest] at h
          obtain ⟨rfl, rfl⟩ := Prod.mk.inj (Except.ok.inj h)
          exact ⟨first.1, first.2, rest.2, rfl, hrest, rfl⟩

omit [DecidableEq η] in
/-- What one group's turn does to it, and to the pool, the loop does to all of them. -/
theorem forManagers_forall₂ {α : Type} {Q : BlockPool η → Prop}
    {R : SingleTypeKVCacheManager → SingleTypeKVCacheManager → Prop}
    {f : BlockPool η → SingleTypeKVCacheManager → α →
      Except KVError (BlockPool η × SingleTypeKVCacheManager)}
    (hf : ∀ pool m a pool' m', Q pool → f pool m a = .ok (pool', m') → Q pool' ∧ R m m')
    {ms' : List SingleTypeKVCacheManager} (as : List α) (hlength : ms.length ≤ as.length ∨ ∀ m, R m m)
    (hpool : Q pool) (h : forManagers f pool ms as = .ok (pool', ms')) :
    Q pool' ∧ List.Forall₂ R ms ms' := by
  induction ms generalizing pool as ms' with
  | nil =>
      obtain ⟨rfl, rfl⟩ := Prod.mk.inj (Except.ok.inj h)
      exact ⟨hpool, .nil⟩
  | cons m ms ih =>
      cases as with
      | nil =>
          -- A list that is too short leaves the rest of the groups alone.
          obtain ⟨rfl, rfl⟩ := Prod.mk.inj (Except.ok.inj h)
          exact ⟨hpool, List.forall₂_same.mpr fun m _ => hlength.resolve_left (by simp) m⟩
      | cons a as =>
          obtain ⟨next, m', rest, hfirst, hrest, rfl⟩ := KVCacheManager.forManagers_cons h
          obtain ⟨hnext, hR⟩ := hf pool m a next m' hpool hfirst
          obtain ⟨hpool', hRs⟩ := ih as (hlength.imp_left Nat.le_of_succ_le_succ) hnext hrest
          exact ⟨hpool', .cons hR hRs⟩

omit [DecidableEq η] in
/-- The same rule where every group has an item that suits it. -/
theorem forManagers_items {α : Type} {Q : BlockPool η → Prop}
    {P : SingleTypeKVCacheManager → α → Prop}
    {R : SingleTypeKVCacheManager → SingleTypeKVCacheManager → Prop}
    {f : BlockPool η → SingleTypeKVCacheManager → α →
      Except KVError (BlockPool η × SingleTypeKVCacheManager)}
    (hf : ∀ pool m a pool' m', Q pool → P m a → f pool m a = .ok (pool', m') → Q pool' ∧ R m m')
    {ms' : List SingleTypeKVCacheManager} {as : List α} (hitems : List.Forall₂ P ms as)
    (hpool : Q pool) (h : forManagers f pool ms as = .ok (pool', ms')) :
    Q pool' ∧ List.Forall₂ R ms ms' := by
  induction hitems generalizing pool ms' with
  | nil =>
      obtain ⟨rfl, rfl⟩ := Prod.mk.inj (Except.ok.inj h)
      exact ⟨hpool, .nil⟩
  | cons ha _ ih =>
      obtain ⟨next, m', rest, hfirst, hrest, rfl⟩ := KVCacheManager.forManagers_cons h
      obtain ⟨hnext, hR⟩ := hf pool _ _ next m' hpool ha hfirst
      obtain ⟨hpool', hRs⟩ := ih hnext hrest
      exact ⟨hpool', .cons hR hRs⟩

end Loop

/-! ## The other loops over the managers -/

section Loops

variable {M : KVCacheManager η}

omit [DecidableEq η] in
theorem mapManagers_eq (f : BlockPool η → SingleTypeKVCacheManager →
    BlockPool η × SingleTypeKVCacheManager) :
    KVCacheManager.forManagers (fun pool m _ => .ok (f pool m)) M.blockPool M.singleTypeManagers
      (M.singleTypeManagers.map fun _ => ()) =
        .ok ((M.mapManagers f).blockPool, (M.mapManagers f).singleTypeManagers) := by
  have hloop : ∀ (ms done : List SingleTypeKVCacheManager) (pool : BlockPool η),
      (KVCacheManager.forManagers (fun pool m _ => .ok (f pool m)) pool ms
        (ms.map fun _ => ())).map (fun result => (result.1, done ++ result.2)) =
      .ok (ms.foldl (fun s m => ((f s.1 m).1, s.2 ++ [(f s.1 m).2])) (pool, done)) := by
    intro ms
    induction ms with
    | nil =>
        intro done pool
        simp [KVCacheManager.forManagers, Except.map]
    | cons m ms ih =>
        intro done pool
        rw [List.foldl_cons, ← ih]
        change ((KVCacheManager.forManagers _ (f pool m).1 ms (ms.map fun _ => ()) >>= _).map _) = _
        cases KVCacheManager.forManagers (fun pool m _ => .ok (f pool m)) (f pool m).1 ms
          (ms.map fun _ => ()) with
        | error e => rfl
        | ok result => simp [Except.map, bind, Except.bind, pure, Except.pure]
  have hmap := hloop M.singleTypeManagers [] M.blockPool
  cases hfor : KVCacheManager.forManagers (fun pool m _ => .ok (f pool m)) M.blockPool
      M.singleTypeManagers (M.singleTypeManagers.map fun _ => ()) with
  | error e =>
      rw [hfor] at hmap
      cases hmap
  | ok result =>
      rw [hfor] at hmap
      exact congrArg Except.ok (Except.ok.inj hmap)

/-- `allocate_new_blocks` without the lists of new blocks. -/
theorem allocateNewBlocks_eq (r : String) (numTokens : ℕ) :
    (M.allocateNewBlocks r numTokens).map Prod.fst =
      (KVCacheManager.forManagers (fun pool m _ =>
        (m.allocateNewBlocks pool r numTokens).map fun (pool, m, _) => (pool, m)) M.blockPool
        M.singleTypeManagers (M.singleTypeManagers.map fun _ => ())).map fun (pool, ms) =>
          { M with blockPool := pool, singleTypeManagers := ms } := by
  let step (s : BlockPool η × List SingleTypeKVCacheManager × List (List BlockId))
      (m : SingleTypeKVCacheManager) :
      Except KVError (BlockPool η × List SingleTypeKVCacheManager × List (List BlockId)) := do
    let (pool, m, newBlocks) ← m.allocateNewBlocks s.1 r numTokens
    return (pool, s.2.1 ++ [m], s.2.2 ++ [newBlocks])
  have hloop : ∀ (ms done : List SingleTypeKVCacheManager) (pool : BlockPool η)
      (blocks : List (List BlockId)),
      (ms.foldlM step (pool, done, blocks)).map (fun s => (s.1, s.2.1)) =
      (KVCacheManager.forManagers (fun pool m _ =>
        (m.allocateNewBlocks pool r numTokens).map fun (pool, m, _) => (pool, m)) pool ms
        (ms.map fun _ => ())).map fun (pool, ms) => (pool, done ++ ms) := by
    intro ms
    induction ms with
    | nil =>
        intro done pool blocks
        simp [KVCacheManager.forManagers, Except.map, pure, Except.pure]
    | cons m ms ih =>
        intro done pool blocks
        rw [List.foldlM_cons]
        simp only [KVCacheManager.forManagers, List.map_cons, step]
        cases m.allocateNewBlocks pool r numTokens with
        | error e => rfl
        | ok first =>
            change (ms.foldlM step (first.1, done ++ [first.2.1], blocks ++ [first.2.2])).map _ =
              ((KVCacheManager.forManagers _ first.1 ms (ms.map fun _ => ()) >>= _).map _)
            rw [ih]
            cases KVCacheManager.forManagers (fun pool m _ =>
                (m.allocateNewBlocks pool r numTokens).map fun (pool, m, _) => (pool, m))
                first.1 ms (ms.map fun _ => ()) with
            | error e => rfl
            | ok result => simp [Except.map, bind, Except.bind, pure, Except.pure]
  let withManagers (s : BlockPool η × List SingleTypeKVCacheManager) : KVCacheManager η :=
    { M with blockPool := s.1, singleTypeManagers := s.2 }
  calc (M.allocateNewBlocks r numTokens).map Prod.fst
      = ((M.singleTypeManagers.foldlM step (M.blockPool, [], [])).map
          fun s => (s.1, s.2.1)).map withManagers := by
        change ((M.singleTypeManagers.foldlM step (M.blockPool, [], []) >>= _).map _) = _
        cases M.singleTypeManagers.foldlM step (M.blockPool, [], []) <;> rfl
    _ = _ := by
        rw [hloop]
        cases KVCacheManager.forManagers (fun pool m _ =>
          (m.allocateNewBlocks pool r numTokens).map fun (pool, m, _) => (pool, m)) M.blockPool
          M.singleTypeManagers (M.singleTypeManagers.map fun _ => ()) <;> rfl

end Loops

end TokenCake.KV
