import Mathlib.Data.List.Dedup
import TokenCake.Model.CPUManager
import TokenCake.Verification.CachePolicy.Semantics

/-! # Reference counts of the CPU manager

The clients of the manager together owe each key a number of references. Every operation
is described by how it moves that number. -/

namespace TokenCake.Offload.CPUOffloadingManager

variable {κ : Type*} [DecidableEq κ] {m m' : CPUOffloadingManager κ} {owed : κ → ℤ}

/-! ## Adding references -/

theorem get_addRef (m : CPUOffloadingManager κ) (key : κ) (delta : ℤ) (k : κ) :
    (m.addRef key delta).policy.get k =
      if k = key then (m.policy.get k).map fun b => { b with refCnt := b.refCnt + delta }
      else m.policy.get k :=
  CachePolicy.get_modify ..

/-- Add `delta` to the reference count of every listed key. -/
def addRefs (m : CPUOffloadingManager κ) (keys : List κ) (delta : ℤ) :
    CPUOffloadingManager κ :=
  keys.foldl (fun m key => m.addRef key delta) m

@[simp] theorem addRefs_nil (m : CPUOffloadingManager κ) (delta : ℤ) :
    m.addRefs [] delta = m := rfl

@[simp] theorem addRefs_cons (m : CPUOffloadingManager κ) (key : κ) (keys : List κ)
    (delta : ℤ) : m.addRefs (key :: keys) delta = (m.addRef key delta).addRefs keys delta :=
  rfl

theorem get_addRefs {keys : List κ} (hkeys : keys.Nodup) (m : CPUOffloadingManager κ)
    (delta : ℤ) (k : κ) :
    (m.addRefs keys delta).policy.get k =
      if k ∈ keys then (m.policy.get k).map fun b => { b with refCnt := b.refCnt + delta }
      else m.policy.get k := by
  induction keys generalizing m with
  | nil => simp
  | cons key keys ih =>
      obtain ⟨hnot, hrest⟩ := List.nodup_cons.mp hkeys
      rw [addRefs_cons, ih hrest, get_addRef]
      by_cases hk : k = key
      · simp [hk, hnot]
      · simp [hk]

theorem wf_addRefs (h : m.policy.WF) (keys : List κ) (delta : ℤ) :
    (m.addRefs keys delta).policy.WF := by
  induction keys generalizing m with
  | nil => exact h
  | cons key keys ih => exact ih (m := m.addRef key delta) (h.modify _ _)

theorem isKeyReady_iff {k : κ} :
    m.isKeyReady k = true ↔ ∃ b, m.policy.get k = some b ∧ 0 ≤ b.refCnt := by
  unfold isKeyReady
  cases m.policy.get k <;> simp [BlockStatus.isReady]

theorem isKeyReferenced_iff {k : κ} :
    m.isKeyReferenced k = true ↔ ∃ b, m.policy.get k = some b ∧ 0 < b.refCnt := by
  unfold isKeyReferenced
  cases m.policy.get k <;> simp

/-! ## The contract -/

/-- The reference count of every ready block is what the clients owe its key, and the keys
that are owed a reference are ready. -/
structure Accounts (m : CPUOffloadingManager κ) (owed : κ → ℤ) : Prop where
  wf : m.policy.WF
  nonneg : ∀ k, 0 ≤ owed k
  refCnt : ∀ k b, m.policy.get k = some b → b.isReady = true → b.refCnt = owed k
  ready : ∀ k, 0 < owed k → m.isKeyReady k = true

theorem Accounts.congr {owed' : κ → ℤ} (h : m.Accounts owed) (heq : ∀ k, owed k = owed' k) :
    m.Accounts owed' := by
  have : owed = owed' := funext heq
  exact this ▸ h

/-- The contract only reads what the policy answers. -/
theorem Accounts.of_get (h : m.Accounts owed) (hwf : m'.policy.WF)
    (hget : ∀ k, m'.policy.get k = m.policy.get k) : m'.Accounts owed where
  wf := hwf
  nonneg := h.nonneg
  refCnt k b hb := h.refCnt k b (hget k ▸ hb)
  ready k hk := by
    have := h.ready k hk
    unfold isKeyReady at this ⊢
    rwa [hget k]

theorem Accounts.addRefs (h : m.Accounts owed) {keys : List κ} {delta : ℤ}
    (hkeys : keys.Nodup) (hready : ∀ k ∈ keys, m.isKeyReady k = true)
    (hdelta : ∀ k ∈ keys, 0 ≤ owed k + delta) :
    (m.addRefs keys delta).Accounts fun k => owed k + if k ∈ keys then delta else 0 where
  wf := wf_addRefs h.wf keys delta
  nonneg k := by
    by_cases hk : k ∈ keys
    · simpa [hk] using hdelta k hk
    · simpa [hk] using h.nonneg k
  refCnt k b hb hbready := by
    rw [get_addRefs hkeys] at hb
    by_cases hk : k ∈ keys
    · obtain ⟨b₀, hb₀, hpos⟩ := isKeyReady_iff.mp (hready k hk)
      have hcount := h.refCnt k b₀ hb₀ (by simpa [BlockStatus.isReady] using hpos)
      simp only [hk, if_true, hb₀, Option.map_some, Option.some.injEq] at hb
      simp [← hb, hk, hcount]
    · simp only [hk, if_false] at hb
      simpa [hk] using h.refCnt k b hb hbready
  ready k hpos := by
    rw [isKeyReady_iff, get_addRefs hkeys]
    by_cases hk : k ∈ keys
    · obtain ⟨b₀, hb₀, hnonneg⟩ := isKeyReady_iff.mp (hready k hk)
      have hcount := h.refCnt k b₀ hb₀ (by simpa [BlockStatus.isReady] using hnonneg)
      refine ⟨{ b₀ with refCnt := b₀.refCnt + delta }, by simp [hk, hb₀], ?_⟩
      simpa [hcount] using hdelta k hk
    · simp only [hk, if_false, add_zero] at hpos ⊢
      exact isKeyReady_iff.mp (h.ready k hpos)

/-! ## References of the clients -/

theorem prepareLoad_eq_ok {keys : List κ} {ids : List ℕ} (hkeys : keys.Nodup)
    (h : m.prepareLoad keys = .ok (ids, m')) :
    (∀ k ∈ keys, m.isKeyReady k = true) ∧ m' = m.addRefs keys 1 := by
  induction keys generalizing m ids with
  | nil =>
      simp only [prepareLoad, Except.ok.injEq, Prod.mk.injEq] at h
      simp [h.2]
  | cons key keys ih =>
      obtain ⟨hnot, hrest⟩ := List.nodup_cons.mp hkeys
      simp only [prepareLoad] at h
      split at h
      · cases h
      · rename_i b hb
        split at h
        · rename_i hready
          cases hrec : (m.addRef key 1).prepareLoad keys with
          | error e => simp [hrec, Except.map] at h
          | ok result =>
              obtain ⟨ids', m''⟩ := result
              simp only [hrec, Except.map, Except.ok.injEq, Prod.mk.injEq] at h
              obtain ⟨-, rfl⟩ := h
              obtain ⟨hall, rfl⟩ := ih hrest hrec
              refine ⟨?_, rfl⟩
              intro k hk
              rcases List.mem_cons.mp hk with rfl | hmem
              · simp [isKeyReady, hb, hready]
              · have hne : k ≠ key := fun heq => hnot (heq ▸ hmem)
                simpa [isKeyReady, get_addRef, hne] using hall k hmem
        · cases h

theorem Accounts.prepareLoad {keys : List κ} {ids : List ℕ} (h : m.Accounts owed)
    (hkeys : keys.Nodup) (hload : m.prepareLoad keys = .ok (ids, m')) :
    m'.Accounts fun k => owed k + if k ∈ keys then 1 else 0 := by
  obtain ⟨hready, rfl⟩ := prepareLoad_eq_ok hkeys hload
  exact h.addRefs hkeys hready fun k _ => by have := h.nonneg k; omega

/-- Retaining takes one reference for each distinct ready key. -/
theorem retain_eq (m : CPUOffloadingManager κ) (keys : List κ) :
    m.retain keys = (keys.dedup.filter (m.isKeyReady ·),
      m.addRefs (keys.dedup.filter (m.isKeyReady ·)) 1) := by
  have haux : ∀ (rest : List κ), rest.Nodup → ∀ (taken : List κ) (m₁ : CPUOffloadingManager κ),
      (∀ k ∈ rest, m₁.isKeyReady k = m.isKeyReady k) →
      rest.foldl (fun s key =>
          if s.2.isKeyReady key then (s.1 ++ [key], s.2.addRef key 1) else s)
        (taken, m₁) =
      (taken ++ rest.filter (m.isKeyReady ·), m₁.addRefs (rest.filter (m.isKeyReady ·)) 1) := by
    intro rest
    induction rest with
    | nil => simp
    | cons key rest ih =>
        intro hnodup taken m₁ hsame
        obtain ⟨hnot, hrest⟩ := List.nodup_cons.mp hnodup
        have hkey := hsame key (List.mem_cons_self ..)
        rw [List.foldl_cons]
        cases hready : m.isKeyReady key with
        | false =>
            simp only [hkey, hready, Bool.false_eq_true, if_false, List.filter_cons]
            exact ih hrest taken m₁ fun k hk => hsame k (List.mem_cons_of_mem _ hk)
        | true =>
            simp only [hkey, hready, if_true, List.filter_cons]
            rw [ih hrest (taken ++ [key]) (m₁.addRef key 1)]
            · simp
            · intro k hk
              have hne : k ≠ key := fun heq => hnot (heq ▸ hk)
              rw [← hsame k (List.mem_cons_of_mem _ hk)]
              simp [isKeyReady, get_addRef, hne]
  exact (haux keys.dedup (List.nodup_dedup keys) [] m fun _ _ => rfl).trans (by simp)

theorem Accounts.retain (h : m.Accounts owed) (keys : List κ) :
    (m.retain keys).2.Accounts fun k =>
      owed k + if k ∈ (m.retain keys).1 then 1 else 0 := by
  rw [retain_eq]
  refine h.addRefs ((List.nodup_dedup keys).filter _) ?_ ?_
  · intro k hk
    exact (List.mem_filter.mp hk).2
  · intro k _
    have := h.nonneg k
    omega

theorem mem_retain_iff {keys : List κ} {k : κ} :
    k ∈ (m.retain keys).1 ↔ k ∈ keys ∧ m.isKeyReady k = true := by
  rw [retain_eq]
  simp

theorem Accounts.isKeyReferenced (h : m.Accounts owed) {k : κ} (hk : 0 < owed k) :
    m.isKeyReferenced k = true := by
  obtain ⟨b, hb, hnonneg⟩ := isKeyReady_iff.mp (h.ready k hk)
  have hcount := h.refCnt k b hb (by simpa [BlockStatus.isReady] using hnonneg)
  exact isKeyReferenced_iff.mpr ⟨b, hb, hcount ▸ hk⟩

/-- Releasing references that are owed passes the assertion. -/
theorem Accounts.release (h : m.Accounts owed) {keys : List κ}
    (howed : ∀ k ∈ keys, 0 < owed k) :
    ∃ m', m.release keys = .ok m' ∧
      m'.Accounts fun k => owed k + if k ∈ keys then -1 else 0 := by
  have hall : keys.dedup.all m.isKeyReferenced = true := by
    rw [List.all_eq_true]
    intro k hk
    exact h.isKeyReferenced (howed k (List.mem_dedup.mp hk))
  refine ⟨m.addRefs keys.dedup (-1), by rw [CPUOffloadingManager.release, if_pos hall]; rfl, ?_⟩
  have haccounts : (m.addRefs keys.dedup (-1)).Accounts _ := h.addRefs (List.nodup_dedup keys)
    (fun k hk => h.ready k (howed k (List.mem_dedup.mp hk)))
    (fun k hk => by have := howed k (List.mem_dedup.mp hk); omega)
  simpa using haccounts

theorem completeLoad_eq_addRefs {keys : List κ} (hkeys : keys.Nodup)
    (hrefs : ∀ k ∈ keys, m.isKeyReferenced k = true) :
    m.completeLoad keys = .ok (m.addRefs keys (-1)) := by
  induction keys generalizing m with
  | nil => rfl
  | cons key keys ih =>
      obtain ⟨hnot, hrest⟩ := List.nodup_cons.mp hkeys
      obtain ⟨b, hb, hpos⟩ := isKeyReferenced_iff.mp (hrefs key (List.mem_cons_self ..))
      simp only [completeLoad, hb, hpos, if_true, addRefs_cons]
      apply ih hrest
      intro k hk
      have hne : k ≠ key := fun heq => hnot (heq ▸ hk)
      simpa [CPUOffloadingManager.isKeyReferenced, get_addRef, hne] using
        hrefs k (List.mem_cons_of_mem _ hk)

theorem Accounts.completeLoad (h : m.Accounts owed) {keys : List κ} (hkeys : keys.Nodup)
    (howed : ∀ k ∈ keys, 0 < owed k) :
    ∃ m', m.completeLoad keys = .ok m' ∧
      m'.Accounts fun k => owed k + if k ∈ keys then -1 else 0 := by
  refine ⟨_, completeLoad_eq_addRefs hkeys fun k hk => h.isKeyReferenced (howed k hk), ?_⟩
  exact h.addRefs hkeys (fun k hk => h.ready k (howed k hk))
    fun k hk => by have := howed k hk; omega

/-! ## Stores -/

omit [DecidableEq κ] in
@[simp] theorem policy_emit (m : CPUOffloadingManager κ) (keys : List κ) (removed : Bool) :
    (m.emit keys removed).policy = m.policy := by
  unfold emit
  split <;> rfl

omit [DecidableEq κ] in
theorem policy_foldl_freeBlock (evicted : List (κ × BlockStatus))
    (m : CPUOffloadingManager κ) :
    (evicted.foldl (fun m e => m.freeBlock e.2) m).policy = m.policy := by
  induction evicted generalizing m with
  | nil => rfl
  | cons e rest ih =>
      rw [List.foldl_cons, ih]
      rfl

omit [DecidableEq κ] in
theorem allocateBlocks_spec {count : ℕ} {blocks : List BlockStatus}
    (h : m.allocateBlocks count = .ok (blocks, m')) :
    m'.policy = m.policy ∧ ∀ b ∈ blocks, b.refCnt = -1 := by
  simp only [allocateBlocks] at h
  split at h
  · simp only [Except.ok.injEq, Prod.mk.injEq] at h
    obtain ⟨rfl, rfl⟩ := h
    refine ⟨rfl, ?_⟩
    intro b hb
    rcases List.mem_append.mp hb with hb | hb <;>
      · obtain ⟨i, -, rfl⟩ := List.mem_map.mp hb
        rfl
  · cases h

/-- Inserting fresh blocks under absent keys leaves every ready block alone. -/
theorem foldl_insert_spec (pairs : List (κ × BlockStatus)) {p : CachePolicy κ} (hwf : p.WF)
    (hins : ∀ e ∈ pairs, p.Insertable e.1) (hfresh : ∀ e ∈ pairs, e.2.refCnt = -1) :
    (pairs.foldl (fun p e => p.insert e.1 e.2) p).WF ∧
      ∀ k, (pairs.foldl (fun p e => p.insert e.1 e.2) p).get k = p.get k ∨
        k ∈ pairs.map Prod.fst ∧
          ∃ b, (pairs.foldl (fun p e => p.insert e.1 e.2) p).get k = some b ∧
            b.refCnt = -1 := by
  induction pairs generalizing p with
  | nil => exact ⟨hwf, fun k => .inl rfl⟩
  | cons e rest ih =>
      have hhead := hins e (List.mem_cons_self ..)
      obtain ⟨hwf', hget⟩ := ih (p := p.insert e.1 e.2) (hwf.insert hhead e.2)
        (fun e' he' => (hins e' (List.mem_cons_of_mem _ he')).insert _ _)
        (fun e' he' => hfresh e' (List.mem_cons_of_mem _ he'))
      refine ⟨hwf', fun k => ?_⟩
      rw [List.foldl_cons]
      rcases hget k with hsame | ⟨hmem, hnew⟩
      · by_cases hk : k = e.1
        · refine .inr ⟨by simp [hk], e.2, ?_, hfresh e (List.mem_cons_self ..)⟩
          rw [hsame, CachePolicy.get_insert, if_pos hk]
        · left
          rw [hsame, CachePolicy.get_insert, if_neg hk]
      · exact .inr ⟨List.mem_cons_of_mem _ hmem, hnew⟩

/-- Where no room can be made the manager is left as it was. -/
theorem makeRoom_none {keys : List κ} {count : ℕ} (h : m.makeRoom keys count = (none, m')) :
    m' = m := by
  rw [makeRoom] at h
  split at h
  · split at h
    · next policy hevict =>
      rw [CachePolicy.evict_none hevict] at h
      exact (Prod.mk.inj h).2.symm
    · cases h
  · cases h

theorem isSome_makeRoom (m : CPUOffloadingManager κ) (keys : List κ) (count : ℕ) :
    (m.makeRoom keys count).1.isSome =
      if 0 < (count : ℤ) - m.getNumFreeBlocks then
        (m.policy.evict ((count : ℤ) - m.getNumFreeBlocks).toNat keys).1.isSome
      else true := by
  rw [makeRoom]
  split
  · split
    · next hevict => simp [hevict]
    · next hevict => simp [hevict]
  · rfl

/-- How room is made: the free blocks are enough, or the policy gives up blocks. -/
theorem makeRoom_some {keys toEvict : List κ} {count : ℕ}
    (h : m.makeRoom keys count = (some toEvict, m')) :
    ((count : ℤ) ≤ m.getNumFreeBlocks ∧ toEvict = [] ∧ m' = m) ∨
      ∃ evicted policy, m.getNumFreeBlocks < (count : ℤ) ∧
        m.policy.evict ((count : ℤ) - m.getNumFreeBlocks).toNat keys = (some evicted, policy) ∧
        toEvict = evicted.map Prod.fst ∧
        m' = evicted.foldl (fun m e => m.freeBlock e.2) { m with policy := policy } := by
  rw [makeRoom] at h
  split at h
  · next hpos =>
    split at h
    · cases h
    · next evicted policy hevict =>
      obtain ⟨hkeys, hm⟩ := Prod.mk.inj h
      exact .inr ⟨evicted, policy, by omega, hevict, (Option.some.inj hkeys).symm, hm.symm⟩
  · next hpos =>
    obtain ⟨hkeys, hm⟩ := Prod.mk.inj h
    exact .inl ⟨by omega, (Option.some.inj hkeys).symm, hm.symm⟩

/-- A store refused for want of room leaves the manager as it was. -/
theorem prepareStore_none {keys : List κ} (h : m.prepareStore keys = .ok (none, m')) :
    m' = m := by
  rw [prepareStore] at h
  dsimp only at h
  split at h
  · cases h
  · split at h
    · next m₁ hroom =>
      rw [makeRoom_none hroom] at h
      exact (Prod.mk.inj (Except.ok.inj h)).2.symm
    · next toEvict m₁ hroom =>
      cases halloc : (m₁.emit toEvict true).allocateBlocks
          ((m.thresholdFilter keys).filter fun k => (m.policy.get k).isNone).length with
      | error e => simp [halloc, bind, Except.bind] at h
      | ok result => simp [halloc, bind, Except.bind, pure, Except.pure] at h

theorem makeRoom_spec (hwf : m.policy.WF) {keys toEvict : List κ} {count : ℕ}
    (h : m.makeRoom keys count = (some toEvict, m')) :
    m'.policy.WF ∧ (∀ k ∈ toEvict, ∃ b, m.policy.get k = some b ∧ b.refCnt = 0) ∧
      ∀ k, m'.policy.get k = if k ∈ toEvict then none else m.policy.get k := by
  obtain ⟨-, rfl, rfl⟩ | ⟨evicted, p, -, hevict, rfl, rfl⟩ := makeRoom_some h
  · simpa using hwf
  · obtain ⟨hwf', -, -, hall, hget⟩ := CachePolicy.evict_spec hwf hevict
    rw [policy_foldl_freeBlock]
    refine ⟨hwf', ?_, hget⟩
    intro k hk
    obtain ⟨e, he, rfl⟩ := List.mem_map.mp hk
    exact ⟨e.2, (hall e he).1, (hall e he).2.1⟩

/-- What a store that was prepared did to the policy: it evicted unreferenced blocks and put
blocks in flight under keys that were absent. -/
theorem prepareStore_spec (hwf : m.policy.WF) {keys : List κ}
    {output : Option (PrepareStoreOutput κ)} (h : m.prepareStore keys = .ok (output, m')) :
    m'.policy.WF ∧
      (∀ out ∈ output, ∀ k ∈ out.evictedKeys,
        ∃ b, m.policy.get k = some b ∧ b.refCnt = 0) ∧
      ∀ k, m'.policy.get k = m.policy.get k ∨
        (∃ out ∈ output, k ∈ out.evictedKeys ∧ m'.policy.get k = none) ∨
        ((∃ out ∈ output, k ∈ out.keysToStore) ∧ m.policy.get k = none ∧
          ∃ b, m'.policy.get k = some b ∧ b.refCnt = -1) := by
  rcases output with _ | out
  · obtain rfl := prepareStore_none h
    exact ⟨hwf, by simp, fun k => .inl rfl⟩
  simp only [prepareStore] at h
  split at h
  · simp only [Except.ok.injEq, Prod.mk.injEq, Option.some.injEq] at h
    obtain ⟨rfl, rfl⟩ := h
    exact ⟨hwf, by simp, fun k => .inl rfl⟩
  · split at h
    · cases h
    · rename_i toEvict m₁ hroom
      obtain ⟨hwf₁, hevicted, hget₁⟩ := makeRoom_spec hwf hroom
      set stored := (m.thresholdFilter keys).filter fun k => (m.policy.get k).isNone
        with hstored
      cases halloc : (m₁.emit toEvict true).allocateBlocks stored.length with
      | error e => simp [halloc, bind, Except.bind] at h
      | ok result =>
          obtain ⟨blocks, m₂⟩ := result
          simp only [halloc, bind, Except.bind, pure, Except.pure, Except.ok.injEq,
            Prod.mk.injEq, Option.some.injEq] at h
          obtain ⟨rfl, rfl⟩ := h
          obtain ⟨hpolicy, hfresh⟩ := allocateBlocks_spec halloc
          rw [policy_emit] at hpolicy
          have habsent : ∀ k ∈ stored, m.policy.get k = none := by
            intro k hk
            simpa [hstored] using (List.mem_filter.mp hk).2
          have hpairs : ∀ e ∈ stored.zip blocks, e.1 ∈ stored ∧ e.2 ∈ blocks :=
            fun e he => ⟨(List.of_mem_zip he).1, (List.of_mem_zip he).2⟩
          have hins : ∀ e ∈ stored.zip blocks, m₂.policy.Insertable e.1 := by
            intro e he
            apply CachePolicy.insertable_of_get_eq_none
            rw [hpolicy, hget₁, habsent e.1 (hpairs e he).1, ite_self]
          obtain ⟨hwf₂, hget₂⟩ := foldl_insert_spec (stored.zip blocks)
            (p := m₂.policy) (hpolicy ▸ hwf₁) hins fun e he => hfresh e.2 (hpairs e he).2
          refine ⟨hwf₂, by simpa using hevicted, fun k => ?_⟩
          rcases hget₂ k with hsame | ⟨hmem, hnew⟩
          · dsimp only
            rw [hsame, hpolicy, hget₁]
            by_cases hk : k ∈ toEvict
            · exact .inr (.inl ⟨_, rfl, hk, if_pos hk⟩)
            · exact .inl (if_neg hk)
          · obtain ⟨e, he, rfl⟩ := List.mem_map.mp hmem
            exact .inr (.inr ⟨⟨_, rfl, (hpairs e he).1⟩, habsent e.1 (hpairs e he).1, hnew⟩)

theorem not_ready_of_refCnt {b : BlockStatus} (h : b.refCnt = -1) : b.isReady = false := by
  simp [BlockStatus.isReady, h]

/-- Preparing a store moves no reference and evicts no key that is owed one. -/
theorem Accounts.prepareStore (h : m.Accounts owed) {keys : List κ}
    {output : Option (PrepareStoreOutput κ)}
    (hstore : m.prepareStore keys = .ok (output, m')) :
    m'.Accounts owed ∧ ∀ out ∈ output, ∀ k ∈ out.evictedKeys, owed k = 0 := by
  obtain ⟨hwf, hevicted, hget⟩ := prepareStore_spec h.wf hstore
  have hzero : ∀ k, (m.policy.get k = none ∨ ∃ b, m.policy.get k = some b ∧ b.refCnt = 0) →
      owed k = 0 := by
    rintro k (hnone | ⟨b, hb, hb0⟩)
    · by_contra hne
      obtain ⟨b, hb, -⟩ := isKeyReady_iff.mp (h.ready k (by have := h.nonneg k; omega))
      simp [hnone] at hb
    · rw [← h.refCnt k b hb (by simp [BlockStatus.isReady, hb0]), hb0]
  have hevictedZero : ∀ out ∈ output, ∀ k ∈ out.evictedKeys, owed k = 0 :=
    fun out hout k hk => hzero k (.inr (hevicted out hout k hk))
  refine ⟨⟨hwf, h.nonneg, ?_, ?_⟩, hevictedZero⟩
  · intro k b hb hready
    rcases hget k with hsame | ⟨out, hout, hk, hnone⟩ | ⟨-, -, b', hb', hminus⟩
    · exact h.refCnt k b (hsame ▸ hb) hready
    · simp [hnone] at hb
    · rw [hb, Option.some.injEq] at hb'
      subst hb'
      simp [not_ready_of_refCnt hminus] at hready
  · intro k hk
    rcases hget k with hsame | ⟨out, hout, hmem, -⟩ | ⟨-, hold, -⟩
    · have := h.ready k hk
      unfold isKeyReady at this ⊢
      rwa [hsame]
    · exact absurd (hevictedZero out hout k hmem) (by omega)
    · exact absurd (hzero k (.inl hold)) (by omega)

theorem Accounts.markStored (h : m.Accounts owed) {key : κ} (hkey : m.isKeyInFlight key) :
    (m.markStored key).Accounts owed := by
  obtain ⟨b₀, hb₀, hflight⟩ : ∃ b, m.policy.get key = some b ∧ b.isReady = false := by
    unfold isKeyInFlight at hkey
    cases hget : m.policy.get key with
    | none => simp [hget] at hkey
    | some b => exact ⟨b, rfl, by simpa [hget] using hkey⟩
  have hzero : owed key = 0 := by
    by_contra hne
    have := h.ready key (by have := h.nonneg key; omega)
    simp [isKeyReady, hb₀, hflight] at this
  have hget : ∀ k, (m.markStored key).policy.get k =
      if k = key then some { b₀ with refCnt := 0 } else m.policy.get k := by
    intro k
    unfold CPUOffloadingManager.markStored
    rw [CachePolicy.get_modify]
    by_cases hk : k = key
    · simp [hk, hb₀]
    · simp [hk]
  refine ⟨h.wf.modify _ _, h.nonneg, ?_, ?_⟩
  · intro k b hb hready
    rw [hget] at hb
    by_cases hk : k = key
    · simp only [hk, if_true, Option.some.injEq] at hb
      rw [hk, hzero, ← hb]
    · exact h.refCnt k b (by simpa [hk] using hb) hready
  · intro k hpos
    have hk : k ≠ key := fun heq => by rw [heq, hzero] at hpos; omega
    have := h.ready k hpos
    unfold isKeyReady at this ⊢
    rwa [hget, if_neg hk]

theorem Accounts.dropUnready (h : m.Accounts owed) (key : κ) :
    (m.dropUnready key).Accounts owed := by
  unfold CPUOffloadingManager.dropUnready
  split
  · exact h
  · rename_i b₀ hb₀
    split
    · exact h
    · rename_i hflight
      have hzero : owed key = 0 := by
        by_contra hne
        have := h.ready key (by have := h.nonneg key; omega)
        simp [isKeyReady, hb₀, hflight] at this
      have hget := fun k => CachePolicy.get_remove h.wf key k
      refine ⟨h.wf.remove key, h.nonneg, ?_, ?_⟩
      · intro k b hb hready
        change (m.policy.remove key).get k = some b at hb
        rw [hget] at hb
        by_cases hk : k = key
        · simp [hk] at hb
        · exact h.refCnt k b (by simpa [hk] using hb) hready
      · intro k hpos
        have hk : k ≠ key := fun heq => by rw [heq, hzero] at hpos; omega
        have hready := h.ready k hpos
        have hsame : (m.policy.remove key).get k = m.policy.get k := (hget k).trans (if_neg hk)
        unfold isKeyReady at hready ⊢
        rwa [freeBlock, hsame]

/-- Completing a store, successfully or not, moves no reference. -/
theorem Accounts.completeStore (h : m.Accounts owed) (keys : List κ) (success : Bool) :
    (m.completeStore keys success).Accounts owed := by
  unfold CPUOffloadingManager.completeStore
  split
  · have hfold : ∀ (taken : List κ) (m₁ : CPUOffloadingManager κ), m₁.Accounts owed →
        (keys.foldl (fun s key =>
          if s.2.isKeyInFlight key then (s.1 ++ [key], s.2.markStored key) else s) (taken, m₁)).2.Accounts owed := by
      induction keys with
      | nil => exact fun _ _ h₁ => h₁
      | cons key keys ih =>
          intro taken m₁ h₁
          rw [List.foldl_cons]
          by_cases hflight : m₁.isKeyInFlight key = true
          · simp only [hflight, if_true]
            exact ih _ _ (h₁.markStored hflight)
          · simp only [hflight]
            exact ih _ _ h₁
    have hstored := hfold [] m h
    exact hstored.of_get (by rw [policy_emit]; exact hstored.wf) fun k => by rw [policy_emit]
  · induction keys generalizing m with
    | nil => exact h
    | cons key keys ih => exact ih (h.dropUnready key)

theorem Accounts.touch (h : m.Accounts owed) (keys : List κ) : (m.touch keys).Accounts owed :=
  h.of_get (h.wf.touch keys) fun k => CachePolicy.get_touch h.wf keys k

theorem Accounts.lookup (h : m.Accounts owed) (key : κ) :
    (m.lookup key).2.Accounts owed := by
  have hpolicy : (m.lookup key).2.policy = m.policy := by
    simp only [CPUOffloadingManager.lookup]
    split <;> rfl
  exact h.of_get (hpolicy ▸ h.wf) fun k => by rw [hpolicy]

theorem accounts_resetCache (m : CPUOffloadingManager κ) :
    m.resetCache.Accounts fun _ => 0 where
  wf := CachePolicy.wf_clear _
  nonneg _ := le_rfl
  refCnt k b hb := by simp [resetCache] at hb
  ready k hk := absurd hk (lt_irrefl _)

theorem accounts_new (numBlocks : ℕ) (cachePolicy : PolicyName) (enableEvents : Bool)
    (storeThreshold maxTrackerSize : ℕ) :
    (new numBlocks cachePolicy enableEvents storeThreshold maxTrackerSize :
      CPUOffloadingManager κ).Accounts fun _ => 0 := by
  have hget : ∀ k, (new numBlocks cachePolicy enableEvents storeThreshold maxTrackerSize :
      CPUOffloadingManager κ).policy.get k = none := by
    cases cachePolicy <;> exact fun k => rfl
  refine ⟨?_, fun _ => le_rfl, ?_, fun k hk => absurd hk (lt_irrefl _)⟩
  · cases cachePolicy with
    | lru => trivial
    | arc => exact fun k => .inl rfl
  · intro k b hb
    simp [hget] at hb

end TokenCake.Offload.CPUOffloadingManager
