import TokenCake.Model.CachePolicy

/-! # Semantics of the cache policies

Both policies are described by what `get` answers after each operation. -/

namespace TokenCake.Offload

variable {κ : Type*} [DecidableEq κ]

/-! ## Least recently used -/

namespace LRUCachePolicy

@[simp] theorem get_touch (p : LRUCachePolicy κ) (keys : List κ) (k : κ) :
    (p.touch keys).get k = p.get k := by
  unfold touch get
  generalize p.blocks = d
  induction keys.reverse generalizing d with
  | nil => rfl
  | cons key rest ih => rw [List.foldl_cons, ih, OrdDict.get?_moveToEnd]

/-- Erasing a list of bindings removes exactly their keys. -/
theorem get?_foldl_erase (victims : List (κ × BlockStatus)) (d : OrdDict κ BlockStatus)
    (k : κ) :
    (victims.foldl (fun d e => d.erase e.1) d).get? k =
      if k ∈ victims.map Prod.fst then none else d.get? k := by
  induction victims generalizing d with
  | nil => simp
  | cons e rest ih =>
      rw [List.foldl_cons, ih, OrdDict.get?_erase]
      by_cases hrest : k ∈ rest.map Prod.fst
      · simp [hrest]
      · by_cases hk : k = e.1
        · simp [hk]
        · simp [hrest, hk]

/-- An eviction that fails changes nothing. -/
theorem evict_none {p p' : LRUCachePolicy κ} {n : ℕ} {protectedKeys : List κ}
    (h : p.evict n protectedKeys = (none, p')) : p' = p := by
  unfold evict at h
  split at h
  · cases h
  · dsimp only at h
    split at h
    · exact (Prod.mk.inj h).2.symm
    · cases h

/-- A successful eviction removes `n` distinct unreferenced and unprotected blocks. -/
theorem evict_spec {p p' : LRUCachePolicy κ} {n : ℕ} {protectedKeys : List κ}
    {evicted : List (κ × BlockStatus)} (h : p.evict n protectedKeys = (some evicted, p')) :
    evicted.length = n ∧ (evicted.map Prod.fst).Nodup ∧
      (∀ e ∈ evicted, p.get e.1 = some e.2 ∧ e.2.refCnt = 0 ∧ e.1 ∉ protectedKeys) ∧
      ∀ k, p'.get k = if k ∈ evicted.map Prod.fst then none else p.get k := by
  unfold evict at h
  split at h
  · rename_i hn
    obtain ⟨hvictims, rfl⟩ := Prod.mk.inj h
    obtain rfl := Option.some.inj hvictims
    exact ⟨by simp [hn], by simp, by simp, by simp⟩
  · simp only at h
    split at h
    · cases h
    · rename_i hshort
      obtain ⟨hvictims, rfl⟩ := Prod.mk.inj h
      obtain rfl := Option.some.inj hvictims
      refine ⟨?_, ?_, ?_, fun k => get?_foldl_erase _ _ k⟩
      · have := List.length_take_le n (p.blocks.entries.filter fun e =>
          decide (e.2.refCnt = 0 ∧ e.1 ∉ protectedKeys))
        omega
      · exact (((List.take_sublist _ _).trans List.filter_sublist).map _).nodup
          p.blocks.nodupKeys
      · intro e he
        have hmem := List.mem_filter.mp (List.mem_of_mem_take he)
        exact ⟨OrdDict.get?_eq_some_iff.mpr hmem.1, by simpa using hmem.2⟩

end LRUCachePolicy

/-! ## Adaptive replacement -/

namespace ARCCachePolicy

/-- No key is in both `t1` and `t2`. -/
def Separated (p : ARCCachePolicy κ) : Prop :=
  ∀ k, p.t1.get? k = none ∨ p.t2.get? k = none

theorem get_eq_some_iff {p : ARCCachePolicy κ} (hp : p.Separated) {k : κ} {b : BlockStatus} :
    p.get k = some b ↔ p.t1.get? k = some b ∨ p.t2.get? k = some b := by
  unfold get
  rcases hp k with h | h <;> simp [h]

theorem get_eq_none_iff {p : ARCCachePolicy κ} {k : κ} :
    p.get k = none ↔ p.t1.get? k = none ∧ p.t2.get? k = none := by
  simp [get]

theorem get_modify (p : ARCCachePolicy κ) (key : κ) (f : BlockStatus → BlockStatus) (k : κ) :
    (p.modify key f).get k = if k = key then (p.get k).map f else p.get k := by
  unfold modify get
  by_cases h : p.t1.contains key = true
  · obtain ⟨b, hb⟩ := OrdDict.contains_iff.mp h
    by_cases hk : k = key <;> simp [h, OrdDict.get?_modify, hk, hb]
  · have hnone : p.t1.get? key = none := by
      cases hget : p.t1.get? key with
      | none => rfl
      | some b => exact absurd (OrdDict.contains_iff.mpr ⟨b, hget⟩) h
    by_cases hk : k = key <;> simp [h, OrdDict.get?_modify, hk, hnone]

theorem Separated.modify {p : ARCCachePolicy κ} (hp : p.Separated) (key : κ)
    (f : BlockStatus → BlockStatus) : (p.modify key f).Separated := by
  intro k
  unfold ARCCachePolicy.modify
  split
  · rcases hp k with h | h
    · left
      by_cases hk : k = key <;> simp_all [OrdDict.get?_modify]
    · exact .inr h
  · rcases hp k with h | h
    · exact .inl h
    · right
      by_cases hk : k = key <;> simp_all [OrdDict.get?_modify]

theorem get_insert (p : ARCCachePolicy κ) (key : κ) (b : BlockStatus) (k : κ) :
    (p.insert key b).get k = if k = key then some b else p.get k := by
  by_cases hk : k = key <;> simp [insert, get, OrdDict.get?_insert, hk]

theorem Separated.insert {p : ARCCachePolicy κ} (hp : p.Separated) {key : κ}
    (hkey : p.t2.get? key = none) (b : BlockStatus) : (p.insert key b).Separated := by
  intro k
  by_cases hk : k = key
  · exact .inr (by simpa [ARCCachePolicy.insert, hk] using hkey)
  · simpa [ARCCachePolicy.insert, OrdDict.get?_insert, hk] using hp k

theorem get_remove {p : ARCCachePolicy κ} (hp : p.Separated) (key k : κ) :
    (p.remove key).get k = if k = key then none else p.get k := by
  unfold remove get
  by_cases h : p.t1.contains key = true
  · obtain ⟨b, hb⟩ := OrdDict.contains_iff.mp h
    have h2 : p.t2.get? key = none := (hp key).resolve_left (by simp [hb])
    by_cases hk : k = key <;> simp [h, OrdDict.get?_erase, hk, h2]
  · have hnone : p.t1.get? key = none := by
      cases hget : p.t1.get? key with
      | none => rfl
      | some b => exact absurd (OrdDict.contains_iff.mpr ⟨b, hget⟩) h
    by_cases hk : k = key <;> simp [h, OrdDict.get?_erase, hk, hnone]

theorem Separated.remove {p : ARCCachePolicy κ} (hp : p.Separated) (key : κ) :
    (p.remove key).Separated := by
  intro k
  unfold ARCCachePolicy.remove
  split
  · rcases hp k with h | h
    · exact .inl (by simp [OrdDict.get?_erase, h])
    · exact .inr h
  · rcases hp k with h | h
    · exact .inl h
    · exact .inr (by simp [OrdDict.get?_erase, h])

theorem touchKey_spec {p : ARCCachePolicy κ} (hp : p.Separated) (key : κ) :
    (p.touchKey key).Separated ∧ ∀ k, (p.touchKey key).get k = p.get k := by
  unfold touchKey
  split
  · rename_i block hblock
    have h2 : p.t2.get? key = none := (hp key).resolve_left (by simp [hblock])
    split
    · constructor
      · intro k
        by_cases hk : k = key
        · exact .inl (by simp [OrdDict.get?_erase, hk])
        · simpa [OrdDict.get?_erase, OrdDict.get?_insert, hk] using hp k
      · intro k
        by_cases hk : k = key <;>
          simp [get, OrdDict.get?_erase, OrdDict.get?_insert, hk, hblock]
    · constructor
      · intro k
        by_cases hk : k = key
        · exact .inr (by simpa [hk] using h2)
        · simpa [OrdDict.get?_erase, OrdDict.get?_insert, hk] using hp k
      · intro k
        by_cases hk : k = key <;>
          simp [get, OrdDict.get?_erase, OrdDict.get?_insert, hk, hblock]
  · split_ifs
    · exact ⟨fun k => by simpa using hp k, fun k => by simp [get]⟩
    · exact ⟨hp, fun _ => rfl⟩
    · exact ⟨hp, fun _ => rfl⟩
    · exact ⟨hp, fun _ => rfl⟩

theorem touch_spec {p : ARCCachePolicy κ} (hp : p.Separated) (keys : List κ) :
    (p.touch keys).Separated ∧ ∀ k, (p.touch keys).get k = p.get k := by
  unfold touch
  induction keys.reverse generalizing p with
  | nil => exact ⟨hp, fun _ => rfl⟩
  | cons key rest ih =>
      obtain ⟨hsep, hget⟩ := touchKey_spec hp key
      obtain ⟨hsep', hget'⟩ := ih hsep
      exact ⟨hsep', fun k => (hget' k).trans (hget k)⟩

/-! ### Eviction -/

/-- What a selected victim is. -/
structure Candidate.Valid (p : ARCCachePolicy κ) (protectedKeys : List κ)
    (c : Candidate κ) : Prop where
  refCnt : c.block.refCnt = 0
  unprotected : c.key ∉ protectedKeys
  source : if c.fromT1 then p.t1.get? c.key = some c.block else p.t2.get? c.key = some c.block

theorem findEvictable_spec {d : OrdDict κ BlockStatus} {protectedKeys selected : List κ}
    {e : κ × BlockStatus} (h : findEvictable d protectedKeys selected = some e) :
    d.get? e.1 = some e.2 ∧ e.2.refCnt = 0 ∧ e.1 ∉ protectedKeys ∧ e.1 ∉ selected := by
  have hmem : e ∈ d.entries := List.mem_of_find?_eq_some h
  have hsome := List.find?_some h
  refine ⟨OrdDict.get?_eq_some_iff.mpr hmem, ?_⟩
  simpa using hsome

theorem nextCandidate_spec {p : ARCCachePolicy κ} {protectedKeys selected : List κ} {v : ℤ}
    {c : Candidate κ} (h : p.nextCandidate protectedKeys selected v = some c) :
    c.Valid p protectedKeys ∧ c.key ∉ selected := by
  simp only [nextCandidate] at h
  generalize hfrom : (if truncate p.targetT1Size ≤ v
    then findEvictable p.t1 protectedKeys selected else none) = fromT1 at h
  cases fromT1 with
  | some e =>
      cases h
      split at hfrom
      · obtain ⟨hget, hzero, hprot, hsel⟩ := findEvictable_spec hfrom
        exact ⟨⟨hzero, hprot, hget⟩, hsel⟩
      · cases hfrom
  | none =>
      obtain ⟨e, hfind, rfl⟩ := Option.map_eq_some_iff.mp h
      obtain ⟨hget, hzero, hprot, hsel⟩ := findEvictable_spec hfind
      exact ⟨⟨hzero, hprot, hget⟩, hsel⟩

theorem selectCandidates_spec {p : ARCCachePolicy κ} {protectedKeys : List κ} {n : ℕ} :
    ∀ {selected : List κ} {v : ℤ} {cs : List (Candidate κ)},
      p.selectCandidates protectedKeys n selected v = some cs →
      cs.length = n ∧ (∀ c ∈ cs, c.Valid p protectedKeys ∧ c.key ∉ selected) ∧
        (cs.map Candidate.key).Nodup := by
  induction n with
  | zero =>
      intro selected v cs h
      cases h
      simp
  | succ n ih =>
      intro selected v cs h
      simp only [selectCandidates] at h
      split at h
      · cases h
      · rename_i c hnext
        obtain ⟨rest, hrest, rfl⟩ := Option.map_eq_some_iff.mp h
        obtain ⟨hvalid, hsel⟩ := nextCandidate_spec hnext
        obtain ⟨hlen, hall, hnodup⟩ := ih hrest
        refine ⟨by simp [hlen], ?_, ?_⟩
        · intro c' hc'
          rcases List.mem_cons.mp hc' with rfl | hmem
          · exact ⟨hvalid, hsel⟩
          · exact ⟨(hall c' hmem).1, fun hin => (hall c' hmem).2 (List.mem_cons_of_mem _ hin)⟩
        · refine List.nodup_cons.mpr ⟨?_, hnodup⟩
          intro hin
          obtain ⟨c', hmem, hkey⟩ := List.mem_map.mp hin
          exact (hall c' hmem).2 (hkey ▸ List.mem_cons_self ..)

theorem foldl_applyEviction (cs : List (Candidate κ)) (p : ARCCachePolicy κ) (k : κ) :
    (cs.foldl applyEviction p).t1.get? k =
        (if ∃ c ∈ cs, c.key = k ∧ c.fromT1 = true then none else p.t1.get? k) ∧
      (cs.foldl applyEviction p).t2.get? k =
        (if ∃ c ∈ cs, c.key = k ∧ c.fromT1 = false then none else p.t2.get? k) := by
  induction cs generalizing p with
  | nil => simp
  | cons c cs ih =>
      rw [List.foldl_cons]
      obtain ⟨h1, h2⟩ := ih (p.applyEviction c)
      rw [h1, h2]
      cases hfrom : c.fromT1 <;> by_cases hk : c.key = k <;>
        simp [applyEviction, hfrom, hk, OrdDict.get?_erase, eq_comm (a := k)]

/-- An eviction that fails changes nothing. -/
theorem evict_none {p p' : ARCCachePolicy κ} {n : ℕ} {protectedKeys : List κ}
    (h : p.evict n protectedKeys = (none, p')) : p' = p := by
  unfold evict at h
  split at h
  · cases h
  · split at h
    · exact (Prod.mk.inj h).2.symm
    · cases h

/-- A successful eviction removes `n` distinct unreferenced and unprotected blocks. -/
theorem evict_spec {p p' : ARCCachePolicy κ} (hp : p.Separated) {n : ℕ}
    {protectedKeys : List κ} {evicted : List (κ × BlockStatus)}
    (h : p.evict n protectedKeys = (some evicted, p')) :
    p'.Separated ∧ evicted.length = n ∧ (evicted.map Prod.fst).Nodup ∧
      (∀ e ∈ evicted, p.get e.1 = some e.2 ∧ e.2.refCnt = 0 ∧ e.1 ∉ protectedKeys) ∧
      ∀ k, p'.get k = if k ∈ evicted.map Prod.fst then none else p.get k := by
  unfold evict at h
  split at h
  · rename_i hn
    obtain ⟨hvictims, rfl⟩ := Prod.mk.inj h
    obtain rfl := Option.some.inj hvictims
    exact ⟨hp, by simp [hn], by simp, by simp, by simp⟩
  · split at h
    · cases h
    · rename_i cs hcs
      obtain ⟨hvictims, rfl⟩ := Prod.mk.inj h
      obtain rfl := Option.some.inj hvictims
      obtain ⟨hlen, hall, hnodup⟩ := selectCandidates_spec hcs
      have hfold := foldl_applyEviction cs p
      have hkeys : (cs.map fun c => (c.key, c.block)).map Prod.fst = cs.map Candidate.key := by
        simp [Function.comp_def]
      refine ⟨?_, by simpa using hlen, by rwa [hkeys], ?_, ?_⟩
      · intro k
        obtain ⟨h1, h2⟩ := hfold k
        rcases hp k with h | h
        · left
          rw [h1, h, ite_self]
        · right
          rw [h2, h, ite_self]
      · intro e he
        obtain ⟨c, hc, rfl⟩ := List.mem_map.mp he
        obtain ⟨⟨hzero, hprot, hsource⟩, -⟩ := hall c hc
        refine ⟨(get_eq_some_iff hp).mpr ?_, hzero, hprot⟩
        cases hfrom : c.fromT1 with
        | true => exact .inl (by simpa [hfrom] using hsource)
        | false => exact .inr (by simpa [hfrom] using hsource)
      · intro k
        obtain ⟨h1, h2⟩ := hfold k
        rw [hkeys]
        change ((cs.foldl applyEviction p).t1.get? k).or ((cs.foldl applyEviction p).t2.get? k)
          = _
        rw [h1, h2]
        by_cases hk : k ∈ cs.map Candidate.key
        · obtain ⟨c, hc, rfl⟩ := List.mem_map.mp hk
          obtain ⟨⟨-, -, hsource⟩, -⟩ := hall c hc
          rw [if_pos hk]
          cases hfrom : c.fromT1 with
          | true =>
              have h2' : p.t2.get? c.key = none :=
                (hp c.key).resolve_left (by simp_all)
              rw [if_pos ⟨c, hc, rfl, hfrom⟩, h2']
              simp
          | false =>
              have h1' : p.t1.get? c.key = none :=
                (hp c.key).resolve_right (by simp_all)
              rw [if_pos (c := ∃ c' ∈ cs, c'.key = c.key ∧ c'.fromT1 = false)
                ⟨c, hc, rfl, hfrom⟩, h1']
              simp
        · have hnone : ∀ side, ¬ ∃ c ∈ cs, c.key = k ∧ c.fromT1 = side := by
            rintro side ⟨c, hc, rfl, -⟩
            exact hk (List.mem_map_of_mem hc)
          rw [if_neg hk, if_neg (hnone true), if_neg (hnone false)]
          rfl

end ARCCachePolicy

/-! ## The common interface -/

namespace CachePolicy

/-- The internal lists of the policy hold every key once. -/
def WF : CachePolicy κ → Prop
  | lru _ => True
  | arc p => p.Separated

/-- `insert` may bind this key without leaving a second block under it. -/
def Insertable : CachePolicy κ → κ → Prop
  | lru _, _ => True
  | arc p, key => p.t2.get? key = none

theorem get_modify (p : CachePolicy κ) (key : κ) (f : BlockStatus → BlockStatus) (k : κ) :
    (p.modify key f).get k = if k = key then (p.get k).map f else p.get k := by
  cases p with
  | lru p => exact OrdDict.get?_modify ..
  | arc p => exact p.get_modify key f k

theorem WF.modify {p : CachePolicy κ} (hp : p.WF) (key : κ) (f : BlockStatus → BlockStatus) :
    (p.modify key f).WF := by
  cases p with
  | lru p => trivial
  | arc p => exact ARCCachePolicy.Separated.modify hp key f

theorem get_insert (p : CachePolicy κ) (key : κ) (b : BlockStatus) (k : κ) :
    (p.insert key b).get k = if k = key then some b else p.get k := by
  cases p with
  | lru p => exact OrdDict.get?_insert ..
  | arc p => exact p.get_insert key b k

theorem WF.insert {p : CachePolicy κ} (hp : p.WF) {key : κ} (hkey : p.Insertable key)
    (b : BlockStatus) : (p.insert key b).WF := by
  cases p with
  | lru p => trivial
  | arc p => exact ARCCachePolicy.Separated.insert hp hkey b

theorem insertable_of_get_eq_none {p : CachePolicy κ} {key : κ} (h : p.get key = none) :
    p.Insertable key := by
  cases p with
  | lru p => trivial
  | arc p => exact (ARCCachePolicy.get_eq_none_iff.mp h).2

theorem Insertable.insert {p : CachePolicy κ} {key : κ} (h : p.Insertable key) (key' : κ)
    (b : BlockStatus) : (p.insert key' b).Insertable key := by
  cases p with
  | lru p => trivial
  | arc p => exact h

theorem get_remove {p : CachePolicy κ} (hp : p.WF) (key k : κ) :
    (p.remove key).get k = if k = key then none else p.get k := by
  cases p with
  | lru p => exact OrdDict.get?_erase ..
  | arc p => exact ARCCachePolicy.get_remove hp key k

theorem WF.remove {p : CachePolicy κ} (hp : p.WF) (key : κ) : (p.remove key).WF := by
  cases p with
  | lru p => trivial
  | arc p => exact ARCCachePolicy.Separated.remove hp key

theorem get_touch {p : CachePolicy κ} (hp : p.WF) (keys : List κ) (k : κ) :
    (p.touch keys).get k = p.get k := by
  cases p with
  | lru p => exact p.get_touch keys k
  | arc p => exact (ARCCachePolicy.touch_spec hp keys).2 k

theorem WF.touch {p : CachePolicy κ} (hp : p.WF) (keys : List κ) : (p.touch keys).WF := by
  cases p with
  | lru p => trivial
  | arc p => exact (ARCCachePolicy.touch_spec hp keys).1

@[simp] theorem get_clear (p : CachePolicy κ) (k : κ) : p.clear.get k = none := by
  cases p <;> rfl

theorem wf_clear (p : CachePolicy κ) : p.clear.WF := by
  cases p with
  | lru p => trivial
  | arc p => exact fun k => .inl rfl

theorem evict_lru {p : LRUCachePolicy κ} {p' : CachePolicy κ} {n : ℕ} {protectedKeys : List κ}
    {result : Option (List (κ × BlockStatus))}
    (h : (lru p).evict n protectedKeys = (result, p')) :
    ∃ q, p.evict n protectedKeys = (result, q) ∧ p' = lru q := by
  obtain ⟨rfl, rfl⟩ := Prod.mk.inj h
  exact ⟨_, rfl, rfl⟩

theorem evict_arc {p : ARCCachePolicy κ} {p' : CachePolicy κ} {n : ℕ} {protectedKeys : List κ}
    {result : Option (List (κ × BlockStatus))}
    (h : (arc p).evict n protectedKeys = (result, p')) :
    ∃ q, p.evict n protectedKeys = (result, q) ∧ p' = arc q := by
  obtain ⟨rfl, rfl⟩ := Prod.mk.inj h
  exact ⟨_, rfl, rfl⟩

/-- An eviction that fails changes nothing. -/
theorem evict_none {p p' : CachePolicy κ} {n : ℕ} {protectedKeys : List κ}
    (h : p.evict n protectedKeys = (none, p')) : p' = p := by
  cases p with
  | lru p =>
      obtain ⟨q, hevict, rfl⟩ := evict_lru h
      rw [LRUCachePolicy.evict_none hevict]
  | arc p =>
      obtain ⟨q, hevict, rfl⟩ := evict_arc h
      rw [ARCCachePolicy.evict_none hevict]

/-- A successful eviction removes `n` distinct unreferenced and unprotected blocks. -/
theorem evict_spec {p p' : CachePolicy κ} (hp : p.WF) {n : ℕ} {protectedKeys : List κ}
    {evicted : List (κ × BlockStatus)} (h : p.evict n protectedKeys = (some evicted, p')) :
    p'.WF ∧ evicted.length = n ∧ (evicted.map Prod.fst).Nodup ∧
      (∀ e ∈ evicted, p.get e.1 = some e.2 ∧ e.2.refCnt = 0 ∧ e.1 ∉ protectedKeys) ∧
      ∀ k, p'.get k = if k ∈ evicted.map Prod.fst then none else p.get k := by
  cases p with
  | lru p =>
      obtain ⟨q, hevict, rfl⟩ := evict_lru h
      obtain ⟨hlen, hnodup, hall, hget⟩ := LRUCachePolicy.evict_spec hevict
      exact ⟨trivial, hlen, hnodup, hall, hget⟩
  | arc p =>
      obtain ⟨q, hevict, rfl⟩ := evict_arc h
      exact ARCCachePolicy.evict_spec hp hevict

end CachePolicy

end TokenCake.Offload
