import TokenCake.Verification.CachePolicy.Semantics

/-! # What a policy holds

The blocks of a policy as a sum over its entries: every operation moves the sum by the entries
it adds or removes. The four lists of ARC stay apart and bounded. -/

namespace TokenCake.Offload

variable {κ M : Type*}

/-! ## Sums over the blocks -/

/-- The blocks of the policy with their keys. -/
def CachePolicy.entries : CachePolicy κ → List (κ × BlockStatus)
  | lru p => p.blocks.entries
  | arc p => p.t1.entries ++ p.t2.entries

section Sum

variable [AddCommMonoid M]

def CachePolicy.sum (p : CachePolicy κ) (f : κ → BlockStatus → M) : M :=
  (p.entries.map fun e => f e.1 e.2).sum

theorem CachePolicy.sum_arc (p : ARCCachePolicy κ) (f : κ → BlockStatus → M) :
    (arc p).sum f = p.t1.sum f + p.t2.sum f := by
  simp [CachePolicy.sum, entries, OrdDict.sum]

variable [DecidableEq κ]

namespace ARCCachePolicy

theorem sum_touchKey {p : ARCCachePolicy κ} (hp : p.Separated) (key : κ)
    (f : κ → BlockStatus → M) :
    (p.touchKey key).t1.sum f + (p.touchKey key).t2.sum f = p.t1.sum f + p.t2.sum f := by
  rw [touchKey]
  split
  · next block hblock =>
    have hsum := OrdDict.sum_erase_add hblock f
    split
    · have hnone : p.t2.get? key = none := (hp key).resolve_left (by simp [hblock])
      rw [OrdDict.sum_insert_new hnone, ← hsum]
      exact (add_assoc ..).symm.trans (add_right_comm ..)
    · have hnone : (p.t1.erase key).get? key = none := by simp [OrdDict.get?_erase]
      rw [OrdDict.sum_insert_new hnone, hsum]
  · split_ifs
    · rw [OrdDict.sum_moveToEnd]
    · rfl
    · rfl
    · rfl

theorem sum_touch {p : ARCCachePolicy κ} (hp : p.Separated) (keys : List κ)
    (f : κ → BlockStatus → M) :
    (p.touch keys).t1.sum f + (p.touch keys).t2.sum f = p.t1.sum f + p.t2.sum f := by
  rw [touch]
  induction keys.reverse generalizing p with
  | nil => rfl
  | cons key rest ih =>
      rw [List.foldl_cons, ih (touchKey_spec hp key).1]
      exact sum_touchKey hp key f

/-- A victim stays one when another key is evicted. -/
theorem Candidate.Valid.applyEviction {p : ARCCachePolicy κ} {protectedKeys : List κ}
    {c c' : Candidate κ} (h : c'.Valid p protectedKeys) (hne : c'.key ≠ c.key) :
    c'.Valid (p.applyEviction c) protectedKeys := by
  obtain ⟨hzero, hprot, hsource⟩ := h
  refine ⟨hzero, hprot, ?_⟩
  rw [ARCCachePolicy.applyEviction]
  cases c.fromT1 with
  | true => simpa [OrdDict.get?_erase, hne] using hsource
  | false => simpa [OrdDict.get?_erase, hne] using hsource

/-- The victims leave the two lists one by one. -/
theorem sum_applyEviction {protectedKeys : List κ} (f : κ → BlockStatus → M)
    (cs : List (Candidate κ)) (p : ARCCachePolicy κ) (hnodup : (cs.map Candidate.key).Nodup)
    (hvalid : ∀ c ∈ cs, c.Valid p protectedKeys) :
    (cs.foldl applyEviction p).t1.sum f + (cs.foldl applyEviction p).t2.sum f +
      (cs.map fun c => f c.key c.block).sum = p.t1.sum f + p.t2.sum f := by
  induction cs generalizing p with
  | nil => simp
  | cons c cs ih =>
      rw [List.map_cons, List.nodup_cons] at hnodup
      have hother : ∀ c' ∈ cs, c'.Valid (p.applyEviction c) protectedKeys := fun c' hc' =>
        (hvalid c' (List.mem_cons_of_mem _ hc')).applyEviction
          fun heq => hnodup.1 (heq ▸ List.mem_map_of_mem hc')
      have hrest := ih (p.applyEviction c) hnodup.2 hother
      have hsource := (hvalid c (List.mem_cons_self ..)).source
      rw [List.foldl_cons, List.map_cons, List.sum_cons, add_left_comm, hrest, applyEviction]
      cases hfrom : c.fromT1 with
      | true =>
          have hsum := OrdDict.sum_erase_add (by simpa [hfrom] using hsource) f
          rw [if_pos rfl, ← hsum, add_right_comm]
          exact add_comm (f c.key c.block) _
      | false =>
          have hsum := OrdDict.sum_erase_add (by simpa [hfrom] using hsource) f
          rw [if_neg (by simp), ← hsum, ← add_assoc (p.t1.sum f)]
          exact add_comm (f c.key c.block) _

theorem sum_evict {p p' : ARCCachePolicy κ} {n : ℕ} {protectedKeys : List κ}
    {evicted : List (κ × BlockStatus)} (h : p.evict n protectedKeys = (some evicted, p'))
    (f : κ → BlockStatus → M) :
    p'.t1.sum f + p'.t2.sum f + (evicted.map fun e => f e.1 e.2).sum =
      p.t1.sum f + p.t2.sum f := by
  rw [evict] at h
  split at h
  · obtain ⟨hvictims, rfl⟩ := Prod.mk.inj h
    obtain rfl := Option.some.inj hvictims
    simp
  · split at h
    · cases h
    · next cs hcs =>
      obtain ⟨hvictims, rfl⟩ := Prod.mk.inj h
      obtain rfl := Option.some.inj hvictims
      obtain ⟨-, hall, hnodup⟩ := selectCandidates_spec hcs
      rw [List.map_map]
      exact sum_applyEviction f cs p hnodup fun c hc => (hall c hc).1

end ARCCachePolicy

theorem LRUCachePolicy.sum_evict {p p' : LRUCachePolicy κ} {n : ℕ} {protectedKeys : List κ}
    {evicted : List (κ × BlockStatus)} (h : p.evict n protectedKeys = (some evicted, p'))
    (f : κ → BlockStatus → M) :
    p'.blocks.sum f + (evicted.map fun e => f e.1 e.2).sum = p.blocks.sum f := by
  have hloop : ∀ (victims : List (κ × BlockStatus)) (d : OrdDict κ BlockStatus),
      (victims.map Prod.fst).Nodup → (∀ e ∈ victims, d.get? e.1 = some e.2) →
      (victims.foldl (fun d e => d.erase e.1) d).sum f +
        (victims.map fun e => f e.1 e.2).sum = d.sum f := by
    intro victims
    induction victims with
    | nil => simp
    | cons e rest ih =>
        intro d hnodup hget
        rw [List.map_cons, List.nodup_cons] at hnodup
        have hrest : ∀ e' ∈ rest, (d.erase e.1).get? e'.1 = some e'.2 := by
          intro e' he'
          have hne : e'.1 ≠ e.1 := fun heq => hnodup.1 (heq ▸ List.mem_map_of_mem he')
          rw [OrdDict.get?_erase, if_neg hne]
          exact hget e' (List.mem_cons_of_mem _ he')
        rw [List.foldl_cons, List.map_cons, List.sum_cons, add_left_comm,
          ih (d.erase e.1) hnodup.2 hrest, add_comm]
        exact OrdDict.sum_erase_add (hget e (List.mem_cons_self ..)) f
  obtain ⟨-, hnodup, hall, -⟩ := evict_spec h
  rw [evict] at h
  split at h
  · obtain ⟨hvictims, rfl⟩ := Prod.mk.inj h
    obtain rfl := Option.some.inj hvictims
    simp
  · dsimp only at h
    split at h
    · cases h
    · obtain ⟨hvictims, rfl⟩ := Prod.mk.inj h
      obtain rfl := Option.some.inj hvictims
      exact hloop _ _ hnodup fun e he => (hall e he).1

namespace CachePolicy

theorem sum_modify {p : CachePolicy κ} {key : κ} {g : BlockStatus → BlockStatus}
    {f : κ → BlockStatus → M} (hf : ∀ b, f key (g b) = f key b) :
    (p.modify key g).sum f = p.sum f := by
  cases p with
  | lru p => exact OrdDict.sum_modify_of_eq hf
  | arc p =>
      rw [modify, ARCCachePolicy.modify]
      split
      · rw [sum_arc, sum_arc, OrdDict.sum_modify_of_eq hf]
      · rw [sum_arc, sum_arc, OrdDict.sum_modify_of_eq hf]

theorem sum_insert {p : CachePolicy κ} {key : κ} (h : p.get key = none) (b : BlockStatus)
    (f : κ → BlockStatus → M) : (p.insert key b).sum f = p.sum f + f key b := by
  cases p with
  | lru p => exact OrdDict.sum_insert_new h b f
  | arc p =>
      rw [insert, ARCCachePolicy.insert, sum_arc, sum_arc,
        OrdDict.sum_insert_new (ARCCachePolicy.get_eq_none_iff.mp h).1]
      exact add_right_comm ..

theorem sum_remove {p : CachePolicy κ} (hp : p.WF) {key : κ} {b : BlockStatus}
    (h : p.get key = some b) (f : κ → BlockStatus → M) :
    (p.remove key).sum f + f key b = p.sum f := by
  cases p with
  | lru p => exact OrdDict.sum_erase_add h f
  | arc p =>
      rw [remove, ARCCachePolicy.remove]
      have hget := (ARCCachePolicy.get_eq_some_iff hp).mp h
      split
      · next hmem =>
        obtain ⟨b', hb'⟩ := OrdDict.contains_iff.mp hmem
        have hnone : p.t2.get? key = none := (hp key).resolve_left (by simp [hb'])
        have hsome : p.t1.get? key = some b := hget.resolve_right (by simp [hnone])
        rw [sum_arc, sum_arc, ← OrdDict.sum_erase_add hsome f]
        exact add_right_comm ..
      · next hmem =>
        have hsome : p.t2.get? key = some b :=
          hget.resolve_left fun hb => hmem (OrdDict.contains_iff.mpr ⟨b, hb⟩)
        rw [sum_arc, sum_arc, ← OrdDict.sum_erase_add hsome f]
        exact add_assoc ..

theorem sum_touch {p : CachePolicy κ} (hp : p.WF) (keys : List κ) (f : κ → BlockStatus → M) :
    (p.touch keys).sum f = p.sum f := by
  cases p with
  | lru p =>
      change (keys.reverse.foldl OrdDict.moveToEnd p.blocks).sum f = p.blocks.sum f
      induction keys.reverse generalizing p with
      | nil => rfl
      | cons key rest ih =>
          rw [List.foldl_cons]
          exact (ih ⟨p.blocks.moveToEnd key⟩ trivial).trans (OrdDict.sum_moveToEnd ..)
  | arc p =>
      rw [touch, sum_arc, sum_arc]
      exact ARCCachePolicy.sum_touch hp keys f

omit [DecidableEq κ] in
@[simp] theorem sum_clear (p : CachePolicy κ) (f : κ → BlockStatus → M) : p.clear.sum f = 0 := by
  cases p <;> rfl

theorem sum_evict {p p' : CachePolicy κ} {n : ℕ} {protectedKeys : List κ}
    {evicted : List (κ × BlockStatus)} (h : p.evict n protectedKeys = (some evicted, p'))
    (f : κ → BlockStatus → M) :
    p'.sum f + (evicted.map fun e => f e.1 e.2).sum = p.sum f := by
  cases p with
  | lru p =>
      obtain ⟨q, hevict, rfl⟩ := evict_lru h
      exact LRUCachePolicy.sum_evict hevict f
  | arc p =>
      obtain ⟨q, hevict, rfl⟩ := evict_arc h
      rw [sum_arc, sum_arc]
      exact ARCCachePolicy.sum_evict hevict f

end CachePolicy

end Sum

/-! ## The four lists of ARC -/

namespace ARCCachePolicy

/-- The four lists are pairwise disjoint, the ghost lists are bounded, and so is the target. -/
structure Balanced (p : ARCCachePolicy κ) : Prop where
  apart : [p.t1.keys, p.t2.keys, p.b1.keys, p.b2.keys].Pairwise List.Disjoint
  ghosts : p.b1.size ≤ p.cacheCapacity ∧ p.b2.size ≤ p.cacheCapacity
  target : 0 ≤ p.targetT1Size ∧ p.targetT1Size ≤ p.cacheCapacity

variable [DecidableEq κ] {p : ARCCachePolicy κ}

omit [DecidableEq κ] in
/-- A key is in at most one of four lists. -/
theorem pairwise_disjoint_iff {a b c d : List κ} :
    [a, b, c, d].Pairwise List.Disjoint ↔ ∀ k, (k ∈ a → k ∉ b ∧ k ∉ c ∧ k ∉ d) ∧
      (k ∈ b → k ∉ c ∧ k ∉ d) ∧ (k ∈ c → k ∉ d) := by
  simp only [List.pairwise_cons, List.mem_cons, List.not_mem_nil, or_false, forall_eq_or_imp,
    forall_eq, List.Disjoint]
  grind

omit [DecidableEq κ] in
theorem Balanced.apartAt (h : p.Balanced) (k : κ) :
    (k ∈ p.t1.keys → k ∉ p.t2.keys ∧ k ∉ p.b1.keys ∧ k ∉ p.b2.keys) ∧
      (k ∈ p.t2.keys → k ∉ p.b1.keys ∧ k ∉ p.b2.keys) ∧ (k ∈ p.b1.keys → k ∉ p.b2.keys) :=
  pairwise_disjoint_iff.mp h.apart k

theorem Balanced.separated (h : p.Balanced) : p.Separated := by
  intro k
  rw [OrdDict.get?_eq_none_iff, OrdDict.get?_eq_none_iff]
  by_cases hk : k ∈ p.t1.keys
  · exact .inr ((h.apartAt k).1 hk).1
  · exact .inl hk

theorem Balanced.modify (h : p.Balanced) (key : κ) (f : BlockStatus → BlockStatus) :
    (p.modify key f).Balanced := by
  have hapart := h.apartAt
  rw [ARCCachePolicy.modify]
  split
  · refine ⟨pairwise_disjoint_iff.mpr ?_, h.ghosts, h.target⟩
    simpa only [OrdDict.mem_keys_modify] using hapart
  · refine ⟨pairwise_disjoint_iff.mpr ?_, h.ghosts, h.target⟩
    simpa only [OrdDict.mem_keys_modify] using hapart

theorem Balanced.insert (h : p.Balanced) {key : κ} (hkey : p.get key = none) (b : BlockStatus) :
    (p.insert key b).Balanced := by
  have hapart := h.apartAt
  have hnot : key ∉ p.t2.keys := OrdDict.get?_eq_none_iff.mp (get_eq_none_iff.mp hkey).2
  refine ⟨pairwise_disjoint_iff.mpr ?_, ?_, h.target⟩
  · intro k
    simp only [ARCCachePolicy.insert, OrdDict.mem_keys_insert, OrdDict.mem_keys_erase]
    grind
  · exact ⟨(OrdDict.size_erase_le ..).trans h.ghosts.1,
      (OrdDict.size_erase_le ..).trans h.ghosts.2⟩

theorem Balanced.remove (h : p.Balanced) (key : κ) : (p.remove key).Balanced := by
  have hapart := h.apartAt
  rw [ARCCachePolicy.remove]
  split
  · refine ⟨pairwise_disjoint_iff.mpr fun k => ?_, h.ghosts, h.target⟩
    simp only [OrdDict.mem_keys_erase]
    grind
  · refine ⟨pairwise_disjoint_iff.mpr fun k => ?_, h.ghosts, h.target⟩
    simp only [OrdDict.mem_keys_erase]
    grind

theorem Balanced.touchKey (h : p.Balanced) (key : κ) : (p.touchKey key).Balanced := by
  have hapart := h.apartAt
  have hone : ∀ x : ℚ, 0 ≤ max 1 x := fun x => zero_le_one.trans (le_max_left 1 x)
  rw [ARCCachePolicy.touchKey]
  split
  · next block hblock =>
    have hmem : key ∈ p.t1.keys := OrdDict.mem_keys_iff.mpr ⟨block, hblock⟩
    split
    · refine ⟨pairwise_disjoint_iff.mpr fun k => ?_, h.ghosts, h.target⟩
      simp only [OrdDict.mem_keys_erase, OrdDict.mem_keys_insert]
      grind
    · refine ⟨pairwise_disjoint_iff.mpr fun k => ?_, h.ghosts, h.target⟩
      simp only [OrdDict.mem_keys_erase, OrdDict.mem_keys_insert]
      grind
  · split_ifs
    · refine ⟨pairwise_disjoint_iff.mpr ?_, h.ghosts, h.target⟩
      simpa only [OrdDict.mem_keys_moveToEnd] using hapart
    · -- a ghost hit in `b1` raises the target
      refine ⟨pairwise_disjoint_iff.mpr ?_, ?_, ?_, min_le_right ..⟩
      · simpa only [OrdDict.mem_keys_moveToEnd] using hapart
      · rw [OrdDict.size_moveToEnd]
        exact h.ghosts
      · exact le_min (add_nonneg h.target.1 (hone _)) (Nat.cast_nonneg _)
    · -- a ghost hit in `b2` lowers it
      refine ⟨pairwise_disjoint_iff.mpr ?_, ?_, le_max_right .., ?_⟩
      · simpa only [OrdDict.mem_keys_moveToEnd] using hapart
      · rw [OrdDict.size_moveToEnd]
        exact h.ghosts
      · exact max_le ((sub_le_self _ (hone _)).trans h.target.2) (Nat.cast_nonneg _)
    · exact h

theorem Balanced.touch (h : p.Balanced) (keys : List κ) : (p.touch keys).Balanced := by
  rw [ARCCachePolicy.touch]
  induction keys.reverse generalizing p with
  | nil => exact h
  | cons key rest ih => exact ih (h.touchKey key)

omit [DecidableEq κ] in
theorem balanced_new (cacheCapacity : ℕ) : (new cacheCapacity : ARCCachePolicy κ).Balanced := by
  refine ⟨pairwise_disjoint_iff.mpr ?_, ⟨Nat.zero_le _, Nat.zero_le _⟩, le_rfl, ?_⟩
  · simp [new, OrdDict.keys, OrdDict.empty]
  · exact Nat.cast_nonneg _

omit [DecidableEq κ] in
theorem size_trimGhost (cacheCapacity : ℕ) (ghost : OrdDict κ Unit) :
    (trimGhost cacheCapacity ghost).size ≤ cacheCapacity := by
  have hpops : ∀ n (d : OrdDict κ Unit), (OrdDict.popFirst^[n] d).size = d.size - n := by
    intro n
    induction n with
    | zero => exact fun d => rfl
    | succ n ih =>
        intro d
        rw [Function.iterate_succ_apply, ih, OrdDict.size_popFirst]
        omega
  rw [trimGhost, hpops]
  omega

omit [DecidableEq κ] in
theorem mem_keys_of_trimGhost {cacheCapacity : ℕ} {ghost : OrdDict κ Unit} {k : κ}
    (h : k ∈ (trimGhost cacheCapacity ghost).keys) : k ∈ ghost.keys := by
  have hpops : ∀ n (d : OrdDict κ Unit), k ∈ (OrdDict.popFirst^[n] d).keys → k ∈ d.keys := by
    intro n
    induction n with
    | zero => exact fun d hd => hd
    | succ n ih => exact fun d hd => OrdDict.mem_keys_of_popFirst (ih d.popFirst hd)
  exact hpops _ ghost h

/-- The lists stay apart when the victims move to the ghost lists. -/
theorem apart_applyEviction {protectedKeys : List κ} (cs : List (Candidate κ))
    (p : ARCCachePolicy κ) (hnodup : (cs.map Candidate.key).Nodup)
    (hvalid : ∀ c ∈ cs, c.Valid p protectedKeys)
    (hapart : [p.t1.keys, p.t2.keys, p.b1.keys, p.b2.keys].Pairwise List.Disjoint) :
    [(cs.foldl applyEviction p).t1.keys, (cs.foldl applyEviction p).t2.keys,
      (cs.foldl applyEviction p).b1.keys, (cs.foldl applyEviction p).b2.keys].Pairwise
        List.Disjoint := by
  induction cs generalizing p with
  | nil => exact hapart
  | cons c cs ih =>
      rw [List.map_cons, List.nodup_cons] at hnodup
      refine ih (p.applyEviction c) hnodup.2 ?_ ?_
      · exact fun c' hc' => (hvalid c' (List.mem_cons_of_mem _ hc')).applyEviction
          fun heq => hnodup.1 (heq ▸ List.mem_map_of_mem hc')
      · have hsource := (hvalid c (List.mem_cons_self ..)).source
        rw [pairwise_disjoint_iff] at hapart ⊢
        intro k
        rw [applyEviction]
        cases hfrom : c.fromT1 with
        | true =>
            have hmem : c.key ∈ p.t1.keys :=
              OrdDict.mem_keys_iff.mpr ⟨c.block, by simpa [hfrom] using hsource⟩
            simp only [if_true, OrdDict.mem_keys_erase, OrdDict.mem_keys_insert]
            grind
        | false =>
            have hmem : c.key ∈ p.t2.keys :=
              OrdDict.mem_keys_iff.mpr ⟨c.block, by simpa [hfrom] using hsource⟩
            simp only [Bool.false_eq_true, if_false, OrdDict.mem_keys_erase,
              OrdDict.mem_keys_insert]
            grind

theorem applyEviction_fixed (cs : List (Candidate κ)) (p : ARCCachePolicy κ) :
    (cs.foldl applyEviction p).cacheCapacity = p.cacheCapacity ∧
      (cs.foldl applyEviction p).targetT1Size = p.targetT1Size := by
  induction cs generalizing p with
  | nil => exact ⟨rfl, rfl⟩
  | cons c cs ih =>
      rw [List.foldl_cons, (ih _).1, (ih _).2, applyEviction]
      split <;> exact ⟨rfl, rfl⟩

theorem Balanced.evict {p' : ARCCachePolicy κ} {n : ℕ} {protectedKeys : List κ}
    {evicted : List (κ × BlockStatus)} (h : p.Balanced)
    (hevict : p.evict n protectedKeys = (some evicted, p')) : p'.Balanced := by
  rw [ARCCachePolicy.evict] at hevict
  split at hevict
  · obtain ⟨hvictims, rfl⟩ := Prod.mk.inj hevict
    obtain rfl := Option.some.inj hvictims
    exact h
  · split at hevict
    · cases hevict
    · next cs hcs =>
      obtain ⟨hvictims, rfl⟩ := Prod.mk.inj hevict
      obtain rfl := Option.some.inj hvictims
      obtain ⟨-, hall, hnodup⟩ := selectCandidates_spec hcs
      obtain ⟨hcapacity, htarget⟩ := applyEviction_fixed cs p
      have hapart := pairwise_disjoint_iff.mp
        (apart_applyEviction cs p hnodup (fun c hc => (hall c hc).1) h.apart)
      refine ⟨pairwise_disjoint_iff.mpr fun k => ?_, ?_, ?_⟩
      · have htrim₁ := @mem_keys_of_trimGhost κ p.cacheCapacity (cs.foldl applyEviction p).b1 k
        have htrim₂ := @mem_keys_of_trimGhost κ p.cacheCapacity (cs.foldl applyEviction p).b2 k
        have := hapart k
        grind
      · dsimp only
        rw [hcapacity]
        exact ⟨size_trimGhost .., size_trimGhost ..⟩
      · dsimp only
        rw [hcapacity, htarget]
        exact h.target

end ARCCachePolicy

namespace CachePolicy

/-- The invariant of a policy for a pool of `numBlocks` blocks. -/
def Balanced (numBlocks : ℕ) : CachePolicy κ → Prop
  | lru _ => True
  | arc p => p.cacheCapacity = numBlocks ∧ p.Balanced

variable [DecidableEq κ] {p p' : CachePolicy κ} {numBlocks : ℕ}

theorem Balanced.wf (h : p.Balanced numBlocks) : p.WF := by
  cases p with
  | lru p => trivial
  | arc p => exact h.2.separated

theorem Balanced.modify (h : p.Balanced numBlocks) (key : κ) (f : BlockStatus → BlockStatus) :
    (p.modify key f).Balanced numBlocks := by
  cases p with
  | lru p => trivial
  | arc p =>
      refine ⟨?_, h.2.modify key f⟩
      rw [ARCCachePolicy.modify]
      split <;> exact h.1

theorem Balanced.insert (h : p.Balanced numBlocks) {key : κ} (hkey : p.get key = none)
    (b : BlockStatus) : (p.insert key b).Balanced numBlocks := by
  cases p with
  | lru p => trivial
  | arc p => exact ⟨h.1, h.2.insert hkey b⟩

theorem Balanced.remove (h : p.Balanced numBlocks) (key : κ) :
    (p.remove key).Balanced numBlocks := by
  cases p with
  | lru p => trivial
  | arc p =>
      refine ⟨?_, h.2.remove key⟩
      rw [ARCCachePolicy.remove]
      split <;> exact h.1

theorem Balanced.touch (h : p.Balanced numBlocks) (keys : List κ) :
    (p.touch keys).Balanced numBlocks := by
  cases p with
  | lru p => trivial
  | arc p =>
      refine ⟨?_, h.2.touch keys⟩
      have hkey : ∀ (q : ARCCachePolicy κ) (key : κ),
          (q.touchKey key).cacheCapacity = q.cacheCapacity := by
        intro q key
        rw [ARCCachePolicy.touchKey]
        split
        · split <;> rfl
        · split_ifs <;> rfl
      have hkeys : ∀ (rest : List κ) (q : ARCCachePolicy κ),
          (rest.foldl ARCCachePolicy.touchKey q).cacheCapacity = q.cacheCapacity := by
        intro rest
        induction rest with
        | nil => exact fun q => rfl
        | cons key rest ih => exact fun q => (ih (q.touchKey key)).trans (hkey q key)
      exact (hkeys keys.reverse p).trans h.1

omit [DecidableEq κ] in
theorem Balanced.clear (h : p.Balanced numBlocks) : p.clear.Balanced numBlocks := by
  cases p with
  | lru p => trivial
  | arc p => exact ⟨h.1, ARCCachePolicy.balanced_new _⟩

theorem Balanced.evict {n : ℕ} {protectedKeys : List κ} {evicted : List (κ × BlockStatus)}
    (h : p.Balanced numBlocks) (hevict : p.evict n protectedKeys = (some evicted, p')) :
    p'.Balanced numBlocks := by
  cases p with
  | lru p =>
      obtain ⟨q, -, rfl⟩ := evict_lru hevict
      trivial
  | arc p =>
      obtain ⟨q, hq, rfl⟩ := evict_arc hevict
      refine ⟨?_, h.2.evict hq⟩
      rw [ARCCachePolicy.evict] at hq
      split at hq
      · obtain ⟨hvictims, rfl⟩ := Prod.mk.inj hq
        obtain rfl := Option.some.inj hvictims
        exact h.1
      · split at hq
        · cases hq
        · next cs _ =>
          obtain ⟨hvictims, rfl⟩ := Prod.mk.inj hq
          obtain rfl := Option.some.inj hvictims
          exact (ARCCachePolicy.applyEviction_fixed cs p).1.trans h.1

end CachePolicy

end TokenCake.Offload
