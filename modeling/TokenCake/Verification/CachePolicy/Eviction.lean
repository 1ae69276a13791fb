import TokenCake.Verification.CachePolicy.Contents

/-! # When an eviction succeeds

LRU evicts whenever enough blocks can go. ARC takes blocks from `t1` only while `t1` is not
smaller than its target, and does not come back to `t1` when `t2` is exhausted. -/

namespace TokenCake.Offload

variable {κ : Type*} [DecidableEq κ] {protectedKeys selected : List κ}

/-! ## Blocks that can go -/

/-- The unreferenced and unprotected blocks, oldest first. -/
def evictable (d : OrdDict κ BlockStatus) (protectedKeys : List κ) : List (κ × BlockStatus) :=
  d.entries.filter fun e => decide (e.2.refCnt = 0 ∧ e.1 ∉ protectedKeys)

/-- Those among them that are not selected yet. -/
def unselected (d : OrdDict κ BlockStatus) (protectedKeys selected : List κ) :
    List (κ × BlockStatus) :=
  (evictable d protectedKeys).filter fun e => decide (e.1 ∉ selected)

variable {d : OrdDict κ BlockStatus}

@[simp] theorem unselected_nil : unselected d protectedKeys [] = evictable d protectedKeys := by
  simp [unselected]

theorem findEvictable_eq :
    ARCCachePolicy.findEvictable d protectedKeys selected =
      (unselected d protectedKeys selected).head? := by
  unfold ARCCachePolicy.findEvictable unselected evictable
  rw [List.filter_filter, List.head?_filter]
  congr 1
  funext e
  by_cases hselected : e.1 ∈ selected <;> simp [hselected]

theorem unselected_cons (key : κ) :
    unselected d protectedKeys (key :: selected) =
      (unselected d protectedKeys selected).filter fun e => decide (e.1 ≠ key) := by
  unfold unselected
  rw [List.filter_filter]
  refine List.filter_congr fun e _ => ?_
  by_cases hkey : e.1 = key <;> simp [hkey]

theorem nodup_unselected :
    ((unselected d protectedKeys selected).map Prod.fst).Nodup :=
  ((List.filter_sublist.trans List.filter_sublist).map _).nodup d.nodupKeys

/-- Selecting the first block leaves the others. -/
theorem length_unselected_cons {e : κ × BlockStatus}
    (h : (unselected d protectedKeys selected).head? = some e) :
    (unselected d protectedKeys (e.1 :: selected)).length + 1 =
      (unselected d protectedKeys selected).length := by
  have hnodup : ((unselected d protectedKeys selected).map Prod.fst).Nodup := nodup_unselected
  rw [unselected_cons]
  cases hlist : unselected d protectedKeys selected with
  | nil =>
      rw [hlist] at h
      cases h
  | cons first rest =>
      rw [hlist] at h hnodup
      obtain rfl : first = e := Option.some.inj h
      have hrest : rest.filter (fun e => decide (e.1 ≠ first.1)) = rest := by
        refine List.filter_eq_self.mpr fun e he => ?_
        rw [decide_eq_true_eq]
        intro heq
        exact (List.nodup_cons.mp hnodup).1 (heq ▸ List.mem_map_of_mem he)
      rw [List.filter_cons_of_neg (by simp), hrest, List.length_cons]

/-- Selecting a block of the other list changes nothing. -/
theorem unselected_cons_of_not_mem {key : κ} (h : d.get? key = none) :
    unselected d protectedKeys (key :: selected) = unselected d protectedKeys selected := by
  rw [unselected_cons]
  refine List.filter_eq_self.mpr fun e he => ?_
  rw [decide_eq_true_eq]
  intro heq
  have hmem : e ∈ d.entries := List.mem_of_mem_filter (List.mem_of_mem_filter he)
  rw [← heq, OrdDict.get?_eq_some_iff.mpr hmem] at h
  cases h

theorem get?_of_head_unselected {e : κ × BlockStatus}
    (h : (unselected d protectedKeys selected).head? = some e) : d.get? e.1 = some e.2 := by
  have hmem := List.mem_of_mem_filter (List.mem_of_mem_filter (List.mem_of_head? h))
  exact OrdDict.get?_eq_some_iff.mpr hmem

/-! ## Selecting victims -/

namespace ARCCachePolicy

variable {p : ARCCachePolicy κ}

/-- How many blocks ARC may take from `t1` at a virtual size. -/
def takesFromT1 (p : ARCCachePolicy κ) (virtualT1Size : ℤ) : ℕ :=
  (virtualT1Size + 1 - truncate p.targetT1Size).toNat

theorem isSome_selectCandidates_iff (hp : p.Separated) (n : ℕ) (selected : List κ) (v : ℤ) :
    (p.selectCandidates protectedKeys n selected v).isSome ↔
      n ≤ min (unselected p.t1 protectedKeys selected).length (p.takesFromT1 v) +
        (unselected p.t2 protectedKeys selected).length := by
  induction n generalizing selected v with
  | zero => simp [selectCandidates]
  | succ n ih =>
      unfold selectCandidates nextCandidate
      rw [findEvictable_eq, findEvictable_eq]
      -- Whether the next victim comes from `t1`.
      by_cases hfrom : truncate p.targetT1Size ≤ v ∧ unselected p.t1 protectedKeys selected ≠ []
      · obtain ⟨e, he⟩ : ∃ e, (unselected p.t1 protectedKeys selected).head? = some e := by
          cases hlist : unselected p.t1 protectedKeys selected with
          | nil => exact absurd hlist hfrom.2
          | cons e rest => exact ⟨e, rfl⟩
        have hother : p.t2.get? e.1 = none :=
          (hp e.1).resolve_left (by rw [get?_of_head_unselected he]; simp)
        have hlength := length_unselected_cons he
        simp only [hfrom.1, if_true, he, Option.isSome_map, ih,
          unselected_cons_of_not_mem hother, takesFromT1]
        omega
      · have hnone : (if truncate p.targetT1Size ≤ v then
            (unselected p.t1 protectedKeys selected).head? else none) = none := by
          by_cases hv : truncate p.targetT1Size ≤ v
          · rw [if_pos hv]
            have hnil : unselected p.t1 protectedKeys selected = [] := by
              by_contra hne
              exact hfrom ⟨hv, hne⟩
            rw [hnil]
            rfl
          · exact if_neg hv
        -- Then `t1` gives nothing any more.
        have hzero : min (unselected p.t1 protectedKeys selected).length (p.takesFromT1 v) = 0 := by
          by_cases hv : truncate p.targetT1Size ≤ v
          · have hnil : unselected p.t1 protectedKeys selected = [] := by
              by_contra hne
              exact hfrom ⟨hv, hne⟩
            rw [hnil, List.length_nil, Nat.zero_min]
          · rw [takesFromT1]
            omega
        rw [hzero, Nat.zero_add]
        simp only [hnone]
        cases hhead : (unselected p.t2 protectedKeys selected).head? with
        | none =>
            have hnil := List.head?_eq_none_iff.mp hhead
            simp [hnil]
        | some e =>
            have hother : p.t1.get? e.1 = none :=
              (hp e.1).resolve_right (by rw [get?_of_head_unselected hhead]; simp)
            have hlength := length_unselected_cons hhead
            simp only [Option.map_some, Option.isSome_map, ih, Bool.false_eq_true, if_false,
              unselected_cons_of_not_mem hother, hzero]
            omega

end ARCCachePolicy

/-! ## What an eviction leaves -/

theorem entries_foldl_erase (victims : List (κ × BlockStatus)) (d : OrdDict κ BlockStatus) :
    (victims.foldl (fun d e => d.erase e.1) d).entries =
      d.entries.filter fun e => decide (e.1 ∉ victims.map Prod.fst) := by
  induction victims generalizing d with
  | nil => simp
  | cons victim rest ih =>
      rw [List.foldl_cons, ih]
      change (d.entries.filter fun e => decide (e.1 ≠ victim.1)).filter _ = _
      rw [List.filter_filter]
      refine List.filter_congr fun e _ => ?_
      by_cases hkey : e.1 = victim.1 <;> simp [hkey]

/-- The oldest keys are dropped until the list fits. -/
theorem entries_trimGhost {κ : Type*} (cacheCapacity : ℕ) (ghost : OrdDict κ Unit) :
    (ARCCachePolicy.trimGhost cacheCapacity ghost).entries =
      ghost.entries.drop (ghost.size - cacheCapacity) := by
  unfold ARCCachePolicy.trimGhost
  generalize ghost.size - cacheCapacity = n
  induction n generalizing ghost with
  | zero => rfl
  | succ n ih =>
      rw [Function.iterate_succ_apply, ih]
      change (ghost.entries.drop 1).drop n = _
      rw [List.drop_drop, Nat.add_comm]

namespace ARCCachePolicy

variable {p : ARCCachePolicy κ}

/-- The keys of the victims from one side, added to its ghost list. -/
def addGhosts (ghost : OrdDict κ Unit) (victims : List (κ × BlockStatus)) : OrdDict κ Unit :=
  victims.foldl (fun ghost e => ghost.insert e.1 ()) ghost

/-- The policy without the victims: each is in the ghost list of the side it came from, and the
ghost lists are cut to the capacity. -/
structure Evicted (p : ARCCachePolicy κ) (victims : List (κ × BlockStatus))
    (p' : ARCCachePolicy κ) : Prop where
  cacheCapacity_eq : p'.cacheCapacity = p.cacheCapacity
  targetT1Size_eq : p'.targetT1Size = p.targetT1Size
  t1_eq : p'.t1.entries = p.t1.entries.filter fun e => decide (e.1 ∉ victims.map Prod.fst)
  t2_eq : p'.t2.entries = p.t2.entries.filter fun e => decide (e.1 ∉ victims.map Prod.fst)
  b1_eq : p'.b1.entries =
    let ghost := addGhosts p.b1 (victims.filter fun e => p.t1.contains e.1)
    ghost.entries.drop (ghost.size - p.cacheCapacity)
  b2_eq : p'.b2.entries =
    let ghost := addGhosts p.b2 (victims.filter fun e => p.t2.contains e.1)
    ghost.entries.drop (ghost.size - p.cacheCapacity)

/-- The victims as `evict` returns them, from both sides or from one. -/
def victims (cs : List (Candidate κ)) : List (κ × BlockStatus) := cs.map fun c => (c.key, c.block)

theorem foldl_applyEviction_eq (cs : List (Candidate κ)) (p : ARCCachePolicy κ) :
    let p' := cs.foldl applyEviction p
    p'.t1 = (victims (cs.filter (·.fromT1))).foldl (fun d e => d.erase e.1) p.t1 ∧
      p'.t2 = (victims (cs.filter fun c => !c.fromT1)).foldl (fun d e => d.erase e.1) p.t2 ∧
      p'.b1 = addGhosts p.b1 (victims (cs.filter (·.fromT1))) ∧
      p'.b2 = addGhosts p.b2 (victims (cs.filter fun c => !c.fromT1)) := by
  induction cs generalizing p with
  | nil => exact ⟨rfl, rfl, rfl, rfl⟩
  | cons c cs ih =>
      obtain ⟨h₁, h₂, h₃, h₄⟩ := ih (p.applyEviction c)
      dsimp only
      cases hfrom : c.fromT1 with
      | true =>
          rw [List.foldl_cons, h₁, h₂, h₃, h₄]
          simp [applyEviction, hfrom, victims, addGhosts]
      | false =>
          rw [List.foldl_cons, h₁, h₂, h₃, h₄]
          simp [applyEviction, hfrom, victims, addGhosts]

/-- A valid victim comes from the list that holds its key. -/
theorem Candidate.Valid.contains {c : Candidate κ} (hp : p.Separated)
    (h : c.Valid p protectedKeys) :
    p.t1.contains c.key = c.fromT1 ∧ p.t2.contains c.key = !c.fromT1 := by
  have hcontains : ∀ d : OrdDict κ BlockStatus, d.get? c.key = none → d.contains c.key = false := by
    intro d hnone
    rw [Bool.eq_false_iff, ne_eq, OrdDict.contains_iff]
    simp [hnone]
  have hsource := h.source
  cases hfrom : c.fromT1 with
  | true =>
      rw [hfrom, if_pos rfl] at hsource
      have hother := (hp c.key).resolve_left (by rw [hsource]; simp)
      exact ⟨OrdDict.contains_iff.mpr ⟨_, hsource⟩, hcontains _ hother⟩
  | false =>
      rw [hfrom, if_neg (by simp)] at hsource
      have hother := (hp c.key).resolve_right (by rw [hsource]; simp)
      exact ⟨hcontains _ hother, OrdDict.contains_iff.mpr ⟨_, hsource⟩⟩

omit [DecidableEq κ] in
theorem filter_victims {cs : List (Candidate κ)} {side : κ → Bool} {from' : Candidate κ → Bool}
    (h : ∀ c ∈ cs, side c.key = from' c) :
    (victims cs).filter (fun e => side e.1) = victims (cs.filter from') := by
  unfold victims
  rw [List.filter_map]
  congr 1
  exact List.filter_congr fun c hc => h c hc

/-- Erasing the victims of one side erases all victims from its list. -/
theorem entries_erase_side {cs : List (Candidate κ)} {side : OrdDict κ BlockStatus}
    {from' : Candidate κ → Bool} (h : ∀ c ∈ cs, side.contains c.key = from' c) :
    ((victims (cs.filter from')).foldl (fun d e => d.erase e.1) side).entries =
      side.entries.filter fun e => decide (e.1 ∉ (victims cs).map Prod.fst) := by
  rw [entries_foldl_erase]
  refine List.filter_congr fun e he => ?_
  have hmem : e.1 ∈ (victims (cs.filter from')).map Prod.fst ↔
      e.1 ∈ (victims cs).map Prod.fst := by
    have hkey : side.contains e.1 = true :=
      OrdDict.contains_iff.mpr ⟨e.2, OrdDict.get?_eq_some_iff.mpr he⟩
    simp only [victims, List.map_map, List.mem_map, List.mem_filter, Function.comp_apply]
    constructor
    · rintro ⟨c, hc, heq⟩
      exact ⟨c, hc.1, heq⟩
    · rintro ⟨c, hc, heq⟩
      refine ⟨c, ⟨hc, ?_⟩, heq⟩
      rw [← h c hc, heq, hkey]
  simp [hmem]

theorem evicted_of_candidates (hp : p.Separated) {cs : List (Candidate κ)}
    (hvalid : ∀ c ∈ cs, c.Valid p protectedKeys) :
    Evicted p (victims cs)
      { cs.foldl applyEviction p with
        b1 := trimGhost p.cacheCapacity (cs.foldl applyEviction p).b1
        b2 := trimGhost p.cacheCapacity (cs.foldl applyEviction p).b2 } := by
  obtain ⟨h₁, h₂, h₃, h₄⟩ := foldl_applyEviction_eq cs p
  have hside₁ : ∀ c ∈ cs, p.t1.contains c.key = c.fromT1 := fun c hc => ((hvalid c hc).contains hp).1
  have hside₂ : ∀ c ∈ cs, p.t2.contains c.key = !c.fromT1 :=
    fun c hc => ((hvalid c hc).contains hp).2
  constructor
  case cacheCapacity_eq => exact (applyEviction_fixed cs p).1
  case targetT1Size_eq => exact (applyEviction_fixed cs p).2
  case t1_eq =>
    dsimp only
    rw [h₁]
    exact entries_erase_side hside₁
  case t2_eq =>
    dsimp only
    rw [h₂]
    exact entries_erase_side hside₂
  case b1_eq =>
    dsimp only
    rw [entries_trimGhost, h₃, filter_victims hside₁]
  case b2_eq =>
    dsimp only
    rw [entries_trimGhost, h₄, filter_victims hside₂]

end ARCCachePolicy

/-! ## The contract of `evict` -/

namespace CachePolicy

open ARCCachePolicy (Evicted)

/-- The unreferenced and unprotected blocks of a policy. -/
def evictable : CachePolicy κ → List κ → List (κ × BlockStatus)
  | lru p, protectedKeys => Offload.evictable p.blocks protectedKeys
  | arc p, protectedKeys =>
      Offload.evictable p.t1 protectedKeys ++ Offload.evictable p.t2 protectedKeys

/-- The policy has lost exactly the victims. -/
def Without : CachePolicy κ → List (κ × BlockStatus) → CachePolicy κ → Prop
  | lru p, victims, lru p' =>
      p'.blocks.entries = p.blocks.entries.filter fun e => decide (e.1 ∉ victims.map Prod.fst)
  | arc p, victims, arc p' => Evicted p victims p'
  | _, _, _ => False

/-- `evict` evicts `n` blocks that may go, or leaves everything as it is because there are not
that many. -/
def EvictsAll (p : CachePolicy κ) (n : ℕ) (protectedKeys : List κ) : Prop :=
  match p.evict n protectedKeys with
  | (some victims, p') =>
      victims.length = n ∧ (victims.map Prod.fst).Nodup ∧
        (∀ e ∈ victims, e ∈ p.evictable protectedKeys) ∧ p.Without victims p'
  | (none, p') => p' = p ∧ (p.evictable protectedKeys).length < n

/-- The blocks that ARC needs are in reach: it takes from `t1` only as long as `t1` has its
target size. -/
def InReach : CachePolicy κ → ℕ → List κ → Prop
  | lru _, _, _ => True
  | arc p, n, protectedKeys =>
      n ≤ (Offload.evictable p.t1 protectedKeys).length +
          (Offload.evictable p.t2 protectedKeys).length →
        n ≤ min (Offload.evictable p.t1 protectedKeys).length (p.takesFromT1 p.t1.size) +
          (Offload.evictable p.t2 protectedKeys).length

variable {p : CachePolicy κ} {numBlocks : ℕ}

theorem evict_lru_evictsAll (p : LRUCachePolicy κ) (n : ℕ) (protectedKeys : List κ) :
    EvictsAll (lru p) n protectedKeys := by
  unfold EvictsAll
  rcases hevict : p.evict n protectedKeys with ⟨_ | victims, p'⟩
  · simp only [evict, hevict]
    refine ⟨by rw [LRUCachePolicy.evict_none hevict], ?_⟩
    unfold LRUCachePolicy.evict at hevict
    split at hevict
    · cases hevict
    · dsimp only at hevict
      split at hevict
      · next hshort =>
          rw [List.length_take] at hshort
          change (Offload.evictable p.blocks protectedKeys).length < n
          unfold Offload.evictable
          omega
      · cases hevict
  · simp only [evict, hevict]
    obtain ⟨hlength, hnodup, hall, -⟩ := LRUCachePolicy.evict_spec hevict
    refine ⟨hlength, hnodup, fun e he => ?_, ?_⟩
    · obtain ⟨hget, hfree⟩ := hall e he
      exact List.mem_filter.mpr ⟨OrdDict.get?_eq_some_iff.mp hget, by simpa using hfree⟩
    · unfold LRUCachePolicy.evict at hevict
      split at hevict
      · obtain ⟨hvictims, rfl⟩ := Prod.mk.inj hevict
        obtain rfl := Option.some.inj hvictims
        simp [Without]
      · dsimp only at hevict
        split at hevict
        · cases hevict
        · obtain ⟨hvictims, rfl⟩ := Prod.mk.inj hevict
          obtain rfl := Option.some.inj hvictims
          exact entries_foldl_erase _ _

/-- What ARC does once its victims are found. -/
theorem evict_arc_some {p : ARCCachePolicy κ} (hp : p.Balanced) {n : ℕ} {protectedKeys : List κ}
    {victims : List (κ × BlockStatus)} {p' : ARCCachePolicy κ}
    (hevict : p.evict n protectedKeys = (some victims, p')) :
    victims.length = n ∧ (victims.map Prod.fst).Nodup ∧
      (∀ e ∈ victims, e ∈ (arc p).evictable protectedKeys) ∧ Evicted p victims p' := by
  obtain ⟨-, hlength, hnodup, hall, -⟩ := ARCCachePolicy.evict_spec hp.separated hevict
  refine ⟨hlength, hnodup, fun e he => ?_, ?_⟩
  · obtain ⟨hget, hfree⟩ := hall e he
    have hmem : ∀ d : OrdDict κ BlockStatus, d.get? e.1 = some e.2 →
        e ∈ Offload.evictable d protectedKeys := fun d hd =>
      List.mem_filter.mpr ⟨OrdDict.get?_eq_some_iff.mp hd, by simpa using hfree⟩
    refine List.mem_append.mpr ?_
    exact ((ARCCachePolicy.get_eq_some_iff hp.separated).mp hget).imp (hmem _) (hmem _)
  · unfold ARCCachePolicy.evict at hevict
    split at hevict
    · obtain ⟨hvictims, rfl⟩ := Prod.mk.inj hevict
      obtain rfl := Option.some.inj hvictims
      have hfits : ∀ ghost : OrdDict κ Unit, ghost.size ≤ p.cacheCapacity →
          ghost.entries = ghost.entries.drop (ghost.size - p.cacheCapacity) := by
        intro ghost hle
        rw [Nat.sub_eq_zero_of_le hle, List.drop_zero]
      exact ⟨rfl, rfl, by simp, by simp, hfits p.b1 hp.ghosts.1, hfits p.b2 hp.ghosts.2⟩
    · split at hevict
      · cases hevict
      · next cs hcs =>
          obtain ⟨hvictims, rfl⟩ := Prod.mk.inj hevict
          obtain rfl := Option.some.inj hvictims
          exact ARCCachePolicy.evicted_of_candidates hp.separated fun c hc =>
            ((ARCCachePolicy.selectCandidates_spec hcs).2.1 c hc).1

theorem isSome_evict_arc_iff {p : ARCCachePolicy κ} (hp : p.Separated) (n : ℕ)
    (protectedKeys : List κ) :
    (p.evict n protectedKeys).1.isSome ↔
      n ≤ min (Offload.evictable p.t1 protectedKeys).length (p.takesFromT1 p.t1.size) +
        (Offload.evictable p.t2 protectedKeys).length := by
  have hselect := @ARCCachePolicy.isSome_selectCandidates_iff _ _ protectedKeys _ hp n [] p.t1.size
  rw [unselected_nil, unselected_nil] at hselect
  rw [← hselect]
  unfold ARCCachePolicy.evict
  by_cases hn : n = 0
  · subst hn
    simp [ARCCachePolicy.selectCandidates]
  · rw [if_neg hn]
    cases p.selectCandidates protectedKeys n [] p.t1.size <;> rfl

/-- An eviction is complete exactly when the blocks it needs are in reach. -/
theorem evictsAll_iff_inReach (hp : p.Balanced numBlocks) (n : ℕ) (protectedKeys : List κ) :
    p.EvictsAll n protectedKeys ↔ p.InReach n protectedKeys := by
  cases p with
  | lru p => exact ⟨fun _ => trivial, fun _ => evict_lru_evictsAll p n protectedKeys⟩
  | arc p =>
      have hiff := isSome_evict_arc_iff hp.2.separated n protectedKeys
      have hlength : ((arc p).evictable protectedKeys).length =
          (Offload.evictable p.t1 protectedKeys).length +
            (Offload.evictable p.t2 protectedKeys).length := List.length_append ..
      unfold EvictsAll InReach
      rcases hevict : p.evict n protectedKeys with ⟨_ | victims, p'⟩
      · rw [hevict] at hiff
        have hshort := hiff.not.mp (by simp)
        simp only [evict, hevict, Prod.map_apply, id_eq, hlength,
          ARCCachePolicy.evict_none hevict, true_and]
        omega
      · rw [hevict] at hiff
        have hfits := hiff.mp rfl
        simp only [evict, hevict]
        exact ⟨fun _ _ => hfits, fun _ => evict_arc_some hp.2 hevict⟩

/-- A block that was stored first can be evicted. -/
theorem arc_evicts_first_block :
    EvictsAll (arc ((ARCCachePolicy.new 2).insert 0 ⟨0, 0⟩) : CachePolicy ℕ) 1 [] := by
  have hbalanced : Balanced 2 (arc ((ARCCachePolicy.new 2).insert 0 ⟨0, 0⟩) : CachePolicy ℕ) :=
    ⟨rfl, (ARCCachePolicy.balanced_new 2).insert rfl _⟩
  refine (evictsAll_iff_inReach hbalanced 1 []).mpr ?_
  unfold InReach
  decide +kernel

/-- Two ghost hits have raised the target of `t1` above its size. -/
def raisedTarget : ARCCachePolicy ℕ :=
  let p : ARCCachePolicy ℕ := (ARCCachePolicy.new 2).insert 0 ⟨0, 0⟩
  let p := (p.evict 1 []).2
  ((p.touch [0]).touch [0]).insert 1 ⟨0, 0⟩

/-- The only block of the cache is unreferenced, and ARC does not evict it. -/
theorem arc_misses_victim :
    (arc raisedTarget).Balanced 2 ∧ ¬ (arc raisedTarget).EvictsAll 1 [] := by
  have hnone : ((arc raisedTarget).evict 1 []).1.isNone = true := by decide +kernel
  have hlists : raisedTarget.t1.keys = [1] ∧ raisedTarget.t2.keys = [] ∧
      raisedTarget.b1.keys = [0] ∧ raisedTarget.b2.keys = [] := by decide +kernel
  refine ⟨⟨by decide +kernel, ?_, by decide +kernel, by decide +kernel⟩, ?_⟩
  · rw [hlists.1, hlists.2.1, hlists.2.2.1, hlists.2.2.2]
    simp
  · unfold EvictsAll
    rcases hevict : (arc raisedTarget).evict 1 [] with ⟨_ | victims, p'⟩
    · refine fun hfails => absurd hfails.2 ?_
      decide +kernel
    · rw [hevict] at hnone
      cases hnone

end CachePolicy

end TokenCake.Offload
