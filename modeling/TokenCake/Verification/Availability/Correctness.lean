import TokenCake.Model.Preservation
import TokenCake.Verification.Availability.Completions

/-! # What the available CPU blocks promise

The blocks that an eviction may not take are those of the protected keys, so the availability
counts the free blocks and every unreferenced one. A store protects its own keys as well. -/

namespace TokenCake.Offload

/-! ## Batches -/

namespace CPUOffloadingManager

variable {κ : Type} [DecidableEq κ] {m : CPUOffloadingManager κ}

def absentKeys (m : CPUOffloadingManager κ) (keys : List κ) : List κ :=
  keys.filter fun k => (m.policy.get k).isNone

/-- The keys that are cached without a reference. -/
def idleKeys (m : CPUOffloadingManager κ) (keys : List κ) : List κ :=
  keys.filter fun k => (m.policy.get k).any fun b => decide (b.refCnt = 0)

/-- The keys that nothing may evict. -/
def busyKeys (p : LRUCachePolicy κ) : List κ :=
  (p.blocks.entries.filter fun e => decide (e.2.refCnt ≠ 0)).map Prod.fst

theorem mem_busyKeys {p : LRUCachePolicy κ} {k : κ} :
    k ∈ busyKeys p ↔ ∃ b, p.get k = some b ∧ b.refCnt ≠ 0 := by
  simp [busyKeys, LRUCachePolicy.get, OrdDict.get?_eq_some_iff]

/-- The cached blocks are busy, evictable, or idle and named by the batch. -/
theorem length_entries_eq {p : LRUCachePolicy κ} (hm : m.policy = .lru p) {keys : List κ}
    (hkeys : keys.Nodup) :
    p.blocks.entries.length = (busyKeys p).length + (m.idleKeys keys).length +
      (p.blocks.entries.filter fun e => decide (e.2.refCnt = 0 ∧ e.1 ∉ keys)).length := by
  have hsplit := List.length_eq_length_filter_add (l := p.blocks.entries)
    fun e => decide (e.2.refCnt ≠ 0)
  have hidle := List.length_eq_length_filter_add
    (l := p.blocks.entries.filter fun e => !decide (e.2.refCnt ≠ 0)) fun e => decide (e.1 ∈ keys)
  have hnamed : ((p.blocks.entries.filter fun e => !decide (e.2.refCnt ≠ 0)).filter
      fun e => decide (e.1 ∈ keys)).length = (m.idleKeys keys).length := by
    rw [← List.length_map (f := Prod.fst)]
    refine List.Perm.length_eq ((List.perm_ext_iff_of_nodup ?_ (hkeys.filter _)).mpr fun k => ?_)
    · exact ((List.filter_sublist.trans List.filter_sublist).map _).nodup p.blocks.nodupKeys
    · simp only [hm, CachePolicy.get, LRUCachePolicy.get, List.mem_map, List.mem_filter,
        Option.any_eq_true, OrdDict.get?_eq_some_iff]
      simp [and_comm]
  have hevictable : (p.blocks.entries.filter fun e => !decide (e.2.refCnt ≠ 0)).filter
      (fun e => !decide (e.1 ∈ keys)) =
      p.blocks.entries.filter fun e => decide (e.2.refCnt = 0 ∧ e.1 ∉ keys) := by
    rw [List.filter_filter]
    refine List.filter_congr fun e _ => ?_
    by_cases hzero : e.2.refCnt = 0 <;> by_cases hmem : e.1 ∈ keys <;> simp [hzero, hmem]
  rw [hnamed, hevictable] at hidle
  rw [hsplit, hidle, busyKeys, List.length_map]
  omega

/-- A store finds room if and only if its new keys fit next to the busy blocks and the idle
blocks of the batch. -/
theorem prepareStore_succeeds_iff (hpooled : m.Pooled) (hcounts : m.counts = none)
    {p : LRUCachePolicy κ} (hm : m.policy = .lru p) {keys : List κ} (hkeys : keys.Nodup) :
    (∃ output m', m.prepareStore keys = .ok (some output, m')) ↔
      (m.absentKeys keys = [] ∨ (m.absentKeys keys).length + (m.idleKeys keys).length +
        (busyKeys p).length ≤ m.numBlocks) := by
  obtain ⟨output, m', hprepare, -, -⟩ := hpooled.prepareStore hkeys
  have hsucceeds : (∃ output m', m.prepareStore keys = .ok (some output, m')) ↔
      output.isSome = true := by
    rw [hprepare]
    simp [Option.isSome_iff_exists]
  have hsize := hpooled.conserved.size
  have hentries := length_entries_eq hm hkeys
  have hfilter : m.thresholdFilter keys = keys := by rw [thresholdFilter, hcounts]
  rw [hm] at hsize
  change (p.blocks.entries.length : ℤ) + m.getNumFreeBlocks = m.numBlocks at hsize
  rw [hsucceeds]
  have habsent : keys.filter (fun k => (m.policy.get k).isNone) = m.absentKeys keys := rfl
  simp only [prepareStore, hfilter, habsent] at hprepare
  by_cases hnone : m.absentKeys keys = []
  · rw [if_pos (List.isEmpty_iff.mpr hnone)] at hprepare
    obtain ⟨rfl, -⟩ := Prod.mk.inj (Except.ok.inj hprepare)
    simp [hnone]
  · rw [if_neg (by simpa using hnone)] at hprepare
    -- the store fails exactly when no room can be made
    have hroom : output.isSome = true ↔
        (m.makeRoom keys (m.absentKeys keys).length).1.isSome = true := by
      rcases hmake : m.makeRoom keys (m.absentKeys keys).length with ⟨_ | toEvict, room⟩
      · simp only [hmake] at hprepare
        obtain ⟨rfl, -⟩ := Prod.mk.inj (Except.ok.inj hprepare)
        simp
      · simp only [hmake] at hprepare
        cases halloc : (room.emit toEvict true).allocateBlocks (m.absentKeys keys).length with
        | error e =>
            change ((room.emit toEvict true).allocateBlocks
              (m.absentKeys keys).length >>= _) = _ at hprepare
            rw [halloc] at hprepare
            cases hprepare
        | ok out =>
            change ((room.emit toEvict true).allocateBlocks
              (m.absentKeys keys).length >>= _) = _ at hprepare
            rw [halloc] at hprepare
            obtain ⟨rfl, -⟩ := Prod.mk.inj (Except.ok.inj hprepare)
            simp
    rw [hroom, isSome_makeRoom]
    split
    · next hneeded =>
      rw [hm]
      change (p.evict _ keys).1.isSome = true ↔ _
      rw [LRUCachePolicy.evict, if_neg (by omega)]
      dsimp only
      split
      · next hshort =>
        rw [List.length_take] at hshort
        simp only [Option.isSome_none, Bool.false_eq_true, hnone, false_or, false_iff]
        omega
      · next hlong =>
        rw [List.length_take] at hlong
        simp only [Option.isSome_some, hnone, false_or, true_iff]
        omega
    · simp only [hnone, false_or, true_iff]
      omega

end CPUOffloadingManager

/-! ## Protected keys -/

namespace TokenCakeOffloadingScheduler

open CPUOffloadingManager LifecycleRegistry

variable {κ σ : Type} [DecidableEq κ] {c : TokenCakeOffloadingScheduler κ σ}

omit [DecidableEq κ] in
theorem mem_sum {α : Type} {d : OrdDict JobId (TransferJobStatus κ)}
    {f : JobId → TransferJobStatus κ → Multiset α} {a : α} :
    a ∈ d.sum f ↔ ∃ job status, d.get? job = some status ∧ a ∈ f job status := by
  have hlist : ∀ l : List (JobId × TransferJobStatus κ),
      a ∈ (l.map fun e => f e.1 e.2).sum ↔ ∃ e ∈ l, a ∈ f e.1 e.2 := by
    intro l
    induction l with
    | nil => simp
    | cons e l ih => simp [ih]
  rw [OrdDict.sum, hlist]
  simp [OrdDict.get?_eq_some_iff]

theorem exists_mem_values {ι ν : Type} [DecidableEq ι] {d : OrdDict ι ν} {P : ν → Prop} :
    (∃ v ∈ d.values, P v) ↔ ∃ k v, d.get? k = some v ∧ P v := by
  constructor
  · rintro ⟨v, hv, hP⟩
    obtain ⟨k, hk⟩ := OrdDict.mem_values_iff.mp hv
    exact ⟨k, v, hk, hP⟩
  · exact fun ⟨k, v, hk, hP⟩ => ⟨v, OrdDict.mem_values_iff.mpr ⟨k, hk⟩, hP⟩

theorem mem_protectedKeys {k : κ} : k ∈ c.protectedKeys ↔
    k ∈ c.storeKeys ∨ (∃ keys ∈ c.loadKeys, k ∈ keys) ∨
      ∃ id record, c.offload.registry.records.get? id = some record ∧ k ∈ record.retained := by
  have hjobs : (∃ job status, c.jobs.get? job = some status ∧ k ∈ status.keys) ↔
      k ∈ c.storeKeys ∨ ∃ keys ∈ c.loadKeys, k ∈ keys := by
    simp only [storeKeys, loadKeys, mem_sum]
    constructor
    · rintro ⟨job, entry, hjob, hk⟩
      cases hstore : entry.isStore with
      | true => exact .inl ⟨job, entry, hjob, by simpa [storeOf, hstore] using hk⟩
      | false => exact .inr ⟨entry.keys, ⟨job, entry, hjob, by simp [loadOf, hstore]⟩, hk⟩
    · rintro (⟨job, entry, hjob, hk⟩ | ⟨keys, ⟨job, entry, hjob, hkeys⟩, hk⟩)
      · refine ⟨job, entry, hjob, ?_⟩
        cases hstore : entry.isStore with
        | true => simpa [storeOf, hstore] using hk
        | false => simp [storeOf, hstore] at hk
      · refine ⟨job, entry, hjob, ?_⟩
        cases hstore : entry.isStore with
        | true => simp [loadOf, hstore] at hkeys
        | false =>
            obtain rfl : keys = entry.keys := by simpa [loadOf, hstore] using hkeys
            exact hk
  rw [← or_assoc, ← hjobs, protectedKeys, List.mem_dedup, List.mem_append, List.mem_flatMap,
    List.mem_flatMap, exists_mem_values, exists_mem_values]

variable {kind : ℕ × Bool × Bool}

/-- The blocks that may not be evicted are those of the protected keys. -/
theorem Tallied.busyKeys_perm (h : Tallied kind [] c) {m : CPUOffloadingManager κ}
    {p : LRUCachePolicy κ} (hmanager : c.offload.registry.manager = some m)
    (hm : m.policy = .lru p) : (busyKeys p).Perm c.protectedKeys := by
  have haccounts := h.backing.coherent.backed.accounts m hmanager
  have hget : ∀ k, m.policy.get k = p.get k := fun k => by rw [hm]; rfl
  have hstatus : ∀ k, c.offload.registry.status k = m.status k := fun k => by
    simp [LifecycleRegistry.status, hmanager]
  have hflight : ∀ k, k ∈ c.storeKeys ↔ ∃ b, p.get k = some b ∧ b.isReady = false := by
    intro k
    have hiff := h.inFlight k
    rw [hstatus, CPUOffloadingManager.status, hget] at hiff
    simpa using hiff.symm
  -- a key is owed references by its loads and by the records that retain it
  have howed : ∀ k, ((∃ keys ∈ c.loadKeys, k ∈ keys) ∨
      ∃ id record, c.offload.registry.records.get? id = some record ∧ k ∈ record.retained) ↔
      0 < c.offload.registry.retainers k + c.offload.loaders k := by
    intro k
    have hretainers := retainers_nonneg c.offload.registry k
    have hloaders := c.offload.loaders_nonneg k
    have hload : (∃ keys ∈ c.loadKeys, k ∈ keys) ↔ 0 < c.offload.loaders k := by
      rw [← h.loads]
      simp [OffloadState.loaders]
    have hretain : (∃ id record, c.offload.registry.records.get? id = some record ∧
        k ∈ record.retained) ↔ 0 < c.offload.registry.retainers k := by
      constructor
      · rintro ⟨id, record, hrecord, hk⟩
        exact retainers_pos hrecord hk
      · intro hpos
        by_contra hnone
        have hzero : c.offload.registry.retainers k =
            c.offload.registry.records.sum fun _ _ => (0 : ℤ) :=
          OrdDict.sum_congr fun id record hrecord =>
            if_neg fun hk => hnone ⟨id, record, hrecord, hk⟩
        rw [hzero] at hpos
        simp [OrdDict.sum] at hpos
    rw [hload, hretain]
    omega
  have hprotected : c.protectedKeys.Nodup := List.nodup_dedup _
  refine (List.perm_ext_iff_of_nodup ?_ hprotected).mpr fun k => ?_
  · exact (List.filter_sublist.map _).nodup p.blocks.nodupKeys
  · rw [mem_busyKeys, mem_protectedKeys, howed, hflight]
    constructor
    · rintro ⟨b, hb, hne⟩
      cases hready : b.isReady with
      | false => exact .inl ⟨b, hb, hready⟩
      | true =>
          refine .inr ?_
          have howes := haccounts.refCnt k b ((hget k).trans hb) hready
          have hnonneg := haccounts.nonneg k
          simp only [add_zero] at howes hnonneg
          omega
    · intro hprotected
      cases hprotected with
      | inl hstored =>
          obtain ⟨b, hb, hready⟩ := hstored
          refine ⟨b, hb, fun hzero => ?_⟩
          simp [BlockStatus.isReady, hzero] at hready
      | inr howes =>
          have hready := haccounts.ready k (by simpa using howes)
          rw [isKeyReady, hget] at hready
          cases hb : p.get k with
          | none => simp [hb] at hready
          | some b =>
              simp only [hb] at hready
              have heq := haccounts.refCnt k b ((hget k).trans hb) hready
              simp only [add_zero] at heq
              exact ⟨b, rfl, by omega⟩

/-! ## Runs -/

/-- The keys that one call names are distinct. -/
def KeysDistinct (c : TokenCakeOffloadingScheduler κ σ) : ConnectorOp κ σ → Prop
  | .evaluatePending selections =>
      ∀ selection ∈ selections, (selection.candidates.map (·.key)).Nodup
  | .updateStateAfterAlloc reqId _ _ =>
      ∀ status, c.reqStatus.get? reqId = some status → status.offloadKeys.flatten.Nodup
  | .buildConnectorMeta input =>
      ∀ r ∈ input.scheduled, ∀ plan ∈ r.plan, plan.newOffloadKeys.Nodup
  | _ => True

def OperatesOnDistinct (c : TokenCakeOffloadingScheduler κ σ) (op : ConnectorOp κ σ)
    (c' : TokenCakeOffloadingScheduler κ σ) : Prop :=
  c.KeysDistinct op ∧ c.Operates op c'

theorem Tallied.operate (h : Tallied kind [] c) {op : ConnectorOp κ σ}
    (hop : c.KeysDistinct op) : Yields (Tallied kind []) (c.operate op) := by
  cases op with
  | event op =>
      have hsilent : OffloadState.isSilent op.1 = true := by
        obtain ⟨op, hevent⟩ := op
        cases op <;> first | rfl | cases hevent
      exact (h.run hsilent).mono fun c' ⟨_, _, h'⟩ => h'
  | evaluatePending selections => exact h.evaluatePending hop
  | getNumNewMatchedTokens reqId offloadKeys tokens lookups touched =>
      exact h.getNumNewMatchedTokens reqId offloadKeys tokens lookups touched
  | updateStateAfterAlloc reqId blocks external =>
      exact h.updateStateAfterAlloc hop blocks external
  | buildConnectorMeta input => exact (h.buildConnectorMeta hop).map fun _ h' => h'
  | updateConnectorOutput now retainedAt completed =>
      exact h.updateConnectorOutput now retainedAt completed.entries
  | requestFinished reqId => exact h.requestFinished reqId
  | resetCache now => exact h.resetCache now

theorem tallied_new (config : SchedulerOffloadConfig) (settings : OffloadConfig) (numBlocks : ℕ)
    (events : Bool) (tracker : ℕ) :
    Tallied (numBlocks, false, true) [] (new config settings
      (.new numBlocks .lru events 1 tracker) : TokenCakeOffloadingScheduler κ σ) := by
  refine ⟨⟨?_, ?_, rfl⟩, rfl, fun k => ⟨fun hk => ?_, fun hk => ?_⟩, Multiset.nodup_zero, ?_, ?_⟩
  · exact OffloadState.coherent_initial settings fun m hm =>
      ⟨numBlocks, .lru, events, 1, tracker, (Option.some.inj hm).symm⟩
  · intro m hm
    exact Option.some.inj hm ▸ ⟨pooled_new numBlocks .lru events 1 tracker, rfl⟩
  · cases hk
  · simp [storeKeys, new] at hk
  · intro job status hjob
    cases hjob
  · intro job store hstore
    cases hstore

/-- When the availability of CPU blocks keeps its promise. In every reachable state, with LRU
eviction and a store threshold of one, a batch whose new keys fit into the available blocks is
stored if and only if it has no new key, or its new keys fit next to the protected keys and
its own keys that are cached without a reference. -/
theorem available_batch_is_stored_iff {config : SchedulerOffloadConfig}
    {settings : OffloadConfig} {numBlocks : ℕ} {events : Bool} {tracker : ℕ}
    {ops : List (ConnectorOp κ σ)} {c : TokenCakeOffloadingScheduler κ σ}
    (run : Run OperatesOnDistinct (new config settings (.new numBlocks .lru events 1 tracker))
      ops c) :
    ∃ m, c.offload.registry.manager = some m ∧ ∀ keys : List κ, keys.Nodup →
      (((m.absentKeys keys).length ≤ c.cpuAvailable numBlocks →
          ∃ output m', m.prepareStore keys = .ok (some output, m')) ↔
        ((m.absentKeys keys).length ≤ c.cpuAvailable numBlocks →
          m.absentKeys keys = [] ∨ (m.absentKeys keys).length + (m.idleKeys keys).length +
            c.protectedKeys.length ≤ numBlocks)) := by
  have h : Tallied (numBlocks, false, true) [] c := run.invariant
    (fun c op c' _ hc hstep => (hc.operate hstep.1).of_eq_ok hstep.2)
    (tallied_new config settings numBlocks events tracker)
  obtain ⟨m, hmanager⟩ := Option.isSome_iff_exists.mp h.backing.manager
  obtain ⟨hpooled, hkind⟩ := h.backing.stocked m hmanager
  obtain ⟨hnumBlocks, hcounts, hlru⟩ : m.numBlocks = numBlocks ∧ m.counts = none ∧
      m.policy.isLru = true := by simpa [kind] using hkind
  obtain ⟨p, hm⟩ : ∃ p, m.policy = .lru p := by
    cases hpolicy : m.policy with
    | lru p => exact ⟨p, rfl⟩
    | arc p => simp [hpolicy, CachePolicy.isLru] at hlru
  refine ⟨m, hmanager, fun keys hkeys => ?_⟩
  rw [prepareStore_succeeds_iff hpooled hcounts hm hkeys, hnumBlocks,
    (h.busyKeys_perm hmanager hm).length_eq]

/-- The connector with two CPU blocks. -/
def twoCpuBlocks : TokenCakeOffloadingScheduler ℕ Unit :=
  new ⟨[⟨1, 1, none⟩], 1, 1⟩ ⟨true, 1, 1 / 10, 1 / 2⟩ (.new 2 .lru false 1 10)

/-- A request stores two keys and finishes; the cache holds both and nobody refers to them. -/
def cachedPair : List (ConnectorOp ℕ Unit) :=
  [.getNumNewMatchedTokens "p" [[1, 2]] 0 [] [],
    .buildConnectorMeta ⟨[⟨"p", none, some ⟨[1, 2], [], fun _ => ⟨⟨[], [], []⟩, [], []⟩⟩⟩], [], 1⟩,
    .updateConnectorOutput 0 (fun _ => 0) (OrdDict.empty.insert 0 1)]

theorem cachedPair_distinct {c : TokenCakeOffloadingScheduler ℕ Unit} {op : ConnectorOp ℕ Unit}
    (hop : op ∈ cachedPair) : c.KeysDistinct op := by
  simp only [cachedPair, List.mem_cons, List.not_mem_nil, or_false] at hop
  rcases hop with rfl | rfl | rfl
  · trivial
  · simp [KeysDistinct]
  · trivial

theorem run_of_cachedPair {c c' : TokenCakeOffloadingScheduler ℕ Unit}
    {ops : List (ConnectorOp ℕ Unit)} (hops : ops ⊆ cachedPair)
    (h : (ops.foldlM (fun c op => (c.operate op).toOption) c) = some c') :
    Run OperatesOnDistinct c ops c' := by
  induction ops generalizing c with
  | nil =>
      obtain rfl : c = c' := Option.some.inj h
      exact .nil c
  | cons op ops ih =>
      rw [List.foldlM_cons] at h
      obtain ⟨c₁, hstep, hrest⟩ := Option.bind_eq_some_iff.mp h
      rw [List.cons_subset] at hops
      exact .cons ⟨cachedPair_distinct hops.1, operates_of_toOption hstep⟩ (ih hops.2 hrest)

/-- A batch that names a cached key: its two new keys fit into the two available blocks, and it
is refused. -/
theorem available_batch_is_refused :
    ∃ c : TokenCakeOffloadingScheduler ℕ Unit, Run OperatesOnDistinct twoCpuBlocks cachedPair c ∧
      ∃ m, c.offload.registry.manager = some m ∧
        (m.absentKeys [1, 3, 4]).length ≤ c.cpuAvailable 2 ∧
        ¬∃ output m', m.prepareStore [1, 3, 4] = .ok (some output, m') := by
  have hexecute : (cachedPair.foldlM (fun c op => (operate c op).toOption) twoCpuBlocks).any
      (fun c => c.offload.registry.manager.any fun m =>
        decide ((m.absentKeys [1, 3, 4]).length ≤ c.cpuAvailable 2) &&
          (m.prepareStore [1, 3, 4]).toOption.any fun out => out.1.isNone) = true := by
    decide +kernel
  rw [Option.any_eq_true] at hexecute
  obtain ⟨c, hrun, hc⟩ := hexecute
  rw [Option.any_eq_true] at hc
  obtain ⟨m, hm, hm'⟩ := hc
  simp only [Bool.and_eq_true, decide_eq_true_eq] at hm'
  refine ⟨c, run_of_cachedPair (List.Subset.refl _) hrun, m, hm, hm'.1, ?_⟩
  rintro ⟨output, m', hprepare⟩
  rw [hprepare] at hm'
  cases hm'.2

/-- A batch of new keys that fits is stored. -/
theorem available_new_batch_is_stored :
    ∃ c : TokenCakeOffloadingScheduler ℕ Unit, Run OperatesOnDistinct twoCpuBlocks cachedPair c ∧
      ∃ m, c.offload.registry.manager = some m ∧
        ∃ output m', m.prepareStore [3, 4] = .ok (some output, m') := by
  have hexecute : (cachedPair.foldlM (fun c op => (operate c op).toOption) twoCpuBlocks).any
      (fun c => c.offload.registry.manager.any fun m =>
        decide ((m.absentKeys [3, 4]).length ≤ c.cpuAvailable 2 ∧
          (m.absentKeys [3, 4]).length + (m.idleKeys [3, 4]).length +
            c.protectedKeys.length ≤ 2)) = true := by
    decide +kernel
  rw [Option.any_eq_true] at hexecute
  obtain ⟨c, hrun, hc⟩ := hexecute
  rw [Option.any_eq_true] at hc
  obtain ⟨m, hm, hm'⟩ := hc
  rw [decide_eq_true_eq] at hm'
  have run := run_of_cachedPair (List.Subset.refl _) hrun
  obtain ⟨m', hmanager, hiff⟩ := available_batch_is_stored_iff run
  obtain rfl := Option.some.inj (hm.symm.trans hmanager)
  exact ⟨c, run, m, hm, (hiff [3, 4] (by decide)).mpr (fun _ => .inr hm'.2) hm'.1⟩

end TokenCakeOffloadingScheduler

end TokenCake.Offload
