import Mathlib.Data.List.Range
import TokenCake.Model.FreeQueue

/-! # The free queue refines a list

Between its sentinels the queue is a list of blocks, and its operations are those of the list. -/

namespace TokenCake.KV.FreeKVCacheBlockQueue

open QueueNode

variable {q : FreeKVCacheBlockQueue} {links links' : Links QueueNode} {xs ys bs : List BlockId}
  {a b : BlockId}

/-! ## Well-formed queues -/

/-- From `fake_free_list_head` the links `next_free_block` lead over the blocks `xs`. -/
structure WellFormed (q : FreeKVCacheBlockQueue) (xs : List BlockId) : Prop where
  contents : q.links.Follows fakeTail (q.links.next fakeHead) (xs.map block)
  inverse : ∀ m n, q.links.next m = some n ↔ q.links.prev n = some m
  head_prev : q.links.prev fakeHead = none
  tail_next : q.links.next fakeTail = none
  outside : ∀ b ∉ xs, q.links.next (block b) = none ∧ q.links.prev (block b) = none
  count : q.numFreeBlocks = xs.length

/-- The nodes of the queue with its sentinels. -/
def nodes (xs : List BlockId) : List QueueNode := fakeHead :: xs.map block ++ [fakeTail]

/-- The same as a linked list of nodes. -/
structure Threaded (links : Links QueueNode) (xs : List BlockId) : Prop where
  linked : links.Linked (nodes xs)
  nodup : xs.Nodup
  head_prev : links.prev fakeHead = none
  tail_next : links.next fakeTail = none
  outside : ∀ b ∉ xs, links.next (block b) = none ∧ links.prev (block b) = none

theorem block_injective : Function.Injective block := fun _ _ h => QueueNode.block.inj h

theorem nodup_nodes (h : xs.Nodup) : (nodes xs).Nodup := by
  have hblocks : (xs.map block).Nodup := h.map block_injective
  simp [nodes, List.nodup_append, hblocks]

theorem dropLast_nodes (xs : List BlockId) : (nodes xs).dropLast = fakeHead :: xs.map block :=
  List.dropLast_concat

theorem WellFormed.threaded (h : q.WellFormed xs) : Threaded q.links xs where
  linked := h.contents.linked fun m n => (h.inverse m n).mp
  nodup := by
    have hlinked : q.links.Linked (nodes xs) := h.contents.linked fun m n => (h.inverse m n).mp
    have hnodes : (nodes xs).Nodup := hlinked.nodup h.head_prev
    have hblocks : (xs.map block ++ [fakeTail]).Nodup := (List.nodup_cons.mp hnodes).2
    exact List.Nodup.of_map block hblocks.of_append_left
  head_prev := h.head_prev
  tail_next := h.tail_next
  outside := h.outside

theorem Threaded.wellFormed (h : Threaded links xs) : WellFormed ⟨links, xs.length⟩ xs where
  contents := h.linked.follows
  inverse := by
    intro m n
    constructor
    · intro hnext
      refine (h.linked.prev_of_next ?_ hnext).2
      rw [dropLast_nodes]
      cases m with
      | fakeHead => exact List.mem_cons_self ..
      | fakeTail => simp [h.tail_next] at hnext
      | block b =>
          have hb : b ∈ xs := by
            by_contra hb
            simp [(h.outside b hb).1] at hnext
          exact List.mem_cons_of_mem fakeHead (List.mem_map_of_mem hb)
    · intro hprev
      refine (h.linked.next_of_prev ?_ hprev).2
      cases n with
      | fakeHead => simp [h.head_prev] at hprev
      | fakeTail => simp [nodes]
      | block b =>
          have hb : b ∈ xs := by
            by_contra hb
            simp [(h.outside b hb).2] at hprev
          simpa [nodes] using hb
  head_prev := h.head_prev
  tail_next := h.tail_next
  outside := h.outside
  count := rfl

/-- The blocks of a well-formed queue are determined. -/
theorem WellFormed.unique (h : q.WellFormed xs) (h' : q.WellFormed ys) : xs = ys := by
  have hblocks := h.contents.unique h'.contents (by simp) (by simp)
  exact List.map_injective_iff.mpr block_injective hblocks

/-! ## The initial queue -/

/-- The links of the blocks after the loop of `__init__` over the first `k` of them. -/
theorem foldl_initBlock (n k : ℕ) :
    ((List.range k).foldl (initBlock n) ⟨fun _ => none, fun _ => none⟩).next fakeHead = none ∧
    ((List.range k).foldl (initBlock n) ⟨fun _ => none, fun _ => none⟩).next fakeTail = none ∧
    ((List.range k).foldl (initBlock n) ⟨fun _ => none, fun _ => none⟩).prev fakeHead = none ∧
    ∀ i : ℕ,
      ((List.range k).foldl (initBlock n) ⟨fun _ => none, fun _ => none⟩).next (block i) =
        (if i < k ∧ i < n - 1 then some (block (i + 1)) else none) ∧
      ((List.range k).foldl (initBlock n) ⟨fun _ => none, fun _ => none⟩).prev (block i) =
        if i < k ∧ 0 < i then some (block (i - 1)) else none := by
  induction k with
  | zero => simp
  | succ k ih =>
      rw [List.range_succ, List.foldl_append, List.foldl_cons, List.foldl_nil]
      generalize (List.range k).foldl (initBlock n) ⟨fun _ => none, fun _ => none⟩ = links at ih
      obtain ⟨hhead, htail, hhead', hblocks⟩ := ih
      have hnext : (initBlock n links k).next =
          if k < n - 1 then Function.update links.next (block k) (some (block (k + 1)))
          else links.next := by
        unfold initBlock
        by_cases hk : 0 < k <;> by_cases hn : k < n - 1 <;> simp [hk, hn]
      have hprev : (initBlock n links k).prev =
          if 0 < k then Function.update links.prev (block k) (some (block (k - 1)))
          else links.prev := by
        unfold initBlock
        by_cases hk : 0 < k <;> by_cases hn : k < n - 1 <;> simp [hk, hn]
      rw [hnext, hprev]
      refine ⟨?_, ?_, ?_, fun i => ⟨?_, ?_⟩⟩
      · split <;> simp [hhead]
      · split <;> simp [htail]
      · split <;> simp [hhead']
      · have hold := (hblocks i).1
        by_cases hik : i = k
        · subst hik
          by_cases hn : i < n - 1 <;> simp [hn, hold]
        · have hlt : i < k + 1 ↔ i < k := by omega
          simp only [hlt, ← hold]
          split
          · rw [Function.update_of_ne (fun h => hik (block_injective h))]
          · rfl
      · have hold := (hblocks i).2
        by_cases hik : i = k
        · subst hik
          by_cases hn : 0 < i <;> simp [hn, hold]
        · have hlt : i < k + 1 ↔ i < k := by omega
          simp only [hlt, ← hold]
          split
          · rw [Function.update_of_ne (fun h => hik (block_injective h))]
          · rfl

/-- The queue of new blocks holds all of them in order. -/
theorem new_wellFormed (n : ℕ) : (new n).WellFormed (List.range n) := by
  obtain ⟨hhead, htail, hhead', hblocks⟩ := foldl_initBlock n n
  rw [new]
  generalize (List.range n).foldl (initBlock n) ⟨fun _ => none, fun _ => none⟩ = links at *
  suffices hthreaded : Threaded (if 0 < n then
      (links.link fakeHead (block 0)).link (block (n - 1)) fakeTail
      else links.link fakeHead fakeTail) (List.range n) by
    have hwellFormed := hthreaded.wellFormed
    rwa [List.length_range] at hwellFormed
  have houtside : ∀ b ∉ List.range n, links.next (block b) = none ∧ links.prev (block b) = none := by
    intro b hb
    have hb : ¬b < n := fun h => hb (List.mem_range.mpr h)
    simp [(hblocks b).1, (hblocks b).2, hb]
  by_cases hn : 0 < n
  · rw [if_pos hn]
    obtain ⟨n, rfl⟩ : ∃ m, n = m + 1 := ⟨n - 1, by omega⟩
    have hnodup := nodup_nodes (List.nodup_range (n := n + 1))
    have hmiddle : links.Linked ((List.range (n + 1)).map block) := by
      refine (List.isChain_map block).mpr ((List.isChain_range_succ _ n).mpr fun m hm => ?_)
      have hm' : m < n + 1 := by omega
      simp [(hblocks m).1, (hblocks (m + 1)).2, hm, hm']
    have hfront : (links.link fakeHead (block 0)).Linked
        (fakeHead :: (List.range (n + 1)).map block) := by
      rw [nodes, List.range_succ_eq_map, List.map_cons] at hnodup
      rw [List.range_succ_eq_map, List.map_cons] at hmiddle ⊢
      have hempty : links.Linked ([] ++ [fakeHead]) := List.isChain_singleton fakeHead
      exact hempty.link hmiddle (List.nodup_append.mp hnodup).1
    refine ⟨?_, List.nodup_range, ?_, ?_, fun b hb => ⟨?_, ?_⟩⟩
    · have hlast : fakeHead :: (List.range (n + 1)).map block =
          (fakeHead :: (List.range n).map block) ++ [block n] := by
        rw [List.range_succ, List.map_append, ← List.cons_append]
        rfl
      have hnodes : nodes (List.range (n + 1)) =
          (fakeHead :: (List.range n).map block) ++ block n :: [fakeTail] := by
        rw [nodes, hlast, List.append_assoc]
        rfl
      rw [hnodes] at hnodup ⊢
      exact Links.Linked.link (hlast ▸ hfront) (List.isChain_singleton fakeTail) hnodup
    · simp [hhead']
    · simp [htail]
    · have hne : b ≠ n := by
        rintro rfl
        exact hb (List.mem_range.mpr (Nat.lt_succ_self b))
      simp [hne, (houtside b hb).1]
    · have hne : b ≠ 0 := by
        rintro rfl
        exact hb (List.mem_range.mpr (Nat.succ_pos n))
      simp [hne, (houtside b hb).2]
  · rw [if_neg hn]
    obtain rfl : n = 0 := by omega
    refine ⟨?_, List.nodup_range, ?_, ?_, fun b hb => ?_⟩
    · have hempty : links.Linked ([] ++ [fakeHead]) := List.isChain_singleton fakeHead
      exact hempty.link (List.isChain_singleton fakeTail) (by simp)
    · simp [hhead']
    · simp [htail]
    · simpa using houtside b hb

/-! ## Taking blocks out -/

/-- The links that bypass the blocks `bs` between `m` and `n` and reset theirs. -/
structure Bypasses (links links' : Links QueueNode) (m n : QueueNode) (bs : List BlockId) :
    Prop where
  next : ∀ k, links'.next k =
    if k = m then some n else if k ∈ bs.map block then none else links.next k
  prev : ∀ k, links'.prev k =
    if k = n then some m else if k ∈ bs.map block then none else links.prev k

theorem Threaded.bypass (h : Threaded links (xs ++ bs ++ ys)) {m n : QueueNode}
    {before after : List QueueNode} (hbefore : fakeHead :: xs.map block = before ++ [m])
    (hafter : ys.map block ++ [fakeTail] = n :: after) (hlinks : Bypasses links links' m n bs) :
    Threaded links' (xs ++ ys) := by
  have hnodes : nodes (xs ++ bs ++ ys) = (before ++ [m]) ++ bs.map block ++ n :: after := by
    simp [nodes, ← hbefore, ← hafter]
  have hkept : nodes (xs ++ ys) = before ++ m :: n :: after := by
    rw [← List.singleton_append, ← List.append_assoc, ← hbefore, ← hafter]
    simp [nodes]
  have hnodup := nodup_nodes h.nodup
  have hlinked := h.linked
  rw [hnodes] at hnodup hlinked
  obtain ⟨hleft, hright, hapart⟩ := List.nodup_append.mp hnodup
  obtain ⟨hbeforem, -, hbs⟩ := List.nodup_append.mp hleft
  obtain ⟨-, -, hm⟩ := List.nodup_append.mp hbeforem
  have hnm : n ≠ m := fun heq => hapart m (by simp) n (by simp) heq.symm
  have hblocks : ∀ k, k ∈ before ++ [m] ∨ k ∈ n :: after → k ∉ bs.map block := by
    rintro k (hk | hk) hkbs
    · exact hbs k hk k hkbs rfl
    · exact hapart k (List.mem_append_right _ hkbs) k hk rfl
  have hmbefore : ∀ k ∈ before, k ≠ m := fun k hk => hm k hk m (by simp)
  have hmafter : ∀ k ∈ n :: after, k ≠ m := fun k hk heq => hapart m (by simp) k hk heq.symm
  have hnbefore : ∀ k ∈ before ++ [m], k ≠ n := fun k hk =>
    hapart k (List.mem_append_left _ hk) n (by simp)
  have hnafter : ∀ k ∈ after, k ≠ n := fun k hk =>
    ne_of_mem_of_not_mem hk (List.nodup_cons.mp hright).1
  refine ⟨?_, h.nodup.sublist ?_, ?_, ?_, ?_⟩
  · rw [hkept]
    refine Links.linked_append_cons_cons.mpr ⟨?_, ⟨?_, ?_⟩, ?_⟩
    · refine hlinked.left.left.congr (fun k hk => ?_) (fun k hk => ?_)
      · rw [List.dropLast_concat] at hk
        rw [hlinks.next, if_neg (hmbefore k hk), if_neg (hblocks k (by simp [hk]))]
      · have hk := List.mem_of_mem_tail hk
        rw [hlinks.prev, if_neg (hnbefore k hk), if_neg (hblocks k (.inl hk))]
    · rw [hlinks.next, if_pos rfl]
    · rw [hlinks.prev, if_pos rfl]
    · refine hlinked.right.congr (fun k hk => ?_) (fun k hk => ?_)
      · have hk := List.dropLast_subset _ hk
        rw [hlinks.next, if_neg (hmafter k hk), if_neg (hblocks k (.inr hk))]
      · rw [hlinks.prev, if_neg (hnafter k hk),
          if_neg (hblocks k (.inr (List.mem_cons_of_mem n hk)))]
  · exact (List.sublist_append_left xs bs).append (List.Sublist.refl ys)
  · have hne : fakeHead ≠ n := hnbefore fakeHead (hbefore ▸ List.mem_cons_self ..)
    rw [hlinks.prev, if_neg hne, if_neg (by simp), h.head_prev]
  · have hne : fakeTail ≠ m := hmafter fakeTail (hafter ▸ by simp)
    rw [hlinks.next, if_neg hne, if_neg (by simp), h.tail_next]
  · intro b hb
    have hmne : block b ≠ m := by
      rintro rfl
      have hmem : block b ∈ fakeHead :: xs.map block := hbefore ▸ by simp
      exact hb (List.mem_append_left ys (by simpa using hmem))
    have hnne : block b ≠ n := by
      rintro rfl
      have hmem : block b ∈ ys.map block ++ [fakeTail] := hafter ▸ by simp
      exact hb (List.mem_append_right xs (by simpa using hmem))
    rw [hlinks.next, hlinks.prev, if_neg hmne, if_neg hnne]
    by_cases hbbs : b ∈ bs
    · simp [hbbs]
    · have hout := h.outside b (by simp_all)
      simp [hbbs, hout.1, hout.2]

/-! ### Popping -/

theorem exists_first (xs : List BlockId) :
    ∃ n after, xs.map block ++ [fakeTail] = n :: after := by
  cases xs with
  | nil => exact ⟨fakeTail, [], rfl⟩
  | cons b xs => exact ⟨block b, xs.map block ++ [fakeTail], rfl⟩

/-- The loop of `popleft_n` takes the blocks that it runs over and resets their links. -/
theorem popLoop_follows {curr : Option QueueNode} {ns : List QueueNode} {n : QueueNode}
    (h : links.Follows n curr ns) (hnodup : ns.Nodup) :
    ∃ links', popLoop ns.length curr links = (.ok (ns, some n), links') ∧
      (∀ k, links'.next k = if k ∈ ns then none else links.next k) ∧
      ∀ k, links'.prev k = if k ∈ ns then none else links.prev k := by
  induction ns generalizing curr links with
  | nil =>
      obtain rfl : curr = some n := h
      exact ⟨links, rfl, by simp, by simp⟩
  | cons m ns ih =>
      obtain ⟨rfl, h⟩ := h
      obtain ⟨hm, hnodup⟩ := List.nodup_cons.mp hnodup
      have hcleared : (links.clear m).Follows n (links.next m) ns := by
        refine h.congr fun k hk => ?_
        rw [Links.next_clear, Function.update_of_ne (ne_of_mem_of_not_mem hk hm)]
      obtain ⟨links', hloop, hnext, hprev⟩ := ih hcleared hnodup
      refine ⟨links', ?_, fun k => ?_, fun k => ?_⟩
      · have hloop : popLoop ns.length (links.next m)
            ((links.setPrev m none).setNext m none) = (.ok (ns, some n), links') := hloop
        rw [List.length_cons, popLoop, hloop]
      · rw [hnext, Links.next_clear, Function.update_apply]
        by_cases hk : k = m <;> simp [hk]
      · rw [hprev, Links.prev_clear, Function.update_apply]
        by_cases hk : k = m <;> simp [hk]

theorem WellFormed.popleftN_eq (h : q.WellFormed (bs ++ ys)) :
    ∃ q', q.popleftN bs.length = (.ok (bs.map block), q') ∧ q'.WellFormed ys := by
  by_cases hbs : bs = []
  · subst hbs
    exact ⟨q, rfl, h⟩
  have hthreaded := h.threaded
  obtain ⟨n, after, hafter⟩ := exists_first ys
  have hlinked : q.links.Linked ((fakeHead :: bs.map block ++ [n]) ++ after) := by
    have hnodes : nodes (bs ++ ys) = (fakeHead :: bs.map block ++ [n]) ++ after := by
      simp [nodes, hafter]
    exact hnodes ▸ hthreaded.linked
  have hnodup : (bs.map block).Nodup := hthreaded.nodup.of_append_left.map block_injective
  obtain ⟨links', hloop, hnext, hprev⟩ := popLoop_follows hlinked.left.follows hnodup
  rw [List.length_map] at hloop
  have hlength : 0 < bs.length := List.length_pos_iff.mpr hbs
  have hcount : q.numFreeBlocks = bs.length + ys.length := by
    rw [h.count, List.length_append]
    push_cast
    rfl
  refine ⟨⟨links'.link fakeHead n, ys.length⟩, ?_, ?_⟩
  · have hnonzero : (bs.length : ℤ) ≠ 0 := by omega
    have henough : ¬q.numFreeBlocks < bs.length := by omega
    have hrest : q.numFreeBlocks - bs.length = ys.length := by omega
    unfold popleftN
    rw [if_neg hnonzero, if_neg henough]
    simp only [Int.toNat_natCast, hloop, hrest]
    rfl
  · have hbypass : Bypasses q.links (links'.link fakeHead n) fakeHead n bs := by
      refine ⟨fun k => ?_, fun k => ?_⟩
      · rw [Links.next_link, Function.update_apply, hnext]
      · rw [Links.prev_link, Function.update_apply, hprev]
    have hfront : fakeHead :: ([] : List BlockId).map block = [] ++ [fakeHead] := rfl
    have hwhole : Threaded q.links ([] ++ bs ++ ys) := hthreaded
    exact (hwhole.bypass hfront hafter hbypass).wellFormed

/-- Linking the neighbours of a block and resetting its links. -/
theorem bypasses_clear {m n : QueueNode} (hm : m ≠ block b) (hn : n ≠ block b) :
    Bypasses links ((links.link m n).clear (block b)) m n [b] where
  next k := by
    rw [Links.next_clear, Links.next_link, Function.update_apply, Function.update_apply]
    by_cases hk : k = block b
    · simp [hk, hm.symm]
    · simp [hk]
  prev k := by
    rw [Links.prev_clear, Links.prev_link, Function.update_apply, Function.update_apply]
    by_cases hk : k = block b
    · simp [hk, hn.symm]
    · simp [hk]

/-- A block in the queue has its two neighbours. -/
theorem Threaded.neighbours (h : Threaded links (xs ++ [b] ++ ys)) :
    ∃ m n before after, fakeHead :: xs.map block = before ++ [m] ∧
      ys.map block ++ [fakeTail] = n :: after ∧ m ≠ block b ∧ n ≠ block b ∧
      links.next m = some (block b) ∧ links.prev (block b) = some m ∧
      links.next (block b) = some n := by
  obtain ⟨n, after, hafter⟩ := exists_first ys
  obtain ⟨before, m, hbefore⟩ : ∃ before m, fakeHead :: xs.map block = before ++ [m] :=
    ⟨_, _, (List.dropLast_append_getLast (List.cons_ne_nil _ _)).symm⟩
  have hnodes : nodes (xs ++ [b] ++ ys) = before ++ m :: block b :: n :: after := by
    have hsplit : nodes (xs ++ [b] ++ ys) =
        (fakeHead :: xs.map block) ++ block b :: (ys.map block ++ [fakeTail]) := by simp [nodes]
    rw [hsplit, hbefore, hafter]
    simp
  have hnodup := nodup_nodes h.nodup
  have hlinked := h.linked
  rw [hnodes] at hnodup hlinked
  have hm := (List.nodup_append.mp hnodup).2.1
  obtain ⟨-, ⟨hnext, hprev⟩, hright⟩ := Links.linked_append_cons_cons.mp hlinked
  have hafternext := (Links.linked_cons_cons.mp hright).1.1
  obtain ⟨hmb, hnb⟩ := List.nodup_cons.mp hm
  refine ⟨m, n, before, after, hbefore, hafter, ?_, ?_, hnext, hprev, hafternext⟩
  · rintro rfl
    exact hmb (List.mem_cons_self ..)
  · rintro rfl
    exact (List.nodup_cons.mp hnb).1 (List.mem_cons_self ..)

theorem WellFormed.popleft_eq (h : q.WellFormed (b :: xs)) :
    ∃ q', q.popleft = (.ok (block b), q') ∧ q'.WellFormed xs := by
  have hwhole : Threaded q.links ([] ++ [b] ++ xs) := h.threaded
  obtain ⟨m, n, before, after, hbefore, hafter, hm, hn, hnext, -, hafternext⟩ := hwhole.neighbours
  obtain ⟨rfl, rfl⟩ : before = [] ∧ m = fakeHead := by
    have hconcat : [] ++ [fakeHead] = before ++ [m] := hbefore
    obtain ⟨hnil, hsingle⟩ := List.append_inj' hconcat rfl
    exact ⟨hnil.symm, (List.singleton_inj.mp hsingle).symm⟩
  have hcount : q.numFreeBlocks - 1 = xs.length := by
    rw [h.count, List.length_cons]
    push_cast
    omega
  refine ⟨⟨(q.links.link fakeHead n).clear (block b), xs.length⟩, ?_,
    (hwhole.bypass hbefore hafter (bypasses_clear hm hn)).wellFormed⟩
  have hnottail : ¬q.links.next fakeHead = some fakeTail := by simp [hnext]
  rw [popleft, if_neg hnottail, hnext]
  simp only [hafternext, hcount]
  rfl

theorem WellFormed.popleft_empty (h : q.WellFormed []) : q.popleft = (.error .valueError, q) := by
  have hnext : q.links.next fakeHead = some fakeTail := h.contents
  have hcount : q.numFreeBlocks = 0 := h.count
  rw [popleft, if_pos hnext, if_pos hcount]

theorem WellFormed.popleftN_excess {n : ℕ} (h : q.WellFormed xs) (hn : xs.length < n) :
    q.popleftN n = (.error .assertion, q) := by
  have hnonzero : (n : ℤ) ≠ 0 := by omega
  have hshort : q.numFreeBlocks < n := by
    rw [h.count]
    exact_mod_cast hn
  rw [popleftN, if_neg hnonzero, if_pos hshort]

/-! ### Removing -/

theorem WellFormed.remove_eq (h : q.WellFormed xs) (hb : b ∈ xs) :
    ∃ q', q.remove b = (.ok (), q') ∧ q'.WellFormed (xs.erase b) := by
  obtain ⟨xs, ys, -, rfl, herase⟩ := List.exists_erase_eq hb
  rw [herase]
  have hwhole : Threaded q.links (xs ++ [b] ++ ys) := by
    rw [List.append_assoc, List.singleton_append]
    exact h.threaded
  obtain ⟨m, n, before, after, hbefore, hafter, hm, hn, -, hprev, hnext⟩ := hwhole.neighbours
  have hcount : q.numFreeBlocks - 1 = (xs ++ ys).length := by
    rw [h.count, List.length_append, List.length_append, List.length_cons]
    push_cast
    omega
  refine ⟨⟨(q.links.link m n).clear (block b), (xs ++ ys).length⟩, ?_,
    (hwhole.bypass hbefore hafter (bypasses_clear hm hn)).wellFormed⟩
  rw [remove, hprev, hnext]
  simp only [hcount]
  rfl

theorem WellFormed.remove_outside (h : q.WellFormed xs) (hb : b ∉ xs) :
    q.remove b = (.error .runtimeError, q) := by
  obtain ⟨-, hprev⟩ := h.outside b hb
  rw [remove, hprev]

/-! ## Appending -/

/-- The loop of `append_n` links the blocks behind the last node. -/
theorem appendLoop_linked {before : List QueueNode} {lastBlock : QueueNode}
    (h : links.Linked (before ++ [lastBlock]))
    (hnodup : (before ++ lastBlock :: bs.map block).Nodup) :
    ∃ links' before' last', appendLoop lastBlock links bs = (last', links') ∧
      before ++ lastBlock :: bs.map block = before' ++ [last'] ∧
      links'.Linked (before' ++ [last']) ∧
      (∀ k ∉ lastBlock :: bs.map block, links'.next k = links.next k) ∧
      ∀ k ∉ bs.map block, links'.prev k = links.prev k := by
  induction bs generalizing before lastBlock links with
  | nil => exact ⟨links, before, lastBlock, rfl, rfl, h, fun k _ => rfl, fun k _ => rfl⟩
  | cons b bs ih =>
      have hassoc : before ++ lastBlock :: (b :: bs).map block =
          (before ++ [lastBlock]) ++ block b :: bs.map block := by simp
      rw [hassoc] at hnodup ⊢
      have hshort : (before ++ lastBlock :: [block b]).Nodup := by
        refine hnodup.sublist ?_
        rw [List.append_assoc, List.singleton_append]
        refine (List.Sublist.refl before).append (List.Sublist.cons_cons lastBlock ?_)
        exact List.Sublist.cons_cons (block b) (List.nil_sublist _)
      have hlinked :
          (links.link lastBlock (block b)).Linked ((before ++ [lastBlock]) ++ [block b]) := by
        rw [List.append_assoc, List.singleton_append]
        exact h.link (List.isChain_singleton (block b)) hshort
      obtain ⟨links', before', last', hloop, hnodes, hlinked', hnext, hprev⟩ := ih hlinked hnodup
      refine ⟨links', before', last', hloop, hnodes, hlinked', fun k hk => ?_, fun k hk => ?_⟩
      · obtain ⟨hlast, hk⟩ := List.ne_and_not_mem_of_not_mem_cons hk
        rw [hnext k hk, Links.next_link, Function.update_of_ne hlast]
      · obtain ⟨hb, hk⟩ := List.ne_and_not_mem_of_not_mem_cons hk
        rw [hprev k hk, Links.prev_link, Function.update_of_ne hb]

/-- Appending blocks that are not in the queue. -/
theorem Threaded.appendLoop (h : Threaded links xs) (hbs : bs.Nodup) (hout : ∀ b ∈ bs, b ∉ xs) :
    ∃ lastBlock last' links', links.prev fakeTail = some lastBlock ∧
      FreeKVCacheBlockQueue.appendLoop lastBlock links bs = (last', links') ∧
      Threaded (links'.link last' fakeTail) (xs ++ bs) := by
  obtain ⟨before, lastBlock, hbefore⟩ :
      ∃ before lastBlock, fakeHead :: xs.map block = before ++ [lastBlock] :=
    ⟨_, _, (List.dropLast_append_getLast (List.cons_ne_nil _ _)).symm⟩
  have hxsbs : (xs ++ bs).Nodup := List.nodup_append.mpr
    ⟨h.nodup, hbs, fun a ha b hb hab => hout b hb (hab ▸ ha)⟩
  have hkept : nodes xs = before ++ lastBlock :: [fakeTail] := by
    rw [nodes, hbefore, List.append_assoc, List.singleton_append]
  have hall : fakeHead :: (xs ++ bs).map block = before ++ lastBlock :: bs.map block := by
    rw [List.map_append, ← List.cons_append, hbefore, List.append_assoc, List.singleton_append]
  have hnodup : (before ++ lastBlock :: bs.map block).Nodup := by
    rw [← hall]
    exact (List.nodup_append.mp (nodup_nodes hxsbs)).1
  have hlinked := h.linked
  rw [hkept] at hlinked
  obtain ⟨hleft, ⟨-, hprevtail⟩, -⟩ := Links.linked_append_cons_cons.mp hlinked
  obtain ⟨links', before', last', hloop, hnodes, hlinked', hnext, hprev⟩ :=
    appendLoop_linked hleft hnodup
  rw [hnodes] at hall
  have hlastmem : last' ∈ fakeHead :: (xs ++ bs).map block := hall ▸ by simp
  have hblast : lastBlock ∈ fakeHead :: xs.map block := hbefore ▸ by simp
  refine ⟨lastBlock, last', links', hprevtail, hloop, ?_, hxsbs, ?_, ?_, ?_⟩
  · have hfull : nodes (xs ++ bs) = before' ++ last' :: [fakeTail] := by
      rw [nodes, hall, List.append_assoc, List.singleton_append]
    rw [hfull]
    exact hlinked'.link (List.isChain_singleton fakeTail) (hfull ▸ nodup_nodes hxsbs)
  · rw [Links.prev_link, Function.update_of_ne (by simp), hprev fakeHead (by simp), h.head_prev]
  · have hne : fakeTail ≠ last' := fun heq => by simp [← heq] at hlastmem
    have hother : fakeTail ∉ lastBlock :: bs.map block := by
      intro hmem
      rcases List.mem_cons.mp hmem with heq | hmem
      · simp [← heq] at hblast
      · simp at hmem
    rw [Links.next_link, Function.update_of_ne hne, hnext fakeTail hother, h.tail_next]
  · intro b hb
    obtain ⟨hxs, hbsb⟩ : b ∉ xs ∧ b ∉ bs := by simpa using hb
    have hne : block b ≠ last' := fun heq => by simp [← heq, hxs, hbsb] at hlastmem
    have hother : block b ∉ lastBlock :: bs.map block := by
      intro hmem
      rcases List.mem_cons.mp hmem with heq | hmem
      · simp [← heq, hxs] at hblast
      · simp [hbsb] at hmem
    obtain ⟨hnone, hnone'⟩ := h.outside b hxs
    constructor
    · rw [Links.next_link, Function.update_of_ne hne, hnext _ hother, hnone]
    · rw [Links.prev_link, Function.update_of_ne (by simp),
        hprev _ (List.not_mem_of_not_mem_cons hother), hnone']

theorem WellFormed.appendN_eq (h : q.WellFormed xs) (hbs : bs.Nodup) (hout : ∀ b ∈ bs, b ∉ xs) :
    ∃ q', q.appendN bs = (.ok (), q') ∧ q'.WellFormed (xs ++ bs) := by
  by_cases hempty : bs.length = 0
  · obtain rfl : bs = [] := List.length_eq_zero_iff.mp hempty
    exact ⟨q, rfl, by simpa using h⟩
  obtain ⟨lastBlock, last', links', hlast, hloop, hthreaded⟩ := h.threaded.appendLoop hbs hout
  refine ⟨_, ?_, hthreaded.wellFormed⟩
  rw [appendN, if_neg hempty, hlast]
  simp only [hloop, h.count, List.length_append, Nat.cast_add]
  rfl

theorem WellFormed.append_eq (h : q.WellFormed xs) (hb : b ∉ xs) :
    ∃ q', q.append b = (.ok (), q') ∧ q'.WellFormed (xs ++ [b]) := by
  have hout : ∀ b' ∈ [b], b' ∉ xs := by simpa using hb
  obtain ⟨lastBlock, last', links', hlast, hloop, hthreaded⟩ :=
    h.threaded.appendLoop (List.nodup_singleton b) hout
  obtain ⟨rfl, rfl⟩ := Prod.mk.inj hloop
  refine ⟨_, ?_, hthreaded.wellFormed⟩
  rw [append, hlast]
  simp only [h.count, List.length_append, List.length_singleton, Nat.cast_add, Nat.cast_one]
  rfl

/-! ## Reading the frontier -/

theorem peekLoop_follows {η : Type} (blocks : BlockId → KVCacheBlock η) {curr : Option QueueNode}
    (h : q.links.Follows fakeTail curr (xs.map block)) (limit : ℕ) :
    q.peekLoop blocks limit curr =
      (xs.take limit).map fun b => (block b, (blocks b).blockHash) := by
  induction limit generalizing curr xs with
  | zero => simp [peekLoop]
  | succ limit ih =>
      cases xs with
      | nil =>
          obtain rfl : curr = some fakeTail := h
          simp [peekLoop]
      | cons b xs =>
          obtain ⟨rfl, h⟩ := h
          rw [peekLoop, if_neg (by simp), ih h]
          rfl

/-- `peek_free_block_frontier` reads the first entries of the queue. -/
theorem WellFormed.peekFreeBlockFrontier_eq {η : Type} (h : q.WellFormed xs)
    (blocks : BlockId → KVCacheBlock η) (limit : ℕ) :
    q.peekFreeBlockFrontier blocks limit =
      (xs.take limit).map fun b => (block b, (blocks b).blockHash) :=
  peekLoop_follows blocks h.contents limit

/-! ## The refinement -/

/-- The operations of the queue do what those of the list `xs` do. -/
structure Refines (q : FreeKVCacheBlockQueue) (xs : List BlockId) : Prop where
  contents_unique : ∀ ys, q.WellFormed ys → ys = xs
  popleft : ∀ b ys, xs = b :: ys → ∃ q', q.popleft = (.ok (block b), q') ∧ q'.WellFormed ys
  popleft_empty : xs = [] → q.popleft = (.error .valueError, q)
  popleftN : ∀ n : ℕ, n ≤ xs.length →
    ∃ q', q.popleftN n = (.ok ((xs.take n).map block), q') ∧ q'.WellFormed (xs.drop n)
  popleftN_excess : ∀ n : ℕ, xs.length < n → q.popleftN n = (.error .assertion, q)
  remove : ∀ b ∈ xs, ∃ q', q.remove b = (.ok (), q') ∧ q'.WellFormed (xs.erase b)
  remove_outside : ∀ b ∉ xs, q.remove b = (.error .runtimeError, q)
  append : ∀ b ∉ xs, ∃ q', q.append b = (.ok (), q') ∧ q'.WellFormed (xs ++ [b])
  appendN : ∀ bs : List BlockId, bs.Nodup → (∀ b ∈ bs, b ∉ xs) →
    ∃ q', q.appendN bs = (.ok (), q') ∧ q'.WellFormed (xs ++ bs)
  peekFreeBlockFrontier : ∀ {η : Type} (blocks : BlockId → KVCacheBlock η) (limit : ℕ),
    q.peekFreeBlockFrontier blocks limit =
      (xs.take limit).map fun b => (block b, (blocks b).blockHash)

/-- A well-formed queue refines the list of its blocks, and each operation leaves it well
formed. -/
theorem wellFormed_refines (h : q.WellFormed xs) : q.Refines xs where
  contents_unique ys h' := h'.unique h
  popleft b ys hxs := WellFormed.popleft_eq (hxs ▸ h)
  popleft_empty hxs := WellFormed.popleft_empty (hxs ▸ h)
  popleftN n hn := by
    have hlength : (xs.take n).length = n := List.length_take_of_le hn
    have hsplit : q.WellFormed (xs.take n ++ xs.drop n) := by rwa [List.take_append_drop]
    have hpop := hsplit.popleftN_eq
    rwa [hlength] at hpop
  popleftN_excess n hn := h.popleftN_excess hn
  remove b hb := h.remove_eq hb
  remove_outside b hb := h.remove_outside hb
  append b hb := h.append_eq hb
  appendN bs hbs hout := h.appendN_eq hbs hout
  peekFreeBlockFrontier blocks limit := h.peekFreeBlockFrontier_eq blocks limit

theorem threeBlocks_refine : (new 3).Refines [0, 1, 2] :=
  wellFormed_refines (new_wellFormed 3)

/-! ### The queue of a pool

The model of the pool keeps a list in place of the queue. -/

section Pool

variable {η : Type} {pool : BlockPool η}

/-- The queue behind the list of the pool. -/
structure Represents (q : FreeKVCacheBlockQueue) (pool : BlockPool η) : Prop where
  wellFormed : q.WellFormed pool.freeBlockQueue
  count : pool.numFreeBlocks = pool.freeBlockQueue.length

theorem new_represents {n : ℕ} (hn : 0 < n) (enableCaching : Bool) (hashBlockSize : ℕ) :
    ∃ q', (new n).popleft = (.ok (block nullBlock), q') ∧
      q'.Represents (BlockPool.new (η := η) n enableCaching hashBlockSize) := by
  obtain ⟨n, rfl⟩ : ∃ m, n = m + 1 := ⟨n - 1, by omega⟩
  have hcontents : List.range (n + 1) = nullBlock :: List.range' 1 n := by
    rw [List.range_eq_range', List.range'_succ]
    rfl
  have hwhole := new_wellFormed (n + 1)
  rw [hcontents] at hwhole
  obtain ⟨q', hpop, hq'⟩ := hwhole.popleft_eq
  refine ⟨q', hpop, hq', ?_⟩
  simp [BlockPool.new]

theorem Represents.popleftN (h : q.Represents pool) {n : ℕ} (hn : n ≤ pool.freeBlockQueue.length) :
    ∃ q' pool', q.popleftN n = (.ok ((pool.freeBlockQueue.take n).map block), q') ∧
      pool.popleftN n = .ok (pool.freeBlockQueue.take n, pool') ∧ q'.Represents pool' := by
  obtain ⟨q', hpop, hq'⟩ := (wellFormed_refines h.wellFormed).popleftN n hn
  by_cases hzero : (n : ℤ) = 0
  · obtain rfl : n = 0 := by exact_mod_cast hzero
    refine ⟨q', pool, hpop, by simp [BlockPool.popleftN], ?_, h.count⟩
    simpa using hq'
  · have henough : ¬(pool.numFreeBlocks < n ∨ pool.freeBlockQueue.length < (n : ℤ).toNat) := by
      rw [h.count]
      omega
    refine ⟨q', _, hpop, by rw [BlockPool.popleftN, if_neg hzero, if_neg henough]; rfl, ?_, ?_⟩
    · exact hq'
    · simp only [h.count, Int.toNat_natCast, List.length_drop]
      omega

/-- `touch` takes an unused block off the queue with `remove`. -/
theorem Represents.touchBlock (h : q.Represents pool) {b : BlockId}
    (hunused : (pool.blocks b).refCnt = 0 ∧ b ≠ nullBlock) :
    match pool.touchBlock b with
    | .ok pool' => ∃ q', q.remove b = (.ok (), q') ∧ q'.Represents pool'
    | .error e => q.remove b = (.error e, q) := by
  unfold BlockPool.touchBlock
  dsimp only
  rw [if_pos hunused]
  by_cases hb : b ∈ pool.freeBlockQueue
  · rw [if_pos hb]
    obtain ⟨q', hremove, hq'⟩ := h.wellFormed.remove_eq hb
    refine ⟨q', hremove, hq', ?_⟩
    have hlength := List.length_erase_of_mem hb
    have hpos := List.length_pos_of_mem hb
    dsimp only
    rw [h.count, hlength]
    omega
  · rw [if_neg hb]
    exact h.wellFormed.remove_outside hb

/-- The blocks that `free_blocks` returns. -/
def freed (pool : BlockPool η) (orderedBlocks : List BlockId) : List BlockId :=
  orderedBlocks.filter fun b =>
    decide (((pool.freeBlocks orderedBlocks).blocks b).refCnt = 0 ∧ b ≠ nullBlock)

theorem freeBlocks_freeBlockQueue (pool : BlockPool η) (orderedBlocks : List BlockId) :
    (pool.freeBlocks orderedBlocks).freeBlockQueue =
      pool.freeBlockQueue ++ freed pool orderedBlocks ∧
    (pool.freeBlocks orderedBlocks).numFreeBlocks =
      pool.numFreeBlocks + (freed pool orderedBlocks).length := by
  have hloop : ∀ (bs : List BlockId) (p : BlockPool η),
      (bs.foldl (fun p b => p.update b fun block => { block with refCnt := block.refCnt - 1 })
        p).freeBlockQueue = p.freeBlockQueue ∧
      (bs.foldl (fun p b => p.update b fun block => { block with refCnt := block.refCnt - 1 })
        p).numFreeBlocks = p.numFreeBlocks := by
    intro bs
    induction bs with
    | nil => exact fun p => ⟨rfl, rfl⟩
    | cons b bs ih => exact fun p => ih (p.update b _)
  obtain ⟨hqueue, hcount⟩ := hloop orderedBlocks pool
  exact ⟨congrArg (· ++ _) hqueue, congrArg (· + _) hcount⟩

/-- `free_blocks` returns blocks outside the queue with `append_n`. -/
theorem Represents.freeBlocks (h : q.Represents pool) {orderedBlocks : List BlockId}
    (hnodup : orderedBlocks.Nodup) (hout : ∀ b ∈ orderedBlocks, b ∉ pool.freeBlockQueue) :
    ∃ q', q.appendN (freed pool orderedBlocks) = (.ok (), q') ∧
      q'.Represents (pool.freeBlocks orderedBlocks) := by
  obtain ⟨hqueue, hcount⟩ := freeBlocks_freeBlockQueue pool orderedBlocks
  obtain ⟨q', happend, hq'⟩ := h.wellFormed.appendN_eq (hnodup.filter _) fun b hb =>
    hout b (List.mem_of_mem_filter hb)
  refine ⟨q', happend, hqueue ▸ hq', ?_⟩
  rw [hcount, hqueue, h.count, List.length_append]
  push_cast
  rfl

end Pool

end TokenCake.KV.FreeKVCacheBlockQueue
