import Mathlib.Data.List.Chain
import Mathlib.Data.List.Nodup
import Mathlib.Logic.Function.Basic

/-! # Doubly linked lists

Nodes with links to their neighbours, as assignments to single links change them. A list of nodes
is linked when each node points to its successor and back; the rules say which assignments keep
it so, and how two linked lists are joined. -/

/-- The links of the nodes. -/
structure Links (N : Type*) where
  next : N → Option N
  prev : N → Option N

namespace Links

variable {N : Type*} [DecidableEq N] {l l' : Links N} {ns ms ks : List N} {a b c n : N}
  {d : Option N}

/-! ## Assignments -/

def setNext (l : Links N) (n : N) (m : Option N) : Links N :=
  { l with next := Function.update l.next n m }

def setPrev (l : Links N) (n : N) (m : Option N) : Links N :=
  { l with prev := Function.update l.prev n m }

/-- Both links between a node and its successor. -/
def link (l : Links N) (a c : N) : Links N := (l.setNext a (some c)).setPrev c (some a)

def clear (l : Links N) (n : N) : Links N := (l.setPrev n none).setNext n none

@[simp] theorem next_setNext (l : Links N) (n : N) (m : Option N) :
    (l.setNext n m).next = Function.update l.next n m := rfl

@[simp] theorem prev_setNext (l : Links N) (n : N) (m : Option N) :
    (l.setNext n m).prev = l.prev := rfl

@[simp] theorem next_setPrev (l : Links N) (n : N) (m : Option N) :
    (l.setPrev n m).next = l.next := rfl

@[simp] theorem prev_setPrev (l : Links N) (n : N) (m : Option N) :
    (l.setPrev n m).prev = Function.update l.prev n m := rfl

@[simp] theorem next_link (l : Links N) (a c : N) :
    (l.link a c).next = Function.update l.next a (some c) := rfl

@[simp] theorem prev_link (l : Links N) (a c : N) :
    (l.link a c).prev = Function.update l.prev c (some a) := rfl

@[simp] theorem next_clear (l : Links N) (n : N) :
    (l.clear n).next = Function.update l.next n none := rfl

@[simp] theorem prev_clear (l : Links N) (n : N) :
    (l.clear n).prev = Function.update l.prev n none := rfl

/-! ## Linked lists of nodes -/

omit [DecidableEq N]

/-- Each node of the list points to its successor and back. -/
def Linked (l : Links N) (ns : List N) : Prop :=
  ns.IsChain fun a b => l.next a = some b ∧ l.prev b = some a

/-- From the link `c` the links to the successors lead over the nodes to the node `b`. -/
def Follows (l : Links N) (b : N) : Option N → List N → Prop
  | c, [] => c = some b
  | c, n :: ns => c = some n ∧ l.Follows b (l.next n) ns

theorem Linked.left (h : l.Linked (ns ++ ms)) : l.Linked ns := List.IsChain.left_of_append h

theorem Linked.right (h : l.Linked (ns ++ ms)) : l.Linked ms := List.IsChain.right_of_append h

theorem linked_append_cons_cons : l.Linked (ns ++ a :: b :: ms) ↔
    l.Linked (ns ++ [a]) ∧ (l.next a = some b ∧ l.prev b = some a) ∧ l.Linked (b :: ms) :=
  List.isChain_append_cons_cons

theorem linked_cons_cons : l.Linked (a :: b :: ns) ↔
    (l.next a = some b ∧ l.prev b = some a) ∧ l.Linked (b :: ns) :=
  List.isChain_cons_cons

/-- The link to the successor of the last node and that to the predecessor of the first do not
matter. -/
theorem Linked.congr (h : l.Linked ns) (hnext : ∀ n ∈ ns.dropLast, l'.next n = l.next n)
    (hprev : ∀ n ∈ ns.tail, l'.prev n = l.prev n) : l'.Linked ns := by
  induction ns with
  | nil => exact List.isChain_nil
  | cons a ns ih =>
      cases ns with
      | nil => exact List.isChain_singleton a
      | cons b ns =>
          obtain ⟨⟨hab, hba⟩, htail⟩ := linked_cons_cons.mp h
          refine linked_cons_cons.mpr ⟨⟨?_, ?_⟩, ih htail ?_ ?_⟩
          · rw [hnext a (by simp), hab]
          · rw [hprev b (by simp), hba]
          · intro n hn
            exact hnext n (List.mem_cons_of_mem a hn)
          · intro n hn
            exact hprev n (List.mem_cons_of_mem b hn)

/-- A link leads back to the node that it comes from. -/
theorem Linked.prev_of_next (h : l.Linked ns) (ha : a ∈ ns.dropLast) (hab : l.next a = some b) :
    b ∈ ns.tail ∧ l.prev b = some a := by
  induction ns with
  | nil => cases ha
  | cons n ns ih =>
      cases ns with
      | nil => cases ha
      | cons m ns =>
          obtain ⟨⟨hnm, hmn⟩, htail⟩ := linked_cons_cons.mp h
          rcases List.mem_cons.mp ha with rfl | ha
          · obtain rfl : m = b := Option.some.inj (hnm.symm.trans hab)
            exact ⟨List.mem_cons_self .., hmn⟩
          · obtain ⟨hb, hba⟩ := ih htail ha
            exact ⟨List.mem_cons_of_mem m hb, hba⟩

theorem Linked.next_of_prev (h : l.Linked ns) (hb : b ∈ ns.tail) (hba : l.prev b = some a) :
    a ∈ ns.dropLast ∧ l.next a = some b := by
  induction ns with
  | nil => cases hb
  | cons n ns ih =>
      cases ns with
      | nil => cases hb
      | cons m ns =>
          obtain ⟨⟨hnm, hmn⟩, htail⟩ := linked_cons_cons.mp h
          rcases List.mem_cons.mp hb with rfl | hb
          · obtain rfl : n = a := Option.some.inj (hmn.symm.trans hba)
            exact ⟨List.mem_cons_self .., hnm⟩
          · obtain ⟨ha, hab⟩ := ih htail hb
            exact ⟨List.mem_cons_of_mem n ha, hab⟩

theorem Linked.exists_prev (h : l.Linked (ns ++ [b])) (hns : ns ≠ []) :
    ∃ a ∈ ns, l.next a = some b ∧ l.prev b = some a := by
  induction ns using List.reverseRecOn with
  | nil => exact absurd rfl hns
  | append_singleton ns a _ =>
      rw [List.append_assoc, List.singleton_append] at h
      exact ⟨a, by simp, (linked_append_cons_cons.mp h).2.1⟩

/-- A linked list whose first node has no predecessor repeats no node. -/
theorem Linked.nodup (h : l.Linked (a :: ns)) (ha : l.prev a = none) : (a :: ns).Nodup := by
  induction ns using List.reverseRecOn with
  | nil => exact List.pairwise_singleton _ a
  | append_singleton ns n ih =>
      have hconcat : l.Linked ((a :: ns) ++ [n]) := h
      have hfront : (a :: ns).Nodup := ih hconcat.left
      have hnew : n ∉ a :: ns := by
        intro hn
        obtain ⟨k, hk, -, hpred⟩ := h.exists_prev (List.cons_ne_nil a ns)
        rcases List.mem_cons.mp hn with rfl | hn
        · rw [ha] at hpred
          cases hpred
        · -- The node has a predecessor before its first place and one after it.
          obtain ⟨ns, ms, rfl⟩ := List.append_of_mem hn
          have hfirst : l.Linked (((a :: ns) ++ [n]) ++ (ms ++ [n])) := by simpa using h
          have hsecond : l.Linked ((a :: ns) ++ ((n :: ms) ++ [n])) := by simpa using h
          obtain ⟨i, hi, -, hfirst⟩ := hfirst.left.exists_prev (List.cons_ne_nil a ns)
          obtain ⟨j, hj, -, hsecond⟩ := hsecond.right.exists_prev (List.cons_ne_nil n ms)
          obtain rfl : i = j := Option.some.inj (hfirst.symm.trans hsecond)
          have hapart : ((a :: ns) ++ n :: ms).Nodup := hfront
          exact (List.nodup_append.mp hapart).2.2 i hi i hj rfl
      have hall : ((a :: ns) ++ [n]).Nodup := List.nodup_append.mpr
        ⟨hfront, List.pairwise_singleton _ n, fun i hi j hj hij =>
          hnew (List.mem_singleton.mp hj ▸ hij ▸ hi)⟩
      exact hall

/-! ## Following the links -/

theorem Linked.follows (h : l.Linked (a :: ns ++ [b])) : l.Follows b (l.next a) ns := by
  induction ns generalizing a with
  | nil => exact (linked_cons_cons.mp h).1.1
  | cons n ns ih =>
      obtain ⟨⟨han, -⟩, h⟩ := linked_cons_cons.mp h
      exact ⟨han, ih h⟩

theorem Follows.congr (h : l.Follows b d ns) (hnext : ∀ n ∈ ns, l'.next n = l.next n) :
    l'.Follows b d ns := by
  induction ns generalizing d with
  | nil => exact h
  | cons n ns ih =>
      obtain ⟨rfl, h⟩ := h
      refine ⟨rfl, ?_⟩
      rw [hnext n (List.mem_cons_self ..)]
      exact ih h fun m hm => hnext m (List.mem_cons_of_mem n hm)

/-- The links lead over one list of nodes only. -/
theorem Follows.unique (h : l.Follows b d ns) (h' : l.Follows b d ms) (hns : b ∉ ns)
    (hms : b ∉ ms) : ns = ms := by
  induction ns generalizing d ms with
  | nil =>
      cases ms with
      | nil => rfl
      | cons m ms =>
          have heq : b = m := Option.some.inj (h.symm.trans h'.1)
          exact absurd (heq ▸ List.mem_cons_self ..) hms
  | cons n ns ih =>
      obtain ⟨rfl, h⟩ := h
      cases ms with
      | nil =>
          have heq : n = b := Option.some.inj h'
          exact absurd (heq ▸ List.mem_cons_self ..) hns
      | cons m ms =>
          obtain ⟨heq, h'⟩ := h'
          obtain rfl : n = m := Option.some.inj heq
          rw [ih h h' (List.not_mem_of_not_mem_cons hns) (List.not_mem_of_not_mem_cons hms)]

/-- Where all links lead back, the nodes that the links lead over are linked. -/
theorem Follows.linked (hback : ∀ a b, l.next a = some b → l.prev b = some a)
    (h : l.Follows b (l.next a) ns) : l.Linked (a :: ns ++ [b]) := by
  induction ns generalizing a with
  | nil => exact linked_cons_cons.mpr ⟨⟨h, hback a b h⟩, List.isChain_singleton b⟩
  | cons n ns ih =>
      obtain ⟨han, h⟩ := h
      exact linked_cons_cons.mpr ⟨⟨han, hback a n han⟩, ih h⟩

/-! ## Assignments to linked lists -/

variable [DecidableEq N]

theorem Linked.clear (h : l.Linked ns) (hn : n ∉ ns) : (l.clear n).Linked ns := by
  refine h.congr (fun m hm => ?_) (fun m hm => ?_)
  · have hmn : m ≠ n := ne_of_mem_of_not_mem (List.dropLast_subset _ hm) hn
    rw [next_clear, Function.update_of_ne hmn]
  · have hmn : m ≠ n := ne_of_mem_of_not_mem (List.mem_of_mem_tail hm) hn
    rw [prev_clear, Function.update_of_ne hmn]

/-- Linking the last node of a list to the first of another joins them. -/
theorem Linked.link (hleft : l.Linked (ns ++ [a])) (hright : l.Linked (c :: ms))
    (hnodup : (ns ++ a :: c :: ms).Nodup) : (l.link a c).Linked (ns ++ a :: c :: ms) := by
  obtain ⟨hns, hsuffix, hdisjoint⟩ := List.nodup_append.mp hnodup
  obtain ⟨hac, hcms⟩ := List.nodup_cons.mp hsuffix
  have hac' : c ≠ a := fun hca => hac (hca ▸ List.mem_cons_self ..)
  refine linked_append_cons_cons.mpr ⟨?_, ⟨?_, ?_⟩, ?_⟩
  · refine hleft.congr (fun m hm => ?_) (fun m hm => ?_)
    · rw [List.dropLast_concat] at hm
      rw [next_link, Function.update_of_ne (hdisjoint m hm a (by simp))]
    · have hmc : m ≠ c := by
        rcases List.mem_append.mp (List.mem_of_mem_tail hm) with hm | hm
        · exact hdisjoint m hm c (by simp)
        · rw [List.mem_singleton.mp hm]
          exact hac'.symm
      rw [prev_link, Function.update_of_ne hmc]
  · rw [next_link, Function.update_self]
  · rw [prev_link, Function.update_self]
  · refine hright.congr (fun m hm => ?_) (fun m hm => ?_)
    · have hma : m ≠ a := ne_of_mem_of_not_mem (List.dropLast_subset _ hm) hac
      rw [next_link, Function.update_of_ne hma]
    · have hmc : m ≠ c := ne_of_mem_of_not_mem hm (List.nodup_cons.mp hcms).1
      rw [prev_link, Function.update_of_ne hmc]

/-- The nodes between two nodes are left out by linking the two. -/
theorem Linked.bypass (h : l.Linked (ns ++ a :: ks ++ c :: ms))
    (hnodup : (ns ++ a :: ks ++ c :: ms).Nodup) : (l.link a c).Linked (ns ++ a :: c :: ms) := by
  have hleft : l.Linked ((ns ++ [a]) ++ ks) := by simpa using h.left
  refine hleft.left.link h.right ?_
  · refine hnodup.sublist ?_
    rw [List.append_assoc]
    refine (List.Sublist.refl ns).append (List.Sublist.cons_cons a ?_)
    exact List.sublist_append_right ks (c :: ms)

end Links
