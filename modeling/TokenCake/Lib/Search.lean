import Mathlib
import TokenCake.Lib.Run

/-! # Searches that label at the first visit

A search takes pending elements in any order. The successors of an element that have no label yet
get its label plus one and become pending. In a breadth-first order the labels are distances; the
rules below say for which relations they are distances in every order. -/

namespace Search

variable {α : Type*} {E : α → α → Prop} {root a b c : α} {n : ℕ}

/-! ## Distances -/

/-- There is a path of `n` edges from the root. -/
inductive Walk (E : α → α → Prop) (root : α) : ℕ → α → Prop
  | root : Walk E root 0 root
  | step {n : ℕ} {a b : α} : Walk E root n a → E a b → Walk E root (n + 1) b

/-- The length of a shortest path. -/
def Distance (E : α → α → Prop) (root : α) (a : α) (n : ℕ) : Prop :=
  IsLeast {n | Walk E root n a} n

theorem Distance.unique {m : ℕ} (h : Distance E root a m) (h' : Distance E root a n) : m = n :=
  IsLeast.unique h h'

/-- A path leads from the root to the element whose earlier elements have no edge to `c`. -/
inductive Before (E : α → α → Prop) (root c : α) : α → Prop
  | root : Before E root c root
  | step {a b : α} : Before E root c a → ¬E a c → E a b → Before E root c b

/-- All predecessors of an element that can be reached before the others are at the same
distance, one below its own. -/
def Unambiguous (E : α → α → Prop) (root : α) : Prop :=
  ∀ a c, c ≠ root → Before E root c a → E a c → ∀ n, Distance E root a n →
    Distance E root c (n + 1)

/-! ## The search -/

structure State (α : Type*) where
  label : α → Option ℕ
  pending : Set α

open Classical in
/-- The state of a search that has not taken any element. -/
noncomputable def start (root : α) : State α where
  label a := if a = root then some 0 else none
  pending := {root}

open Classical in
/-- Taking the pending element `a`. -/
noncomputable def State.expand (E : α → α → Prop) (s : State α) (a : α) : State α where
  label b := if s.label b = none ∧ E a b then (s.label a).map (· + 1) else s.label b
  pending := s.pending \ {a} ∪ {b | s.label b = none ∧ E a b}

def Step (E : α → α → Prop) (s : State α) (a : α) (s' : State α) : Prop :=
  a ∈ s.pending ∧ s' = s.expand E a

variable {s s' : State α} {as : List α}

/-- What a search knows. -/
structure Explored (E : α → α → Prop) (root : α) (s : State α) : Prop where
  root_label : s.label root = some 0
  pending_label : ∀ a ∈ s.pending, s.label a ≠ none
  closed : ∀ a b, s.label a ≠ none → a ∉ s.pending → E a b → s.label b ≠ none
  walk : ∀ a n, s.label a = some n → Walk E root n a
  before : ∀ a c, s.label a ≠ none → s.label c = none → Before E root c a

theorem explored_start : Explored E root (start root) where
  root_label := if_pos rfl
  pending_label := by
    rintro a rfl
    simp [start]
  closed := by
    intro a b ha hout
    simp only [start, ne_eq, ite_eq_right_iff, reduceCtorEq, imp_false, not_not] at ha
    exact absurd ha hout
  walk := by
    intro a n ha
    simp only [start] at ha
    split at ha
    · next h =>
        obtain rfl : 0 = n := Option.some.inj ha
        exact h ▸ .root
    · cases ha
  before := by
    intro a c ha hc
    simp only [start, ne_eq, ite_eq_right_iff, reduceCtorEq, imp_false, not_not] at ha
    exact ha ▸ .root

/-- The label after a step, for an element that had none. -/
theorem expand_label_new (hb : s.label b = none) (hab : E a b) :
    (s.expand E a).label b = (s.label a).map (· + 1) := if_pos ⟨hb, hab⟩

theorem expand_label_old (h : ¬(s.label b = none ∧ E a b)) :
    (s.expand E a).label b = s.label b := if_neg h

theorem expand_label_of_ne_none (hb : s.label b ≠ none) :
    (s.expand E a).label b = s.label b := expand_label_old fun h => hb h.1

theorem Explored.step (h : Explored E root s) (hstep : Step E s a s') : Explored E root s' := by
  obtain ⟨ha, rfl⟩ := hstep
  have halabel := h.pending_label a ha
  obtain ⟨n, hn⟩ := Option.ne_none_iff_exists'.mp halabel
  have hnew : ∀ b, (s.expand E a).label b ≠ none ↔ s.label b ≠ none ∨ E a b := by
    intro b
    by_cases hb : s.label b = none ∧ E a b
    · rw [expand_label_new hb.1 hb.2, hn]
      simp [hb.2]
    · rw [expand_label_old hb]
      tauto
  refine ⟨?_, ?_, ?_, ?_, ?_⟩
  · rw [expand_label_of_ne_none (by simp [h.root_label]), h.root_label]
  · rintro b (⟨hb, -⟩ | ⟨-, hab⟩)
    · exact (hnew b).mpr (.inl (h.pending_label b hb))
    · exact (hnew b).mpr (.inr hab)
  · intro b c hb hout hbc
    have hout : ¬(b ∈ s.pending ∧ b ≠ a) ∧ ¬(s.label b = none ∧ E a b) := by
      simpa [State.expand, not_or] using hout
    rw [hnew] at hb ⊢
    by_cases hba : b = a
    · exact .inr (hba ▸ hbc)
    · have hlabel : s.label b ≠ none := fun hnone =>
        hb.elim (· hnone) fun hab => hout.2 ⟨hnone, hab⟩
      exact .inl (h.closed b c hlabel (fun hmem => hout.1 ⟨hmem, hba⟩) hbc)
  · intro b m hb
    by_cases hfirst : s.label b = none ∧ E a b
    · rw [expand_label_new hfirst.1 hfirst.2, hn] at hb
      obtain rfl : n + 1 = m := Option.some.inj hb
      exact .step (h.walk a n hn) hfirst.2
    · rw [expand_label_old hfirst] at hb
      exact h.walk b m hb
  · intro b c hb hc
    have hc' : s.label c = none ∧ ¬E a c := by
      have hnone := not_iff_not.mpr (hnew c)
      simpa [hc, not_or] using hnone
    rcases (hnew b).mp hb with hb | hab
    · exact h.before b c hb hc'.1
    · exact .step (h.before a c halabel hc'.1) hc'.2 hab

theorem explored_of_run (run : Run (Step E) (start root) as s) : Explored E root s :=
  run.invariant (fun _ _ _ _ h hstep => h.step hstep) explored_start

/-- Labels do not change. -/
theorem label_of_run (run : Run (Step E) s as s') (ha : s.label a = some n) :
    s'.label a = some n := by
  refine run.invariant (I := fun s => s.label a = some n) ?_ ha
  rintro s b s' - hs ⟨-, rfl⟩
  rw [expand_label_of_ne_none (by simp [hs]), hs]

/-! ## Termination -/

/-- The reachable elements that have not been taken. -/
def untaken (E : α → α → Prop) (root : α) (s : State α) : Set α :=
  {a | (∃ n, Walk E root n a) ∧ (s.label a = none ∨ a ∈ s.pending)}

theorem Explored.untaken_ssubset (h : Explored E root s) (hstep : Step E s a s') :
    untaken E root s' ⊂ untaken E root s := by
  obtain ⟨ha, rfl⟩ := hstep
  have halabel := h.pending_label a ha
  obtain ⟨n, hn⟩ := Option.ne_none_iff_exists'.mp halabel
  refine ⟨?_, fun hsubset => ?_⟩
  · rintro b ⟨hwalk, hb⟩
    refine ⟨hwalk, ?_⟩
    rcases hb with hb | ⟨hb, -⟩ | ⟨hb, -⟩
    · by_contra hold
      rw [expand_label_of_ne_none fun hnone => hold (.inl hnone)] at hb
      exact hold (.inl hb)
    · exact .inr hb
    · exact .inl hb
  · obtain ⟨-, hlabel | hpending⟩ := hsubset ⟨⟨n, h.walk a n hn⟩, .inr ha⟩
    · rw [expand_label_of_ne_none halabel] at hlabel
      exact halabel hlabel
    · rcases hpending with ⟨-, hne⟩ | ⟨hnone, -⟩
      · exact hne rfl
      · exact halabel hnone

/-- Every step takes another reachable element. -/
theorem Explored.run_length_le (h : Explored E root s) (hfinite : {a | ∃ n, Walk E root n a}.Finite)
    (run : Run (Step E) s as s') :
    as.length + (untaken E root s').ncard ≤ (untaken E root s).ncard := by
  induction run with
  | nil => simp
  | cons hstep _ ih =>
      have hlt := Set.ncard_lt_ncard (h.untaken_ssubset hstep)
        (hfinite.subset fun a ha => ha.1)
      have hrest := ih (h.step hstep)
      rw [List.length_cons]
      omega

theorem Explored.exists_finish (h : Explored E root s)
    (hfinite : {a | ∃ n, Walk E root n a}.Finite) :
    ∃ as s', Run (Step E) s as s' ∧ s'.pending = ∅ := by
  induction hcard : (untaken E root s).ncard using Nat.strong_induction_on generalizing s with
  | _ m ih =>
      by_cases hpending : s.pending = ∅
      · exact ⟨[], s, .nil s, hpending⟩
      · obtain ⟨a, ha⟩ := Set.nonempty_iff_ne_empty.mpr hpending
        have hstep : Step E s a (s.expand E a) := ⟨ha, rfl⟩
        have hlt := Set.ncard_lt_ncard (h.untaken_ssubset hstep) (hfinite.subset fun a ha => ha.1)
        obtain ⟨as, s', run, hs'⟩ := ih _ (hcard ▸ hlt) (h.step hstep) rfl
        exact ⟨a :: as, s', .cons hstep run, hs'⟩

/-- A search that has taken everything has labelled what can be reached. -/
theorem Explored.label_of_walk (h : Explored E root s) (hdone : s.pending = ∅)
    (hwalk : Walk E root n a) : s.label a ≠ none := by
  induction hwalk with
  | root => simp [h.root_label]
  | step _ hedge ih => exact h.closed _ _ ih (by simp [hdone]) hedge

/-! ## Labels and distances -/

theorem distance_root : Distance E root root 0 := ⟨.root, fun _ _ => Nat.zero_le _⟩

theorem label_distance (h : Unambiguous E root) (run : Run (Step E) (start root) as s)
    (ha : s.label a = some n) : Distance E root a n := by
  have hinv : Explored E root s ∧ ∀ a n, s.label a = some n → Distance E root a n := by
    refine run.invariant (I := fun s => Explored E root s ∧
      ∀ a n, s.label a = some n → Distance E root a n) ?_ ⟨explored_start, ?_⟩
    · rintro s b s' - ⟨hs, hlabels⟩ hstep
      refine ⟨hs.step hstep, fun c m hc => ?_⟩
      obtain ⟨hb, rfl⟩ := hstep
      by_cases hnew : s.label c = none ∧ E b c
      · obtain ⟨k, hk⟩ := Option.ne_none_iff_exists'.mp (hs.pending_label b hb)
        rw [expand_label_new hnew.1 hnew.2, hk] at hc
        obtain rfl : k + 1 = m := Option.some.inj hc
        have hroot : c ≠ root := by
          rintro rfl
          simp [hs.root_label] at hnew
        exact h b c hroot (hs.before b c (by simp [hk]) hnew.1) hnew.2 k (hlabels b k hk)
      · rw [expand_label_old hnew] at hc
        exact hlabels c m hc
    · intro b m hb
      simp only [start] at hb
      split at hb
      · next hroot =>
          obtain rfl : 0 = m := Option.some.inj hb
          exact hroot ▸ distance_root
      · cases hb
  exact hinv.2 a n ha

/-- What can be reached before the predecessors of an element can be labelled before it. -/
theorem exists_run_before (hc : c ≠ root) (h : Before E root c a) :
    ∃ as s, Run (Step E) (start root) as s ∧ s.label c = none ∧ s.label a ≠ none := by
  induction h with
  | root => exact ⟨[], start root, .nil _, if_neg hc, by simp [start]⟩
  | @step a b _ hac hab ih =>
      obtain ⟨as, s, run, hcnone, halabel⟩ := ih
      by_cases ha : a ∈ s.pending
      · refine ⟨as ++ [a], s.expand E a, run.snoc ⟨ha, rfl⟩, ?_, ?_⟩
        · rw [expand_label_old fun hnew => hac hnew.2, hcnone]
        · by_cases hb : s.label b = none
          · obtain ⟨n, hn⟩ := Option.ne_none_iff_exists'.mp halabel
            simp [expand_label_new hb hab, hn]
          · rwa [expand_label_of_ne_none hb]
      · exact ⟨as, s, run, hcnone, (explored_of_run run).closed a b halabel ha hab⟩

/-- In every order the labels are distances just when no predecessor that can come first is at a
wrong distance. -/
theorem labels_distance_iff (hfinite : {a | ∃ n, Walk E root n a}.Finite) :
    (∀ as s, Run (Step E) (start root) as s → s.pending = ∅ →
      ∀ a n, s.label a = some n → Distance E root a n) ↔ Unambiguous E root := by
  constructor
  · intro h a c hc hbefore hac n hn
    obtain ⟨as, s, run, hcnone, halabel⟩ := exists_run_before hc hbefore
    obtain ⟨m, hm⟩ := Option.ne_none_iff_exists'.mp halabel
    have hs := explored_of_run run
    have ha : a ∈ s.pending := by
      by_contra hout
      exact hs.closed a c halabel hout hac hcnone
    have hstep : Step E s a (s.expand E a) := ⟨ha, rfl⟩
    obtain ⟨bs, s', rest, hdone⟩ := (hs.step hstep).exists_finish hfinite
    have hclabel : (s.expand E a).label c = some (m + 1) := by
      rw [expand_label_new hcnone hac, hm]
      rfl
    have hall := (run.snoc hstep).append rest
    have haDistance := h _ s' hall hdone a m (label_of_run (.cons hstep rest) hm)
    have hcDistance := h _ s' hall hdone c (m + 1) (label_of_run rest hclabel)
    rwa [haDistance.unique hn] at hcDistance
  · intro h as s run _ a n ha
    exact label_distance h run ha

end Search
