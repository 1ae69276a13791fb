import Mathlib.Order.Interval.Finset.Nat
import TokenCake.Lib.Intervals
import TokenCake.Lib.Run
import TokenCake.Model.Execution

/-! # Recomputation accounting

The ranges of a request are a normal form of the positions that it has executed, and the two
counters differ by the number of these positions. -/

namespace TokenCake.Execution

open Intervals

/-! ## The merge loop -/

section Merge

variable {merged rest ranges : List (ℕ × ℕ)} {start stop : ℕ}

theorem mergeRange_concat (front : List (ℕ × ℕ)) (last range : ℕ × ℕ) :
    mergeRange (front ++ [last]) range =
      if range.1 ≤ last.2 then front ++ [(last.1, max last.2 range.2)]
      else front ++ [last] ++ [range] := by
  simp [mergeRange]

/-- A range that does not start before the last one is merged into it or follows it. -/
theorem mergeRange_covered {front : List (ℕ × ℕ)} {last range : ℕ × ℕ}
    (h : Separated (front ++ [last])) (hrange : range.1 < range.2) (hle : last.1 ≤ range.1) :
    Separated (mergeRange (front ++ [last]) range) ∧
      covered (mergeRange (front ++ [last]) range) =
        covered (front ++ [last]) ∪ Finset.Ico range.1 range.2 ∧
      ∃ front' last', mergeRange (front ++ [last]) range = front' ++ [last'] ∧
        last'.1 ≤ range.1 := by
  rw [mergeRange_concat]
  have hlast := h.nonempty last (by simp)
  by_cases htouch : range.1 ≤ last.2
  · rw [if_pos htouch]
    refine ⟨h.extend (Nat.le_max_left ..), ?_, front, _, rfl, hle⟩
    rw [covered_append, covered_append, Finset.union_assoc]
    congr 1
    ext p
    simp only [mem_covered, List.mem_singleton, exists_eq_left, Finset.mem_union, Finset.mem_Ico]
    omega
  · rw [if_neg htouch]
    refine ⟨h.snoc (by omega) hrange, ?_, front ++ [last], range, rfl, le_rfl⟩
    rw [covered_append]
    congr 1
    ext p
    simp

theorem mergeLoop_covered (hmerged : Separated merged) (hrest : ∀ r ∈ rest, r.1 < r.2)
    (hsorted : rest.Pairwise fun r r' => r.1 ≤ r'.1)
    (hlast : ∀ front last, merged = front ++ [last] → ∀ r ∈ rest, last.1 ≤ r.1) :
    Separated (rest.foldl mergeRange merged) ∧
      covered (rest.foldl mergeRange merged) = covered merged ∪ covered rest := by
  induction rest generalizing merged with
  | nil => exact ⟨hmerged, by simp⟩
  | cons r rest ih =>
      obtain ⟨hr, hrest⟩ := List.forall_mem_cons.mp hrest
      obtain ⟨hbefore, hsorted⟩ := List.pairwise_cons.mp hsorted
      -- The last merged range does not start behind `r`.
      obtain ⟨hseparated, hcovered, front', last', heq, hle⟩ :
          Separated (mergeRange merged r) ∧
            covered (mergeRange merged r) = covered merged ∪ Finset.Ico r.1 r.2 ∧
            ∃ front' last', mergeRange merged r = front' ++ [last'] ∧ last'.1 ≤ r.1 := by
        rcases List.eq_nil_or_concat' merged with rfl | ⟨front, last, rfl⟩
        · exact ⟨.singleton hr, by ext p; simp [mergeRange], [], r, rfl, le_rfl⟩
        · exact mergeRange_covered hmerged hr (hlast front last rfl r List.mem_cons_self)
      have hnext : ∀ front last, mergeRange merged r = front ++ [last] →
          ∀ r' ∈ rest, last.1 ≤ r'.1 := by
        intro front last h r' hr'
        obtain ⟨-, hsame⟩ := List.append_inj' (heq.symm.trans h) rfl
        obtain rfl := List.singleton_inj.mp hsame
        exact hle.trans (hbefore r' hr')
      obtain ⟨hseparated', hcovered'⟩ := ih hseparated hrest hsorted hnext
      refine ⟨hseparated', ?_⟩
      rw [List.foldl_cons, hcovered', hcovered, covered_cons, Finset.union_assoc]

/-- The merged ranges are separated and cover the same positions. -/
theorem mergeRanges_covered (h : ∀ r ∈ ranges, r.1 < r.2) :
    Separated (mergeRanges ranges) ∧ covered (mergeRanges ranges) = covered ranges := by
  have hperm := List.perm_insertionSort (Order.Preimage toLex (· ≤ ·)) ranges
  have hsorted : (ranges.insertionSort (Order.Preimage toLex (· ≤ ·))).Pairwise
      fun r r' => r.1 ≤ r'.1 := by
    refine (List.pairwise_insertionSort (Order.Preimage toLex (· ≤ ·)) ranges).imp fun {r r'} hle => ?_
    rcases Prod.Lex.toLex_le_toLex.mp hle with hlt | ⟨heq, -⟩
    · exact hlt.le
    · exact heq.le
  obtain ⟨hseparated, hcovered⟩ := mergeLoop_covered .nil
    (fun r hr => h r (hperm.mem_iff.mp hr)) hsorted fun front last hnil => by simp at hnil
  refine ⟨hseparated, hcovered.trans ?_⟩
  rw [covered_nil, Finset.empty_union]
  exact covered_perm hperm

theorem repeatedTokens_eq (h : Separated ranges) (start stop : ℕ) :
    repeatedTokens ranges start stop = (covered ranges ∩ Finset.Ico start stop).card := by
  rw [← h.sum_overlap]
  simp only [repeatedTokens, Nat.card_Ico]

/-- A new range adds the positions that are not repeated. -/
theorem mergeRanges_append (h : Separated ranges) (hlt : start < stop) :
    Separated (mergeRanges (ranges ++ [(start, stop)])) ∧
      covered (mergeRanges (ranges ++ [(start, stop)])) = covered ranges ∪ Finset.Ico start stop ∧
      (covered (mergeRanges (ranges ++ [(start, stop)]))).card + repeatedTokens ranges start stop =
        (covered ranges).card + (stop - start) := by
  have hall : ∀ r ∈ ranges ++ [(start, stop)], r.1 < r.2 := by
    intro r hr
    rcases List.mem_append.mp hr with hr | hr
    · exact h.nonempty r hr
    · obtain rfl := List.mem_singleton.mp hr
      exact hlt
  obtain ⟨hseparated, hcovered⟩ := mergeRanges_covered hall
  have hunion : covered (ranges ++ [(start, stop)]) = covered ranges ∪ Finset.Ico start stop := by
    rw [covered_append]
    congr 1
    ext p
    simp
  refine ⟨hseparated, hcovered.trans hunion, ?_⟩
  rw [hcovered, hunion, repeatedTokens_eq h, Finset.card_union_add_card_inter, Nat.card_Ico]

end Merge

/-! ## One request in a call -/

section Call

open ExecutionState

variable {s t : ExecutionState} {id : String} {start count : ℕ}

/-- Tokens of the request are executed from `start` on. -/
structure Extends (id : String) (start count : ℕ) (s t : ExecutionState) : Prop where
  metadata_eq : t.metadata = s.metadata
  ranges_eq : t.ranges id = mergeRanges (s.ranges id ++ [(start, start + count)])
  executed_eq : t.total id .executedTokens = s.total id .executedTokens + count
  recomputed_eq : t.total id .recomputedTokens = s.total id .recomputedTokens +
    repeatedTokens (s.ranges id) start (start + count)

/-- Nothing is recorded for the request. -/
structure Leaves (id : String) (s t : ExecutionState) : Prop where
  ranges_eq : t.ranges id = s.ranges id
  total_eq : ∀ metric, t.total id metric = s.total id metric

theorem Leaves.refl (id : String) (s : ExecutionState) : Leaves id s s := ⟨rfl, fun _ => rfl⟩

theorem Leaves.trans {u : ExecutionState} (h : Leaves id s t) (h' : Leaves id t u) :
    Leaves id s u :=
  ⟨h'.ranges_eq.trans h.ranges_eq, fun metric => (h'.total_eq metric).trans (h.total_eq metric)⟩

theorem ranges_executedRequest (s : ExecutionState) (requestId : String) (start count : ℕ) :
    (s.executedRequest requestId start count).ranges id =
      if id = requestId then mergeRanges (s.ranges requestId ++ [(start, start + count)])
      else s.ranges id := by
  unfold executedRequest ranges
  dsimp only
  rw [OrdDict.get?_insert]
  split <;> rfl

theorem executedRequest_extends (s : ExecutionState) (id : String) (start count : ℕ) :
    Extends id start count s (s.executedRequest id start count) where
  metadata_eq := rfl
  ranges_eq := by rw [ranges_executedRequest, if_pos rfl]
  executed_eq := by simp [total, executedRequest]
  recomputed_eq := by simp [total, executedRequest]

theorem executedRequest_leaves {requestId : String} (h : requestId ≠ id) (start count : ℕ) :
    Leaves id s (s.executedRequest requestId start count) where
  ranges_eq := by rw [ranges_executedRequest, if_neg h.symm]
  total_eq metric := by simp [total, executedRequest, h]

end Call

/-! ## The loop over the requests of a step -/

section Loop

open ExecutionState

variable {s t : ExecutionState} {id : String} {output : SchedulerOutput}
  {result : ModelRunnerOutput} {failedLoads : List String}

/-- The body of the loop. -/
def loopBody (output : SchedulerOutput) (result : ModelRunnerOutput) (failedLoads : List String)
    (s : ExecutionState) (e : String × ℕ) : Option ExecutionState :=
  if s.Observes result failedLoads e.1 then
    (output.starts.get? e.1).map fun start => s.executedRequest e.1 start e.2
  else some s

theorem metadata_loopBody {e : String × ℕ} (h : loopBody output result failedLoads s e = some t) :
    t.metadata = s.metadata := by
  unfold loopBody at h
  split at h
  · obtain ⟨start, -, rfl⟩ := Option.map_eq_some_iff.mp h
    rfl
  · obtain rfl := Option.some.inj h
    rfl

theorem loopBody_leaves {e : String × ℕ} (h : loopBody output result failedLoads s e = some t)
    (hother : e.1 ≠ id ∨ ¬s.Observes result failedLoads e.1) : Leaves id s t := by
  unfold loopBody at h
  split at h
  · next hobserves =>
      obtain ⟨start, -, rfl⟩ := Option.map_eq_some_iff.mp h
      exact executedRequest_leaves (hother.resolve_right (not_not.mpr hobserves)) start e.2
  · obtain rfl := Option.some.inj h
    exact .refl id s

theorem loop_leaves {entries : List (String × ℕ)}
    (h : entries.foldlM (loopBody output result failedLoads) s = some t)
    (hother : ∀ e ∈ entries, e.1 ≠ id) : Leaves id s t ∧ t.metadata = s.metadata := by
  have hrun : Run (fun s e t => loopBody output result failedLoads s e = some t) s entries t :=
    .of_foldlM (fun _ _ _ h => h) h
  refine hrun.invariant (I := fun u => Leaves id s u ∧ u.metadata = s.metadata)
    (fun u e u' he hu hstep => ?_) ⟨.refl id s, rfl⟩
  exact ⟨hu.1.trans (loopBody_leaves hstep (.inl (hother e he))),
    (metadata_loopBody hstep).trans hu.2⟩

theorem Extends.between {s' t' : ExecutionState} {start count : ℕ}
    (h : Extends id start count s' t') (hbefore : Leaves id s s') (hafter : Leaves id t' t)
    (hmetadata : t.metadata = s.metadata) : Extends id start count s t where
  metadata_eq := hmetadata
  ranges_eq := by rw [hafter.ranges_eq, h.ranges_eq, hbefore.ranges_eq]
  executed_eq := by rw [hafter.total_eq, h.executed_eq, hbefore.total_eq]
  recomputed_eq := by
    rw [hafter.total_eq, h.recomputed_eq, hbefore.total_eq, hbefore.ranges_eq]

/-- A call executes the scheduled tokens of a live request, or leaves the request alone. -/
theorem executed_cases (hlive : id ∈ s.metadata)
    (h : s.executed output result failedLoads = some t) :
    (∃ start count, (id, count) ∈ output.numScheduledTokens.entries ∧
      (ExecutionAction.executed output result failedLoads).Executes id start (start + count) ∧
      Extends id start count s t) ∨
    (∀ start stop, ¬(ExecutionAction.executed output result failedLoads).Executes id start stop) ∧
      Leaves id s t ∧ t.metadata = s.metadata := by
  change output.numScheduledTokens.entries.foldlM (loopBody output result failedLoads) s = some t
    at h
  cases hcount : output.numScheduledTokens.get? id with
  | none =>
      refine .inr ⟨?_, loop_leaves h fun e he hid => ?_⟩
      · rintro start stop ⟨-, -, -, count, hsome, -⟩
        rw [hcount] at hsome
        cases hsome
      · refine OrdDict.get?_eq_none_iff.mp hcount (hid ▸ ?_)
        exact List.mem_map_of_mem he
  | some count =>
      have hmem := OrdDict.get?_eq_some_iff.mp hcount
      obtain ⟨before, after, hentries⟩ := List.append_of_mem hmem
      -- No other entry is for the request.
      have hnodup := output.numScheduledTokens.nodupKeys
      rw [hentries, List.map_append, List.map_cons, List.nodup_append, List.nodup_cons] at hnodup
      have hbefore : ∀ e ∈ before, e.1 ≠ id := fun e he =>
        hnodup.2.2 e.1 (List.mem_map_of_mem he) id List.mem_cons_self
      have hafter : ∀ e ∈ after, e.1 ≠ id := fun e he hid =>
        hnodup.2.1.1 (List.mem_map.mpr ⟨e, he, hid⟩)
      rw [hentries, List.foldlM_append] at h
      obtain ⟨s', hfirst, h⟩ := Option.bind_eq_some_iff.mp h
      rw [List.foldlM_cons] at h
      obtain ⟨t', hbody, hlast⟩ := Option.bind_eq_some_iff.mp h
      obtain ⟨hleaves, hmetadata⟩ := loop_leaves hfirst hbefore
      obtain ⟨hleaves', hmetadata'⟩ := loop_leaves hlast hafter
      have hsame : t.metadata = s.metadata :=
        (hmetadata'.trans (metadata_loopBody hbody)).trans hmetadata
      by_cases hobserves : s'.Observes result failedLoads id
      · rw [loopBody, if_pos hobserves] at hbody
        obtain ⟨start, hstart, rfl⟩ := Option.map_eq_some_iff.mp hbody
        refine .inl ⟨start, count, hmem, ?_, ?_⟩
        · exact ⟨hobserves.2.1, hobserves.2.2, hstart, count, hcount, rfl⟩
        · exact (executedRequest_extends s' id start count).between hleaves hleaves' hsame
      · refine .inr ⟨?_, ?_, hsame⟩
        · rintro start stop ⟨hfailed, hresult, -⟩
          exact hobserves ⟨hmetadata ▸ hlive, hfailed, hresult⟩
        · exact (hleaves.trans (loopBody_leaves hbody (.inr hobserves))).trans hleaves'

end Loop

/-! ## Runs -/

section Runs

open ExecutionState

variable {s₀ s t : ExecutionState} {id : String} {actions : List ExecutionAction}

/-- The positions of the request that the calls execute. -/
def ExecutedBy (id : String) (actions : List ExecutionAction) (p : ℕ) : Prop :=
  ∃ action ∈ actions, ∃ start stop, action.Executes id start stop ∧ start ≤ p ∧ p < stop

/-- The ranges of a live request cover what it has executed, and the totals differ by their
size. -/
structure Accounted (s₀ : ExecutionState) (id : String) (s : ExecutionState) : Prop where
  live : id ∈ s.metadata
  separated : Separated (s.ranges id)
  totals : s.total id .executedTokens + s₀.total id .recomputedTokens =
    s.total id .recomputedTokens + s₀.total id .executedTokens + (covered (s.ranges id)).card

theorem Accounted.leaves (h : Accounted s₀ id s) (hleaves : Leaves id s t) (hlive : id ∈ t.metadata) :
    Accounted s₀ id t where
  live := hlive
  separated := hleaves.ranges_eq ▸ h.separated
  totals := by
    rw [hleaves.total_eq, hleaves.total_eq, hleaves.ranges_eq]
    exact h.totals

/-- What one call does to the positions of a live request. -/
theorem Accounted.perform (h : Accounted s₀ id s) {action : ExecutionAction}
    (hpositive : action.Positive) (hfinish : action ≠ .finish id)
    (hstep : action.perform s = some t) :
    Accounted s₀ id t ∧ ∀ p, p ∈ covered (t.ranges id) ↔
      p ∈ covered (s.ranges id) ∨ ExecutedBy id [action] p := by
  have hnone : (∀ start stop, ¬action.Executes id start stop) → ∀ p, ¬ExecutedBy id [action] p := by
    rintro hno p ⟨a, ha, start, stop, hexecutes, -⟩
    obtain rfl := List.mem_singleton.mp ha
    exact hno start stop hexecutes
  have hkeep : Leaves id s t → (∀ start stop, ¬action.Executes id start stop) → ∀ p,
      p ∈ covered (t.ranges id) ↔ p ∈ covered (s.ranges id) ∨ ExecutedBy id [action] p := by
    intro hleaves hno p
    rw [hleaves.ranges_eq, or_iff_left (hnone hno p)]
  cases action with
  | associate requestId =>
      obtain rfl := Option.some.inj hstep
      have hleaves : Leaves id s (s.associate requestId) := ⟨rfl, fun _ => rfl⟩
      exact ⟨h.leaves hleaves (List.mem_insert_of_mem h.live), hkeep hleaves fun _ _ hno => hno⟩
  | finish requestId =>
      obtain rfl := Option.some.inj hstep
      have hne : id ≠ requestId := fun heq => hfinish (heq ▸ rfl)
      have hleaves : Leaves id s (s.finish requestId) :=
        ⟨by simp [ranges, finish, OrdDict.get?_erase, hne], fun _ => rfl⟩
      refine ⟨h.leaves hleaves ?_, hkeep hleaves fun _ _ hno => hno⟩
      exact List.mem_filter.mpr ⟨h.live, by simpa using hne⟩
  | executed output result failedLoads =>
      rcases executed_cases h.live hstep with
        ⟨start, count, hmem, hexecutes, hextends⟩ | ⟨hno, hleaves, hmetadata⟩
      · have hcount : 0 < count := hpositive _ hmem
        obtain ⟨hseparated, hcovered, hcard⟩ :=
          mergeRanges_append h.separated (Nat.lt_add_of_pos_right hcount : start < start + count)
        rw [← hextends.ranges_eq] at hseparated hcovered hcard
        have htotals := h.totals
        have hexecuted := hextends.executed_eq
        have hrecomputed := hextends.recomputed_eq
        refine ⟨⟨hextends.metadata_eq ▸ h.live, hseparated, by omega⟩, fun p => ?_⟩
        rw [hcovered, Finset.mem_union, Finset.mem_Ico]
        refine or_congr_right ⟨fun hp => ?_, ?_⟩
        · exact ⟨_, List.mem_singleton_self _, start, start + count, hexecutes, hp⟩
        · rintro ⟨action, haction, start', stop', hexecutes', hp⟩
          -- The call executes the tokens of the request from one position only.
          obtain rfl := List.mem_singleton.mp haction
          obtain ⟨-, -, hstart, n, hn, hstop⟩ := hexecutes
          obtain ⟨-, -, hstart', n', hn', hstop'⟩ := hexecutes'
          obtain rfl := Option.some.inj (hstart.symm.trans hstart')
          obtain rfl := Option.some.inj (hn.symm.trans hn')
          exact hstop'.trans hstop.symm ▸ hp
      · exact ⟨h.leaves hleaves (hmetadata ▸ h.live), hkeep hleaves hno⟩

theorem executedBy_cons {action : ExecutionAction} {p : ℕ} :
    ExecutedBy id (action :: actions) p ↔ ExecutedBy id [action] p ∨ ExecutedBy id actions p := by
  simp [ExecutedBy]

theorem Accounted.run (h : Accounted s₀ id s)
    (hrun : Run (fun s action t => action.perform s = some t) s actions t)
    (hpositive : ∀ action ∈ actions, action.Positive)
    (hfinish : ExecutionAction.finish id ∉ actions) :
    Accounted s₀ id t ∧ ∀ p, p ∈ covered (t.ranges id) ↔
      p ∈ covered (s.ranges id) ∨ ExecutedBy id actions p := by
  induction hrun with
  | nil s => exact ⟨h, fun p => by simp [ExecutedBy]⟩
  | cons hstep _ ih =>
      obtain ⟨hfirst, hpositive⟩ := List.forall_mem_cons.mp hpositive
      obtain ⟨hne, hfinish⟩ := not_or.mp (mt List.mem_cons.mpr hfinish)
      obtain ⟨hnext, hpositions⟩ := h.perform hfirst (Ne.symm hne) hstep
      obtain ⟨hlast, hrest⟩ := ih hnext hpositive hfinish
      refine ⟨hlast, fun p => ?_⟩
      rw [hrest, hpositions, or_assoc]
      exact or_congr_right executedBy_cons.symm

/-- For a live request whose ranges were empty, the ranges are a normal form of the positions
that the calls of any run have executed, and what the run has added to the two metrics differs
by the number of these positions. -/
theorem executed_exact (hlive : id ∈ s₀.metadata) (hfresh : s₀.ranges id = [])
    (hrun : Run (fun s action t => action.perform s = some t) s₀ actions s)
    (hpositive : ∀ action ∈ actions, action.Positive)
    (hfinish : ExecutionAction.finish id ∉ actions) :
    Separated (s.ranges id) ∧
      (∀ p, p ∈ covered (s.ranges id) ↔ ExecutedBy id actions p) ∧
      s.total id .executedTokens + s₀.total id .recomputedTokens =
        s.total id .recomputedTokens + s₀.total id .executedTokens +
          (covered (s.ranges id)).card := by
  have hstart : Accounted s₀ id s₀ := by
    refine ⟨hlive, hfresh ▸ .nil, ?_⟩
    rw [hfresh, covered_nil, Finset.card_empty, Nat.add_zero, Nat.add_comm]
  obtain ⟨haccounted, hpositions⟩ := hstart.run hrun hpositive hfinish
  refine ⟨haccounted.separated, fun p => ?_, haccounted.totals⟩
  rw [hpositions, hfresh, covered_nil]
  simp

/-! ### A run with a preemption -/

/-- A step that schedules tokens of one request. -/
def stepFor (start count : ℕ) : ExecutionAction :=
  .executed { cachedReqIds := ["r"], cachedNumComputedTokens := [start],
              numScheduledTokens := .ofList [("r", count)] } ⟨.ofList [("r", 0)]⟩ []

/-- Eight tokens, four of which are executed again after a preemption, and a later range. -/
theorem preempted_run : ∃ s : ExecutionState, s.ranges "r" = [(0, 8), (9, 11)] ∧
    s.total "r" .executedTokens = 14 ∧ s.total "r" .recomputedTokens = 4 ∧
    Separated (s.ranges "r") ∧ s.total "r" .executedTokens =
      s.total "r" .recomputedTokens + (covered (s.ranges "r")).card := by
  have hrun : ([stepFor 0 8, stepFor 0 4, stepFor 9 2].foldlM ExecutionAction.perform
      { metadata := ["r"] }).any (fun s => decide (s.ranges "r" = [(0, 8), (9, 11)] ∧
        s.total "r" .executedTokens = 14 ∧ s.total "r" .recomputedTokens = 4)) = true := by
    decide +kernel
  obtain ⟨s, hs, hfacts⟩ := (Option.any_eq_true ..).mp hrun
  obtain ⟨hranges, hexecuted, hrecomputed⟩ := of_decide_eq_true hfacts
  have hpositive : ∀ action ∈ [stepFor 0 8, stepFor 0 4, stepFor 9 2], action.Positive := by
    simp [stepFor, ExecutionAction.Positive, OrdDict.ofList, OrdDict.insert, OrdDict.append,
      OrdDict.empty, OrdDict.keys]
  have hfinish : ExecutionAction.finish "r" ∉ [stepFor 0 8, stepFor 0 4, stepFor 9 2] := by
    simp [stepFor]
  obtain ⟨hseparated, -, htotals⟩ := executed_exact (List.mem_singleton_self "r") rfl
    (.of_foldlM (fun _ _ _ h => h) hs) hpositive hfinish
  exact ⟨s, hranges, hexecuted, hrecomputed, hseparated, htotals⟩

end Runs

end TokenCake.Execution
