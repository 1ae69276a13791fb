import Mathlib.Tactic.Positivity
import Mathlib.Tactic.Linarith
import Mathlib.Tactic.GCongr
import TokenCake.Model.Preservation

/-! # The planner agrees with the benefit

The limit of a batch is found on a growing prefix of the candidates, and the batch that is cut
with it is again a prefix. Every quantity that the benefit tests grows with the prefix, so the
batch passes the tests that its limit has passed. -/

namespace TokenCake.Offload

open SchedulerOffloadConfig

variable {κ : Type}

/-! ## Estimates -/

/-- No transfer takes or saves negative time. -/
structure TransferModel.NonNegative (t : TransferModel) : Prop where
  bandwidth : ∀ direction, 0 ≤ t.bandwidth direction
  observed : ∀ direction, ∀ b ∈ t.observed direction, 0 ≤ b
  baseTime : ∀ direction, 0 ≤ t.baseTime direction
  submission : 0 ≤ t.submissionTimePerRun

variable {t : TransferModel}

theorem TransferModel.NonNegative.estimateTransfer_mono (ht : t.NonNegative)
    (direction : Direction) {m n : ℕ} (h : m ≤ n) :
    t.estimateTransfer m direction ≤ t.estimateTransfer n direction := by
  have hspeed : 0 ≤ (t.observed direction).getD (t.bandwidth direction) := by
    cases hobserved : t.observed direction with
    | none => exact ht.bandwidth direction
    | some b => exact ht.observed direction b hobserved
  have hcast : (m : ℚ) ≤ n := by exact_mod_cast h
  have hsubmission := ht.submission
  unfold TransferModel.estimateTransfer
  gcongr

theorem TransferModel.NonNegative.roundTrip_mono (ht : t.NonNegative) {m n m' n' : ℕ}
    (hm : m ≤ m') (hn : n ≤ n') : t.roundTrip m n ≤ t.roundTrip m' n' :=
  add_le_add (ht.estimateTransfer_mono .d2h hm) (ht.estimateTransfer_mono .h2d hn)

/-! ## The limit -/

/-- The first `n` candidates fit into the CPU cache, and transferring them leaves a margin. -/
structure PrefixFits (t : TransferModel) (onCpu : κ → Bool) (available : ℕ) (remaining : ℚ)
    (candidates : List (SnapshotBlock κ)) (n : ℕ) : Prop where
  room : newCount onCpu (candidates.take n) ≤ available
  margin : max (1 / 20) (2 * t.roundTrip (newCount onCpu (candidates.take n)) n) ≤
    remaining - t.roundTrip (newCount onCpu (candidates.take n)) n

variable {onCpu : κ → Bool} {available : ℕ} {remaining : ℚ} {candidates : List (SnapshotBlock κ)}

theorem newCount_append (pre : List (SnapshotBlock κ)) (c : SnapshotBlock κ) :
    newCount onCpu (pre ++ [c]) =
      if onCpu c.key then newCount onCpu pre else newCount onCpu pre + 1 := by
  rw [newCount, List.countP_append, List.countP_singleton]
  cases hkey : onCpu c.key <;> simp [newCount]

theorem newCount_take_le {m n : ℕ} (h : m ≤ n) :
    newCount onCpu (candidates.take m) ≤ newCount onCpu (candidates.take n) :=
  (List.take_sublist_take_left h).countP_le

/-- The gates only get easier for a shorter prefix. -/
theorem PrefixFits.shorten (ht : t.NonNegative) {m n : ℕ} (h : m ≤ n)
    (hfits : PrefixFits t onCpu available remaining candidates n) :
    PrefixFits t onCpu available remaining candidates m := by
  have hcount : newCount onCpu (candidates.take m) ≤ newCount onCpu (candidates.take n) :=
    newCount_take_le h
  have htrip := ht.roundTrip_mono hcount h
  have hmargin := hfits.margin
  refine ⟨hcount.trans hfits.room, ?_⟩
  rw [max_le_iff] at hmargin ⊢
  constructor <;> linarith

/-- The loop returns the limit it has, or that of a longer prefix that fits. -/
theorem limitLoop_spec (factor : ℕ) : ∀ (rest pre : List (SnapshotBlock κ)) (limit : ℕ),
    limitLoop t factor onCpu available remaining pre.length (newCount onCpu pre) limit rest =
        limit ∨
      ∃ n, PrefixFits t onCpu available remaining (pre ++ rest) n ∧
        limitLoop t factor onCpu available remaining pre.length (newCount onCpu pre) limit rest =
          n * factor := by
  intro rest
  induction rest with
  | nil => exact fun pre limit => .inl rfl
  | cons c rest ih =>
      intro pre limit
      have happend : pre ++ c :: rest = (pre ++ [c]) ++ rest := by simp
      have htake : (pre ++ c :: rest).take (pre.length + 1) = pre ++ [c] := by
        rw [happend]
        exact List.take_left' (by simp)
      rw [limitLoop, ← newCount_append]
      by_cases hstop : available < newCount onCpu (pre ++ [c]) ∨
          remaining - t.roundTrip (newCount onCpu (pre ++ [c])) (pre.length + 1) <
            max (1 / 20) (2 * t.roundTrip (newCount onCpu (pre ++ [c])) (pre.length + 1))
      · rw [if_pos hstop]
        exact .inl rfl
      · rw [if_neg hstop]
        obtain ⟨hroom, hmargin⟩ := not_or.mp hstop
        have hfits : PrefixFits t onCpu available remaining (pre ++ c :: rest)
            (pre.length + 1) := by
          constructor
          · rw [htake]
            exact not_lt.mp hroom
          · rw [htake]
            exact not_lt.mp hmargin
        have hnext := ih (pre ++ [c]) ((pre.length + 1) * factor)
        rw [List.length_append, List.length_singleton, ← happend] at hnext
        cases hnext with
        | inl heq => exact .inr ⟨pre.length + 1, hfits, heq⟩
        | inr hlonger => exact .inr hlonger

theorem preservationLimit_spec (factor : ℕ) (candidates : List (SnapshotBlock κ)) :
    preservationLimit t factor onCpu candidates available remaining = 0 ∨
      ∃ n, PrefixFits t onCpu available remaining candidates n ∧
        preservationLimit t factor onCpu candidates available remaining = n * factor :=
  limitLoop_spec factor candidates [] 0

/-! ## The batch -/

/-- What ends by a token is a prefix of the candidates in their order. -/
theorem filter_endOf_eq_take {config : SchedulerOffloadConfig}
    (hsorted : candidates.Pairwise fun a b => config.candidateLe a b = true) (stop : ℕ) :
    ∃ k ≤ candidates.length,
      candidates.filter (fun c => decide (config.endOf c ≤ stop)) = candidates.take k := by
  induction candidates with
  | nil => exact ⟨0, le_rfl, rfl⟩
  | cons c rest ih =>
      obtain ⟨hfirst, hrest⟩ := List.pairwise_cons.mp hsorted
      by_cases hc : config.endOf c ≤ stop
      · obtain ⟨k, hk, heq⟩ := ih hrest
        refine ⟨k + 1, Nat.succ_le_succ hk, ?_⟩
        rw [List.filter_cons_of_pos (by simpa using hc), heq, List.take_succ_cons]
      · refine ⟨0, Nat.zero_le _, ?_⟩
        rw [List.take_zero, List.filter_eq_nil_iff]
        intro x hx
        have hle : config.endOf c ≤ config.endOf x := by
          cases List.mem_cons.mp hx with
          | inl heq => rw [heq]
          | inr hmem =>
              have := of_decide_eq_true (hfirst x hmem)
              rw [Prod.Lex.toLex_le_toLex] at this
              omega
        simp only [decide_eq_true_eq]
        omega

/-- A batch is a prefix of the candidates, no longer than its limit allows. -/
theorem boundCandidates_eq_take {config : SchedulerOffloadConfig}
    (hsorted : candidates.Pairwise fun a b => config.candidateLe a b = true) (limit : ℕ) :
    ∃ k ≤ limit / config.blockSizeFactor,
      config.boundCandidates candidates limit = candidates.take k := by
  rw [boundCandidates]
  dsimp only
  split
  · exact ⟨_, le_rfl, rfl⟩
  · split
    · exact ⟨0, Nat.zero_le _, rfl⟩
    · split
      · obtain ⟨k, hk, heq⟩ := filter_endOf_eq_take
          (hsorted.sublist (List.take_sublist (limit / config.blockSizeFactor) _))
          (config.commonEnd (candidates.take (limit / config.blockSizeFactor)))
        have hle : k ≤ limit / config.blockSizeFactor :=
          hk.trans (List.length_take_le _ _)
        exact ⟨k, hle, heq.trans (by rw [List.take_take, min_eq_left hle])⟩
      · exact ⟨0, Nat.zero_le _, rfl⟩

/-! ## The agreement -/

/-- The batch passes the gates of its limit. -/
theorem Evaluation.batch_fits (e : Evaluation κ) (ht : e.transfer.NonNegative)
    (hfactor : 0 < e.config.blockSizeFactor) (hrelief : e.settings.maxReliefBlocks = 0)
    {candidates : List (SnapshotBlock κ)}
    (hsorted : candidates.Pairwise fun a b => e.config.candidateLe a b = true)
    (hbatch : e.batch candidates ≠ []) :
    newCount e.onCpu (e.batch candidates) ≤ e.available ∧
      max (1 / 20) (2 * (e.cost (e.batch candidates)).transferTime) ≤
        (e.cost (e.batch candidates)).margin := by
  obtain ⟨k, hk, heq⟩ : ∃ k ≤ e.limit candidates / e.config.blockSizeFactor,
      e.batch candidates = candidates.take k := boundCandidates_eq_take hsorted _
  have hlimit : e.limit candidates = preservationLimit e.transfer e.config.blockSizeFactor
      e.onCpu candidates e.available e.remaining := by simp [Evaluation.limit, hrelief]
  have hlength : (e.batch candidates).length ≤ k := heq ▸ List.length_take_le _ _
  have htake : candidates.take (e.batch candidates).length = e.batch candidates := by
    rw [heq, List.length_take, ← List.take_eq_take_min]
  have hfits : PrefixFits e.transfer e.onCpu e.available e.remaining candidates
      (e.batch candidates).length := by
    have hspec : preservationLimit e.transfer e.config.blockSizeFactor e.onCpu candidates
          e.available e.remaining = 0 ∨
        ∃ n, PrefixFits e.transfer e.onCpu e.available e.remaining candidates n ∧
          preservationLimit e.transfer e.config.blockSizeFactor e.onCpu candidates e.available
            e.remaining = n * e.config.blockSizeFactor :=
      preservationLimit_spec e.config.blockSizeFactor candidates
    cases hspec with
    | inl hzero =>
        rw [hlimit, hzero, Nat.zero_div, Nat.le_zero] at hk
        rw [heq, hk, List.take_zero] at hbatch
        exact absurd rfl hbatch
    | inr hlonger =>
        obtain ⟨n, hn, hvalue⟩ := hlonger
        rw [hlimit, hvalue, Nat.mul_div_cancel _ hfactor] at hk
        exact hn.shorten ht (hlength.trans hk)
  obtain ⟨hroom, hmargin⟩ := hfits
  rw [htake] at hroom hmargin
  exact ⟨hroom, hmargin⟩

theorem Evaluation.tooShort_eq_false (e : Evaluation κ) (batch : List (SnapshotBlock κ))
    (h : max (1 / 20) (2 * (e.cost batch).transferTime) ≤ (e.cost batch).margin) :
    (e.cost batch).tooShort e.settings e.pressure = false := by
  have hpositive : 1 / 20 ≤ (e.cost batch).margin := (le_max_left _ _).trans h
  rw [BatchCost.tooShort, decide_eq_false, decide_eq_false]
  · simp
  · exact not_lt.mpr h
  · rw [BatchCost.margin] at hpositive
    linarith

/-- When the limit comes from the transfer model, a batch that is not empty has room in the CPU
cache and passes every test of the benefit that its limit was made for: it is refused for its
eligibility, for want of demand, for low pressure or for its score only. -/
theorem planned_batch_passes_gates (e : Evaluation κ) (ht : e.transfer.NonNegative)
    (hfactor : 0 < e.config.blockSizeFactor) (hrelief : e.settings.maxReliefBlocks = 0)
    {candidates : List (SnapshotBlock κ)}
    (hsorted : candidates.Pairwise fun a b => e.config.candidateLe a b = true)
    (hbatch : e.batch candidates ≠ []) :
    newCount e.onCpu (e.batch candidates) ≤ e.available ∧
      e.decision candidates ≠ .cpuCapacity ∧ e.decision candidates ≠ .empty ∧
      (e.cost (e.batch candidates)).tooShort e.settings e.pressure = false ∧
      (e.decision candidates = .unprofitable →
        (e.cost (e.batch candidates)).poorScore e.settings e.metadata e.pressure = true) := by
  have hfits := e.batch_fits ht hfactor hrelief hsorted hbatch
  have hroom : newCount e.onCpu (e.batch candidates) ≤ e.available := hfits.1
  have hshort := e.tooShort_eq_false (e.batch candidates) hfits.2
  have hblocks : (e.cost (e.batch candidates)).blocks ≠ 0 :=
    Nat.mul_ne_zero (by simpa using hbatch) hfactor.ne'
  have hcpu : ¬ (e.cost (e.batch candidates)).cpuAvailable <
      (e.cost (e.batch candidates)).cpuNeeded := not_lt.mpr hroom
  -- the tests that are left once the three gates are passed
  have hvalue : e.decision candidates =
      if e.pressure.fitDemand = 0 then .noWaitingDemand
      else if !e.metadata.offloadEligible || !e.metadata.reusablePrefix then .notEligible
      else if e.pressure.fitDemand ≤ 0 then .noWaitingDemand
      else if (e.cost (e.batch candidates)).lowPressure e.settings e.pressure then .lowPressure
      else if (e.cost (e.batch candidates)).poorScore e.settings e.metadata e.pressure
        then .unprofitable
      else .selected := by
    rw [Evaluation.decision, BatchCost.evaluateBenefit, if_neg hblocks, if_neg hcpu, hshort,
      if_neg Bool.false_ne_true]
  refine ⟨hroom, ?_, ?_, hshort, ?_⟩
  · rw [hvalue]
    split_ifs <;> simp
  · rw [hvalue]
    split_ifs <;> simp
  · intro hunprofitable
    rw [hvalue] at hunprofitable
    split_ifs at hunprofitable with _ _ _ _ hpoor
    exact hpoor

/-- A full-attention group and a sliding window with room for two new blocks; storing and loading
a block takes a tenth of a second each. -/
def twoGroupEvaluation : Evaluation ℕ where
  config := ⟨[⟨1, 1, none⟩, ⟨1, 1, some 1⟩], 1, 1⟩
  transfer := { bandwidth := fun _ => 1, baseTime := fun _ => 0, submissionTimePerRun := 1 / 10,
                bytesPerBlock := 0 }
  settings := ⟨6 / 10, 85 / 100, 1, 0⟩
  metadata := ⟨0, false, 0, 0, true, true⟩
  pressure := ⟨9 / 10, 1, 1, 4, 0, 1, 4⟩
  onCpu := fun _ => false
  available := 2
  remaining := 4
  agentScore := 0
  churnPenalty := 0

def twoGroupCandidates : List (SnapshotBlock ℕ) :=
  [⟨0, 0, 10, [1], 0⟩, ⟨1, 0, 20, [2], 0⟩, ⟨0, 1, 11, [3], 1⟩, ⟨1, 1, 21, [4], 1⟩]

theorem twoGroup_batch_is_selected :
    (twoGroupEvaluation.batch twoGroupCandidates).map (·.key) = [10, 20] ∧
      newCount twoGroupEvaluation.onCpu (twoGroupEvaluation.batch twoGroupCandidates) ≤
        twoGroupEvaluation.available ∧
      twoGroupEvaluation.decision twoGroupCandidates = .selected := by
  have hmodel : twoGroupEvaluation.transfer.NonNegative :=
    ⟨fun _ => zero_le_one, by simp [twoGroupEvaluation], fun _ => le_rfl, by decide +kernel⟩
  have hsorted : twoGroupCandidates.Pairwise fun a b =>
      twoGroupEvaluation.config.candidateLe a b = true := by decide +kernel
  have hgates := planned_batch_passes_gates twoGroupEvaluation hmodel (by decide) rfl hsorted
    (by decide +kernel)
  exact ⟨by decide +kernel, hgates.1, by decide +kernel⟩

end TokenCake.Offload
