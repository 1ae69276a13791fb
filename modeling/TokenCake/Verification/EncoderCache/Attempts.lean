import Mathlib.Algebra.BigOperators.Group.List.Basic
import TokenCake.Verification.EncoderCache.Accounting

/-! # Attempts to schedule encoder inputs

An attempt takes references to the inputs that it finds in the cache, and makes room for those that
it schedules. -/

namespace TokenCake.Encoder

variable {size : String → ℕ} {cacheSize : ℤ} {m m' m₀ : EncoderCacheManager}
  {r : EncoderRequest} {t : Attempt} {f : MultiModalFeatureSpec} {mmHash id : String} {i : ℕ}
  {cfg : EncoderConfig} {numComputedTokens shift : ℤ}

/-- The request `id` holds a reference to the entry. -/
def Holds (id mmHash : String) (m : EncoderCacheManager) : Prop :=
  ∃ references, m.cached.get? mmHash = some references ∧ id ∈ references

/-- The request `id` holds a reference to some entry. -/
def Listed (id : String) (m : EncoderCacheManager) : Prop := ∃ mmHash, Holds id mmHash m

theorem Evicts.listed_iff (h : Evicts m m') : Listed id m' ↔ Listed id m := by
  obtain ⟨evicted, -, hempty, hcached⟩ := h
  constructor
  · rintro ⟨mmHash, references, hget, hid⟩
    rw [hcached] at hget
    split at hget
    · cases hget
    · exact ⟨mmHash, references, hget, hid⟩
  · rintro ⟨mmHash, references, hget, hid⟩
    have hkept : mmHash ∉ evicted := by
      intro hmem
      rw [hempty mmHash hmem] at hget
      obtain rfl : ∅ = references := Option.some.inj hget
      simp at hid
    exact ⟨mmHash, references, by rw [hcached, if_neg hkept, hget], hid⟩

/-- A new reference to an entry. -/
theorem listed_insert_iff {references : Finset String} {requestId : String}
    (hget : m.cached.get? mmHash = some references)
    (hcached : m'.cached = m.cached.insert mmHash (insert requestId references)) :
    Listed id m' ↔ Listed id m ∨ id = requestId := by
  constructor
  · rintro ⟨other, refs, hother, hid⟩
    rw [hcached, OrdDict.get?_insert] at hother
    split at hother
    · obtain rfl := Option.some.inj hother
      rcases Finset.mem_insert.mp hid with hid | hid
      · exact .inr hid
      · exact .inl ⟨mmHash, references, hget, hid⟩
    · exact .inl ⟨other, refs, hother, hid⟩
  · rintro (⟨other, refs, hother, hid⟩ | rfl)
    · by_cases heq : other = mmHash
      · subst heq
        obtain rfl : references = refs := Option.some.inj (hget.symm.trans hother)
        exact ⟨other, _, by rw [hcached, OrdDict.get?_insert_self], Finset.mem_insert_of_mem hid⟩
      · exact ⟨other, refs, by rw [hcached, OrdDict.get?_insert, if_neg heq, hother], hid⟩
    · exact ⟨mmHash, _, by rw [hcached, OrdDict.get?_insert_self], Finset.mem_insert_self ..⟩

/-- The features behind the indices of scheduled inputs. -/
def scheduledFeatures (r : EncoderRequest) (t : Attempt) : List MultiModalFeatureSpec :=
  (t.encoderInputsToSchedule ++ t.externalLoadEncoderInput).filterMap (r.mmFeatures[·]?)

/-- What an attempt that started at `m₀` has done. -/
structure Attempted (size : String → ℕ) (cacheSize : ℤ) (r : EncoderRequest)
    (m₀ : EncoderCacheManager) (t : Attempt) : Prop where
  accurate : Accurate size cacheSize t.manager
  total : t.numEmbedsToSchedule = (t.mmHashesToSchedule.map fun mmHash => (size mmHash : ℤ)).sum
  room : t.numEmbedsToSchedule ≤ t.manager.numFreeSlots
  nodup : t.mmHashesToSchedule.Nodup
  absent : ∀ mmHash ∈ t.mmHashesToSchedule, t.manager.cached.get? mmHash = none
  inputs : ((scheduledFeatures r t).map (·.identifier)).Perm t.mmHashesToSchedule
  grown : ∀ mmHash references, t.manager.cached.get? mmHash = some references →
    ∃ old, m₀.cached.get? mmHash = some old ∧ old ⊆ references ∧
      ∀ id ∈ references, id ∈ old ∨ id = r.requestId ∧ ∃ f ∈ r.mmFeatures, f.identifier = mmHash
  evicted : ∃ evicted, t.manager.freed = m₀.freed ++ evicted ∧
    ∀ mmHash ∈ evicted, m₀.cached.get? mmHash = some ∅ ∧ t.manager.cached.get? mmHash = none
  listed : ∀ id, Listed id t.manager ↔ Listed id m₀ ∨ (id = r.requestId ∧ t.hits ≠ [])
  kept : ∀ i ∈ t.hits, ∃ f references, r.mmFeatures[i]? = some f ∧
    t.manager.cached.get? f.identifier = some references ∧ r.requestId ∈ references

namespace Attempted

theorem start (h : Accurate size cacheSize m) (numNewTokens budget : ℤ) :
    Attempted size cacheSize r m ⟨m, numNewTokens, budget, [], [], [], 0, []⟩ where
  accurate := h
  total := rfl
  room := h.free_nonneg
  nodup := List.nodup_nil
  absent := by simp
  inputs := by simp [scheduledFeatures]
  grown mmHash references hget := ⟨references, hget, Finset.Subset.refl _, fun _ => .inl⟩
  evicted := ⟨[], by simp, by simp⟩
  listed := by simp
  kept := by simp

/-- Nothing but the number of tokens changes. -/
theorem setNumNewTokens (h : Attempted size cacheSize r m₀ t) (numNewTokens : ℤ) :
    Attempted size cacheSize r m₀ { t with numNewTokens := numNewTokens } :=
  ⟨h.accurate, h.total, h.room, h.nodup, h.absent, h.inputs, h.grown, h.evicted,
    h.listed, h.kept⟩

/-- An input is found in the cache. -/
theorem hit (h : Attempted size cacheSize r m₀ t) {references : Finset String}
    (hm' : Accurate size cacheSize m') (hfree : m'.numFreeSlots = t.manager.numFreeSlots)
    (hfreed : m'.freed = t.manager.freed)
    (hi : r.mmFeatures[i]? = some f)
    (hget : t.manager.cached.get? f.identifier = some references)
    (hcached : m'.cached = t.manager.cached.insert f.identifier (insert r.requestId references)) :
    Attempted size cacheSize r m₀ { t with manager := m', hits := t.hits ++ [i] } := by
  have hkeys : ∀ mmHash, m'.cached.get? mmHash = none ↔ t.manager.cached.get? mmHash = none := by
    intro mmHash
    rw [hcached, OrdDict.get?_insert]
    by_cases heq : mmHash = f.identifier
    · simp [heq, hget]
    · simp [heq]
  refine ⟨hm', h.total, hfree ▸ h.room, h.nodup, ?_, h.inputs, ?_, ?_, ?_, ?_⟩
  · exact fun mmHash hmem => (hkeys mmHash).mpr (h.absent mmHash hmem)
  · intro mmHash refs hrefs
    dsimp only at hrefs
    rw [hcached, OrdDict.get?_insert] at hrefs
    split at hrefs
    · next heq =>
        obtain rfl := Option.some.inj hrefs
        obtain ⟨old, hold, hsub, hnew⟩ := h.grown _ _ hget
        refine ⟨old, heq ▸ hold, hsub.trans (Finset.subset_insert ..), fun id hid => ?_⟩
        rcases Finset.mem_insert.mp hid with rfl | hid
        · exact .inr ⟨rfl, f, List.mem_of_getElem? hi, heq.symm⟩
        · exact heq ▸ hnew id hid
    · exact h.grown mmHash refs hrefs
  · obtain ⟨evicted, heq, hevicted⟩ := h.evicted
    refine ⟨evicted, hfreed.trans heq, fun mmHash hmem => ?_⟩
    exact ⟨(hevicted mmHash hmem).1, (hkeys mmHash).mpr (hevicted mmHash hmem).2⟩
  · intro id
    refine (listed_insert_iff hget hcached).trans ?_
    rw [h.listed]
    simp only [ne_eq, List.append_eq_nil_iff, List.cons_ne_self, and_false, not_false_eq_true,
      and_true]
    tauto
  · intro j hj
    rcases List.mem_append.mp hj with hj | hj
    · obtain ⟨g, refs, hg, hrefs, hmem⟩ := h.kept j hj
      dsimp only
      rw [hcached]
      by_cases heq : g.identifier = f.identifier
      · exact ⟨g, _, hg, by rw [heq, OrdDict.get?_insert_self], Finset.mem_insert_self ..⟩
      · exact ⟨g, refs, hg, by rw [OrdDict.get?_insert, if_neg heq, hrefs], hmem⟩
    · rw [List.mem_singleton.mp hj]
      exact ⟨f, _, hi, by rw [hcached, OrdDict.get?_insert_self], Finset.mem_insert_self ..⟩

/-- Entries are evicted to make room. -/
theorem evicts (h : Attempted size cacheSize r m₀ t) (hm' : Accurate size cacheSize m')
    (hfree : t.manager.numFreeSlots ≤ m'.numFreeSlots) (hevicts : Evicts t.manager m') :
    Attempted size cacheSize r m₀ { t with manager := m' } := by
  have hlisted : ∀ id, Listed id m' ↔ Listed id t.manager := fun _ => hevicts.listed_iff
  obtain ⟨evicted, hfreed, hempty, hcached⟩ := hevicts
  have hgrown : ∀ mmHash refs, m'.cached.get? mmHash = some refs →
      t.manager.cached.get? mmHash = some refs := by
    intro mmHash refs hrefs
    rw [hcached] at hrefs
    split at hrefs
    · cases hrefs
    · exact hrefs
  refine ⟨hm', h.total, h.room.trans hfree, h.nodup, ?_, h.inputs, ?_, ?_, ?_, ?_⟩
  · intro mmHash hmem
    have hnone := h.absent mmHash hmem
    dsimp only
    rw [hcached]
    split <;> simp [hnone]
  · exact fun mmHash refs hrefs => h.grown mmHash refs (hgrown mmHash refs hrefs)
  · obtain ⟨before, hbefore, hgone⟩ := h.evicted
    refine ⟨before ++ evicted, by rw [hfreed, hbefore, List.append_assoc], fun mmHash hmem => ?_⟩
    rcases List.mem_append.mp hmem with hmem | hmem
    · obtain ⟨hold, hnone⟩ := hgone mmHash hmem
      refine ⟨hold, ?_⟩
      dsimp only
      rw [hcached]
      split <;> simp [hnone]
    · obtain ⟨old, hold, hsub, -⟩ := h.grown mmHash ∅ (hempty mmHash hmem)
      refine ⟨by rw [hold, Finset.subset_empty.mp hsub], ?_⟩
      dsimp only
      rw [hcached, if_pos hmem]
  · exact fun id => (hlisted id).trans (h.listed id)
  · intro j hj
    obtain ⟨g, refs, hg, hrefs, hmem⟩ := h.kept j hj
    have hstays : g.identifier ∉ evicted := by
      intro hgone
      rw [hempty _ hgone] at hrefs
      obtain rfl : ∅ = refs := Option.some.inj hrefs
      exact absurd hmem (Finset.notMem_empty _)
    exact ⟨g, refs, hg, by rw [hcached, if_neg hstays, hrefs], hmem⟩

theorem scheduledFeatures_schedule (hi : r.mmFeatures[i]? = some f) :
    (scheduledFeatures r (t.schedule cfg i f)).Perm (scheduledFeatures r t ++ [f]) := by
  unfold scheduledFeatures Attempt.schedule
  split
  · simp [hi]
  · simpa [hi] using List.perm_middle.trans (List.perm_append_singleton ..).symm

/-- An input is scheduled for which there is room. -/
theorem schedule (h : Attempted size cacheSize r m₀ t) (hf : Sized size f)
    (hi : r.mmFeatures[i]? = some f)
    (hfits : f.numEncoderEmbeds + t.numEmbedsToSchedule ≤ t.manager.numFreeSlots)
    (hnew : f.identifier ∉ t.mmHashesToSchedule)
    (habsent : t.manager.cached.get? f.identifier = none) :
    Attempted size cacheSize r m₀ (t.schedule cfg i f) := by
  have hmanager : (t.schedule cfg i f).manager = t.manager := by
    unfold Attempt.schedule
    split <;> rfl
  have hhashes : (t.schedule cfg i f).mmHashesToSchedule =
      t.mmHashesToSchedule ++ [f.identifier] := by
    unfold Attempt.schedule
    split <;> rfl
  have htotal : (t.schedule cfg i f).numEmbedsToSchedule =
      t.numEmbedsToSchedule + f.numEncoderEmbeds := by
    unfold Attempt.schedule
    split <;> rfl
  have hhits : (t.schedule cfg i f).hits = t.hits := by
    unfold Attempt.schedule
    split <;> rfl
  have hsize : f.numEncoderEmbeds = size f.identifier := hf
  refine ⟨?_, ?_, ?_, ?_, ?_, ?_, ?_, ?_, ?_, ?_⟩
  · rw [hmanager]
    exact h.accurate
  · rw [htotal, hhashes, h.total, hsize]
    simp
  · rw [htotal, hmanager]
    omega
  · rw [hhashes]
    exact List.nodup_append.mpr ⟨h.nodup, List.nodup_singleton _, fun a ha b hb => by
      rw [List.mem_singleton.mp hb]
      exact ne_of_mem_of_not_mem ha hnew⟩
  · rw [hhashes, hmanager]
    intro mmHash hmem
    rcases List.mem_append.mp hmem with hmem | hmem
    · exact h.absent mmHash hmem
    · rw [List.mem_singleton.mp hmem]
      exact habsent
  · rw [hhashes]
    refine ((scheduledFeatures_schedule hi).map _).trans ?_
    rw [List.map_append]
    exact h.inputs.append_right _
  · rw [hmanager]
    exact h.grown
  · rw [hmanager]
    exact h.evicted
  · rw [hmanager, hhits]
    exact h.listed
  · rw [hmanager, hhits]
    exact h.kept

/-- An input that is not in the cache. -/
theorem request (h : Attempted size cacheSize r m₀ t) (hf : Sized size f)
    (hi : r.mmFeatures[i]? = some f)
    (hnew : f.identifier ∉ t.mmHashesToSchedule)
    (habsent : t.manager.cached.get? f.identifier = none) :
    ∃ again t', t.request cfg numComputedTokens shift i f = .ok (again, t') ∧
      Attempted size cacheSize r m₀ t' := by
  unfold Attempt.request
  dsimp only
  split
  · exact ⟨false, _, rfl, h.setNumNewTokens _⟩
  obtain ⟨fits, m', hcan, hm', hfree, hevicts, hfits⟩ :=
    h.accurate.canAllocate (f := f) t.encoderComputeBudget t.numEmbedsToSchedule
  have hroom := h.evicts hm' hfree hevicts
  simp only [hcan, bind, Except.bind, pure, Except.pure]
  cases fits with
  | true =>
      have hstill : m'.cached.get? f.identifier = none := by
        obtain ⟨evicted, -, -, hcached⟩ := hevicts
        rw [hcached, habsent, ite_self]
      rw [if_pos rfl]
      split
      · exact ⟨true, _, rfl, hroom.schedule hf hi (hfits rfl) hnew hstill⟩
      · exact ⟨true, _, rfl, hroom⟩
  | false =>
      simp only [Bool.false_eq_true, if_false]
      split
      · exact ⟨false, _, rfl, hroom.setNumNewTokens _⟩
      · exact ⟨false, _, rfl, hroom.setNumNewTokens _⟩

/-- One input of the loop. -/
theorem consider (h : Attempted size cacheSize r m₀ t) (hf : Sized size f)
    (hi : r.mmFeatures[i]? = some f) (cfg : EncoderConfig) (numComputedTokens shift : ℤ) :
    ∃ again t', t.consider cfg r.requestId numComputedTokens shift i f = .ok (again, t') ∧
      Attempted size cacheSize r m₀ t' := by
  unfold Attempt.consider
  dsimp only
  by_cases hafter : numComputedTokens + t.numNewTokens + shift ≤ (f.mmPosition.offset : ℤ)
  · exact ⟨false, t, if_pos hafter, h⟩
  rw [if_neg hafter]
  by_cases hbefore : (f.mmPosition.offset : ℤ) + f.mmPosition.length ≤ numComputedTokens
  · exact ⟨true, t, if_pos hbefore, h⟩
  rw [if_neg hbefore]
  by_cases hnew : f.identifier ∈ t.mmHashesToSchedule
  · exact ⟨true, t, if_pos hnew, h⟩
  rw [if_neg hnew]
  obtain ⟨hit, m', hcheck, hm', hfree, hfreed, hmiss, hhit⟩ :=
    h.accurate.checkAndUpdateCache r.requestId f
  simp only [hcheck, bind, Except.bind, pure, Except.pure]
  cases hit with
  | true =>
      obtain ⟨references, hget, hcached⟩ := hhit rfl
      exact ⟨true, _, rfl, h.hit hm' hfree hfreed hi hget hcached⟩
  | false =>
      obtain ⟨rfl, hget⟩ := hmiss rfl
      exact h.request hf hi hnew hget

theorem loop (h : Attempted size cacheSize r m₀ t) {inputs : List (MultiModalFeatureSpec × ℕ)}
    (hinputs : ∀ input ∈ inputs, Sized size input.1 ∧ r.mmFeatures[input.2]? = some input.1) :
    ∃ t', Attempt.loop cfg r.requestId numComputedTokens shift inputs t = .ok t' ∧
      Attempted size cacheSize r m₀ t' := by
  induction inputs generalizing t with
  | nil => exact ⟨t, rfl, h⟩
  | cons input inputs ih =>
      obtain ⟨f, i⟩ := input
      obtain ⟨⟨hf, hi⟩, hinputs⟩ := List.forall_mem_cons.mp hinputs
      obtain ⟨again, t', hconsider, ht'⟩ := h.consider hf hi cfg
        numComputedTokens shift
      simp only [Attempt.loop, hconsider, bind, Except.bind, pure, Except.pure]
      cases again with
      | true => exact ih ht' hinputs
      | false => exact ⟨t', rfl, ht'⟩

end Attempted

/-- An attempt never fails. -/
theorem Accurate.tryScheduleEncoderInputs (h : Accurate size cacheSize m)
    (hr : ∀ f ∈ r.mmFeatures, Sized size f) (cfg : EncoderConfig)
    (numComputedTokens numNewTokens encoderComputeBudget shift : ℤ) :
    ∃ t, tryScheduleEncoderInputs cfg m r numComputedTokens numNewTokens encoderComputeBudget
      shift = .ok t ∧ Attempted size cacheSize r m t := by
  unfold Encoder.tryScheduleEncoderInputs
  dsimp only
  split
  · exact ⟨_, rfl, .start h _ _⟩
  · refine (Attempted.start h _ _).loop fun input hinput => ?_
    rw [List.mem_zipIdx_iff_getElem?] at hinput
    exact ⟨hr input.1 (List.mem_of_getElem? hinput), hinput⟩

end TokenCake.Encoder
