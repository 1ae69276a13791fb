import TokenCake.Model.Controller
import TokenCake.Verification.Capacity.Consumption

/-! # Charged blocks

What `commit`, `release` and `_update_available` do to the accounts of the controller. -/

namespace TokenCake.Control

open Capacity KV

namespace SchedulingController

variable {η : Type} {c c' c'' : SchedulingController} {m : KVCacheManager η}

/-! ## Counting the owners -/

/-- Every owner is counted for the blocks that are charged to it. -/
def Counted (c : SchedulingController) : Prop :=
  ∀ owner, c.used owner = c.charges.values.count owner

theorem values_insert {κ ν : Type} [DecidableEq κ] {d : OrdDict κ ν} {k : κ} (v : ν)
    (hk : k ∉ d.keys) : (d.insert k v).values = d.values ++ [v] := by
  rw [OrdDict.insert, dif_neg hk]
  simp [OrdDict.append, OrdDict.values]

/-- Charge blocks to one owner. -/
def chargeAll (charges : OrdDict BlockId Owner) (owner : Owner) (blockIds : List BlockId) :
    OrdDict BlockId Owner :=
  blockIds.foldl (fun charges b => charges.insert b owner) charges

variable {charges : OrdDict BlockId Owner} {owner : Owner} {blockIds : List BlockId}

theorem mem_keys_chargeAll {b : BlockId} :
    b ∈ (chargeAll charges owner blockIds).keys ↔ b ∈ blockIds ∨ b ∈ charges.keys := by
  unfold chargeAll
  induction blockIds generalizing charges with
  | nil => simp
  | cons b' blockIds ih =>
      rw [List.foldl_cons, ih, OrdDict.mem_keys_insert, List.mem_cons]
      tauto

theorem values_chargeAll (hnodup : blockIds.Nodup) (hnew : ∀ b ∈ blockIds, b ∉ charges.keys) :
    (chargeAll charges owner blockIds).values =
      charges.values ++ List.replicate blockIds.length owner := by
  unfold chargeAll
  induction blockIds generalizing charges with
  | nil => simp
  | cons b blockIds ih =>
      obtain ⟨hb, hblocks⟩ := List.nodup_cons.mp hnodup
      obtain ⟨hnot, hrest⟩ := List.forall_mem_cons.mp hnew
      rw [List.foldl_cons, ih hblocks, values_insert owner hnot, List.append_assoc]
      · rfl
      · intro b' hb' hmem
        rcases OrdDict.mem_keys_insert.mp hmem with rfl | hold
        · exact hb hb'
        · exact hrest b' hb' hold

/-! ## Charging -/

/-- The two controllers differ at most in the accounts of their blocks. -/
def SameBooks (c c' : SchedulingController) : Prop :=
  ∃ charges used shared reserved scored, c' = { c with
    charges := charges, used := used, sharedAvailable := shared, reservedAvailable := reserved
    scored := scored }

theorem SameBooks.refl (c : SchedulingController) : SameBooks c c :=
  ⟨c.charges, c.used, c.sharedAvailable, c.reservedAvailable, c.scored, rfl⟩

theorem SameBooks.trans (h : SameBooks c c') (h' : SameBooks c' c'') : SameBooks c c'' := by
  obtain ⟨_, _, _, _, _, rfl⟩ := h
  obtain ⟨charges, used, shared, reserved, scored, rfl⟩ := h'
  exact ⟨charges, used, shared, reserved, scored, rfl⟩

theorem SameBooks.active_eq (h : SameBooks c c') : c'.accountingActive = c.accountingActive := by
  obtain ⟨_, _, _, _, _, rfl⟩ := h
  rfl

theorem SameBooks.plan_eq (h : SameBooks c c') : c'.plan = c.plan := by
  obtain ⟨_, _, _, _, _, rfl⟩ := h
  rfl

theorem SameBooks.ratio_eq (h : SameBooks c c') : c'.reserveRatio = c.reserveRatio := by
  obtain ⟨_, _, _, _, _, rfl⟩ := h
  rfl

/-- A charge can be made for usage that adds up to the number of new blocks and that names owners
with a reservation. -/
theorem charge_spec {usage : List (Owner × ℤ)} (hcounted : c.Counted)
    (hnonneg : ∀ e ∈ usage, 0 ≤ e.2) (hsum : (usage.map Prod.snd).sum = blockIds.length)
    (howners : ∀ e ∈ usage, ∀ k, e.1 = some k → k ∈ c.reservedAvailable.keys)
    (hnodup : blockIds.Nodup) (hnew : ∀ b ∈ blockIds, b ∉ c.charges.keys) :
    ∃ c', charge usage blockIds c = .ok c' ∧ SameBooks c c' ∧ c'.Counted ∧
      (∀ b, b ∈ c'.charges.keys ↔ b ∈ blockIds ∨ b ∈ c.charges.keys) := by
  induction usage generalizing blockIds c with
  | nil =>
      have hnil : blockIds = [] := List.eq_nil_of_length_eq_zero (by simpa using hsum.symm)
      subst hnil
      exact ⟨c, rfl, .refl c, hcounted, fun b => by simp⟩
  | cons e usage ih =>
      obtain ⟨owner, count⟩ := e
      obtain ⟨hcount, hnonneg⟩ := List.forall_mem_cons.mp hnonneg
      obtain ⟨howner, howners⟩ := List.forall_mem_cons.mp howners
      have hrest : 0 ≤ (usage.map Prod.snd).sum := List.sum_nonneg fun n hn => by
        obtain ⟨e, he, rfl⟩ := List.mem_map.mp hn
        exact hnonneg e he
      dsimp only at hcount howner
      rw [List.map_cons, List.sum_cons] at hsum
      dsimp only at hsum
      have htake : (blockIds.take count.toNat).length = count.toNat := by
        rw [List.length_take]
        omega
      have hdrop : (usage.map Prod.snd).sum = (blockIds.drop count.toNat).length := by
        rw [List.length_drop]
        omega
      have hdisjoint : ∀ b ∈ blockIds.drop count.toNat, b ∉ blockIds.take count.toNat := by
        intro b hb hmem
        rw [← List.take_append_drop count.toNat blockIds] at hnodup
        exact (List.nodup_append.mp hnodup).2.2 b hmem b hb rfl
      -- The accounts after this owner's share.
      have hstep : ∀ next : SchedulingController, SameBooks c next →
          next.charges = chargeAll c.charges owner (blockIds.take count.toNat) →
          next.used = Function.update c.used owner (c.used owner + count) →
          next.reservedAvailable.keys = c.reservedAvailable.keys →
          ∃ c', charge usage (blockIds.drop count.toNat) next = .ok c' ∧ SameBooks c c' ∧
            c'.Counted ∧ (∀ b, b ∈ c'.charges.keys ↔ b ∈ blockIds ∨ b ∈ c.charges.keys) := by
        intro next hsame hcharges hused hkeys
        have hcounted' : next.Counted := by
          intro o
          rw [hused, hcharges, values_chargeAll (hnodup.sublist (List.take_sublist ..))
            fun b hb => hnew b (List.mem_of_mem_take hb), List.count_append, htake,
            List.count_replicate]
          by_cases ho : o = owner
          · subst ho
            rw [Function.update_self, hcounted o]
            simp only [BEq.rfl, if_true]
            omega
          · rw [Function.update_of_ne ho, hcounted o, if_neg (by simpa using Ne.symm ho)]
            simp
        obtain ⟨c', hc', hsame', hcounted'', hmem⟩ := ih hcounted' hnonneg hdrop
          (fun e he k hk => hkeys ▸ howners e he k hk) (hnodup.sublist (List.drop_sublist ..))
          (fun b hb hin => by
            rw [hcharges] at hin
            rcases mem_keys_chargeAll.mp hin with htaken | hold
            · exact hdisjoint b hb htaken
            · exact hnew b (List.mem_of_mem_drop hb) hold)
        refine ⟨c', hc', hsame.trans hsame', hcounted'', fun b => ?_⟩
        rw [hmem, hcharges, mem_keys_chargeAll, ← or_assoc]
        refine or_congr_left ?_
        conv_rhs => rw [← List.take_append_drop count.toNat blockIds, List.mem_append]
        exact or_comm
      cases owner with
      | none => exact hstep _ ⟨_, _, _, _, _, rfl⟩ rfl rfl rfl
      | some k =>
          unfold charge
          dsimp only
          rw [if_pos (howner k rfl)]
          refine hstep _ ⟨_, _, _, _, _, rfl⟩ rfl rfl ?_
          simp [OrdDict.modify, OrdDict.mapValues, OrdDict.keys]

/-! ## The owners of a consumption -/

theorem borrow_owners {cs : CapacityState} {requestId : String} {borrowReserved : Bool}
    {donors : List String} {usage result : List (Owner × ℤ)} {remaining : ℤ}
    (h : cs.borrow requestId borrowReserved donors usage remaining = some result) :
    ∀ e ∈ result, e ∈ usage ∨ ∃ k ∈ donors, e.1 = some k := by
  induction donors generalizing usage remaining with
  | nil =>
      unfold CapacityState.borrow at h
      split at h
      · obtain rfl := Option.some.inj h
        exact fun e he => .inl he
      · cases h
  | cons owner donors ih =>
      unfold CapacityState.borrow at h
      dsimp only at h
      split at h
      · intro e he
        refine (ih h e he).imp_right fun hk => ?_
        obtain ⟨k, hk, heq⟩ := hk
        exact ⟨k, List.mem_cons_of_mem _ hk, heq⟩
      · have happend : ∀ e ∈ usage ++ [(some owner, min remaining (cs.reservedFor owner))],
            e ∈ usage ∨ ∃ k ∈ owner :: donors, e.1 = some k := by
          intro e he
          rcases List.mem_append.mp he with hold | hnew
          · exact .inl hold
          · obtain rfl := List.mem_singleton.mp hnew
            exact .inr ⟨owner, List.mem_cons_self, rfl⟩
        split at h
        · obtain rfl := Option.some.inj h
          exact happend
        · intro e he
          rcases ih h e he with hold | ⟨k, hk, heq⟩
          · exact happend e hold
          · exact .inr ⟨k, List.mem_cons_of_mem _ hk, heq⟩

/-- Only types with a reservation and critical types are named. -/
theorem consumption_owners {cs : CapacityState} {requestId : String} {borrowReserved : Bool}
    {demand : ℕ} {usage : List (Owner × ℤ)}
    (h : cs.consumption requestId borrowReserved demand = some usage) :
    ∀ e ∈ usage, ∀ k, e.1 = some k →
      k ∈ cs.reservedAvailable.keys ∨ k ∈ cs.plan.critical := by
  have hdonors : ∀ key, ∀ k ∈ cs.donors key, k ∈ cs.reservedAvailable.keys := by
    intro key k hk
    unfold CapacityState.donors at hk
    exact (List.mem_filter.mp (List.mem_mergeSort.mp hk)).1
  unfold CapacityState.consumption at h
  dsimp only at h
  split at h
  · obtain rfl := Option.some.inj h
    simp
  · cases hmetadata : cs.metadata.get? requestId with
    | none =>
        rw [hmetadata] at h
        cases h
    | some metadata =>
        rw [hmetadata] at h
        dsimp only at h
        split at h
        · next hcritical =>
            split at h
            · obtain rfl := Option.some.inj h
              simp [hcritical]
            · intro e he k hk
              rcases borrow_owners h e he with hown | ⟨k', hk', heq⟩
              · simp only [List.cons_append, List.nil_append, List.mem_cons, List.not_mem_nil,
                  or_false] at hown
                rcases hown with rfl | rfl
                · cases hk
                · cases hk
                  exact .inr hcritical
              · obtain rfl := Option.some.inj (heq.symm.trans hk)
                exact .inl (hdonors _ _ hk')
        · intro e he k hk
          rcases borrow_owners h e he with hown | ⟨k', hk', heq⟩
          · obtain rfl := List.mem_singleton.mp hown
            cases hk
          · obtain rfl := Option.some.inj (heq.symm.trans hk)
            exact .inl (hdonors _ _ hk')

end SchedulingController

end TokenCake.Control
