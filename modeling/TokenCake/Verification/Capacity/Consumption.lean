import Mathlib.Algebra.BigOperators.Group.List.Basic
import Mathlib.Algebra.Order.BigOperators.Group.List
import Mathlib.Data.List.Induction
import TokenCake.Model.Capacity

/-! # Consumption of capacity

What a request may use, and that `_consumption` finds it whenever it is enough. -/

namespace TokenCake.Capacity

namespace CapacityState

variable {c : CapacityState} {requestId : String} {borrowReserved : Bool} {demand : ℕ}

/-! ## Eligible capacity -/

structure Nonneg (c : CapacityState) : Prop where
  shared : 0 ≤ c.sharedAvailable
  reserved : ∀ k, 0 ≤ c.reservedFor k

def available (c : CapacityState) : Owner → ℤ
  | none => c.sharedAvailable
  | some k => c.reservedFor k

/-- A request may take from another type when it may borrow anyway, when no request of that type
waits, or when its score leads by a positive margin. -/
def MayBorrow (c : CapacityState) (requestId : String) (borrowReserved : Bool) (owner : String) :
    Prop :=
  borrowReserved = true ∨ owner ∉ c.waitingCritical ∨
    ∃ score ownerScore, c.scores.get? requestId = some score ∧
      c.waitingScores.get? owner = some ownerScore ∧ 0 < c.priorityBorrowScoreMargin ∧
      ownerScore + c.priorityBorrowScoreMargin ≤ score

theorem withholds_eq_false_iff {owner : String} :
    c.withholds requestId borrowReserved owner = false ↔
      c.MayBorrow requestId borrowReserved owner := by
  unfold withholds MayBorrow
  cases borrowReserved with
  | true => simp
  | false =>
      by_cases hwaiting : owner ∈ c.waitingCritical
      · cases howner : c.waitingScores.get? owner with
        | none => simp [hwaiting]
        | some ownerScore =>
            cases hscore : c.scores.get? requestId with
            | none => simp [hwaiting]
            | some score =>
                simp only [hwaiting, Bool.not_false, Bool.true_and, decide_true,
                  decide_eq_false_iff_not, not_or, not_lt, Bool.false_eq_true, not_true_eq_false,
                  false_or, Option.some.injEq]
                constructor
                · intro hlead
                  exact ⟨score, ownerScore, rfl, rfl, by omega, by omega⟩
                · rintro ⟨score, ownerScore, rfl, rfl, hmargin, hlead⟩
                  omega
      · simp [hwaiting]

instance (owner : String) : Decidable (c.MayBorrow requestId borrowReserved owner) :=
  decidable_of_iff _ withholds_eq_false_iff

/-- The types that a request with agent type `key` may take from. -/
def lenders (c : CapacityState) (requestId : String) (borrowReserved : Bool) (key : String) :
    List String :=
  c.reservedAvailable.keys.filter fun k => k ≠ key ∧ c.MayBorrow requestId borrowReserved k

/-- The capacity that the lenders have together. -/
def lendable (c : CapacityState) (requestId : String) (borrowReserved : Bool) (key : String) : ℤ :=
  ((c.lenders requestId borrowReserved key).map c.reservedFor).sum

/-- The reservation that a request has because of its own type. -/
def ownReserved (c : CapacityState) (key : String) : ℤ :=
  if key ∈ c.plan.critical then c.reservedFor key else 0

/-- The capacity that a request may use. -/
def eligible (c : CapacityState) (requestId : String) (borrowReserved : Bool) : ℤ :=
  match c.metadata.get? requestId with
  | none => c.sharedAvailable
  | some metadata =>
      c.sharedAvailable + c.ownReserved metadata.agentType +
        c.lendable requestId borrowReserved metadata.agentType

theorem Nonneg.lendable (hc : c.Nonneg) (key : String) :
    0 ≤ c.lendable requestId borrowReserved key := by
  refine List.sum_nonneg fun x hx => ?_
  obtain ⟨k, -, rfl⟩ := List.mem_map.mp hx
  exact hc.reserved k

/-! ## The loop over the donors -/

/-- What the loop takes from a list of donors. -/
structure Loan (c : CapacityState) (requestId : String) (borrowReserved : Bool)
    (donors : List String) (remaining : ℤ) (loan : List (Owner × ℤ)) : Prop where
  owners : (loan.map Prod.fst).Sublist (donors.map some)
  sum_eq : (loan.map Prod.snd).sum = remaining
  bounds : ∀ e ∈ loan, 0 ≤ e.2 ∧ e.2 ≤ c.available e.1
  allowed : ∀ e ∈ loan, ∀ k, e.1 = some k → c.MayBorrow requestId borrowReserved k

/-- The loop succeeds exactly when the donors that do not withhold have enough together. -/
theorem borrow_spec (hc : c.Nonneg) (donors : List String) (usage : List (Owner × ℤ))
    {remaining : ℤ} (hpos : 0 < remaining) :
    (∀ result, c.borrow requestId borrowReserved donors usage remaining = some result →
      ∃ loan, result = usage ++ loan ∧ Loan c requestId borrowReserved donors remaining loan) ∧
    (c.borrow requestId borrowReserved donors usage remaining = none ↔
      ((donors.filter fun k => !c.withholds requestId borrowReserved k).map c.reservedFor).sum <
        remaining) := by
  induction donors generalizing usage remaining with
  | nil =>
      have hne : remaining ≠ 0 := hpos.ne'
      simp [borrow, hne, hpos]
  | cons owner donors ih =>
      unfold borrow
      cases hwithholds : c.withholds requestId borrowReserved owner with
      | true =>
          obtain ⟨hsound, hcomplete⟩ := ih usage hpos
          simp only [if_true, hwithholds, Bool.not_true, Bool.false_eq_true, not_false_eq_true,
            List.filter_cons_of_neg]
          refine ⟨fun result hresult => ?_, hcomplete⟩
          obtain ⟨loan, heq, hloan⟩ := hsound result hresult
          exact ⟨loan, heq, ⟨hloan.owners.trans (List.sublist_cons_self ..), hloan.sum_eq,
            hloan.bounds, hloan.allowed⟩⟩
      | false =>
          have howner := hc.reserved owner
          have hallowed := withholds_eq_false_iff.mp hwithholds
          have hrest : 0 ≤ ((donors.filter fun k =>
              !c.withholds requestId borrowReserved k).map c.reservedFor).sum :=
            List.sum_nonneg fun x hx => by
              obtain ⟨k, -, rfl⟩ := List.mem_map.mp hx
              exact hc.reserved k
          simp only [Bool.false_eq_true, if_false]
          rw [List.filter_cons_of_pos (by simp [hwithholds]), List.map_cons, List.sum_cons]
          by_cases henough : remaining ≤ c.reservedFor owner
          · rw [min_eq_left henough, sub_self, if_pos rfl]
            refine ⟨fun result hresult => ?_, ?_⟩
            · obtain rfl := Option.some.inj hresult
              refine ⟨[(some owner, remaining)], rfl, ?_, by simp, ?_, ?_⟩
              · simp
              · simpa [available] using ⟨hpos.le, henough⟩
              · rintro e he k hk
                obtain rfl := List.mem_singleton.mp he
                exact Option.some.inj hk ▸ hallowed
            · simp only [reduceCtorEq, false_iff, not_lt]
              omega
          · rw [min_eq_right (not_le.mp henough).le, if_neg (by omega)]
            obtain ⟨hsound, hcomplete⟩ := ih (usage ++ [(some owner, c.reservedFor owner)])
              (sub_pos.mpr (not_le.mp henough))
            refine ⟨fun result hresult => ?_, ?_⟩
            · obtain ⟨loan, heq, hloan⟩ := hsound result hresult
              refine ⟨(some owner, c.reservedFor owner) :: loan, by simp [heq], ?_, ?_, ?_, ?_⟩
              · exact hloan.owners.cons_cons (some owner)
              · rw [List.map_cons, List.sum_cons, hloan.sum_eq]
                omega
              · exact List.forall_mem_cons.mpr ⟨⟨howner, le_rfl⟩, hloan.bounds⟩
              · refine List.forall_mem_cons.mpr ⟨fun k hk => ?_, hloan.allowed⟩
                exact Option.some.inj hk ▸ hallowed
            · rw [hcomplete]
              omega

theorem mem_donors {key k : String} :
    k ∈ c.donors key ↔ k ∈ c.reservedAvailable.keys ∧ k ≠ key := by
  simp [donors]

theorem nodup_donors (key : String) : (c.donors key).Nodup :=
  (List.mergeSort_perm ..).nodup_iff.mpr (c.reservedAvailable.nodupKeys.filter _)

/-- The donors are the lenders, in another order. -/
theorem sum_donors (key : String) :
    (((c.donors key).filter fun k => !c.withholds requestId borrowReserved k).map
        c.reservedFor).sum =
      c.lendable requestId borrowReserved key := by
  have hperm : ((c.donors key).filter fun k => !c.withholds requestId borrowReserved k).Perm
      (c.lenders requestId borrowReserved key) := by
    refine ((List.mergeSort_perm ..).filter _).trans (.of_eq ?_)
    rw [List.filter_filter, lenders]
    refine List.filter_congr fun k _ => ?_
    rw [Bool.eq_iff_iff, Bool.and_eq_true, Bool.not_eq_true', withholds_eq_false_iff,
      decide_eq_true_eq, decide_eq_true_eq, and_comm]
  exact (hperm.map _).sum_eq

/-! ## The consumption of a request -/

/-- The owners and counts that a request uses: shared capacity first, then the reservation of
its own type if that is critical, then donors. -/
structure Consumption (c : CapacityState) (requestId : String) (borrowReserved : Bool)
    (demand : ℕ) (usage : List (Owner × ℤ)) : Prop where
  distinct : (usage.map Prod.fst).Nodup
  sum_eq : (usage.map Prod.snd).sum = demand
  bounds : ∀ e ∈ usage, 0 ≤ e.2 ∧ e.2 ≤ c.available e.1
  ordinary : c.metadata.get? requestId = none → usage.map Prod.fst = [none]
  annotated : ∀ metadata, c.metadata.get? requestId = some metadata →
    ∃ shared own loan, usage = (none, shared) :: (own ++ loan) ∧
      (own ++ loan ≠ [] → shared = c.sharedAvailable) ∧
      (own = [] ∨ metadata.agentType ∈ c.plan.critical ∧
        own.map Prod.fst = [some metadata.agentType]) ∧
      (metadata.agentType ∈ c.plan.critical → loan ≠ [] →
        own = [(some metadata.agentType, c.reservedFor metadata.agentType)]) ∧
      ∀ e ∈ loan, ∃ k, e.1 = some k ∧ k ≠ metadata.agentType ∧
        c.MayBorrow requestId borrowReserved k

/-- Shared capacity and the own reservation do not suffice, so donors are asked. -/
theorem Loan.consumption (hc : c.Nonneg) {metadata : TokenCakeMetadata}
    {own loan : List (Owner × ℤ)} {remaining : ℤ}
    (hmetadata : c.metadata.get? requestId = some metadata)
    (hloan : Loan c requestId borrowReserved (c.donors metadata.agentType) remaining loan)
    (hown : own = [] ∧ metadata.agentType ∉ c.plan.critical ∨
      metadata.agentType ∈ c.plan.critical ∧
        own = [(some metadata.agentType, c.reservedFor metadata.agentType)])
    (hsum : c.sharedAvailable + (own.map Prod.snd).sum + remaining = demand) :
    Consumption c requestId borrowReserved demand
      ((none, c.sharedAvailable) :: (own ++ loan)) := by
  have howners : ∀ e ∈ loan, ∃ k, e.1 = some k ∧ k ≠ metadata.agentType := by
    intro e he
    obtain ⟨k, hk, heq⟩ := List.mem_map.mp (hloan.owners.subset (List.mem_map_of_mem he))
    exact ⟨k, heq.symm, (mem_donors.mp hk).2⟩
  have hnodup : (loan.map Prod.fst).Nodup :=
    hloan.owners.nodup ((nodup_donors _).map (Option.some_injective _))
  constructor
  case distinct =>
    have hshared : none ∉ loan.map Prod.fst := by
      intro hmem
      obtain ⟨e, he, hnone⟩ := List.mem_map.mp hmem
      obtain ⟨k, hk, -⟩ := howners e he
      rw [hk] at hnone
      cases hnone
    have hkey : some metadata.agentType ∉ loan.map Prod.fst := by
      intro hmem
      obtain ⟨e, he, hkey⟩ := List.mem_map.mp hmem
      obtain ⟨k, hk, hne⟩ := howners e he
      rw [hk] at hkey
      exact hne (Option.some.inj hkey)
    rcases hown with ⟨rfl, -⟩ | ⟨-, rfl⟩
    · simpa using ⟨by simpa using hshared, hnodup⟩
    · simp only [List.cons_append, List.nil_append, List.map_cons, List.nodup_cons, List.mem_cons,
        reduceCtorEq, false_or]
      exact ⟨hshared, hkey, hnodup⟩
  case sum_eq =>
    rw [List.map_cons, List.sum_cons, List.map_append, List.sum_append, hloan.sum_eq]
    omega
  case bounds =>
    refine List.forall_mem_cons.mpr ⟨⟨hc.shared, le_rfl⟩, fun e he => ?_⟩
    rcases List.mem_append.mp he with he | he
    · rcases hown with ⟨rfl, -⟩ | ⟨-, rfl⟩
      · cases he
      · obtain rfl := List.mem_singleton.mp he
        exact ⟨hc.reserved _, le_rfl⟩
    · exact hloan.bounds e he
  case ordinary =>
    intro hnone
    rw [hmetadata] at hnone
    cases hnone
  case annotated =>
    intro metadata' hmetadata'
    obtain rfl := Option.some.inj (hmetadata.symm.trans hmetadata')
    refine ⟨_, own, loan, rfl, fun _ => rfl, ?_, fun hcritical _ => ?_, fun e he => ?_⟩
    · rcases hown with ⟨rfl, -⟩ | ⟨hcritical, rfl⟩
      · exact .inl rfl
      · exact .inr ⟨hcritical, rfl⟩
    · exact hown.elim (fun h => absurd hcritical h.2) And.right
    · obtain ⟨k, hk, hne⟩ := howners e he
      exact ⟨k, hk, hne, hloan.allowed e he k hk⟩

theorem Nonneg.eligible (hc : c.Nonneg) (requestId : String) (borrowReserved : Bool) :
    c.sharedAvailable ≤ c.eligible requestId borrowReserved := by
  unfold CapacityState.eligible
  cases c.metadata.get? requestId with
  | none => exact le_rfl
  | some metadata =>
      have hlendable : 0 ≤ c.lendable requestId borrowReserved metadata.agentType :=
        hc.lendable metadata.agentType
      have hown := hc.reserved metadata.agentType
      dsimp only [ownReserved]
      split <;> omega

/-- The result of `_consumption` and its reason. -/
def Settled (c : CapacityState) (requestId : String) (borrowReserved : Bool) (demand : ℕ)
    (result : Option (List (Owner × ℤ))) : Prop :=
  (∀ usage, result = some usage → Consumption c requestId borrowReserved demand usage) ∧
    (result = none ↔ c.eligible requestId borrowReserved < demand)

/-- Donors are asked for what remains. -/
theorem settled_borrow (hc : c.Nonneg) {metadata : TokenCakeMetadata} {own : List (Owner × ℤ)}
    {remaining : ℤ} (hmetadata : c.metadata.get? requestId = some metadata)
    (hown : own = [] ∧ metadata.agentType ∉ c.plan.critical ∨
      metadata.agentType ∈ c.plan.critical ∧
        own = [(some metadata.agentType, c.reservedFor metadata.agentType)])
    (hpos : 0 < remaining)
    (hsum : c.sharedAvailable + (own.map Prod.snd).sum + remaining = demand) :
    Settled c requestId borrowReserved demand
      (c.borrow requestId borrowReserved (c.donors metadata.agentType)
        ((none, c.sharedAvailable) :: own) remaining) := by
  obtain ⟨hsound, hcomplete⟩ := @borrow_spec c requestId borrowReserved hc
    (c.donors metadata.agentType) ((none, c.sharedAvailable) :: own) remaining hpos
  refine ⟨fun usage husage => ?_, ?_⟩
  · obtain ⟨loan, rfl, hloan⟩ := hsound usage husage
    exact hloan.consumption hc hmetadata hown hsum
  · have hreserved : (own.map Prod.snd).sum = c.ownReserved metadata.agentType := by
      rcases hown with ⟨rfl, hcritical⟩ | ⟨hcritical, rfl⟩ <;> simp [ownReserved, hcritical]
    rw [hcomplete, sum_donors, eligible, hmetadata]
    dsimp only
    omega

theorem settled_consumption (hc : c.Nonneg) (requestId : String) (borrowReserved : Bool)
    (demand : ℕ) :
    Settled c requestId borrowReserved demand (c.consumption requestId borrowReserved demand) := by
  have hshared := hc.shared
  unfold consumption
  dsimp only
  by_cases henough : (demand : ℤ) ≤ c.sharedAvailable
  · rw [min_eq_left henough, sub_self, if_pos rfl]
    constructor
    · intro usage husage
      obtain rfl := Option.some.inj husage
      refine ⟨by simp, by simp, ?_, fun _ => rfl, fun metadata _ => ?_⟩
      · simpa [available] using henough
      · exact ⟨demand, [], [], rfl, by simp, .inl rfl, by simp, by simp⟩
    · have := hc.eligible requestId borrowReserved
      simp only [reduceCtorEq, false_iff, not_lt]
      omega
  · rw [min_eq_right (not_le.mp henough).le, if_neg (by omega)]
    cases hmetadata : c.metadata.get? requestId with
    | none =>
        refine ⟨by simp, ?_⟩
        rw [eligible, hmetadata]
        simp only [true_iff]
        omega
    | some metadata =>
        by_cases hcritical : metadata.agentType ∈ c.plan.critical
        · dsimp only
          rw [if_pos hcritical]
          by_cases hown : (demand : ℤ) - c.sharedAvailable ≤ c.reservedFor metadata.agentType
          · rw [min_eq_left hown, sub_self, if_pos rfl]
            constructor
            · intro usage husage
              obtain rfl := Option.some.inj husage
              refine ⟨by simp, by simp, ?_, ?_, fun metadata' hmetadata' => ?_⟩
              · simp only [List.cons_append, List.nil_append, List.mem_cons, List.not_mem_nil,
                  or_false, forall_eq_or_imp, forall_eq, available]
                omega
              · rw [hmetadata]
                simp
              · obtain rfl := Option.some.inj (hmetadata.symm.trans hmetadata')
                exact ⟨_, [(some metadata.agentType, _)], [], rfl, fun _ => rfl,
                  .inr ⟨hcritical, rfl⟩, by simp, by simp⟩
            · have hlendable : 0 ≤ c.lendable requestId borrowReserved metadata.agentType :=
                hc.lendable metadata.agentType
              rw [eligible, hmetadata]
              simp only [reduceCtorEq, false_iff, not_lt, ownReserved, if_pos hcritical]
              omega
          · rw [min_eq_right (not_le.mp hown).le, if_neg (by omega)]
            exact settled_borrow hc hmetadata (.inr ⟨hcritical, rfl⟩) (by omega)
              (by simp)
        · dsimp only
          rw [if_neg hcritical]
          exact settled_borrow hc hmetadata (.inl ⟨rfl, hcritical⟩) (by omega)
            (by simp)

/-- Consumption is sound and complete, and a smaller demand is met as well. -/
theorem consumption_sound_complete_monotone (hc : c.Nonneg) (requestId : String)
    (borrowReserved : Bool) (demand : ℕ) :
    (∀ usage, c.consumption requestId borrowReserved demand = some usage →
      Consumption c requestId borrowReserved demand usage) ∧
    (c.consumption requestId borrowReserved demand = none ↔
      c.eligible requestId borrowReserved < demand) ∧
    ∀ smaller, smaller ≤ demand →
      (c.consumption requestId borrowReserved demand).isSome →
      (c.consumption requestId borrowReserved smaller).isSome := by
  obtain ⟨hsound, hcomplete⟩ := settled_consumption hc requestId borrowReserved demand
  refine ⟨hsound, hcomplete, fun smaller hle hsome => ?_⟩
  obtain ⟨-, hsmaller⟩ := settled_consumption hc requestId borrowReserved smaller
  rw [Option.isSome_iff_ne_none] at hsome ⊢
  intro hnone
  have hshort := hsmaller.mp hnone
  exact hsome (hcomplete.mpr (by omega))

/-- Two critical types with reservations. A reader waits with the score `100`; of the two writers one
leads it by the margin. -/
def twoTypes : CapacityState where
  priorityBorrowScoreMargin := 500
  metadata := (OrdDict.empty.insert "ahead" ⟨"writer"⟩).insert "behind" ⟨"writer"⟩
  scores := (OrdDict.empty.insert "ahead" 600).insert "behind" 599
  plan := { critical := ["writer", "reader"]
            scores := (OrdDict.empty.insert "writer" 2).insert "reader" 1 }
  waitingCritical := ["reader"]
  waitingScores := OrdDict.empty.insert "reader" 100
  sharedAvailable := 1
  reservedAvailable := (OrdDict.empty.insert "writer" 2).insert "reader" 1
  scored := by decide

/-- The writer that does not lead by the margin gets the block of the reader only in the second
round. -/
theorem twoTypes_borrows :
    twoTypes.Nonneg ∧
      Consumption twoTypes "ahead" false 4 [(none, 1), (some "writer", 2), (some "reader", 1)] ∧
      twoTypes.eligible "behind" false < 4 ∧
      Consumption twoTypes "behind" true 4 [(none, 1), (some "writer", 2), (some "reader", 1)] := by
  have hnonneg : twoTypes.Nonneg := by
    refine ⟨by decide, fun k => ?_⟩
    simp only [reservedFor, twoTypes, OrdDict.get?_insert, OrdDict.get?_empty]
    split
    · decide
    · split <;> decide
  refine ⟨hnonneg, ?_, ?_, ?_⟩
  · exact (consumption_sound_complete_monotone hnonneg "ahead" false 4).1 _ (by decide +kernel)
  · exact (consumption_sound_complete_monotone hnonneg "behind" false 4).2.1.mp (by decide +kernel)
  · exact (consumption_sound_complete_monotone hnonneg "behind" true 4).1 _ (by decide +kernel)

end CapacityState

/-! ## Scores of waiting types -/

/-- The best score of a waiting request of a type, if there is one. -/
def BestScore (metadata : OrdDict String TokenCakeMetadata) (scores : String → ℤ)
    (waiting : List String) (key : String) : Option ℤ → Prop
  | none => ∀ r ∈ waiting, metadata.get? r ≠ some ⟨key⟩
  | some best => (∃ r ∈ waiting, metadata.get? r = some ⟨key⟩ ∧ scores r = best) ∧
      ∀ r ∈ waiting, metadata.get? r = some ⟨key⟩ → scores r ≤ best

section WaitingScores

variable {metadata : OrdDict String TokenCakeMetadata} {scores : String → ℤ}
  {waiting : List String} {key r : String} {best : Option ℤ}

theorem BestScore.skip (h : BestScore metadata scores waiting key best)
    (hr : metadata.get? r ≠ some ⟨key⟩) : BestScore metadata scores (waiting ++ [r]) key best := by
  cases best with
  | none =>
      intro r' hr'
      rcases List.mem_append.mp hr' with hr' | hr'
      · exact h r' hr'
      · exact List.mem_singleton.mp hr' ▸ hr
  | some best =>
      obtain ⟨⟨r', hr', hattained⟩, hall⟩ := h
      refine ⟨⟨r', List.mem_append_left _ hr', hattained⟩, fun r'' hr'' htype => ?_⟩
      rcases List.mem_append.mp hr'' with hr'' | hr''
      · exact hall r'' hr'' htype
      · exact absurd (List.mem_singleton.mp hr'' ▸ htype) hr

theorem BestScore.max (h : BestScore metadata scores waiting key best)
    (hr : metadata.get? r = some ⟨key⟩) :
    BestScore metadata scores (waiting ++ [r]) key
      (some (Max.max (best.getD (scores r)) (scores r))) := by
  have hlast : r ∈ waiting ++ [r] := by simp
  cases best with
  | none =>
      refine ⟨⟨r, hlast, hr, by simp⟩, fun r' hr' htype => ?_⟩
      rcases List.mem_append.mp hr' with hr' | hr'
      · exact absurd htype (h r' hr')
      · simp [List.mem_singleton.mp hr']
  | some best =>
      obtain ⟨⟨r', hr', htype', hscore⟩, hall⟩ := h
      rw [Option.getD_some]
      constructor
      · rcases le_total best (scores r) with hle | hle
        · exact ⟨r, hlast, hr, (max_eq_right hle).symm⟩
        · exact ⟨r', List.mem_append_left _ hr', htype', hscore.trans (max_eq_left hle).symm⟩
      · intro r'' hr'' htype
        rcases List.mem_append.mp hr'' with hr'' | hr''
        · exact (hall r'' hr'' htype).trans (le_max_left ..)
        · exact List.mem_singleton.mp hr'' ▸ le_max_right ..

/-- `begin_step` collects the best score of every type that waits. -/
theorem collectWaitingScores_best (hkey : key ≠ "") :
    BestScore metadata scores waiting key
      ((collectWaitingScores metadata scores waiting).get? key) := by
  induction waiting using List.reverseRecOn with
  | nil => exact fun r hr => absurd hr List.not_mem_nil
  | append_singleton waiting r ih =>
      unfold collectWaitingScores at ih ⊢
      rw [List.foldl_append, List.foldl_cons, List.foldl_nil]
      cases hr : metadata.get? r with
      | none => exact ih.skip (by simp [hr])
      | some m =>
          dsimp only
          split
          · next hempty =>
              refine ih.skip ?_
              rw [hr]
              rintro heq
              exact hkey ((congrArg TokenCakeMetadata.agentType (Option.some.inj heq)).symm.trans
                hempty)
          · rw [OrdDict.get?_insert]
            split
            · next hsame =>
                subst hsame
                exact ih.max hr
            · next hother =>
                refine ih.skip ?_
                rw [hr]
                rintro heq
                exact hother (congrArg TokenCakeMetadata.agentType (Option.some.inj heq)).symm

end WaitingScores

end TokenCake.Capacity
