import Mathlib.Data.List.Perm.Lattice
import Mathlib.Data.List.Nodup
import TokenCake.Model.Schedule

/-! # Where requests are during the waiting loop

An abstract account of the waiting loop: the places a request can be in, the ways it moves
between them, and a measure that every move decreases. -/

namespace TokenCake.Sched

/-- The places of requests, the deferred ones, the frozen order and the visits so far. -/
structure Places where
  running : List String
  waiting : List String
  skipped : List String
  stepSkipped : List String
  deferred : List String
  borrow : Bool
  order : Option (List (String × QueueName))
  visits : List (String × Bool)

namespace Places

def queue (p : Places) : QueueName → List String
  | .waiting => p.waiting
  | .skipped => p.skipped

/-- Everything in the two queues, with the queue it is in. -/
def tagged (p : Places) : List (String × QueueName) :=
  p.skipped.map (fun id => (id, .skipped)) ++ p.waiting.map (fun id => (id, .waiting))

def queued (p : Places) : List String := p.tagged.map Prod.fst

def all (p : Places) : List String := p.running ++ p.waiting ++ p.skipped ++ p.stepSkipped

def visit (p : Places) (id : String) : Places :=
  { p with visits := p.visits ++ [(id, p.borrow)] }

/-- Each request leaves the queues at most once before reserved capacity is opened, and the
deferred ones once more after that. -/
def measure (p : Places) : ℕ :=
  if p.borrow then p.queued.length else 2 * p.queued.length + p.deferred.length

/-- The invariant of the waiting loop over the requests in `pool`. A queued request has not been
visited in this pass, except for the one that is being examined. -/
structure Inv (pool : List String) (held : Option String) (p : Places) : Prop where
  nodup : p.all.Nodup
  within : ∀ x, x ∈ p.queued ∨ x ∈ p.stepSkipped → x ∈ pool
  deferred_nodup : p.deferred.Nodup
  deferred_skipped : ∀ x ∈ p.deferred, x ∈ p.stepSkipped
  closed : p.borrow = true → p.deferred = []
  visits_nodup : p.visits.Nodup
  fresh : ∀ x ∈ p.queued, (x, p.borrow) ∈ p.visits → held = some x
  early : p.borrow = false → ∀ x, (x, true) ∉ p.visits

/-- The frozen order lists exactly the queued requests, after those in `turn`. -/
def Ordered (cached : Bool) (turn : List (String × QueueName)) (p : Places) : Prop :=
  ∀ order, p.order = some order → cached = true ∧ (turn ++ order).Perm p.tagged

/-! ## Basic facts -/

theorem queued_eq (p : Places) : p.queued = p.skipped ++ p.waiting := by
  simp [queued, tagged, Function.comp_def]

theorem mem_tagged {p : Places} {id : String} {name : QueueName} :
    (id, name) ∈ p.tagged ↔ id ∈ p.queue name := by
  cases name with
  | waiting => simp [tagged, queue]
  | skipped => simp [tagged, queue]

theorem all_perm (p : Places) : p.all.Perm (p.running ++ (p.queued ++ p.stepSkipped)) := by
  rw [all, queued_eq, List.append_assoc, List.append_assoc, ← List.append_assoc p.waiting]
  exact (List.perm_append_comm.append_right p.stepSkipped).append_left p.running

theorem Inv.queued_nodup {pool : List String} {held : Option String} {p : Places}
    (h : Inv pool held p) : p.queued.Nodup := by
  have hall := (p.all_perm.nodup_iff.mp h.nodup)
  exact (List.nodup_append.mp (List.nodup_append.mp hall).2.1).1

theorem Inv.not_stepSkipped {pool : List String} {held : Option String} {p : Places}
    (h : Inv pool held p) {id : String} (hid : id ∈ p.queued) : id ∉ p.stepSkipped := by
  have hall := (p.all_perm.nodup_iff.mp h.nodup)
  have hdisjoint := (List.nodup_append.mp (List.nodup_append.mp hall).2.1).2.2
  exact fun hmem => hdisjoint id hid id hmem rfl

theorem Inv.withOrder {pool : List String} {held : Option String} {p : Places}
    (h : Inv pool held p) (order : Option (List (String × QueueName))) :
    Inv pool held { p with order := order } :=
  ⟨h.nodup, h.within, h.deferred_nodup, h.deferred_skipped, h.closed, h.visits_nodup, h.fresh,
    h.early⟩

/-! ## Moves -/

/-- `id` is taken out of the queue `name`. -/
structure Takes (p : Places) (id : String) (name : QueueName) (p' : Places) : Prop where
  tagged : p.tagged.Perm ((id, name) :: p'.tagged)
  running : p'.running = p.running
  stepSkipped : p'.stepSkipped = p.stepSkipped
  deferred : p'.deferred = p.deferred
  borrow : p'.borrow = p.borrow
  order : p'.order = p.order
  visits : p'.visits = p.visits

/-- `id` leaves the queue `name` to be skipped, deferred or run. -/
structure Leaves (p : Places) (id : String) (name : QueueName) (p' : Places) : Prop where
  tagged : p.tagged.Perm ((id, name) :: p'.tagged)
  all : p'.all.Perm p.all
  stays : ∀ x ∈ p.stepSkipped, x ∈ p'.stepSkipped
  source : ∀ x ∈ p'.stepSkipped, x = id ∨ x ∈ p.stepSkipped
  deferred : p'.deferred = p.deferred ∨
    p.borrow = false ∧ p'.deferred = p.deferred ++ [id] ∧ id ∈ p'.stepSkipped
  borrow : p'.borrow = p.borrow
  order : p'.order = p.order
  visits : p'.visits = p.visits

theorem queued_perm_of_tagged {p p' : Places} {id : String} {name : QueueName}
    (h : p.tagged.Perm ((id, name) :: p'.tagged)) : p.queued.Perm (id :: p'.queued) :=
  h.map Prod.fst

namespace Takes

variable {p p₁ : Places} {id : String} {name : QueueName}

theorem all_perm (h : Takes p id name p₁) : p.all.Perm (id :: p₁.all) := by
  have hqueued := queued_perm_of_tagged h.tagged
  calc p.all
      |>.Perm (p.running ++ (p.queued ++ p.stepSkipped)) := p.all_perm
    _ |>.Perm (p.running ++ (id :: p₁.queued ++ p.stepSkipped)) :=
        (hqueued.append_right _).append_left _
    _ |>.Perm (id :: (p.running ++ (p₁.queued ++ p.stepSkipped))) := List.perm_middle
    _ = id :: (p₁.running ++ (p₁.queued ++ p₁.stepSkipped)) := by rw [h.running, h.stepSkipped]
    _ |>.Perm (id :: p₁.all) := p₁.all_perm.symm.cons id

theorem skip (h : Takes p id name p₁) {stepSkipped : List String}
    (hq : stepSkipped.Perm (id :: p₁.stepSkipped)) :
    Leaves p id name { p₁ with stepSkipped := stepSkipped } := by
  refine ⟨h.tagged, ?_, ?_, ?_, .inl h.deferred, h.borrow, h.order, h.visits⟩
  · refine List.Perm.trans ?_ h.all_perm.symm
    exact (hq.append_left _).trans List.perm_middle
  · intro x hx
    exact hq.mem_iff.mpr (List.mem_cons_of_mem id (h.stepSkipped ▸ hx))
  · intro x hx
    exact h.stepSkipped ▸ List.mem_cons.mp (hq.mem_iff.mp hx)

theorem run (h : Takes p id name p₁) :
    Leaves p id name { p₁ with running := p₁.running ++ [id] } := by
  refine ⟨h.tagged, ?_, ?_, ?_, .inl h.deferred, h.borrow, h.order, h.visits⟩
  · refine List.Perm.trans ?_ h.all_perm.symm
    simp only [Places.all, List.append_assoc]
    exact List.perm_middle
  · exact fun x hx => h.stepSkipped ▸ hx
  · exact fun x hx => .inr (h.stepSkipped ▸ hx)

end Takes

/-- Deferring a request before it is skipped. -/
theorem Leaves.of_deferred {p p' : Places} {id : String} {name : QueueName}
    (h : Leaves { p with deferred := p.deferred ++ [id] } id name p') (hborrow : p.borrow = false)
    (hdeferred : p'.deferred = p.deferred ++ [id]) (hid : id ∈ p'.stepSkipped) :
    Leaves p id name p' :=
  ⟨h.tagged, h.all, h.stays, h.source, .inr ⟨hborrow, hdeferred, hid⟩, h.borrow, h.order, h.visits⟩

/-! ## What the moves preserve -/

theorem Inv.visit {pool : List String} {p : Places} (h : Inv pool none p) {id : String}
    (hid : id ∈ p.queued) : Inv pool (some id) (p.visit id) := by
  have hnew : (id, p.borrow) ∉ p.visits := fun hmem => by simpa using h.fresh id hid hmem
  refine ⟨h.nodup, h.within, h.deferred_nodup, h.deferred_skipped, h.closed, ?_, ?_, ?_⟩
  · refine List.nodup_append.mpr ⟨h.visits_nodup, by simp, ?_⟩
    intro v hv w hw heq
    rw [List.mem_singleton.mp hw] at heq
    exact hnew (heq ▸ hv)
  · intro x hx hmem
    cases List.mem_append.mp hmem with
    | inl hmem => simpa using h.fresh x hx hmem
    | inr hmem =>
        have : x = id := by simpa [Places.visit] using hmem
        rw [this]
  · intro hborrow x hmem
    cases List.mem_append.mp hmem with
    | inl hmem => exact h.early hborrow x hmem
    | inr hmem =>
        have hb : p.borrow = false := hborrow
        simp [hb] at hmem

theorem Inv.leave {pool : List String} {p p' : Places} {id : String} {name : QueueName}
    (h : Inv pool (some id) p) (hl : Leaves p id name p') :
    Inv pool none p' ∧ p'.measure < p.measure := by
  have hqueued := queued_perm_of_tagged hl.tagged
  have hid : id ∈ p.queued := hqueued.mem_iff.mpr List.mem_cons_self
  have hsub : ∀ x ∈ p'.queued, x ∈ p.queued := fun x hx =>
    hqueued.mem_iff.mpr (List.mem_cons_of_mem id hx)
  have hlen : p.queued.length = p'.queued.length + 1 := by simpa using hqueued.length_eq
  have hnot : id ∉ p.deferred := fun hmem =>
    h.not_stepSkipped hid (h.deferred_skipped id hmem)
  refine ⟨⟨hl.all.nodup_iff.mpr h.nodup, ?_, ?_, ?_, ?_, hl.visits ▸ h.visits_nodup, ?_, ?_⟩, ?_⟩
  · intro x hx
    cases hx with
    | inl hx => exact h.within x (.inl (hsub x hx))
    | inr hx =>
        cases hl.source x hx with
        | inl heq => exact h.within x (.inl (heq ▸ hid))
        | inr hx => exact h.within x (.inr hx)
  · cases hl.deferred with
    | inl heq => exact heq ▸ h.deferred_nodup
    | inr hdef =>
        rw [hdef.2.1]
        refine List.nodup_append.mpr ⟨h.deferred_nodup, by simp, ?_⟩
        intro x hx y hy heq
        rw [List.mem_singleton.mp hy] at heq
        exact hnot (heq ▸ hx)
  · intro x hx
    cases hl.deferred with
    | inl heq => exact hl.stays x (h.deferred_skipped x (heq ▸ hx))
    | inr hdef =>
        rw [hdef.2.1] at hx
        cases List.mem_append.mp hx with
        | inl hx => exact hl.stays x (h.deferred_skipped x hx)
        | inr hx => exact List.mem_singleton.mp hx ▸ hdef.2.2
  · intro hborrow
    rw [hl.borrow] at hborrow
    cases hl.deferred with
    | inl heq => rw [heq, h.closed hborrow]
    | inr hdef => simp [hborrow] at hdef
  · intro x hx hmem
    rw [hl.borrow, hl.visits] at hmem
    have heq : id = x := by simpa using h.fresh x (hsub x hx) hmem
    have hnodup := hqueued.nodup_iff.mp h.queued_nodup
    exact absurd (heq ▸ hx) (List.nodup_cons.mp hnodup).1
  · intro hborrow
    rw [hl.borrow] at hborrow
    rw [hl.visits]
    exact h.early hborrow
  · simp only [measure, hl.borrow]
    cases hl.deferred with
    | inl heq =>
        rw [heq]
        split <;> omega
    | inr hdef =>
        simp only [hdef.1, hdef.2.1, Bool.false_eq_true, if_false, List.length_append,
          List.length_singleton]
        omega

theorem Ordered.leave {cached : Bool} {p p' : Places} {id : String} {name : QueueName}
    (h : Ordered cached [(id, name)] p) (hl : Leaves p id name p') : Ordered cached [] p' := by
  intro order horder
  obtain ⟨hcached, hperm⟩ := h order (hl.order ▸ horder)
  refine ⟨hcached, ?_⟩
  exact (List.perm_cons (id, name)).mp (hperm.trans hl.tagged)

/-- Reserved capacity is opened: the deferred requests return to the waiting queue. -/
structure Reopens (p p' : Places) : Prop where
  waiting : p'.waiting.Perm p.deferred
  skipped : p'.skipped = []
  stepSkipped : p.stepSkipped.Perm (p.deferred ++ p'.stepSkipped)
  running : p'.running = p.running
  deferred : p'.deferred = []
  borrow : p'.borrow = true
  order : p'.order = none
  visits : p'.visits = p.visits

theorem Reopens.all_perm {p p' : Places} (h : Reopens p p') (hempty : p.queued = []) :
    p'.all.Perm p.all := by
  have hqueued : p'.queued.Perm p.deferred := by
    rw [queued_eq, h.skipped]
    exact h.waiting
  calc p'.all
      |>.Perm (p'.running ++ (p'.queued ++ p'.stepSkipped)) := p'.all_perm
    _ |>.Perm (p'.running ++ (p.deferred ++ p'.stepSkipped)) :=
        (hqueued.append_right _).append_left _
    _ |>.Perm (p'.running ++ p.stepSkipped) := h.stepSkipped.symm.append_left _
    _ = p.running ++ (p.queued ++ p.stepSkipped) := by rw [h.running, hempty, List.nil_append]
    _ |>.Perm p.all := p.all_perm.symm

theorem Inv.reopen {pool : List String} {p p' : Places} (h : Inv pool none p)
    (hr : Reopens p p') (hempty : p.queued = []) (hborrow : p.borrow = false) :
    Inv pool none p' ∧ p'.measure ≤ p.measure := by
  have hlen : p'.queued.length = p.deferred.length := by
    rw [queued_eq, hr.skipped]
    exact hr.waiting.length_eq
  refine ⟨⟨(hr.all_perm hempty).nodup_iff.mpr h.nodup, ?_, ?_, ?_, ?_,
    hr.visits ▸ h.visits_nodup, ?_, ?_⟩, ?_⟩
  · intro x hx
    refine h.within x (.inr (hr.stepSkipped.mem_iff.mpr (List.mem_append.mpr ?_)))
    refine hx.imp_left fun hx => hr.waiting.mem_iff.mp ?_
    rw [queued_eq, hr.skipped] at hx
    exact hx
  · simp [hr.deferred]
  · simp [hr.deferred]
  · exact fun _ => hr.deferred
  · intro x _ hmem
    rw [hr.borrow, hr.visits] at hmem
    exact absurd hmem (h.early hborrow x)
  · intro hfalse
    simp [hr.borrow] at hfalse
  · simp only [measure, hr.borrow, hborrow, hlen, if_true, Bool.false_eq_true, if_false]
    omega

end Places

end TokenCake.Sched
