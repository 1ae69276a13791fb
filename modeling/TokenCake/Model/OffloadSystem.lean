import TokenCake.Lib.Run
import TokenCake.Model.Lifecycle

/-! # The registry and the CPU manager as one system

The offloading scheduler drives one registry and one CPU manager. Its state is the registry,
which holds the manager, together with the loads that were prepared and not completed. -/

namespace TokenCake.Offload

structure OffloadState (κ σ : Type*) where
  registry : LifecycleRegistry κ σ
  loads : List (List κ)

/-- The calls that the scheduler issues. Clock readings are the rational arguments. -/
inductive OffloadOp (κ σ : Type*) where
  | associate (now : ℚ) (requestId : String) (metadata : TokenCakeMetadata)
  | apply (expiredAt now now' : ℚ) (event : LifecycleEvent)
  | generationFinished (expiredAt now : ℚ) (identifier : String) (cause : GenerationCause)
      (snapshot : Option σ)
  | expire (now : ℚ)
  | setH2dEstimate (identifier : String) (seconds now : ℚ)
  | retainReady (now : ℚ) (identifier : String) (keys : List κ)
  | release (identifier : String)
  | addPending (identifier : String) (keys : List κ)
  | dropPending (identifier : String) (keys : List κ)
  | consumeEvaluation (identifier : String)
  | invalidateSnapshots
  | lookup (key : κ)
  | touch (keys : List κ)
  | prepareLoad (keys : List κ)
  | completeLoad (keys : List κ)
  | prepareStore (keys : List κ)
  | completeStore (keys : List κ) (success : Bool)
  | resetCache (now : ℚ)
  | externalResetSucceeded (now : ℚ)

inductive Answer (κ : Type*) where
  | done
  | association (outcome : AssociateOutcome)
  | event (result : LifecycleEventResult)
  | retained (keys : List κ)
  | found (ready : Option Bool)
  | blocks (ids : List ℕ)
  | prepared (output : Option (PrepareStoreOutput κ))

namespace LifecycleRegistry

variable {κ σ : Type*} [DecidableEq κ]

/-- `_register_store`: the keys still in flight are retained when they are stored. -/
def addPending (r : LifecycleRegistry κ σ) (m : CPUOffloadingManager κ) (identifier : String)
    (keys : List κ) : LifecycleRegistry κ σ :=
  r.modifyRecord identifier fun record =>
    if record.ownsPreservation then
      { record with
        pendingRetention := record.pendingRetention ++ keys.filter (m.isKeyInFlight ·) }
    else record

/-- `update_connector_output`: keys whose store completed are no longer pending. -/
def dropPending (r : LifecycleRegistry κ σ) (identifier : String) (keys : List κ) :
    LifecycleRegistry κ σ :=
  r.modifyRecord identifier fun record =>
    { record with pendingRetention := record.pendingRetention.filter (· ∉ keys) }

/-- `evaluate_pending` consumes the marker that a record waits for an evaluation. -/
def consumeEvaluation (r : LifecycleRegistry κ σ) (identifier : String) :
    LifecycleRegistry κ σ :=
  r.modifyRecord identifier fun record => { record with pendingEvaluation := false }

end LifecycleRegistry

namespace OffloadState

variable {κ σ : Type*} [DecidableEq κ]

def initial (settings : OffloadConfig) (manager : Option (CPUOffloadingManager κ)) :
    OffloadState κ σ := ⟨.new settings manager, []⟩

/-- Run an operation of the registry. -/
def onRegistry (s : OffloadState κ σ)
    (result : Except AssertionFailure (LifecycleRegistry κ σ)) :
    Except AssertionFailure (OffloadState κ σ × Answer κ) :=
  result.map fun r => ({ s with registry := r }, .done)

/-- Run an operation of the manager. -/
def onManager (s : OffloadState κ σ)
    (f : CPUOffloadingManager κ → Except AssertionFailure (CPUOffloadingManager κ × Answer κ)) :
    Except AssertionFailure (OffloadState κ σ × Answer κ) :=
  match s.registry.manager with
  | none => .error .managerMissing
  | some m => (f m).map fun (m', answer) =>
      ({ s with registry := { s.registry with manager := some m' } }, answer)

def step (s : OffloadState κ σ) : OffloadOp κ σ →
    Except AssertionFailure (OffloadState κ σ × Answer κ)
  | .associate now requestId metadata =>
      (s.registry.associate now requestId metadata).map fun (r, outcome) =>
        ({ s with registry := r }, .association outcome)
  | .apply expiredAt now now' event =>
      (s.registry.apply expiredAt now now' event).map fun (r, result) =>
        ({ s with registry := r }, .event result)
  | .generationFinished expiredAt now identifier cause snapshot =>
      s.onRegistry (s.registry.generationFinished expiredAt now identifier cause snapshot)
  | .expire now => s.onRegistry (s.registry.expire now)
  | .setH2dEstimate identifier seconds now =>
      s.onRegistry (s.registry.setH2dEstimate identifier seconds now)
  | .retainReady now identifier keys =>
      (s.registry.retainReady now identifier keys).map fun (retained, r) =>
        ({ s with registry := r }, .retained retained)
  | .release identifier => s.onRegistry (s.registry.release identifier)
  | .addPending identifier keys =>
      match s.registry.manager with
      | none => .error .managerMissing
      | some m => s.onRegistry (.ok (s.registry.addPending m identifier keys))
  | .dropPending identifier keys => s.onRegistry (.ok (s.registry.dropPending identifier keys))
  | .consumeEvaluation identifier =>
      s.onRegistry (.ok (s.registry.consumeEvaluation identifier))
  | .invalidateSnapshots => s.onRegistry (.ok s.registry.invalidateSnapshots)
  | .lookup key => s.onManager fun m => .ok ((m.lookup key).2, .found (m.lookup key).1)
  | .touch keys => s.onManager fun m => .ok (m.touch keys, .done)
  | .prepareLoad keys =>
      (s.onManager fun m => (m.prepareLoad keys).map fun (ids, m') => (m', .blocks ids)).map
        fun (s', answer) => ({ s' with loads := keys :: s'.loads }, answer)
  | .completeLoad keys =>
      (s.onManager fun m => (m.completeLoad keys).map fun m' => (m', .done)).map
        fun (s', answer) => ({ s' with loads := s'.loads.erase keys }, answer)
  | .prepareStore keys =>
      s.onManager fun m => (m.prepareStore keys).map fun (output, m') => (m', .prepared output)
  | .completeStore keys success => s.onManager fun m => .ok (m.completeStore keys success, .done)
  | .resetCache now => do
      let (s', _) ← s.onManager fun m => .ok (m.resetCache, .done)
      { s' with loads := [] }.onRegistry (s'.registry.externalResetSucceeded now)
  | .externalResetSucceeded now => s.onRegistry (s.registry.externalResetSucceeded now)

/-- The calls that the scheduler may issue in a state: a load names distinct keys, and only
a load prepared since the last reset completes. -/
def Permitted (s : OffloadState κ σ) : OffloadOp κ σ → Prop
  | .prepareLoad keys => keys.Nodup
  | .completeLoad keys => keys ∈ s.loads
  | _ => True

/-- One call together with its answer. -/
def Next (s : OffloadState κ σ) (label : OffloadOp κ σ × Answer κ) (s' : OffloadState κ σ) :
    Prop :=
  s.Permitted label.1 ∧ s.step label.1 = .ok (s', label.2)

instance (s : OffloadState κ σ) (op : OffloadOp κ σ) : Decidable (s.Permitted op) := by
  cases op <;> unfold Permitted <;> infer_instance

/-- Issue the calls of a list one after the other; `none` if one is not permitted or fails. -/
def execute (s : OffloadState κ σ) :
    List (OffloadOp κ σ) → Option (List (OffloadOp κ σ × Answer κ) × OffloadState κ σ)
  | [] => some ([], s)
  | op :: ops =>
      if s.Permitted op then
        match s.step op with
        | .error _ => none
        | .ok (s', answer) =>
            (s'.execute ops).map fun (labels, s'') => ((op, answer) :: labels, s'')
      else none

theorem run_of_execute {s s' : OffloadState κ σ} {ops : List (OffloadOp κ σ)}
    {labels : List (OffloadOp κ σ × Answer κ)} (h : s.execute ops = some (labels, s')) :
    Run Next s labels s' ∧ labels.map Prod.fst = ops := by
  induction ops generalizing s labels with
  | nil =>
      obtain ⟨rfl, rfl⟩ := Prod.mk.inj (Option.some.inj h)
      exact ⟨.nil s, rfl⟩
  | cons op ops ih =>
      simp only [execute] at h
      split at h
      · rename_i hpermitted
        split at h
        · cases h
        · rename_i s₁ answer hstep
          obtain ⟨⟨labels', s''⟩, hrest, heq⟩ := Option.map_eq_some_iff.mp h
          obtain ⟨rfl, rfl⟩ := Prod.mk.inj heq
          obtain ⟨hrun, hops⟩ := ih hrest
          exact ⟨.cons ⟨hpermitted, hstep⟩ hrun, by simp [hops]⟩
      · cases h

end OffloadState

end TokenCake.Offload
