import Mathlib.Order.Defs.Unbundled

/-! # Labelled runs

A run performs the actions of a list one after the other. The rules below lift what one
step does to what a whole run does. -/

/-- `Run next s actions s'`: the actions lead from `s` to `s'`. -/
inductive Run {σ ε : Type*} (next : σ → ε → σ → Prop) : σ → List ε → σ → Prop
  | nil (s : σ) : Run next s [] s
  | cons {s t u : σ} {e : ε} {es : List ε} :
      next s e t → Run next t es u → Run next s (e :: es) u

namespace Run

variable {σ ε : Type*} {next : σ → ε → σ → Prop} {s t u : σ} {e : ε} {es fs : List ε}

theorem append (first : Run next s es t) (second : Run next t fs u) :
    Run next s (es ++ fs) u := by
  induction first with
  | nil => exact second
  | cons hstep _ ih => exact .cons hstep (ih second)

theorem append_inv (run : Run next s (es ++ fs) u) :
    ∃ t, Run next s es t ∧ Run next t fs u := by
  induction es generalizing s with
  | nil => exact ⟨s, .nil s, run⟩
  | cons e es ih =>
      cases run with
      | cons hstep hrest =>
          obtain ⟨t, hfirst, hsecond⟩ := ih hrest
          exact ⟨t, .cons hstep hfirst, hsecond⟩

theorem snoc (run : Run next s es t) (hstep : next t e u) : Run next s (es ++ [e]) u :=
  run.append (.cons hstep (.nil u))

/-- Where every step has one outcome, so has a run. -/
theorem functional (hnext : ∀ s e t u, next s e t → next s e u → t = u) (first : Run next s es t)
    (second : Run next s es u) : t = u := by
  induction first with
  | nil =>
      cases second
      rfl
  | cons h _ ih =>
      cases second with
      | cons h' hrest =>
          obtain rfl := hnext _ _ _ _ h h'
          exact ih hrest

/-- What every step of the run preserves is preserved by the run. -/
theorem invariant {I : σ → Prop} (run : Run next s es t)
    (hstep : ∀ s e t, e ∈ es → I s → next s e t → I t) (hs : I s) : I t := by
  induction run with
  | nil => exact hs
  | cons h _ ih =>
      refine ih (fun s e t he => hstep s e t (List.mem_cons_of_mem _ he)) ?_
      exact hstep _ _ _ (List.mem_cons_self ..) hs h

/-- What an invariant makes true of every action of a run. -/
theorem labels {I : σ → Prop} {P : ε → Prop} (run : Run next s es t)
    (hstep : ∀ s e t, I s → next s e t → I t ∧ P e) (hs : I s) : ∀ e ∈ es, P e := by
  induction run with
  | nil => exact fun e he => absurd he List.not_mem_nil
  | cons h _ ih =>
      obtain ⟨ht, he⟩ := hstep _ _ _ hs h
      exact List.forall_mem_cons.mpr ⟨he, ih ht⟩

/-- A reflexive and transitive relation that holds across every step of the run, from a
state satisfying an invariant, holds across the run. -/
theorem rel {I : σ → Prop} {R : σ → σ → Prop} (hrefl : ∀ s, R s s)
    (htrans : ∀ s t u, R s t → R t u → R s u) (run : Run next s es t)
    (hinv : ∀ s e t, I s → next s e t → I t)
    (hstep : ∀ s e t, e ∈ es → I s → next s e t → R s t) (hs : I s) : R s t := by
  induction run with
  | nil => exact hrefl _
  | cons h _ ih =>
      refine htrans _ _ _ (hstep _ _ _ (List.mem_cons_self ..) hs h) ?_
      exact ih (fun s e t he => hstep s e t (List.mem_cons_of_mem _ he)) (hinv _ _ _ hs h)

/-- A run can be computed by a step function that follows the relation. -/
theorem of_foldlM {f : σ → ε → Option σ} (hf : ∀ s e t, f s e = some t → next s e t)
    (h : es.foldlM f s = some t) : Run next s es t := by
  induction es generalizing s with
  | nil =>
      obtain rfl : s = t := Option.some.inj h
      exact .nil s
  | cons e es ih =>
      rw [List.foldlM_cons] at h
      obtain ⟨u, hstep, hrest⟩ := Option.bind_eq_some_iff.mp h
      exact .cons (hf s e u hstep) (ih hrest)

end Run
