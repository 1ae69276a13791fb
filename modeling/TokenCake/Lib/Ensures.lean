import Mathlib.Init

/-! # Postconditions of computations that may fail

`Ensures E P x`: the computation `x` returns a value satisfying `P`, or fails with an error
satisfying `E`. The rules follow the structure of a program. -/

def Ensures {ε α : Type*} (E : ε → Prop) (P : α → Prop) : Except ε α → Prop
  | .ok a => P a
  | .error e => E e

namespace Ensures

variable {ε α β : Type*} {E : ε → Prop} {P : α → Prop} {Q : β → Prop}

theorem ok {a : α} (h : P a) : Ensures E P (.ok a) := h

theorem error {e : ε} (h : E e) : Ensures E P (.error e : Except ε α) := h

theorem eq_ok_of_toOption_eq_some {x : Except ε α} {a : α} (h : x.toOption = some a) :
    x = .ok a := by
  cases x with
  | ok b => exact congrArg Except.ok (Option.some.inj h)
  | error e => cases h

theorem mono {x : Except ε α} {P' : α → Prop} (h : Ensures E P x) (hP : ∀ a, P a → P' a) :
    Ensures E P' x := by
  cases x with
  | ok a => exact hP a h
  | error e => exact h

theorem imp_error {x : Except ε α} {E' : ε → Prop} (h : Ensures E P x) (hE : ∀ e, E e → E' e) :
    Ensures E' P x := by
  cases x with
  | ok a => exact h
  | error e => exact hE e h

/-- Weakening on both sides; the errors are forgotten. -/
theorem weaken {x : Except ε α} {P' : α → Prop} (h : Ensures E P x) (hP : ∀ a, P a → P' a) :
    Ensures (fun _ => True) P' x := by
  cases x with
  | ok a => exact hP a h
  | error e => trivial

theorem map {x : Except ε α} {f : α → β} (h : Ensures E P x) (hf : ∀ a, P a → Q (f a)) :
    Ensures E Q (x.map f) := by
  cases x with
  | ok a => exact hf a h
  | error e => exact h

theorem map_iff {x : Except ε α} {f : α → β} :
    Ensures E Q (x.map f) ↔ Ensures E (fun a => Q (f a)) x := by
  cases x <;> exact Iff.rfl

theorem exists_of_map_eq_ok {x : Except ε α} {f : α → β} {b : β} (h : x.map f = .ok b) :
    ∃ a, x = .ok a ∧ f a = b := by
  cases x with
  | ok a => exact ⟨a, rfl, Except.ok.inj h⟩
  | error e => cases h

/-- A postcondition that is checked on the results alone. -/
theorem of_forall_ok {x : Except ε α} (h : ∀ a, x = .ok a → P a) :
    Ensures (fun _ => True) P x := by
  cases x with
  | ok a => exact h a rfl
  | error e => trivial

theorem of_eq_ok {x : Except ε α} {a : α} (h : Ensures E P x) (hx : x = .ok a) : P a := by
  rw [hx] at h
  exact h

theorem of_eq_error {x : Except ε α} {e : ε} (h : Ensures E P x) (hx : x = .error e) : E e := by
  rw [hx] at h
  exact h

theorem and_iff {x : Except ε α} {P' : α → Prop} :
    Ensures E (fun a => P a ∧ P' a) x ↔ Ensures E P x ∧ Ensures E P' x := by
  cases x with
  | ok a => exact Iff.rfl
  | error e => exact ⟨fun h => ⟨h, h⟩, fun h => h.1⟩

theorem and {x : Except ε α} {P' : α → Prop} (h : Ensures E P x) (h' : Ensures E P' x) :
    Ensures E (fun a => P a ∧ P' a) x := and_iff.mpr ⟨h, h'⟩

/-- The value of a computation may be read off its result. -/
theorem with_eq {x : Except ε α} (h : Ensures E P x) :
    Ensures E (fun a => P a ∧ x = .ok a) x := by
  cases x with
  | ok a => exact ⟨h, rfl⟩
  | error e => exact h

section Bind

variable {ε α β : Type} {E : ε → Prop} {P : α → Prop} {Q : β → Prop}

/-- The rule of sequential composition. -/
theorem bind {x : Except ε α} {f : α → Except ε β} (h : Ensures E P x)
    (hf : ∀ a, P a → Ensures E Q (f a)) : Ensures E Q (x >>= f) := by
  cases x with
  | ok a => exact hf a h
  | error e => exact h

/-- A computation whose result is known needs no postcondition of its own. -/
theorem bind_ok {x : Except ε α} {f : α → Except ε β} {a : α} (hx : x = .ok a)
    (hf : Ensures E Q (f a)) : Ensures E Q (x >>= f) := by
  rw [hx]
  exact hf

/-- The rule of a loop over a list: `I` holds of the items that remain and the state. -/
theorem foldlM {σ : Type} {I : List α → σ → Prop} {step : σ → α → Except ε σ}
    (hstep : ∀ a rest s, I (a :: rest) s → Ensures E (I rest) (step s a)) :
    ∀ (items : List α) (s : σ), I items s → Ensures E (I []) (items.foldlM step s) := by
  intro items
  induction items with
  | nil => exact fun s h => h
  | cons a rest ih =>
      intro s h
      rw [List.foldlM_cons]
      exact bind (hstep a rest s h) fun s' hs' => ih s' hs'

/-- A computation that goes on and returns a value has returned one before. -/
theorem exists_of_bind {x : Except ε α} {f : α → Except ε β} {b : β}
    (h : x >>= f = .ok b) : ∃ a, x = .ok a ∧ f a = .ok b := by
  cases x with
  | ok a => exact ⟨a, rfl, h⟩
  | error e => cases h

/-- So has one that translates its errors in between. -/
theorem exists_of_mapError_bind {ε' : Type} {x : Except ε α} {g : ε → ε'} {f : α → Except ε' β}
    {b : β} (h : x.mapError g >>= f = .ok b) : ∃ a, x = .ok a ∧ f a = .ok b := by
  cases x with
  | ok a => exact ⟨a, rfl, h⟩
  | error e => cases h

end Bind

end Ensures
