import Mathlib.Data.Fintype.Card
import Mathlib.Data.Set.Finite.Basic
import Mathlib.Logic.Relation

/-! # Acyclic relations

A relation without cycles on finitely many elements supports induction along its edges. -/

/-- No element reaches itself. -/
def Acyclic {α : Type*} (r : α → α → Prop) : Prop := ∀ a, ¬ Relation.TransGen r a a

namespace Acyclic

variable {α : Type*} {r : α → α → Prop}

/-- Nothing precedes an element that reaches everything. -/
theorem not_edge_root (h : Acyclic r) {root a : α} (hreach : Relation.ReflTransGen r root a) :
    ¬ r a root := fun hedge => h root (.tail' hreach hedge)

end Acyclic
