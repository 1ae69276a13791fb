import Mathlib.Algebra.BigOperators.Group.List.Basic
import Mathlib.Algebra.Order.BigOperators.Group.List
import Mathlib.Algebra.Order.Group.Int
import Mathlib.Data.List.Nodup

/-! # Insertion-ordered dictionaries

A dictionary keeps its bindings in the order in which the keys first arrived, as the
built-in mappings of scripting languages do. Every key is bound once by construction,
so lookups and sums over the bindings need no side condition. -/

/-- An insertion-ordered dictionary binding every key at most once. -/
structure OrdDict (κ : Type*) (ν : Type*) where
  entries : List (κ × ν)
  nodupKeys : (entries.map Prod.fst).Nodup

namespace OrdDict

variable {κ ν ω M : Type*}

@[ext] theorem ext {d e : OrdDict κ ν} (h : d.entries = e.entries) : d = e := by
  cases d
  cases e
  simpa using h

instance [DecidableEq κ] [DecidableEq ν] : DecidableEq (OrdDict κ ν) := fun d e =>
  decidable_of_iff (d.entries = e.entries) ⟨ext, fun h => h ▸ rfl⟩

/-! ## Operations -/

def empty : OrdDict κ ν := ⟨[], by simp⟩

def keys (d : OrdDict κ ν) : List κ := d.entries.map Prod.fst

def values (d : OrdDict κ ν) : List ν := d.entries.map Prod.snd

def size (d : OrdDict κ ν) : ℕ := d.entries.length

/-- Rewrite every value in place; the order of the keys does not change. -/
def mapValues (d : OrdDict κ ν) (f : κ → ν → ω) : OrdDict κ ω :=
  ⟨d.entries.map fun e => (e.1, f e.1 e.2), by
    simpa [Function.comp_def] using d.nodupKeys⟩

def filter (d : OrdDict κ ν) (p : κ → ν → Bool) : OrdDict κ ν :=
  ⟨d.entries.filter fun e => p e.1 e.2,
    (List.Sublist.map _ List.filter_sublist).nodup d.nodupKeys⟩

/-- Drop the binding that has been in the dictionary for longest. -/
def popFirst (d : OrdDict κ ν) : OrdDict κ ν :=
  ⟨d.entries.drop 1, (List.Sublist.map _ (List.drop_sublist _ _)).nodup d.nodupKeys⟩

variable [DecidableEq κ]

def get? (d : OrdDict κ ν) (k : κ) : Option ν :=
  (d.entries.find? fun e => decide (e.1 = k)).map Prod.snd

def contains (d : OrdDict κ ν) (k : κ) : Bool := decide (k ∈ d.keys)

def modify (d : OrdDict κ ν) (k : κ) (f : ν → ν) : OrdDict κ ν :=
  d.mapValues fun k' v => if k' = k then f v else v

def erase (d : OrdDict κ ν) (k : κ) : OrdDict κ ν := d.filter fun k' _ => decide (k' ≠ k)

/-- Bind a key that is absent, after every other binding. -/
def append (d : OrdDict κ ν) (k : κ) (v : ν) (h : k ∉ d.keys) : OrdDict κ ν :=
  ⟨d.entries ++ [(k, v)], by
    simp only [List.map_append, List.map_cons, List.map_nil]
    refine List.nodup_append.mpr ⟨d.nodupKeys, by simp, ?_⟩
    rintro a ha b hb rfl
    exact h (by simpa [keys, List.mem_singleton.mp hb] using ha)⟩

theorem not_mem_keys_erase (d : OrdDict κ ν) (k : κ) : k ∉ (d.erase k).keys := by
  simp [keys, erase, filter]

/-- Assignment: an existing key keeps its place, a new one goes to the end. -/
def insert (d : OrdDict κ ν) (k : κ) (v : ν) : OrdDict κ ν :=
  if h : k ∈ d.keys then d.modify k fun _ => v else d.append k v h

def moveToEnd (d : OrdDict κ ν) (k : κ) : OrdDict κ ν :=
  match d.get? k with
  | some v => (d.erase k).append k v (d.not_mem_keys_erase k)
  | none => d

/-- Bind the pairs of a list one after the other. -/
def ofList (xs : List (κ × ν)) : OrdDict κ ν := xs.foldl (fun d e => d.insert e.1 e.2) empty

/-! ## Lookups -/

@[simp] theorem get?_empty (k : κ) : (empty : OrdDict κ ν).get? k = none := rfl

theorem get?_eq_some_iff {d : OrdDict κ ν} {k : κ} {v : ν} :
    d.get? k = some v ↔ (k, v) ∈ d.entries := by
  simp only [get?, Option.map_eq_some_iff]
  constructor
  · rintro ⟨⟨k', v'⟩, hfind, rfl⟩
    have hk : k' = k := by simpa using List.find?_some hfind
    subst hk
    exact List.mem_of_find?_eq_some hfind
  · intro hmem
    cases hfind : d.entries.find? fun e => decide (e.1 = k) with
    | none =>
        have := List.find?_eq_none.mp hfind (k, v) hmem
        simp at this
    | some e =>
        have hk : e.1 = k := by simpa using List.find?_some hfind
        have he := List.inj_on_of_nodup_map d.nodupKeys
          (List.mem_of_find?_eq_some hfind) hmem hk
        exact ⟨e, rfl, by rw [he]⟩

theorem mem_keys_iff {d : OrdDict κ ν} {k : κ} : k ∈ d.keys ↔ ∃ v, d.get? k = some v := by
  simp [keys, get?_eq_some_iff]

theorem get?_eq_none_iff {d : OrdDict κ ν} {k : κ} : d.get? k = none ↔ k ∉ d.keys := by
  rw [mem_keys_iff]
  cases d.get? k <;> simp

@[simp] theorem contains_iff {d : OrdDict κ ν} {k : κ} :
    d.contains k = true ↔ ∃ v, d.get? k = some v := by
  simp [contains, mem_keys_iff]

@[simp] theorem get?_mapValues (d : OrdDict κ ν) (f : κ → ν → ω) (k : κ) :
    (d.mapValues f).get? k = (d.get? k).map (f k) := by
  ext w
  simp only [get?_eq_some_iff, mapValues, List.mem_map, Option.map_eq_some_iff, Prod.mk.injEq,
    Prod.exists]
  constructor
  · rintro ⟨k', v, hmem, rfl, rfl⟩
    exact ⟨v, hmem, rfl⟩
  · rintro ⟨v, hmem, rfl⟩
    exact ⟨k, v, hmem, rfl, rfl⟩

theorem get?_modify (d : OrdDict κ ν) (k : κ) (f : ν → ν) (k' : κ) :
    (d.modify k f).get? k' = if k' = k then (d.get? k').map f else d.get? k' := by
  rw [modify, get?_mapValues]
  by_cases h : k' = k <;> simp [h]

theorem get?_filter_eq_some {d : OrdDict κ ν} {p : κ → ν → Bool} {k : κ} {v : ν} :
    (d.filter p).get? k = some v ↔ d.get? k = some v ∧ p k v = true := by
  simp [get?_eq_some_iff, filter]

theorem get?_erase (d : OrdDict κ ν) (k k' : κ) :
    (d.erase k).get? k' = if k' = k then none else d.get? k' := by
  ext v
  rw [erase, get?_filter_eq_some]
  by_cases h : k' = k <;> simp [h]

theorem get?_append (d : OrdDict κ ν) (k : κ) (v : ν) (h : k ∉ d.keys) (k' : κ) :
    (d.append k v h).get? k' = if k' = k then some v else d.get? k' := by
  ext w
  by_cases hk : k' = k
  · subst hk
    have hno : (k', w) ∉ d.entries := fun hm => h (List.mem_map_of_mem hm)
    simp only [get?_eq_some_iff, append, List.mem_append, List.mem_singleton, Prod.mk.injEq,
      true_and, hno, false_or, ite_true, Option.some.injEq]
    exact eq_comm
  · simp [get?_eq_some_iff, append, hk]

theorem get?_insert (d : OrdDict κ ν) (k : κ) (v : ν) (k' : κ) :
    (d.insert k v).get? k' = if k' = k then some v else d.get? k' := by
  by_cases h : k ∈ d.keys
  · rw [insert, dif_pos h, get?_modify]
    obtain ⟨w, hw⟩ := mem_keys_iff.mp h
    by_cases hk : k' = k <;> simp [hk, hw]
  · rw [insert, dif_neg h, get?_append]

@[simp] theorem get?_insert_self (d : OrdDict κ ν) (k : κ) (v : ν) :
    (d.insert k v).get? k = some v := by simp [get?_insert]

@[simp] theorem get?_moveToEnd (d : OrdDict κ ν) (k k' : κ) :
    (d.moveToEnd k).get? k' = d.get? k' := by
  unfold moveToEnd
  split
  · rename_i v hv
    rw [get?_append, get?_erase]
    by_cases hk : k' = k <;> simp [hk, hv]
  · rfl

/-- A comprehension over a list of keys. -/
theorem get?_ofList_map (ks : List κ) (f : κ → ν) (k : κ) :
    (ofList (ks.map fun k => (k, f k))).get? k = if k ∈ ks then some (f k) else none := by
  have hloop : ∀ (ks : List κ) (d : OrdDict κ ν),
      ((ks.map fun k => (k, f k)).foldl (fun d e => d.insert e.1 e.2) d).get? k =
        if k ∈ ks then some (f k) else d.get? k := by
    intro ks
    induction ks with
    | nil => exact fun d => rfl
    | cons k' ks ih =>
        intro d
        rw [List.map_cons, List.foldl_cons, ih, get?_insert]
        by_cases hk : k = k'
        · simp [hk]
        · simp [hk]
  exact hloop ks empty

theorem mem_keys_insert {d : OrdDict κ ν} {k k' : κ} {v : ν} :
    k' ∈ (d.insert k v).keys ↔ k' = k ∨ k' ∈ d.keys := by
  simp only [mem_keys_iff, get?_insert]
  by_cases h : k' = k <;> simp [h]

theorem mem_keys_modify {d : OrdDict κ ν} {k k' : κ} {f : ν → ν} :
    k' ∈ (d.modify k f).keys ↔ k' ∈ d.keys := by
  simp [modify, mapValues, keys]

theorem mem_keys_erase {d : OrdDict κ ν} {k k' : κ} :
    k' ∈ (d.erase k).keys ↔ k' ≠ k ∧ k' ∈ d.keys := by
  simp only [mem_keys_iff, get?_erase]
  by_cases h : k' = k <;> simp [h]

theorem mem_values_iff {d : OrdDict κ ν} {v : ν} :
    v ∈ d.values ↔ ∃ k, d.get? k = some v := by
  simp [values, get?_eq_some_iff]

theorem modify_modify (d : OrdDict κ ν) (k : κ) (f g : ν → ν) :
    (d.modify k f).modify k g = d.modify k fun v => g (f v) := by
  apply ext
  simp only [modify, mapValues, List.map_map]
  apply List.map_congr_left
  intro e _
  by_cases he : e.1 = k <;> simp [he]

theorem modify_congr {d : OrdDict κ ν} {k : κ} {f g : ν → ν}
    (h : ∀ v, d.get? k = some v → f v = g v) : d.modify k f = d.modify k g := by
  apply ext
  simp only [modify, mapValues]
  apply List.map_congr_left
  rintro ⟨k', v⟩ he
  by_cases hk : k' = k
  · subst hk
    simp [h v (get?_eq_some_iff.mpr he)]
  · simp [hk]

/-- Rewriting the value of every key in turn rewrites all values. -/
theorem foldl_modify_keys (d : OrdDict κ ν) (f : ν → ν) :
    d.keys.foldl (fun d k => d.modify k f) d = d.mapValues fun _ v => f v := by
  have hloop : ∀ (ks : List κ), ks.Nodup → ∀ d₀ : OrdDict κ ν,
      ks.foldl (fun d k => d.modify k f) d₀ =
        d₀.mapValues fun k v => if k ∈ ks then f v else v := by
    intro ks
    induction ks with
    | nil =>
        intro _ d₀
        apply ext
        simp [mapValues]
    | cons k ks ih =>
        intro hnodup d₀
        obtain ⟨hnot, hrest⟩ := List.nodup_cons.mp hnodup
        rw [List.foldl_cons, ih hrest]
        apply ext
        simp only [modify, mapValues, List.map_map]
        apply List.map_congr_left
        rintro ⟨k', v⟩ _
        by_cases hk : k' = k
        · subst hk
          simp [hnot]
        · simp [hk]
  rw [hloop d.keys d.nodupKeys]
  apply ext
  simp only [mapValues]
  apply List.map_congr_left
  intro e he
  have hmem : e.1 ∈ d.keys := List.mem_map_of_mem he
  simp [hmem]

theorem modify_eq_self {d : OrdDict κ ν} {k : κ} {f : ν → ν}
    (h : ∀ v, d.get? k = some v → f v = v) : d.modify k f = d := by
  apply ext
  simp only [modify, mapValues]
  rw [List.map_congr_left (g := id), List.map_id]
  rintro ⟨k', v⟩ he
  by_cases hk : k' = k
  · subst hk
    simp [h v (get?_eq_some_iff.mpr he)]
  · simp [hk]

/-! ## Sums over the bindings -/

section Sum

variable [AddCommMonoid M]

def sum (d : OrdDict κ ν) (f : κ → ν → M) : M := (d.entries.map fun e => f e.1 e.2).sum

omit [DecidableEq κ] in
@[simp] theorem sum_empty (f : κ → ν → M) : (empty : OrdDict κ ν).sum f = 0 := rfl

theorem sum_congr {d : OrdDict κ ν} {f g : κ → ν → M}
    (h : ∀ k v, d.get? k = some v → f k v = g k v) : d.sum f = d.sum g := by
  unfold sum
  congr 1
  exact List.map_congr_left fun e he => h e.1 e.2 (get?_eq_some_iff.mpr he)

omit [DecidableEq κ] in
theorem sum_mapValues (d : OrdDict κ ν) (g : κ → ν → ω) (f : κ → ω → M) :
    (d.mapValues g).sum f = d.sum fun k v => f k (g k v) := by
  simp [sum, mapValues, Function.comp_def]

/-- Splitting off one binding. -/
theorem sum_erase_add {d : OrdDict κ ν} {k : κ} {v : ν} (h : d.get? k = some v)
    (f : κ → ν → M) : (d.erase k).sum f + f k v = d.sum f := by
  obtain ⟨entries, nodup⟩ := d
  rw [get?_eq_some_iff] at h
  simp only [sum, erase, filter]
  induction entries with
  | nil => simp at h
  | cons e rest ih =>
      have hrest : (rest.map Prod.fst).Nodup := (List.nodup_cons.mp nodup).2
      have hnot : e.1 ∉ rest.map Prod.fst := (List.nodup_cons.mp nodup).1
      by_cases he : e.1 = k
      · have hv : e = (k, v) := by
          rcases List.mem_cons.mp h with heq | hmem
          · exact heq.symm
          · exact absurd (he ▸ List.mem_map_of_mem hmem) hnot
        have hkeep : rest.filter (fun e => decide (e.1 ≠ k)) = rest := by
          apply List.filter_eq_self.mpr
          intro a ha
          simp only [ne_eq, decide_not, Bool.not_eq_eq_eq_not, Bool.not_true,
            decide_eq_false_iff_not]
          rintro rfl
          exact hnot (he ▸ List.mem_map_of_mem ha)
        subst hv
        simp only [ne_eq, not_true_eq_false, decide_false, Bool.false_eq_true,
          not_false_eq_true, List.filter_cons_of_neg, List.map_cons, List.sum_cons]
        rw [hkeep, add_comm]
      · have hmem : (k, v) ∈ rest := by
          rcases List.mem_cons.mp h with heq | hmem
          · exact absurd (by rw [← heq]) he
          · exact hmem
        have := ih hrest hmem
        simp only [ne_eq, he, not_false_eq_true, decide_true, List.filter_cons_of_pos,
          List.map_cons, List.sum_cons]
        rw [add_assoc, this]

theorem erase_of_get?_eq_none {d : OrdDict κ ν} {k : κ} (h : d.get? k = none) : d.erase k = d := by
  apply ext
  refine List.filter_eq_self.mpr fun e he => ?_
  have hne : e.1 ≠ k := by
    rintro rfl
    exact get?_eq_none_iff.mp h (List.mem_map_of_mem he)
  simpa using hne

omit [DecidableEq κ] in
theorem sum_append (d : OrdDict κ ν) (k : κ) (v : ν) (h : k ∉ d.keys) (f : κ → ν → M) :
    (d.append k v h).sum f = d.sum f + f k v := by
  simp [sum, append]

theorem erase_modify (d : OrdDict κ ν) (k : κ) (g : ν → ν) :
    (d.modify k g).erase k = d.erase k := by
  apply ext
  simp only [erase, filter, modify, mapValues, List.filter_map, Function.comp_def]
  rw [List.map_congr_left (g := id), List.map_id]
  intro e he
  have : ¬ e.1 = k := by simpa using (List.mem_filter.mp he).2
  simp [this]

/-- Rewriting one value moves the sum by the difference of its two contributions. -/
theorem sum_modify_add {d : OrdDict κ ν} {k : κ} {v : ν} (h : d.get? k = some v) (g : ν → ν)
    (f : κ → ν → M) : (d.modify k g).sum f + f k v = d.sum f + f k (g v) := by
  have h' : (d.modify k g).get? k = some (g v) := by simp [get?_modify, h]
  rw [← sum_erase_add h f, ← sum_erase_add h' f, erase_modify]
  exact add_right_comm _ _ _

/-- Rewriting a value without changing its contribution keeps the sum. -/
theorem sum_modify_of_eq {d : OrdDict κ ν} {k : κ} {g : ν → ν} {f : κ → ν → M}
    (hf : ∀ v, f k (g v) = f k v) : (d.modify k g).sum f = d.sum f := by
  rw [modify, sum_mapValues]
  refine sum_congr fun k' v _ => ?_
  split
  · next heq => exact heq ▸ hf v
  · rfl

theorem sum_insert_new {d : OrdDict κ ν} {k : κ} (h : d.get? k = none) (v : ν)
    (f : κ → ν → M) : (d.insert k v).sum f = d.sum f + f k v := by
  rw [insert, dif_neg (get?_eq_none_iff.mp h), sum_append]

theorem sum_insert_add {d : OrdDict κ ν} {k : κ} {w : ν} (h : d.get? k = some w) (v : ν)
    (f : κ → ν → M) : (d.insert k v).sum f + f k w = d.sum f + f k v := by
  rw [insert, dif_pos (mem_keys_iff.mpr ⟨w, h⟩)]
  exact sum_modify_add h (fun _ => v) f

/-- An insertion, whether or not it replaces a binding. -/
theorem sum_insert (d : OrdDict κ ν) (k : κ) (v : ν) (f : κ → ν → M) :
    (d.insert k v).sum f = (d.erase k).sum f + f k v := by
  have herase : (d.insert k v).erase k = d.erase k := by
    unfold insert
    split
    · exact erase_modify d k _
    · next hk =>
        refine ext ?_
        unfold erase filter append
        simp
  rw [← sum_erase_add (get?_insert_self d k v) f, herase]

/-- A sum does not depend on the order of the bindings. -/
theorem sum_eq_of_get? {d e : OrdDict κ ν} (h : ∀ k, d.get? k = e.get? k) (f : κ → ν → M) :
    d.sum f = e.sum f := by
  have hnodup : ∀ d : OrdDict κ ν, d.entries.Nodup := fun d => .of_map Prod.fst d.nodupKeys
  have hperm : d.entries.Perm e.entries := by
    rw [List.perm_ext_iff_of_nodup (hnodup d) (hnodup e)]
    intro entry
    rw [← get?_eq_some_iff, ← get?_eq_some_iff, h]
  exact (hperm.map _).sum_eq

theorem sum_moveToEnd (d : OrdDict κ ν) (k : κ) (f : κ → ν → M) :
    (d.moveToEnd k).sum f = d.sum f := by
  rw [moveToEnd]
  split
  · next v hv => rw [sum_append, sum_erase_add hv]
  · rfl

theorem sum_le_sum {M : Type*} [AddCommMonoid M] [PartialOrder M] [IsOrderedAddMonoid M]
    {d : OrdDict κ ν} {f g : κ → ν → M} (h : ∀ k v, d.get? k = some v → f k v ≤ g k v) :
    d.sum f ≤ d.sum g :=
  List.sum_le_sum fun e he => h e.1 e.2 (get?_eq_some_iff.mpr he)

end Sum

/-! ## Sizes -/

omit [DecidableEq κ] in
theorem size_eq_sum (d : OrdDict κ ν) : d.size = d.sum fun _ _ => 1 := by
  simp [size, sum]

theorem size_moveToEnd (d : OrdDict κ ν) (k : κ) : (d.moveToEnd k).size = d.size := by
  rw [size_eq_sum, size_eq_sum, sum_moveToEnd]

theorem size_erase_le (d : OrdDict κ ν) (k : κ) : (d.erase k).size ≤ d.size :=
  List.length_filter_le ..

omit [DecidableEq κ] in
theorem size_popFirst (d : OrdDict κ ν) : d.popFirst.size = d.size - 1 := by
  simp [size, popFirst]

omit [DecidableEq κ] in
theorem mem_keys_of_popFirst {d : OrdDict κ ν} {k : κ} (h : k ∈ d.popFirst.keys) :
    k ∈ d.keys :=
  ((List.drop_sublist 1 d.entries).map Prod.fst).subset h

/-- The first binding is the one that goes. -/
theorem popFirst_eq_erase {d : OrdDict κ ν} {k : κ} {v : ν} {rest : List (κ × ν)}
    (h : d.entries = (k, v) :: rest) : d.popFirst = d.erase k := by
  have hnodup := d.nodupKeys
  rw [h, List.map_cons] at hnodup
  apply ext
  change d.entries.drop 1 = d.entries.filter fun e => decide (e.1 ≠ k)
  rw [h, List.drop_one, List.tail_cons, List.filter_cons_of_neg (by simp)]
  refine (List.filter_eq_self.mpr fun e he => ?_).symm
  have hmem : e.1 ∈ rest.map Prod.fst := List.mem_map_of_mem he
  have hne : e.1 ≠ k := ne_of_mem_of_not_mem hmem (List.nodup_cons.mp hnodup).1
  simpa using hne

theorem mem_keys_moveToEnd {d : OrdDict κ ν} {k k' : κ} :
    k' ∈ (d.moveToEnd k).keys ↔ k' ∈ d.keys := by
  rw [mem_keys_iff, mem_keys_iff, get?_moveToEnd]

end OrdDict
