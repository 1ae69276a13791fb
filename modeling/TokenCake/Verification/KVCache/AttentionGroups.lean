import TokenCake.Verification.KVCache.Longest

/-! # Attention groups

The groups of one spec are looked up together: their hit is a list of rows, and the hit of a group
is a column of it. -/

namespace TokenCake.KV

variable {η : Type} [DecidableEq η]

/-! ## Grouping by spec -/

/-- The attention groups of the specs and indices seen so far. -/
structure Grouped (items : List (KVCacheSpec × ℕ)) (groups : List AttentionGroup) : Prop where
  nodup : (groups.map (·.spec)).Nodup
  groupIds : ∀ g ∈ groups, g.groupIds = (items.filter fun e => e.1 = g.spec).map (·.2)
  nonempty : ∀ g ∈ groups, g.groupIds ≠ []
  covers : ∀ e ∈ items, ∃ g ∈ groups, g.spec = e.1

theorem Grouped.addGroup {items : List (KVCacheSpec × ℕ)} {groups : List AttentionGroup}
    (h : Grouped items groups) (spec : KVCacheSpec) (i : ℕ) :
    Grouped (items ++ [(spec, i)]) (addGroup groups spec i) := by
  unfold KV.addGroup
  split
  · next hany =>
      have hspecs : (groups.map fun g =>
          if g.spec = spec then { g with groupIds := g.groupIds ++ [i] } else g).map (·.spec) =
            groups.map (·.spec) := by
        rw [List.map_map]
        apply List.map_congr_left
        intro g _
        dsimp only [Function.comp]
        split <;> rfl
      refine ⟨hspecs ▸ h.nodup, ?_, ?_, ?_⟩
      · intro g' hg'
        obtain ⟨g, hg, rfl⟩ := List.mem_map.mp hg'
        split
        · next hspec => simp [h.groupIds g hg, hspec, List.filter_append]
        · next hspec => simp [h.groupIds g hg, List.filter_append, Ne.symm hspec]
      · intro g' hg'
        obtain ⟨g, hg, rfl⟩ := List.mem_map.mp hg'
        split
        · simp
        · exact h.nonempty g hg
      · -- Adding an id keeps the specs of the groups.
        have hmem : ∀ s, (∃ g ∈ groups, g.spec = s) → ∃ g ∈ groups.map fun g =>
            if g.spec = spec then { g with groupIds := g.groupIds ++ [i] } else g, g.spec = s := by
          intro s hs
          have : s ∈ groups.map (·.spec) := List.mem_map.mpr hs
          rw [← hspecs] at this
          exact List.mem_map.mp this
        intro e he
        rcases List.mem_append.mp he with he | he
        · exact hmem _ (h.covers e he)
        · obtain rfl := List.mem_singleton.mp he
          obtain ⟨g, hg, hspec⟩ := List.any_eq_true.mp hany
          exact hmem _ ⟨g, hg, of_decide_eq_true hspec⟩
  · next hany =>
      have hnew : ∀ g ∈ groups, g.spec ≠ spec := by
        intro g hg hspec
        exact hany (List.any_eq_true.mpr ⟨g, hg, decide_eq_true hspec⟩)
      have hfresh : items.filter (fun e => decide (e.1 = spec)) = [] := by
        rw [List.filter_eq_nil_iff]
        intro e he hspec
        obtain ⟨g, hg, hgs⟩ := h.covers e he
        exact hnew g hg (hgs.trans (of_decide_eq_true hspec))
      refine ⟨?_, ?_, ?_, ?_⟩
      · rw [List.map_append, List.nodup_append]
        refine ⟨h.nodup, List.nodup_singleton _, ?_⟩
        intro s hs s' hs' heq
        obtain ⟨g, hg, rfl⟩ := List.mem_map.mp hs
        exact hnew g hg (heq.trans (List.mem_singleton.mp hs'))
      · intro g hg
        rcases List.mem_append.mp hg with hg | hg
        · simp [h.groupIds g hg, List.filter_append, Ne.symm (hnew g hg)]
        · obtain rfl := List.mem_singleton.mp hg
          simp [List.filter_append, hfresh]
      · intro g hg
        rcases List.mem_append.mp hg with hg | hg
        · exact h.nonempty g hg
        · obtain rfl := List.mem_singleton.mp hg
          simp
      · intro e he
        rcases List.mem_append.mp he with he | he
        · obtain ⟨g, hg, hspec⟩ := h.covers e he
          exact ⟨g, List.mem_append_left _ hg, hspec⟩
        · obtain rfl := List.mem_singleton.mp he
          exact ⟨_, List.mem_append_right _ (List.mem_singleton_self _), rfl⟩

theorem Grouped.foldl {items : List (KVCacheSpec × ℕ)} {groups : List AttentionGroup}
    (h : Grouped items groups) (more : List (KVCacheSpec × ℕ)) :
    Grouped (items ++ more) (more.foldl (fun groups e => KV.addGroup groups e.1 e.2) groups) := by
  induction more generalizing items groups with
  | nil => rwa [List.append_nil]
  | cons e more ih =>
      rw [List.foldl_cons, List.append_cons]
      exact ih (h.addGroup e.1 e.2)

theorem Grouped.perm {items : List (KVCacheSpec × ℕ)} {groups groups' : List AttentionGroup}
    (h : Grouped items groups) (hperm : groups'.Perm groups) : Grouped items groups' where
  nodup := (hperm.map _).nodup_iff.mpr h.nodup
  groupIds := fun g hg => h.groupIds g (hperm.mem_iff.mp hg)
  nonempty := fun g hg => h.nonempty g (hperm.mem_iff.mp hg)
  covers := fun e he => by
    obtain ⟨g, hg, hspec⟩ := h.covers e he
    exact ⟨g, hperm.mem_iff.mpr hg, hspec⟩

theorem attentionGroups_grouped (specs : List KVCacheSpec) :
    Grouped specs.zipIdx (attentionGroups specs) := by
  have hempty : Grouped [] [] := by
    refine ⟨List.nodup_nil, ?_, ?_, ?_⟩
    · intro g hg
      cases hg
    · intro g hg
      cases hg
    · intro e he
      cases he
  have hgroups := hempty.foldl specs.zipIdx
  rw [List.nil_append] at hgroups
  exact hgroups.perm (List.filter_append_perm ..)

section Specs

variable {specs : List KVCacheSpec} {g g' : AttentionGroup} {i j : ℕ}

theorem attentionGroups_nodup (specs : List KVCacheSpec) : (attentionGroups specs).Nodup :=
  (attentionGroups_grouped specs).nodup.of_map _

theorem mem_groupIds (hg : g ∈ attentionGroups specs) :
    i ∈ g.groupIds ↔ specs[i]? = some g.spec := by
  rw [(attentionGroups_grouped specs).groupIds g hg, List.mem_map]
  constructor
  · rintro ⟨e, he, rfl⟩
    obtain ⟨hmem, hspec⟩ := List.mem_filter.mp he
    rw [← of_decide_eq_true hspec]
    exact List.mem_zipIdx_iff_getElem?.mp hmem
  · intro hspec
    exact ⟨(g.spec, i), List.mem_filter.mpr
      ⟨List.mem_zipIdx_iff_getElem?.mpr hspec, decide_eq_true rfl⟩, rfl⟩

theorem exists_attentionGroup {spec : KVCacheSpec} (hspec : specs[i]? = some spec) :
    ∃ g ∈ attentionGroups specs, g.spec = spec ∧ i ∈ g.groupIds := by
  obtain ⟨g, hg, hgs⟩ := (attentionGroups_grouped specs).covers (spec, i)
    (List.mem_zipIdx_iff_getElem?.mpr hspec)
  exact ⟨g, hg, hgs, (mem_groupIds hg).mpr (hgs ▸ hspec)⟩

theorem spec_mem_of_mem_attentionGroups (hg : g ∈ attentionGroups specs) : g.spec ∈ specs := by
  obtain ⟨i, hi⟩ := List.exists_mem_of_ne_nil _ ((attentionGroups_grouped specs).nonempty g hg)
  exact List.mem_of_getElem? ((mem_groupIds hg).mp hi)

theorem eq_of_mem_groupIds (hg : g ∈ attentionGroups specs) (hg' : g' ∈ attentionGroups specs)
    (hi : i ∈ g.groupIds) (hi' : i ∈ g'.groupIds) : g = g' := by
  have hspec : g.spec = g'.spec := by
    have := ((mem_groupIds hg).mp hi).symm.trans ((mem_groupIds hg').mp hi')
    exact Option.some.inj this
  exact List.inj_on_of_nodup_map (attentionGroups_grouped specs).nodup hg hg' hspec

/-- Full attention comes first. -/
theorem isFullAttention_of_le (hg : (attentionGroups specs)[i]? = some g)
    (hg' : (attentionGroups specs)[j]? = some g') (hij : i ≤ j)
    (hfull : g'.spec.isFullAttention = true) : g.spec.isFullAttention = true := by
  unfold attentionGroups at hg hg'
  rw [List.getElem?_append] at hg hg'
  split at hg
  · exact (List.mem_filter.mp (List.mem_of_getElem? hg)).2
  · rw [if_neg (by omega)] at hg'
    have := (List.mem_filter.mp (List.mem_of_getElem? hg')).2
    rw [hfull] at this
    cases this

end Specs

/-! ## Rows and columns -/

theorem mapM_eq_some_iff {α β : Type} (f : α → Option β) (xs : List α) (ys : List β) :
    xs.mapM f = some ys ↔ xs.map f = ys.map some := by
  induction xs generalizing ys with
  | nil => cases ys <;> simp
  | cons x xs ih =>
      cases ys with
      | nil => simp [List.mapM_cons, Option.bind_eq_some_iff]
      | cons y ys =>
          rw [List.map_cons, List.map_cons, List.cons.injEq, ← ih]
          simp [List.mapM_cons, Option.bind_eq_some_iff]

theorem isSome_mapM_iff {α β : Type} (f : α → Option β) (xs : List α) :
    (xs.mapM f).isSome = true ↔ ∀ x ∈ xs, (f x).isSome = true := by
  induction xs with
  | nil => simp
  | cons x xs ih =>
      rw [List.forall_mem_cons, ← ih, List.mapM_cons]
      cases f x <;> cases xs.mapM f <;> simp

/-- The entry for an id is what the lookup of the id gave. -/
theorem getD_idxOf_of_mapM {β : Type} {f : ℕ → Option β} {xs : List ℕ} {ys : List β} {x : ℕ}
    {d : β} (h : xs.mapM f = some ys) (hx : x ∈ xs) : f x = some (ys.getD (xs.idxOf x) d) := by
  have hmap := (mapM_eq_some_iff f xs ys).mp h
  have hlt := List.idxOf_lt_length_of_mem hx
  have hlength : xs.length = ys.length := by simpa using congrArg List.length hmap
  have := congrArg (·[xs.idxOf x]?) hmap
  simp only [List.getElem?_map, List.getElem?_eq_getElem hlt,
    List.getElem?_eq_getElem (hlength ▸ hlt), Option.map_some, List.getElem_idxOf] at this
  rw [Option.some.inj this, List.getD_eq_getElem?_getD, List.getElem?_eq_getElem (hlength ▸ hlt),
    Option.getD_some]

/-- The hit of a group is its column of the rows of its attention group. -/
theorem groupHits_eq {groups : List AttentionGroup} {found : List (Option (List Row))}
    {rows : List Row} {g : AttentionGroup} {i k : ℕ} (hnodup : groups.Nodup)
    (honly : ∀ g' ∈ groups, i ∈ g'.groupIds → g' = g) (hg : groups[k]? = some g)
    (hrows : found[k]? = some (some rows)) (hi : i ∈ g.groupIds) :
    KVCacheManager.groupHits groups found i = rows.map (·.getD (g.groupIds.idxOf i) nullBlock) := by
  induction groups generalizing found k with
  | nil => cases hg
  | cons g' groups ih =>
      cases found with
      | nil => cases hrows
      | cons first found =>
          cases k with
          | zero =>
              obtain rfl := Option.some.inj hg
              obtain rfl := Option.some.inj hrows
              have hidx : g'.groupIds.idxOf? i = some (g'.groupIds.idxOf i) := by
                obtain ⟨j, hj⟩ := Option.isSome_iff_exists.mp (List.isSome_idxOf?.mpr hi)
                rw [List.idxOf_eq_getD_idxOf?, hj, Option.getD_some]
              simp [KVCacheManager.groupHits, hidx]
          | succ k =>
              have hne : i ∉ g'.groupIds := by
                intro hmem
                obtain rfl := honly g' List.mem_cons_self hmem
                exact (List.nodup_cons.mp hnodup).1 (List.mem_of_getElem? hg)
              have := ih (List.nodup_cons.mp hnodup).2
                (fun g'' hg'' => honly g'' (List.mem_cons_of_mem _ hg'')) hg hrows
              rw [← this]
              simp [KVCacheManager.groupHits, List.idxOf?_eq_none_iff.mpr hne]

/-- The hit of a group is a column of the rows of an attention group, if there are any. -/
theorem groupHits_column (groups : List AttentionGroup) (found : List (Option (List Row))) (i : ℕ) :
    KVCacheManager.groupHits groups found i = [] ∨ ∃ (idx : ℕ) (group : AttentionGroup) (rows : List Row) (j : ℕ),
      groups[idx]? = some group ∧ found[idx]? = some (some rows) ∧ group.groupIds[j]? = some i ∧
        KVCacheManager.groupHits groups found i = rows.map (·.getD j nullBlock) := by
  unfold KVCacheManager.groupHits
  cases hfind : (groups.zip found).findSome? fun item =>
      (item.1.groupIds.idxOf? i).map fun j => (item.2.getD []).map (·.getD j nullBlock) with
  | none => exact .inl rfl
  | some blocks =>
      obtain ⟨⟨group, rows⟩, hmem, hmap⟩ := List.exists_of_findSome?_eq_some hfind
      obtain ⟨j, hj, rfl⟩ := Option.map_eq_some_iff.mp hmap
      obtain ⟨idx, hidx⟩ := List.mem_iff_getElem?.mp hmem
      obtain ⟨hgroup, hrows⟩ := List.getElem?_zip_eq_some.mp hidx
      obtain ⟨hlt, hid, -⟩ := List.idxOf?_eq_some_iff.mp hj
      cases rows with
      | none => exact .inl rfl
      | some rows =>
          exact .inr ⟨idx, group, rows, j, hgroup, hrows, hid ▸ List.getElem?_eq_getElem hlt, rfl⟩

theorem groupHits_cases (groups : List AttentionGroup) (found : List (Option (List Row))) (i : ℕ) :
    KVCacheManager.groupHits groups found i = [] ∨ ∃ (idx : ℕ) (group : AttentionGroup) (rows : List Row) (j : ℕ),
      groups[idx]? = some group ∧ found[idx]? = some (some rows) ∧ j < group.groupIds.length ∧
        KVCacheManager.groupHits groups found i = rows.map (·.getD j nullBlock) := by
  rcases groupHits_column groups found i with hnil | ⟨idx, group, rows, j, hgroup, hrows, hj, heq⟩
  · exact .inl hnil
  · exact .inr ⟨idx, group, rows, j, hgroup, hrows, (List.getElem?_eq_some_iff.mp hj).1, heq⟩

end TokenCake.KV
