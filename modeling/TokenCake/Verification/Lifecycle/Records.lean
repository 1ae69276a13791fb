import TokenCake.Model.Lifecycle
import TokenCake.Verification.CPUManager.Accounts

/-! # Records of the lifecycle registry

What a well-formed record is, how a record may evolve, and how releasing, terminating and
expiring records keeps the references of the registry backed by the CPU manager. -/

namespace TokenCake.Offload

variable {κ σ : Type*}

/-! ## One record -/

namespace Lifecycle

/-- The invariant of a record. A released record owns nothing, and a terminal record is
released and waits for no evaluation. -/
structure WellFormed (record : Lifecycle κ σ) : Prop where
  cause_iff : record.terminalCause.isSome = record.terminalAt.isSome
  started_iff : record.start.isSome = record.startedAt.isSome
  terminal : record.terminalAt.isSome = true →
    record.ownershipReleased = true ∧ record.snapshot = none ∧ record.pendingEvaluation = false
  released : record.ownershipReleased = true →
    record.retained = [] ∧ record.pendingRetention = []

/-- `later` is the same lifecycle as `record` at a later moment. -/
structure Evolves (record later : Lifecycle κ σ) : Prop where
  metadata : later.metadata = record.metadata
  terminal : record.terminalAt.isSome = true →
    later.terminalAt = record.terminalAt ∧ later.terminalCause = record.terminalCause
  released : record.ownershipReleased = true → later.ownershipReleased = true

theorem Evolves.refl (record : Lifecycle κ σ) : record.Evolves record :=
  ⟨rfl, fun _ => ⟨rfl, rfl⟩, id⟩

theorem Evolves.trans {a b c : Lifecycle κ σ} (hab : a.Evolves b) (hbc : b.Evolves c) :
    a.Evolves c where
  metadata := hbc.metadata.trans hab.metadata
  terminal h := by
    obtain ⟨hat, hcause⟩ := hab.terminal h
    obtain ⟨hat', hcause'⟩ := hbc.terminal (hat ▸ h)
    exact ⟨hat'.trans hat, hcause'.trans hcause⟩
  released h := hbc.released (hab.released h)

end Lifecycle

namespace LifecycleRegistry

open Lifecycle

theorem wellFormed_new (metadata : TokenCakeMetadata) :
    ({ metadata := metadata } : Lifecycle κ σ).WellFormed :=
  ⟨rfl, rfl, by simp, by simp⟩

theorem wellFormed_clearOwnership {record : Lifecycle κ σ} (h : record.WellFormed) :
    (clearOwnership record).WellFormed :=
  ⟨h.cause_iff, h.started_iff, fun ht => ⟨rfl, (h.terminal ht).2⟩, fun _ => ⟨rfl, rfl⟩⟩

theorem evolves_clearOwnership (record : Lifecycle κ σ) :
    record.Evolves (clearOwnership record) :=
  ⟨rfl, fun _ => ⟨rfl, rfl⟩, fun _ => rfl⟩

/-- A record ends released and terminal. -/
def endRecord (cause : TerminalCause) (now : ℚ) (record : Lifecycle κ σ) : Lifecycle κ σ :=
  markTerminal cause now (clearOwnership record)

theorem wellFormed_endRecord {record : Lifecycle κ σ} (h : record.WellFormed)
    (cause : TerminalCause) (now : ℚ) : (endRecord cause now record).WellFormed :=
  ⟨rfl, h.started_iff, fun _ => ⟨rfl, rfl, rfl⟩, fun _ => ⟨rfl, rfl⟩⟩

theorem evolves_endRecord {record : Lifecycle κ σ} (h : record.terminalAt.isSome = false)
    (cause : TerminalCause) (now : ℚ) : record.Evolves (endRecord cause now record) :=
  ⟨rfl, fun ht => by simp [h] at ht, fun _ => rfl⟩

/-- What `expire` makes of one record; `none` when its tombstone has served its time. -/
def settle (now : ℚ) (record : Lifecycle κ σ) : Option (Lifecycle κ σ) :=
  match record.terminalAt, record.startedAt, record.completedAt with
  | some terminalAt, _, _ => if terminalAt + tombstoneSeconds ≤ now then none else some record
  | none, some _, _ =>
      if record.safetyDeadline ≤ now then some (endRecord .expired now record)
      else if record.releaseDeadline ≤ now then some (clearOwnership record)
      else some record
  | none, none, some completedAt =>
      if completedAt + attachSeconds ≤ now then some (endRecord .expired now record)
      else some record
  | none, none, none => some record

theorem settle_spec {now : ℚ} {record later : Lifecycle κ σ} (h : record.WellFormed)
    (hsettle : settle now record = some later) :
    later.WellFormed ∧ record.Evolves later := by
  unfold settle at hsettle
  split at hsettle
  · split at hsettle
    · cases hsettle
    · cases hsettle
      exact ⟨h, .refl _⟩
  · rename_i hlive _
    split_ifs at hsettle
    · cases hsettle
      exact ⟨wellFormed_endRecord h _ _, evolves_endRecord (by simp [hlive]) _ _⟩
    · cases hsettle
      exact ⟨wellFormed_clearOwnership h, evolves_clearOwnership _⟩
    · cases hsettle
      exact ⟨h, .refl _⟩
  · rename_i hlive _ _
    split_ifs at hsettle
    · cases hsettle
      exact ⟨wellFormed_endRecord h _ _, evolves_endRecord (by simp [hlive]) _ _⟩
    · cases hsettle
      exact ⟨h, .refl _⟩
  · cases hsettle
    exact ⟨h, .refl _⟩

/-- At one moment a record settles once. -/
theorem settle_idem {now : ℚ} {record later : Lifecycle κ σ}
    (hsettle : settle now record = some later) : settle now later = some later := by
  unfold settle at hsettle
  split at hsettle
  · rename_i terminalAt _ _ hterminal
    split at hsettle
    · cases hsettle
    · rename_i hyoung
      cases hsettle
      simp [settle, hterminal, hyoung]
  · rename_i hlive hstarted
    split_ifs at hsettle with hsafety hrelease
    · cases hsettle
      simp [settle, endRecord, markTerminal, tombstoneSeconds]
    · cases hsettle
      simp [settle, clearOwnership, hlive, hstarted, hsafety, hrelease]
    · cases hsettle
      simp [settle, hlive, hstarted, hsafety, hrelease]
  · rename_i hlive hstarted hcompleted
    split_ifs at hsettle with hold
    · cases hsettle
      simp [settle, endRecord, markTerminal, tombstoneSeconds]
    · cases hsettle
      simp [settle, hlive, hstarted, hcompleted, hold]
  · rename_i hlive hstarted hcompleted
    cases hsettle
    simp [settle, hlive, hstarted, hcompleted]

/-! ## The references of the registry -/

/-- What the operations on records leave alone. -/
structure Frame (r r' : LifecycleRegistry κ σ) : Prop where
  settings : r'.settings = r.settings
  manager : r'.manager.isSome = r.manager.isSome
  generations : r'.generations = r.generations
  history : r'.history = r.history

theorem Frame.refl (r : LifecycleRegistry κ σ) : Frame r r := ⟨rfl, rfl, rfl, rfl⟩

theorem Frame.trans {r r' r'' : LifecycleRegistry κ σ} (h : Frame r r') (h' : Frame r' r'') :
    Frame r r'' :=
  ⟨h'.settings.trans h.settings, h'.manager.trans h.manager,
    h'.generations.trans h.generations, h'.history.trans h.history⟩

theorem get?_modifyRecord (r : LifecycleRegistry κ σ) (id : String)
    (f : Lifecycle κ σ → Lifecycle κ σ) (id' : String) :
    (r.modifyRecord id f).records.get? id' =
      if id' = id then (r.records.get? id').map f else r.records.get? id' :=
  OrdDict.get?_modify ..

variable [DecidableEq κ]

/-- The number of records that retain `key`. -/
def retainers (r : LifecycleRegistry κ σ) (key : κ) : ℤ :=
  r.records.sum fun _ record => if key ∈ record.retained then 1 else 0

/-- Every record is well formed, and the CPU manager backs the references of the records
and the `others` that its remaining clients hold. -/
structure Backed (r : LifecycleRegistry κ σ) (others : κ → ℤ) : Prop where
  wellFormed : ∀ id record, r.records.get? id = some record → record.WellFormed
  nonneg : ∀ k, 0 ≤ others k
  accounts : ∀ m, r.manager = some m → m.Accounts fun k => r.retainers k + others k
  unmanaged : r.manager = none → ∀ id record, r.records.get? id = some record →
    record.retained = []

theorem retainers_modifyRecord {r : LifecycleRegistry κ σ} {id : String}
    {record : Lifecycle κ σ} (hget : r.records.get? id = some record)
    (f : Lifecycle κ σ → Lifecycle κ σ) (k : κ) :
    (r.modifyRecord id f).retainers k + (if k ∈ record.retained then 1 else 0) =
      r.retainers k + if k ∈ (f record).retained then 1 else 0 :=
  OrdDict.sum_modify_add hget f _

theorem retainers_nonneg (r : LifecycleRegistry κ σ) (k : κ) : 0 ≤ r.retainers k := by
  refine List.sum_nonneg ?_
  intro x hx
  obtain ⟨e, -, rfl⟩ := List.mem_map.mp hx
  dsimp only
  split <;> simp

theorem retainers_pos {r : LifecycleRegistry κ σ} {id : String} {record : Lifecycle κ σ}
    (hget : r.records.get? id = some record) {k : κ} (hk : k ∈ record.retained) :
    0 < r.retainers k := by
  have hsplit := OrdDict.sum_erase_add hget
    (fun _ record => if k ∈ record.retained then (1 : ℤ) else 0)
  have hrest := retainers_nonneg { r with records := r.records.erase id } k
  simp only [hk, if_true] at hsplit
  unfold retainers at *
  dsimp only at hrest
  omega

/-- Changing a record without touching what it retains. -/
theorem Backed.modifyRecord {r : LifecycleRegistry κ σ} {others : κ → ℤ}
    (h : r.Backed others) {id : String} {f : Lifecycle κ σ → Lifecycle κ σ}
    (hf : ∀ record, r.records.get? id = some record →
      (f record).WellFormed ∧ (f record).retained = record.retained) :
    (r.modifyRecord id f).Backed others := by
  have hretainers : ∀ k, (r.modifyRecord id f).retainers k = r.retainers k := by
    intro k
    unfold retainers LifecycleRegistry.modifyRecord OrdDict.modify
    rw [OrdDict.sum_mapValues]
    refine OrdDict.sum_congr fun id' record hget => ?_
    by_cases hid : id' = id
    · subst hid
      simp [(hf record hget).2]
    · simp [hid]
  refine ⟨?_, h.nonneg, ?_, ?_⟩
  · intro id' record hget
    rw [get?_modifyRecord] at hget
    by_cases hid : id' = id
    · subst hid
      simp only [if_true] at hget
      obtain ⟨record₀, hget₀, rfl⟩ := Option.map_eq_some_iff.mp hget
      exact (hf record₀ hget₀).1
    · exact h.wellFormed id' record (by simpa [hid] using hget)
  · intro m hm
    exact (h.accounts m hm).congr fun k => by rw [hretainers]
  · intro hm id' record hget
    rw [get?_modifyRecord] at hget
    by_cases hid : id' = id
    · subst hid
      simp only [if_true] at hget
      obtain ⟨record₀, hget₀, rfl⟩ := Option.map_eq_some_iff.mp hget
      rw [(hf record₀ hget₀).2]
      exact h.unmanaged hm id' record₀ hget₀
    · exact h.unmanaged hm id' record (by simpa [hid] using hget)

/-- Releasing a record always passes the assertion of the manager. -/
theorem Backed.release {r : LifecycleRegistry κ σ} {others : κ → ℤ} (h : r.Backed others)
    {id : String} {record : Lifecycle κ σ} (hget : r.records.get? id = some record) :
    ∃ r', r.release id = .ok r' ∧ r'.Backed others ∧ Frame r r' ∧
      r'.records = r.records.modify id clearOwnership := by
  have hwf : ∀ id' record', (r.modifyRecord id clearOwnership).records.get? id' = some record' →
      record'.WellFormed := by
    intro id' record' hget'
    rw [get?_modifyRecord] at hget'
    by_cases hid : id' = id
    · simp only [hid, if_true, hget, Option.map_some, Option.some.injEq] at hget'
      exact hget' ▸ wellFormed_clearOwnership (h.wellFormed id record hget)
    · exact h.wellFormed id' record' (by simpa [hid] using hget')
  have hretainers : ∀ k, (r.modifyRecord id clearOwnership).retainers k =
      r.retainers k + if k ∈ record.retained then -1 else 0 := by
    intro k
    have hsum := retainers_modifyRecord hget clearOwnership k
    by_cases hk : k ∈ record.retained <;> simp [hk, clearOwnership] at hsum ⊢ <;> omega
  simp only [LifecycleRegistry.release, hget, releaseKeys]
  by_cases hempty : record.retained.isEmpty = true
  · simp only [hempty, if_true]
    have hnil : record.retained = [] := by simpa using hempty
    refine ⟨_, rfl, ⟨hwf, h.nonneg, ?_, ?_⟩, ⟨rfl, rfl, rfl, rfl⟩, rfl⟩
    · intro m hm
      exact (h.accounts m hm).congr fun k => by simp [hretainers, hnil]
    · intro hm id' record' hget'
      rw [get?_modifyRecord] at hget'
      by_cases hid : id' = id
      · simp only [hid, if_true, hget, Option.map_some, Option.some.injEq] at hget'
        simp [← hget', clearOwnership]
      · exact h.unmanaged hm id' record' (by simpa [hid] using hget')
  · simp only [hempty]
    cases hm : r.manager with
    | none =>
        have hnil := h.unmanaged hm id record hget
        simp [hnil] at hempty
    | some m =>
        have howed : ∀ k ∈ record.retained, 0 < r.retainers k + others k := by
          intro k hk
          have := retainers_pos hget hk
          have := h.nonneg k
          omega
        obtain ⟨m', hrelease, haccounts⟩ := (h.accounts m hm).release howed
        refine ⟨{ r.modifyRecord id clearOwnership with manager := some m' }, ?_,
          ⟨hwf, h.nonneg, ?_, ?_⟩, ⟨rfl, by simp [hm], rfl, rfl⟩, rfl⟩
        · simp [LifecycleRegistry.modifyRecord, hm, hrelease, Except.map]
        · intro m₁ hm₁
          obtain rfl := Option.some.inj hm₁
          refine haccounts.congr fun k => ?_
          have := hretainers k
          simp only [retainers, LifecycleRegistry.modifyRecord] at this ⊢
          omega
        · intro hnone
          cases hnone

theorem Backed.erase {r : LifecycleRegistry κ σ} {others : κ → ℤ} (h : r.Backed others)
    {id : String} {record : Lifecycle κ σ} (hget : r.records.get? id = some record)
    (hempty : record.retained = []) :
    Backed { r with records := r.records.erase id } others := by
  have hretainers : ∀ k, retainers { r with records := r.records.erase id } k =
      r.retainers k := by
    intro k
    have := OrdDict.sum_erase_add hget
      (fun _ record => if k ∈ record.retained then (1 : ℤ) else 0)
    simpa [hempty, retainers] using this
  have hold : ∀ id' record', (r.records.erase id).get? id' = some record' →
      r.records.get? id' = some record' := by
    intro id' record' hget'
    rw [OrdDict.get?_erase] at hget'
    split at hget'
    · cases hget'
    · exact hget'
  exact ⟨fun id' record' hget' => h.wellFormed id' record' (hold id' record' hget'), h.nonneg,
    fun m hm => (h.accounts m hm).congr fun k => by rw [hretainers],
    fun hm id' record' hget' => h.unmanaged hm id' record' (hold id' record' hget')⟩

/-- Ending a live record succeeds. -/
theorem Backed.terminalize {r : LifecycleRegistry κ σ} {others : κ → ℤ} (h : r.Backed others)
    {id : String} {record : Lifecycle κ σ} (hget : r.records.get? id = some record)
    (hlive : record.terminalAt.isSome = false) (cause : TerminalCause) (now : ℚ) :
    ∃ r', r.terminalize id cause now = .ok r' ∧ r'.Backed others ∧ Frame r r' ∧
      r'.records = r.records.modify id (endRecord cause now) := by
  obtain ⟨r', hrelease, hbacked, hframe, hrecords⟩ := h.release hget
  refine ⟨r'.modifyRecord id (markTerminal cause now), ?_, hbacked.modifyRecord ?_,
    hframe.trans ⟨rfl, rfl, rfl, rfl⟩, ?_⟩
  · simp [LifecycleRegistry.terminalize, hget, hlive, hrelease, Except.map]
  · intro record' hget'
    rw [hrecords, OrdDict.get?_modify] at hget'
    simp only [if_true, hget, Option.map_some, Option.some.injEq] at hget'
    subst hget'
    exact ⟨wellFormed_endRecord (h.wellFormed id record hget) cause now, rfl⟩
  · simp only [LifecycleRegistry.modifyRecord, hrecords]
    exact OrdDict.modify_modify _ _ _ _

/-! ## Expiry -/

theorem Backed.expireRecord {r : LifecycleRegistry κ σ} {others : κ → ℤ} (h : r.Backed others)
    {id : String} {record : Lifecycle κ σ} (hget : r.records.get? id = some record) (now : ℚ) :
    ∃ r', expireRecord now r (id, record) = .ok r' ∧ r'.Backed others ∧ Frame r r' ∧
      ∀ id', r'.records.get? id' =
        if id' = id then settle now record else r.records.get? id' := by
  have hkeep : ∀ id', r.records.get? id' =
      if id' = id then some record else r.records.get? id' := by
    intro id'
    by_cases hid : id' = id <;> simp [hid, hget]
  have hmodified : ∀ (f : Lifecycle κ σ → Lifecycle κ σ) (id' : String),
      (r.records.modify id f).get? id' =
        if id' = id then some (f record) else r.records.get? id' := by
    intro f id'
    rw [OrdDict.get?_modify]
    by_cases hid : id' = id <;> simp [hid, hget]
  cases hterminal : record.terminalAt with
  | some terminalAt =>
      have hempty := ((h.wellFormed id record hget).released
        ((h.wellFormed id record hget).terminal (by simp [hterminal])).1).1
      simp only [LifecycleRegistry.expireRecord, settle, hterminal]
      by_cases hold : terminalAt + tombstoneSeconds ≤ now
      · simp only [hold, if_true]
        refine ⟨_, rfl, h.erase hget hempty, ⟨rfl, rfl, rfl, rfl⟩, fun id' => ?_⟩
        exact OrdDict.get?_erase ..
      · simp only [hold, if_false]
        exact ⟨r, rfl, h, .refl r, hkeep⟩
  | none =>
      have hlive : record.terminalAt.isSome = false := by simp [hterminal]
      obtain ⟨r₁, hok₁, hbacked₁, hframe₁, hrecords₁⟩ := h.terminalize hget hlive .expired now
      obtain ⟨r₂, hok₂, hbacked₂, hframe₂, hrecords₂⟩ := h.release hget
      cases hstarted : record.startedAt with
      | some startedAt =>
          simp only [LifecycleRegistry.expireRecord, settle, hterminal, hstarted]
          by_cases hsafety : record.safetyDeadline ≤ now
          · simp only [hsafety, if_true]
            exact ⟨r₁, hok₁, hbacked₁, hframe₁, fun id' => by rw [hrecords₁, hmodified]⟩
          · by_cases hrelease : record.releaseDeadline ≤ now
            · simp only [hsafety, hrelease, if_true, if_false]
              exact ⟨r₂, hok₂, hbacked₂, hframe₂, fun id' => by rw [hrecords₂, hmodified]⟩
            · simp only [hsafety, hrelease, if_false]
              exact ⟨r, rfl, h, .refl r, hkeep⟩
      | none =>
          cases hcompleted : record.completedAt with
          | some completedAt =>
              simp only [LifecycleRegistry.expireRecord, settle, hterminal, hstarted, hcompleted]
              by_cases hold : completedAt + attachSeconds ≤ now
              · simp only [hold, if_true]
                exact ⟨r₁, hok₁, hbacked₁, hframe₁, fun id' => by rw [hrecords₁, hmodified]⟩
              · simp only [hold, if_false]
                exact ⟨r, rfl, h, .refl r, hkeep⟩
          | none =>
              simp only [LifecycleRegistry.expireRecord, settle, hterminal, hstarted, hcompleted]
              exact ⟨r, rfl, h, .refl r, hkeep⟩

/-- `expire` never fails and settles every record. -/
theorem Backed.expire {r : LifecycleRegistry κ σ} {others : κ → ℤ} (h : r.Backed others)
    (now : ℚ) :
    ∃ r', r.expire now = .ok r' ∧ r'.Backed others ∧ Frame r r' ∧
      ∀ id, r'.records.get? id = (r.records.get? id).bind (settle now) := by
  -- The loop runs over a copy of the entries; each iteration only changes its own record.
  have hloop : ∀ (rest : List (String × Lifecycle κ σ)) (r₀ : LifecycleRegistry κ σ),
      (rest.map Prod.fst).Nodup → r₀.Backed others →
      (∀ e ∈ rest, r₀.records.get? e.1 = some e.2) →
      ∃ r', rest.foldlM (LifecycleRegistry.expireRecord now) r₀ = .ok r' ∧ r'.Backed others ∧
        Frame r₀ r' ∧
        ∀ id, r'.records.get? id =
          if id ∈ rest.map Prod.fst then (r₀.records.get? id).bind (settle now)
          else r₀.records.get? id := by
    intro rest
    induction rest with
    | nil => exact fun r₀ _ h₀ _ => ⟨r₀, rfl, h₀, .refl r₀, by simp⟩
    | cons e rest ih =>
        intro r₀ hnodup h₀ hentries
        obtain ⟨hnot, hnodup'⟩ := List.nodup_cons.mp hnodup
        have hhead := hentries e (List.mem_cons_self ..)
        obtain ⟨r₁, hok₁, hbacked₁, hframe₁, hget₁⟩ := h₀.expireRecord hhead now
        have hother : ∀ e' ∈ rest, r₁.records.get? e'.1 = some e'.2 := by
          intro e' he'
          have hne : e'.1 ≠ e.1 := fun heq => hnot (heq ▸ List.mem_map_of_mem he')
          rw [hget₁, if_neg hne]
          exact hentries e' (List.mem_cons_of_mem _ he')
        obtain ⟨r', hok, hbacked, hframe, hget⟩ := ih r₁ hnodup' hbacked₁ hother
        refine ⟨r', ?_, hbacked, hframe₁.trans hframe, ?_⟩
        · rw [List.foldlM_cons, hok₁]
          exact hok
        · intro id
          rw [hget, hget₁]
          by_cases hid : id = e.1
          · subst hid
            rw [if_neg hnot, if_pos rfl, List.map_cons, if_pos (List.mem_cons_self ..), hhead]
            rfl
          · simp only [hid, if_false, List.map_cons, List.mem_cons, false_or]
  obtain ⟨r', hok, hbacked, hframe, hget⟩ := hloop r.records.entries r r.records.nodupKeys h
    fun e he => OrdDict.get?_eq_some_iff.mpr he
  refine ⟨r', hok, hbacked, hframe, fun id => ?_⟩
  rw [hget]
  by_cases hid : id ∈ r.records.entries.map Prod.fst
  · simp [hid]
  · have hnone : r.records.get? id = none := OrdDict.get?_eq_none_iff.mpr hid
    simp [hid, hnone]

/-- Once every record has settled, expiring again at the same moment does nothing. -/
theorem expire_of_settled {r : LifecycleRegistry κ σ} {now : ℚ} (hsettled : ∀ id record, r.records.get? id = some record →
      settle now record = some record) :
    r.expire now = .ok r := by
  have hstep : ∀ e ∈ r.records.entries, LifecycleRegistry.expireRecord now r e = .ok r := by
    rintro ⟨id, record⟩ he
    have hget : r.records.get? id = some record := OrdDict.get?_eq_some_iff.mpr he
    have hsame := hsettled id record hget
    unfold settle at hsame
    unfold LifecycleRegistry.expireRecord
    cases hlive : record.terminalAt with
    | some terminalAt =>
        simp only [hlive] at hsame ⊢
        split_ifs at hsame with hold
        simp [hold]
    | none =>
        cases hstarted : record.startedAt with
        | some startedAt =>
            simp only [hlive, hstarted] at hsame ⊢
            split_ifs at hsame with hsafety hrelease
            · have := congrArg Lifecycle.terminalAt (Option.some.inj hsame)
              simp [endRecord, markTerminal, hlive] at this
            · -- A release that changes nothing: the record owns nothing.
              have hclear := Option.some.inj hsame
              have hempty : record.retained = [] := by
                rw [← hclear]
                rfl
              have hmodify : r.records.modify id clearOwnership = r.records :=
                OrdDict.modify_eq_self fun record' hget' => by
                  rw [hget] at hget'
                  exact Option.some.inj hget' ▸ hclear
              simp only [hsafety, hrelease, if_false, if_true, LifecycleRegistry.release, hget,
                releaseKeys, hempty, List.isEmpty_nil, modifyRecord, hmodify]
            · simp [hsafety, hrelease]
        | none =>
            cases hcompleted : record.completedAt with
            | some completedAt =>
                simp only [hlive, hstarted, hcompleted] at hsame ⊢
                split_ifs at hsame with hold
                · have := congrArg Lifecycle.terminalAt (Option.some.inj hsame)
                  simp [endRecord, markTerminal, hlive] at this
                · simp [hold]
            | none => simp [hlive, hstarted, hcompleted]
  have hfold : ∀ rest : List (String × Lifecycle κ σ),
      (∀ e ∈ rest, LifecycleRegistry.expireRecord now r e = .ok r) →
      rest.foldlM (LifecycleRegistry.expireRecord now) r = .ok r := by
    intro rest
    induction rest with
    | nil => exact fun _ => rfl
    | cons e rest ih =>
        intro hall
        rw [List.foldlM_cons, hall e (List.mem_cons_self ..)]
        exact ih fun e' he' => hall e' (List.mem_cons_of_mem _ he')
  exact hfold _ hstep

end LifecycleRegistry

end TokenCake.Offload
