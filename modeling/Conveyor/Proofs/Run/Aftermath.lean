import Conveyor.Proofs.Run.Deadlines
import Conveyor.Proofs.Run.Moves

/-!
# What goes on after the end

When a task has ended, it begins no branches any more (`Machine.Moves.gone`). The branches that go
on without their task are never cancelled; they end at a turn of their own, with a result
(`Machine.Moves.detached`). And once the run has ended all tasks that are left come to an end, if
there is time enough (`Machine.Proper.exists_settle`).
-/

namespace Conveyor

namespace Machine

variable {P : Nat → Nat → (Nat → Activity) → Prop} {σ : Type} {adapter : Adapter σ}
  {id k : Nat} {m m' m'' m₀ m₁ : Machine σ} {t : Task} {h : Halt} {history later : List Begun}

/-! ### After the end of a task -/

/-- There has been a task with this number, and it has ended. -/
def Gone (k : Nat) (m : Machine σ) : Prop :=
  m.tasks.lookup k = none ∧ k < m.fresh

theorem Acting.fresh_le (ha : Acting P adapter m id m₀ t h m₁) :
    m.fresh ≤ (m₁.halt id h).fresh := by
  have hfresh : m₁.fresh = m.fresh := ha.acts.fresh.trans ha.takes.fresh
  rw [← hfresh]
  cases h with
  | done result =>
    exact (finish_fresh ha.lookup_acted fun hid =>
      (ha.sound_acted.root t (hid ▸ ha.lookup_acted)).1).ge
  | asleep ms r => exact le_rfl
  | forked f => exact (Nat.le_add_right _ _).trans_eq takeIn_fresh.symm

/-- A task that has ended stays so and begins no branches. -/
theorem Gone.move (hm : Proper P m) (hk : Gone k m) (hmove : Move adapter m m') :
    Gone k m' ∧ itemsBegun k (begun m m') = [] := by
  obtain ⟨hnone, hlt⟩ := hk
  cases hmove with
  | @turn m₀ id htakes =>
    refine hm.turn_cases (Q := fun m' => Gone k m' ∧ itemsBegun k (begun m m') = []) htakes
      (fun hid => ?_) (fun t ht hc hsound => ?_) fun t h m₁ ha => ?_
    · rw [begun_eq_nil (hm.sound.skip htakes hid) htakes.fresh.le]
      exact ⟨⟨htakes.tasks ▸ hnone, htakes.fresh ▸ hlt⟩, rfl⟩
    · rw [begun_eq_nil (hsound.drop ht hc) (drop_fresh.trans htakes.fresh).le]
      refine ⟨⟨?_, hlt.trans_eq (drop_fresh.trans htakes.fresh).symm⟩, rfl⟩
      exact lookup_drop_of_none hsound.keys_nodup (htakes.tasks ▸ hnone)
    · have hne : k ≠ id := by
        rintro rfl
        have hlookup := ha.lookup
        rw [htakes.tasks, hnone] at hlookup
        cases hlookup
      refine ⟨⟨Option.eq_none_iff_forall_ne_some.mpr fun t' ht' => ?_,
        hlt.trans_le ha.fresh_le⟩, ?_⟩
      · rcases ha.after ht' with @⟨t₁, -, ht₁, -⟩ | ⟨hk, -⟩ | ⟨hk, -⟩
        · rw [htakes.tasks, hnone] at ht₁
          cases ht₁
        · exact hne hk
        · exact absurd (htakes.fresh ▸ hk) (Nat.not_le.mpr hlt)
      · rw [ha.itemsBegun_eq, if_neg hne]
  | wakeAt hle =>
    rw [begun_wakeAt hm.sound hle]
    refine ⟨⟨?_, hlt.trans_eq wakeAt_fresh.symm⟩, rfl⟩
    rwa [wakeAt_tasks]
  | cut hending =>
    rw [begun_cut hm.sound hending]
    refine ⟨⟨(lookup_drop hm.sound.keys_nodup).trans ?_, hlt.trans_eq drop_fresh.symm⟩, rfl⟩
    rw [hnone, Option.map_none, ite_self]

theorem Moves.gone (hm : Proper P m) (hk : Gone k m) (hmoves : Moves adapter m later m') :
    Gone k m' ∧ itemsBegun k later = [] := by
  refine hmoves.preserves (I := fun later m' => Gone k m' ∧ itemsBegun k later = []) hm
    (fun later m₁ m₂ hm₁ hmove hI => ?_) ⟨hk, rfl⟩
  obtain ⟨hk₂, hnil⟩ := hI.1.move hm₁ hmove
  rw [itemsBegun_append, hI.2, hnil]
  exact ⟨hk₂, rfl⟩

/-! ### Branches that go on without their task -/

/-- A task that goes on for itself. -/
def Detached (k : Nat) (m : Machine σ) : Prop :=
  ∃ t, m.tasks.lookup k = some t ∧ t.parent = none ∧ t.cancelled = false

/-- On the way from one machine to the other a task has ended at a turn of its own, with a
result. -/
inductive EndsItself (adapter : Adapter σ) (k : Nat) (m m' : Machine σ) : Prop
  | intro {history later : List Begun} {m₀ m₁ m₂ : Machine σ} {t : Task}
    {result : Except (Fault StepFailure) Json} (before : Moves adapter m history m₀)
    (takes : Takes m₀ k m₁)
    (lookup : m₁.tasks.lookup k = some t) (active : t.cancelled = false)
    (acts : Acts adapter k m₁ t.state (.done result) m₂)
    (after : Moves adapter (m₁.turn adapter k) later m')

theorem EndsItself.move (h : EndsItself adapter k m m') (hmove : Move adapter m' m'') :
    EndsItself adapter k m m'' := by
  obtain ⟨before, takes, lookup, active, acts, after⟩ := h
  exact ⟨before, takes, lookup, active, acts, after.tail hmove⟩

/-- A task that goes on for itself does so until it ends. -/
theorem Detached.move (hm : Proper P m) (hk : k ≠ root) (hdetached : Detached k m)
    (hmove : Move adapter m m') : Detached k m' ∨ EndsItself adapter k m m' := by
  obtain ⟨t₀, ht₀, hparent, hcancelled⟩ := hdetached
  cases hmove with
  | @turn m₀ id htakes =>
    have ht : m₀.tasks.lookup k = some t₀ := htakes.tasks ▸ ht₀
    by_cases hid : k = id
    · subst hid
      obtain ⟨h, m₁, ha, hturn⟩ := hm.exists_acting adapter htakes ht₀ hcancelled
      have hself : ∀ s, h.state? = some s → Detached k (m₀.turn adapter k) := fun s hs =>
        ⟨{ t₀ with state := s }, by rw [hturn]; exact lookup_halt_self ha.lookup_acted hs, hparent,
          hcancelled⟩
      cases h with
      | done result => exact .inr ⟨.refl, htakes, ht, hcancelled, ha.acts, .refl⟩
      | asleep ms r => exact .inl (hself _ rfl)
      | forked f => exact .inl (hself _ rfl)
    · refine .inl (hm.turn_cases (Q := Detached k) htakes (fun _ => ⟨t₀, ht, hparent, hcancelled⟩)
        (fun t _ _ hsound => ⟨t₀, ?_, hparent, hcancelled⟩) fun t h m₁ ha => ?_)
      · rw [lookup_drop hsound.keys_nodup, if_neg hid, ht, Option.map_some,
          abandoned_of_parent_ne (by simp [hparent])]
      · obtain ⟨t', ht', hkept⟩ := ha.exists_kept hid ht
        exact ⟨t', ht', hkept.parent_of_none hparent, hkept.cancelled.trans hcancelled⟩
  | wakeAt hle =>
    refine .inl ⟨t₀, ?_, hparent, hcancelled⟩
    rwa [wakeAt_tasks]
  | cut hnone =>
    refine .inl ⟨t₀, ?_, hparent, hcancelled⟩
    refine (lookup_drop hm.sound.keys_nodup).trans ?_
    rw [if_neg hk, ht₀, Option.map_some, abandoned_of_parent_ne (by simp [hparent])]

theorem Moves.detached (hm : Proper P m) (hk : k ≠ root) (hdetached : Detached k m)
    (hmoves : Moves adapter m later m') : Detached k m' ∨ EndsItself adapter k m m' := by
  induction hmoves with
  | refl => exact .inl hdetached
  | tail hmoves hmove ih =>
    rcases ih with hdetached | hends
    · refine (hdetached.move (hmoves.proper hm) hk hmove).imp_right fun hends => ?_
      obtain ⟨before, takes, lookup, active, acts, after⟩ := hends
      exact ⟨hmoves.trans before, takes, lookup, active, acts, after⟩
    · exact .inr (hends.move hmove)

/-! ### The end of all tasks -/

theorem Proper.ending_move (hm : Proper P m) (hending : m.ending ≠ none)
    (hmove : Move adapter m m') : m'.ending = m.ending := by
  cases hmove with
  | @turn m₀ id htakes =>
    by_cases hid : id = root
    · subst hid
      rw [turn_of_none (htakes.tasks ▸ hm.lookup_root_eq_none hending)]
      exact htakes.ending
    · exact hm.ending_turn htakes hid
  | wakeAt hle => exact wakeAt_ending
  | cut hnone => exact absurd hnone hending

/-- If there is time enough, all tasks that are left come to an end. -/
theorem Proper.exists_settleUntil (adapter : Adapter σ) (hm : Proper P m)
    (hending : m.ending ≠ none) :
    ∃ enough, ∀ time, enough ≤ time → (m.settleUntil adapter time).tasks = [] := by
  induction m using Nearer.wellFounded.induction with
  | _ m ih =>
    -- one step is the same for all times that are late enough
    have hstep : ∀ bound m₁, (∀ time, bound ≤ time → m.settleStep adapter time = some m₁) →
        ∃ enough, ∀ time, enough ≤ time → (m.settleUntil adapter time).tasks = [] := by
      intro bound m₁ hs
      have hmove := move_of_settleStep (hs bound le_rfl)
      have hm₁ : Proper P m₁ := hmove.proper hm
      obtain ⟨enough, henough⟩ := ih m₁ (hm.settleStep_nearer (hs bound le_rfl)) hm₁
        (hm.ending_move hending hmove ▸ hending)
      refine ⟨max bound enough, fun time htime => ?_⟩
      rw [settleUntil_of_step (hs time (le_trans (le_max_left _ _) htime))]
      exact henough time (le_trans (le_max_right _ _) htime)
    cases hready : m.ready with
    | cons id ready =>
      exact hstep 0 ({ m with ready }.turn adapter id) fun time _ => by
        simp only [Machine.settleStep, hready]
    | nil =>
      cases hwake : m.nextWake with
      | some wake =>
        refine hstep (wake + 1) (m.wakeAt wake) fun time htime => ?_
        simp [Machine.settleStep, hready, hwake, Nat.lt_of_succ_le htime]
      | none =>
        refine ⟨0, fun time _ => ?_⟩
        rw [settleUntil_of_settled (by simp [Machine.settleStep, hready, hwake])]
        exact hm.sound.tasks_eq_nil hready (.inr (hm.lookup_root_eq_none hending))
          (by simpa [nextWake] using hwake)

/-- If there is time enough after the end, all tasks that are left come to an end. -/
theorem Proper.exists_settle (adapter : Adapter σ) (hm : Proper P m) (hending : m.ending ≠ none) :
    ∃ enough, ∀ ms, enough ≤ ms → (m.settle adapter ms).tasks = [] := by
  obtain ⟨enough, henough⟩ := hm.exists_settleUntil adapter hending
  refine ⟨enough + 1, fun ms hms => ?_⟩
  rw [settle, if_neg (by omega)]
  exact henough _ (by omega)

end Machine

end Conveyor
