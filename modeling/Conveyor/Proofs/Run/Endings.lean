import Conveyor.Proofs.Run.Moves

/-!
# How a run can end

An activity can end with certain results only, whatever its calls are answered with and in whatever
order its branches end (`Activity.MayEnd`): a fork goes on with some results of all branches, or
with the failure or the panic with which the branch of one of its items can end. A run ends with one
of the results of the activity that it began with (`Machine.mayEnd_run`).

The argument follows the tasks: what is left to do of a branch ends as the branch of its item can
(`Machine.EndsAs`), so the results that a fork receives are results of its branches.
-/

namespace Conveyor

/-! ### Results of activities -/

/-- The results with which an activity can end. -/
def Activity.MayEnd : Activity → Except (Fault StepFailure) Json → Prop
  | .done result, r => r = result
  | .note _ next, r => next.MayEnd r
  | .call _ _ next, r => ∃ answer, (next answer).MayEnd r
  | .pause _ next, r => next.MayEnd r
  | .fork count _ branch next, r => (∃ outputs, (next (.ok outputs)).MayEnd r) ∨
    ∃ c : Collapse, c.item < count ∧
      (∃ id fault, c.fault = Machine.told id fault ∧ (branch c.item).MayEnd (.error fault)) ∧
      (next (.error c)).MayEnd r

/-- The results of an activity as the fork of a branch learns of them. -/
def Activity.MayJoin (a : Activity) (r : Except (Fault StepFailure) Json) : Prop :=
  ∃ id result, a.MayEnd result ∧ r = result.mapError (Machine.told id)

theorem Activity.MayJoin.fault {a : Activity} {fault : Fault StepFailure}
    (h : a.MayJoin (.error fault)) :
    ∃ id fault', fault = Machine.told id fault' ∧ a.MayEnd (.error fault') := by
  obtain ⟨id, context | fault', hend, htold⟩ := h
  · exact ⟨id, _, Except.error.inj htold, hend⟩
  · cases htold

/-- The results with which what is left to do after a pause can end. -/
def Resumption.MayEnd : Resumption → Except (Fault StepFailure) Json → Prop
  | .activity a, r => a.MayEnd r
  | .answer _ _ _ next, r => ∃ answer, (next answer).MayEnd r

/-- The results with which what is left to do of a fork can end. -/
def Fork.MayEnd (f : Fork) (r : Except (Fault StepFailure) Json) : Prop :=
  (Activity.fork f.count f.limit f.branch f.next).MayEnd r

/-- The results with which what is left to do of a task can end. -/
def TaskState.MayEnd : TaskState → Except (Fault StepFailure) Json → Prop
  | .paused resumption, r => resumption.MayEnd r
  | .joining f, r => f.MayEnd r

/-- The results with which what is left to do after a turn can end. -/
def Halt.MayEnd : Halt → Except (Fault StepFailure) Json → Prop
  | .done result, r => r = result
  | .asleep _ resumption, r => resumption.MayEnd r
  | .forked f, r => f.MayEnd r

variable {σ : Type} {adapter : Adapter σ} {r : Except (Fault StepFailure) Json}

/-- A turn adds nothing to the results. -/
theorem Activity.mayEnd_of_advance {a : Activity} {top : Bool} {w : World σ}
    (h : (a.advance adapter top w).1.MayEnd r) : a.MayEnd r := by
  induction a generalizing w with
  | done result => exact h
  | note n next ih => exact ih h
  | pause ms next ih =>
    unfold Activity.advance at h
    split at h
    · exact ih h
    · exact h
  | call operation input next ih =>
    unfold Activity.advance at h
    dsimp only at h
    split at h
    · exact ⟨_, ih _ h⟩
    · exact h
  | fork count limit branch next _ ih =>
    unfold Activity.advance at h
    split at h
    · exact .inl ⟨[], ih _ h⟩
    · exact h

theorem Resumption.mayEnd_of_start {resumption : Resumption} {w : World σ}
    (h : (resumption.start adapter w).1.MayEnd r) : resumption.MayEnd r := by
  cases resumption with
  | activity a => exact h
  | answer number operation input next => exact ⟨_, h⟩

theorem Halt.mayEnd_of_state? {h : Halt} {s : TaskState} (hs : h.state? = some s)
    (hr : s.MayEnd r) : h.MayEnd r := by
  cases h with
  | done result => cases hs
  | asleep ms resumption => obtain rfl := Option.some.inj hs; exact hr
  | forked f => obtain rfl := Option.some.inj hs; exact hr

namespace Machine

variable {P : Nat → Nat → (Nat → Activity) → Prop} {deadline : Option Nat} {id k p item : Nat}
  {a : Activity} {m m' m₀ m₁ : Machine σ} {t t' tp : Task} {h : Halt} {f : Fork}

/-! ### Turns -/

/-- A task that acts ends as it could before, if the results that its fork has received are results
of its branches. -/
theorem Acting.mayEnd (ha : Acting P adapter m id m₀ t h m₁)
    (hended : ∀ f, t.state = .joining f → ∀ e ∈ f.ended, (f.branch e.1).MayJoin e.2)
    (hr : h.MayEnd r) : t.state.MayEnd r := by
  have hacts := ha.acts
  have hjoining := ha.joining
  generalize t.state = s at hacts hended hjoining
  cases hacts with
  | refill hf hover =>
    obtain ⟨outputs, -, rfl⟩ := Fork.of_gather_eq_ok hf
    exact hr
  | advance hresumes =>
    have hnext := Activity.mayEnd_of_advance hr
    cases hresumes with
    | pause resumption => exact Resumption.mayEnd_of_start hnext
    | @collapse f c hf =>
      have hmem := Fork.of_gather_eq_error hf
      exact .inr ⟨c, (hjoining f rfl).item_lt hmem, (hended f rfl _ hmem).fault, hnext⟩
    | complete hf hover =>
      obtain ⟨outputs, -, rfl⟩ := Fork.of_gather_eq_ok hf
      exact .inl ⟨_, hnext⟩

/-- A task that has branches and waits for branches after its turn goes on with the same fork. -/
theorem Acting.of_forked (ha : Acting P adapter m id m₀ t (.forked f) m₁)
    (hitems : m₀.itemsOf id ≠ []) : ∃ f₀, t.state = .joining f₀ ∧ f₀.branch = f.branch := by
  have hacts := ha.acts
  have hlawful := ha.state_lawful
  have hpaused := ha.paused
  have hjoining := ha.joining
  generalize hh : Halt.forked f = h at hacts
  generalize t.state = s at hacts hlawful hpaused hjoining ⊢
  cases hacts with
  | @refill f₀ f' hf hover =>
    obtain rfl := Halt.forked.inj hh
    obtain ⟨outputs, -, rfl⟩ := Fork.of_gather_eq_ok hf
    exact ⟨f₀, rfl, rfl⟩
  | advance hresumes =>
    cases hresumes with
    | pause resumption => exact absurd (hpaused resumption rfl) hitems
    | complete hf hover => exact absurd ((hjoining _ rfl).itemsOf_of_over hf hover) hitems
    | @collapse f₀ c hf =>
      -- a fork of which a branch has failed does not wait any longer
      have habrupt : (f₀.next (.error c)).Abrupt := hlawful.2.2.2 c
      cases hh.trans (habrupt.fails _).choose_spec

/-- A task that receives a result ends as it could before. -/
theorem Kept.mayEnd {item : Option Nat} (hkept : Kept id item h t t') (hr : t'.state.MayEnd r) :
    t.state.MayEnd r := by
  cases hs : t.state with
  | paused resumption => rwa [hkept.paused resumption hs] at hr
  | joining f => rw [hkept.joining f hs] at hr; exact hr

/-! ### Machines -/

/-- What is left to do on a machine ends as the activity `a` can: the root does, a branch ends as
the branch of its item can, and so do those whose results are there. -/
structure EndsAs (a : Activity) (m : Machine σ) : Prop where
  root {t : Task} (ht : m.tasks.lookup root = some t) {r : Except (Fault StepFailure) Json}
    (hr : t.state.MayEnd r) : a.MayEnd r
  branch {k p item : Nat} {t tp : Task} {f : Fork} (ht : m.tasks.lookup k = some t)
    (hp : t.parent = some (p, item)) (htp : m.tasks.lookup p = some tp)
    (hf : tp.state = .joining f) {r : Except (Fault StepFailure) Json} (hr : t.state.MayEnd r) :
    (f.branch item).MayEnd r
  ended {k : Nat} {t : Task} {f : Fork} (ht : m.tasks.lookup k = some t)
    (hf : t.state = .joining f) {e : Nat × Except (Fault StepFailure) Json} (he : e ∈ f.ended) :
    (f.branch e.1).MayJoin e.2
  ending {r : Except (Fault StepFailure) Json} (h : m.ending = some (.finished r)) : a.MayEnd r

namespace EndsAs

theorem beginning {w : World σ} {fresh : Nat} : EndsAs a (beginning w fresh a) where
  root {t} ht r hr := by
    rw [lookup_beginning, if_pos rfl] at ht
    obtain rfl := Option.some.inj ht
    exact hr
  branch {k p item t tp f} ht hp _ _ r _ := by
    rw [lookup_beginning, Option.ite_none_right_eq_some] at ht
    obtain rfl := Option.some.inj ht.2
    cases hp
  ended {k t f} ht hf e _ := by
    rw [lookup_beginning, Option.ite_none_right_eq_some] at ht
    obtain rfl := Option.some.inj ht.2
    cases hf
  ending h := nomatch h

/-- Only the tasks and the ending count. -/
theorem of_tasks (hm : m.EndsAs a) (htasks : m'.tasks = m.tasks) (hending : m'.ending = m.ending) :
    m'.EndsAs a where
  root ht := hm.root (htasks ▸ ht)
  branch ht hp htp := hm.branch (htasks ▸ ht) hp (htasks ▸ htp)
  ended ht := hm.ended (htasks ▸ ht)
  ending h := hm.ending (hending ▸ h)

theorem drop (hm : m.EndsAs a) (hn : (m.tasks.map Prod.fst).Nodup) : (m.drop id).EndsAs a := by
  constructor
  case root =>
    intro t ht r hr
    obtain ⟨-, t₀, ht₀, rfl⟩ := of_lookup_drop hn ht
    exact hm.root ht₀ (abandoned_state ▸ hr)
  case branch =>
    intro k p item t tp f ht hp htp hf r hr
    obtain ⟨-, t₀, ht₀, rfl⟩ := of_lookup_drop hn ht
    obtain ⟨-, tp₀, htp₀, rfl⟩ := of_lookup_drop hn htp
    rw [abandoned_parent] at hp
    rw [abandoned_state] at hf hr
    exact hm.branch ht₀ hp htp₀ hf hr
  case ended =>
    intro k t f ht hf e he
    obtain ⟨-, t₀, ht₀, rfl⟩ := of_lookup_drop hn ht
    exact hm.ended ht₀ (abandoned_state ▸ hf) he
  case ending => exact fun h => hm.ending (drop_ending ▸ h)

section Acted

variable (hm : m₀.EndsAs a) (ha : Acting P adapter m id m₀ t h m₁)

include hm ha

theorem mayEnd_acted (hr : h.MayEnd r) : t.state.MayEnd r :=
  ha.mayEnd (fun _ hf _ he => hm.ended ha.lookup hf he) hr

/-- A task that was there before ends as it could then. -/
theorem of_after (hafter : After m₀ id t h k t') (hold : k < m₀.fresh) :
    ∃ t₀, m₀.tasks.lookup k = some t₀ ∧ (∀ p item, t'.parent = some (p, item) →
      t₀.parent = some (p, item)) ∧ ∀ r, t'.state.MayEnd r → t₀.state.MayEnd r := by
  cases hafter with
  | new hk => exact absurd hold (Nat.not_lt.mpr hk)
  | self hk parent _ state =>
    subst hk
    exact ⟨t, ha.lookup, fun _ _ hp => parent ▸ hp,
      fun _ hr => hm.mayEnd_acted ha (Halt.mayEnd_of_state? state hr)⟩
  | @other t₀ _ ht₀ kept =>
    refine ⟨t₀, ht₀, fun p item hp => ?_, fun _ hr => kept.mayEnd hr⟩
    rcases kept.parent with hparent | ⟨hnone, -⟩
    · exact hparent ▸ hp
    · rw [hnone] at hp
      cases hp

/-- The branch of a task that was there before ends as it could then. -/
theorem branch_after {t₀ : Task} (hafter : After m₀ id t h p tp) (hf : tp.state = .joining f)
    (ht₀ : m₀.tasks.lookup k = some t₀) (hp : t₀.parent = some (p, item))
    (hr : t₀.state.MayEnd r) : (f.branch item).MayEnd r := by
  cases hafter with
  | new _ _ _ htp =>
    rw [htp] at hf
    cases hf
  | @other tp₀ _ htp₀ kept =>
    cases hs : tp₀.state with
    | paused resumption =>
      rw [kept.paused resumption hs] at hf
      cases hf
    | joining f₀ =>
      rw [kept.joining f₀ hs] at hf
      obtain rfl := TaskState.joining.inj hf
      exact hm.branch ht₀ hp htp₀ hs hr
  | self hid _ _ state =>
    subst hid
    cases h with
    | done result => cases state
    | asleep ms resumption =>
      rw [hf] at state
      cases state
    | forked g =>
      rw [hf] at state
      obtain rfl := TaskState.joining.inj (Option.some.inj state)
      obtain ⟨f₀, hs, hbranch⟩ := ha.of_forked fun hnil =>
        absurd (mem_itemsOf_of_lookup ht₀ hp) (hnil ▸ List.not_mem_nil)
      have hold := hm.branch ht₀ hp ha.lookup hs hr
      rwa [hbranch] at hold

omit hm in
/-- A branch that was begun does what the fork has for its item. -/
theorem newcomer_after (hafter : After m₀ id t h k t') (hnew : m₀.fresh ≤ k)
    (hp : t'.parent = some (p, item)) (hafterp : After m₀ id t h p tp)
    (hf : tp.state = .joining f) : t'.state = .paused (.activity (f.branch item)) := by
  cases hafter with
  | other _ ht₀ => exact absurd (ha.sound.lt_fresh k _ ht₀) (Nat.not_lt.mpr hnew)
  | self hid => exact absurd (ha.sound.lt_fresh k t (hid ▸ ha.lookup)) (Nat.not_lt.mpr hnew)
  | new _ hforked _ ht' =>
    subst hforked ht'
    obtain ⟨rfl, rfl⟩ := Prod.mk.inj (Option.some.inj hp)
    cases hafterp with
    | other hne => exact absurd rfl hne
    | new hk => exact absurd (ha.sound.lt_fresh id t ha.lookup) (Nat.not_lt.mpr hk)
    | self _ _ _ state =>
      rw [hf] at state
      obtain rfl := TaskState.joining.inj (Option.some.inj state)
      rfl

/-- What a fork has received after a turn. -/
theorem ended_after (hafter : After m₀ id t h k t') (hf : t'.state = .joining f)
    {e : Nat × Except (Fault StepFailure) Json} (he : e ∈ f.ended) :
    (f.branch e.1).MayJoin e.2 := by
  cases hafter with
  | new _ _ _ ht' =>
    rw [ht'] at hf
    cases hf
  | self hid _ _ state =>
    rw [hf] at state
    cases h with
    | done result => cases state
    | asleep ms resumption => cases state
    | forked g =>
      obtain rfl := TaskState.joining.inj (Option.some.inj state)
      have hnil : g.ended = [] := ha.fits.1
      exact absurd he (hnil ▸ List.not_mem_nil)
  | @other t₀ _ ht₀ kept =>
    cases hs : t₀.state with
    | paused resumption =>
      rw [kept.paused resumption hs] at hf
      cases hf
    | joining f₀ =>
      rw [kept.joining f₀ hs] at hf
      obtain rfl := TaskState.joining.inj hf
      rcases List.mem_append.mp he with he | he
      · exact hm.ended ht₀ hs he
      · -- the result is that of the task whose turn it was
        cases h with
        | done result =>
          obtain ⟨item, hitem, rfl⟩ := List.mem_map.mp he
          have hp := itemIn_eq_some_iff.mp (Option.mem_toList.mp hitem)
          exact ⟨id, result, hm.branch ha.lookup hp ht₀ hs (hm.mayEnd_acted ha rfl), rfl⟩
        | asleep ms resumption => cases he
        | forked g => cases he

theorem acted (hending : m₀.ending = m.ending) : (m₁.halt id h).EndsAs a := by
  constructor
  case root =>
    intro t' ht' r hr
    obtain ⟨t₀, ht₀, -, hstate⟩ := hm.of_after ha (ha.after ht') ha.sound.root_lt_fresh
    exact hm.root ht₀ (hstate r hr)
  case branch =>
    intro k p item t' tp f ht' hp htp hf r hr
    have hafter := ha.after ht'
    by_cases hold : k < m₀.fresh
    · obtain ⟨t₀, ht₀, hparent, hstate⟩ := hm.of_after ha hafter hold
      exact hm.branch_after ha (ha.after htp) hf ht₀ (hparent p item hp) (hstate r hr)
    · have hstate := newcomer_after ha hafter (Nat.not_lt.mp hold) hp (ha.after htp) hf
      rw [hstate] at hr
      exact hr
  case ended => exact fun ht' hf _ he => hm.ended_after ha (ha.after ht') hf he
  case ending =>
    intro r hr
    rcases ha.ending with ⟨result, rfl, rfl, hend⟩ | ⟨hend, -⟩
    · obtain rfl := Ending.finished.inj (Option.some.inj (hr.symm.trans hend))
      exact hm.root ha.lookup (hm.mayEnd_acted ha rfl)
    · exact hm.ending (hending.trans (hend.symm.trans hr))

end Acted

theorem move (hm : m.EndsAs a) (hproper : Proper P m) (hmove : Move adapter m m') :
    m'.EndsAs a := by
  cases hmove with
  | @turn m₀ _ htakes =>
    have hending := htakes.ending
    have hm₀ := hm.of_tasks htakes.tasks hending
    exact hproper.turn_cases htakes (fun _ => hm₀)
      (fun t _ _ hsound => hm₀.drop hsound.keys_nodup) fun t h m₁ ha => hm₀.acted ha hending
  | wakeAt hle => exact hm.of_tasks wakeAt_tasks wakeAt_ending
  | cut hending =>
    have hdrop : (m.drop Machine.root).EndsAs a := hm.drop hproper.sound.keys_nodup
    exact ⟨hdrop.root, hdrop.branch, hdrop.ended, nofun⟩

end EndsAs

/-- **How a run ends**: with one of the results of the activity that it began with. -/
theorem mayEnd_run {w : World σ} {fresh : Nat} (hm : Proper P (beginning w fresh a))
    (hr : ((beginning w fresh a).run adapter deadline).ending = some (.finished r)) :
    a.MayEnd r := by
  obtain ⟨history, hmoves⟩ :
      Leads adapter (beginning w fresh a) ((beginning w fresh a).run adapter deadline) :=
    hm.leads_run
  have hends := hmoves.preserves (I := fun _ m => m.EndsAs a) hm
    (fun _ _ _ hproper hmove hm => hm.move hproper hmove) .beginning
  exact hends.ending hr

end Machine

end Conveyor
