import Conveyor.Proofs.Run.Aftermath

/-!
# How long tasks pause

A run that is not cut off is made of turns, and of moves of the clock to the time at which the next
task wakes, when nobody has a turn (`Machine.Elapses`). So a task that falls asleep goes on exactly
when its time has come, whatever the other tasks do meanwhile: at its next turn it is as it was, and
the clock stands at the time until which it slept (`Machine.Sleeps.running`).

Here the adapter may be another one at each time.
-/

namespace Conveyor

namespace Machine

variable {P : Nat → Nat → (Nat → Activity) → Prop} {σ : Type} {adapter : Adapter σ}
  {adapters : Nat → Adapter σ} {who : Nat → Prop} {deadline : Option Nat} {id k time : Nat}
  {m m' m₀ m₁ : Machine σ} {t : Task} {h : Halt} {r : Resumption}

/-! ### Runs that are not cut off -/

/-- Turns of tasks for which `who` holds, and moves of the clock, lead from one machine to another.
The clock moves when nobody has a turn. -/
inductive Elapses (adapters : Nat → Adapter σ) (who : Nat → Prop) (m : Machine σ) :
    Machine σ → Prop
  | refl : Elapses adapters who m m
  | turn {m₁ m₂ : Machine σ} {id : Nat} (h : Elapses adapters who m m₁) (takes : Takes m₁ id m₂)
    (hid : who id) : Elapses adapters who m (m₂.turn (adapters m₂.world.now) id)
  | clock {m₁ : Machine σ} {time : Nat} (h : Elapses adapters who m m₁)
    (idle : ∀ k t, m₁.tasks.lookup k = some t → ¬ m₁.Awake k)
    (next : m₁.nextWake = some time) : Elapses adapters who m (m₁.wakeAt time)

/-- Turns of any tasks, and moves of the clock, lead from one machine to another. -/
abbrev Onward (adapters : Nat → Adapter σ) : Machine σ → Machine σ → Prop :=
  Elapses adapters fun _ => True

theorem Elapses.proper (hm : Proper P m) (h : Elapses adapters who m m') : Proper P m' := by
  induction h with
  | refl => exact hm
  | turn _ takes _ ih => exact ih.turn takes
  | clock _ _ next ih => exact ih.wakeAt (nextWake_eq_some_iff.mp next).2

theorem Elapses.trans {m'' : Machine σ} (h : Elapses adapters who m m')
    (h' : Elapses adapters who m' m'') : Elapses adapters who m m'' := by
  induction h' with
  | refl => exact h
  | turn _ takes hid ih => exact ih.turn takes hid
  | clock _ idle next ih => exact ih.clock idle next

theorem Elapses.mono {who' : Nat → Prop} (hwho : ∀ id, who id → who' id)
    (h : Elapses adapters who m m') : Elapses adapters who' m m' := by
  induction h with
  | refl => exact .refl
  | turn _ takes hid ih => exact ih.turn takes (hwho _ hid)
  | clock _ idle next ih => exact ih.clock idle next

/-- On the way onward a task has no turn, or it has a first one. -/
theorem Elapses.exists_turn (k : Nat) (h : Onward adapters m m') :
    Elapses adapters (· ≠ k) m m' ∨
      ∃ m₁ m₂, Elapses adapters (· ≠ k) m m₁ ∧ Takes m₁ k m₂ ∧
        Onward adapters (m₂.turn (adapters m₂.world.now) k) m' := by
  induction h with
  | refl => exact .inl .refl
  | @turn m' m₀ id _ takes _ ih =>
    rcases ih with hothers | ⟨m₁, m₂, hothers, htakes, honward⟩
    · by_cases hid : id = k
      · subst hid
        exact .inr ⟨m', m₀, hothers, takes, .refl⟩
      · exact .inl (hothers.turn takes hid)
    · exact .inr ⟨m₁, m₂, hothers, htakes, honward.turn takes trivial⟩
  | clock _ idle next ih =>
    rcases ih with hothers | ⟨m₁, m₂, hothers, htakes, honward⟩
    · exact .inl (hothers.clock idle next)
    · exact .inr ⟨m₁, m₂, hothers, htakes, honward.clock idle next⟩

theorem not_awake_of_ready (hready : m.ready = []) (hroot : m.rootReady = false) :
    ¬ m.Awake k := by
  unfold Awake
  split <;> simp [hready, hroot]

/-- A step without a deadline leads onward. -/
theorem Elapses.step (h : Onward (fun _ => adapter) m m') :
    Onward (fun _ => adapter) m (m'.step adapter none) := by
  have hroot (m' : Machine σ) (h : Onward (fun _ => adapter) m m') :
      Onward (fun _ => adapter) m (m'.rootTurn adapter none) := by
    rw [rootTurn_none]
    cases hready : m'.rootReady with
    | true => exact rootPart_of_ready hready ▸ h.turn (.root hready) trivial
    | false => rwa [rootPart_of_not_ready hready]
  refine step_cases (fun id ready hready => h.turn (.branch hready) trivial) (fun _ _ => hroot m' h)
    (fun _ _ _ => h) fun time hready hrootReady htime => hroot _ (h.clock ?_ ?_)
  · exact fun k t _ => not_awake_of_ready hready hrootReady
  · cases hwake : m'.nextWake with
    | none => simp [nextTime, hwake] at htime
    | some wake => simpa [nextTime, hwake] using htime

/-- A run leads onward unless it is cut off. -/
theorem Proper.onward_run (hm : Proper P m) (hle : ∀ limit ∈ deadline, m.world.now ≤ limit)
    (hintime : InTime deadline m) (hcut : (m.run adapter deadline).ending ≠ some .timedOut) :
    Onward (fun _ => adapter) m (m.run adapter deadline) := by
  have hrun : Onward (fun _ => adapter) m (m.run adapter none) :=
    hm.run_preserves (fun _ _ _ h => h.step) .refl
  cases deadline with
  | none => exact hrun
  | some limit =>
    obtain ⟨heq, -⟩ := (hm.run_deadline adapter (hle limit rfl) hintime).resolve_right fun h =>
      hcut h.ending
    rwa [heq]

/-- What goes on after the end of a run leads onward. -/
theorem Proper.onward_settle (hm : Proper P m) (hending : m.ending ≠ none) (ms : Nat) :
    Onward (fun _ => adapter) m (m.settle adapter ms) := by
  refine (hm.settle_preserves (Q := fun m' => Onward (fun _ => adapter) m m' ∧ m'.ending ≠ none)
    (fun m₁ m₂ time hm₁ hs h => ⟨?_, ?_⟩) ⟨.refl, hending⟩ ms).1
  · unfold Machine.settleStep at hs
    split at hs
    · rename_i id ready hready
      obtain rfl := Option.some.inj hs
      exact h.1.turn (.branch hready) trivial
    · rename_i hready
      simp only [Option.map_eq_some_iff, Option.filter_eq_some_iff] at hs
      obtain ⟨wake, ⟨hwake, -⟩, rfl⟩ := hs
      refine h.1.clock (fun k t ht hk => ?_) hwake
      -- the root may be ready, but it is gone
      by_cases hroot : k = root
      · rw [hroot, hm₁.lookup_root_eq_none h.2] at ht
        cases ht
      · simp [Awake, hroot, hready] at hk
  · rw [hm₁.ending_move h.2 (move_of_settleStep hs)]
    exact h.2

/-- From every machine the way onward leads to one in which all tasks have ended. -/
theorem Proper.exists_onward (adapters : Nat → Adapter σ) (hm : Proper P m) :
    ∃ m', Onward adapters m m' ∧ m'.tasks = [] := by
  induction m using Nearer.wellFounded.induction with
  | _ m ih =>
    -- a turn, or a move of the clock, comes nearer to the end
    have hnext (m₁ : Machine σ) (h : Onward adapters m m₁) (hnear : Nearer m₁ m) :
        ∃ m', Onward adapters m m' ∧ m'.tasks = [] := by
      obtain ⟨m', hpath, hnil⟩ := ih m₁ hnear (h.proper hm)
      exact ⟨m', h.trans hpath, hnil⟩
    by_cases hready : m.ready = []
    · cases hroot : m.rootReady with
      | true =>
        exact hnext _ (Elapses.refl.turn (.root hroot) trivial) (hm.nearer_turn (.root hroot))
      | false =>
        cases hwake : m.nextWake with
        | some time =>
          refine hnext (m.wakeAt time) (Elapses.refl.clock (fun k t _ => ?_) hwake)
            (nearer_wakeAt (nextWake_eq_some_iff.mp hwake).1)
          exact not_awake_of_ready hready hroot
        | none =>
          have hsleepers : m.sleepers = [] := by simpa [nextWake] using hwake
          exact ⟨m, .refl, hm.sound.tasks_eq_nil hready (.inl hroot) hsleepers⟩
    · obtain ⟨id, ready, hcons⟩ := List.exists_cons_of_ne_nil hready
      exact hnext _ (Elapses.refl.turn (.branch hcons) trivial) (hm.nearer_turn (.branch hcons))

/-! ### Nobody is cancelled -/

/-- No task is cancelled. -/
def Calm (m : Machine σ) : Prop :=
  ∀ k t, m.tasks.lookup k = some t → t.cancelled = false

theorem calm_beginning {w : World σ} {fresh : Nat} {a : Activity} : Calm (beginning w fresh a) := by
  intro k t ht
  rw [lookup_beginning, Option.ite_none_right_eq_some] at ht
  obtain rfl := Option.some.inj ht.2
  rfl

theorem Calm.of_tasks (htasks : m'.tasks = m.tasks) (hm : Calm m) : Calm m' := by
  unfold Calm
  rwa [htasks]

/-- In a turn nobody is cancelled. -/
theorem Calm.turn (hm : Proper P m) (hcalm : Calm m) (htakes : Takes m id m₀) :
    Calm (m₀.turn adapter id) := by
  have hcalm₀ : Calm m₀ := hcalm.of_tasks htakes.tasks
  refine hm.turn_cases htakes (fun _ => hcalm₀) (fun t ht hc _ => ?_) fun t h m₁ ha k t' ht' => ?_
  · exact absurd ((hcalm₀ id t ht).symm.trans hc) Bool.false_ne_true
  · rcases ha.after ht' with @⟨t₀, -, ht₀, hkept⟩ | ⟨-, -, hcancelled, -⟩ | ⟨-, -, -, rfl⟩
    · exact hkept.cancelled.trans (hcalm₀ k t₀ ht₀)
    · exact hcancelled.trans ha.active
    · rfl

theorem Elapses.calm (hm : Proper P m) (hcalm : Calm m) (h : Elapses adapters who m m') :
    Calm m' := by
  induction h with
  | refl => exact hcalm
  | turn h takes _ ih => exact ih.turn (h.proper hm) takes
  | clock _ _ _ ih => exact ih.of_tasks wakeAt_tasks

/-! ### Tasks that are asleep -/

/-- Another task goes on sleeping. -/
theorem Acting.mem_sleepers {e : Nat × Nat} (ha : Acting P adapter m id m₀ t h m₁)
    (hne : e.2 ≠ id) (he : e ∈ m.sleepers) : e ∈ (m₁.halt id h).sleepers := by
  have he₁ : e ∈ m₁.sleepers := by rwa [ha.acts.sleepers, ha.takes.sleepers]
  cases h with
  | done result =>
    rw [halt, finish_sleepers ha.lookup_acted fun hid =>
      (ha.sound_acted.root t (hid ▸ ha.lookup_acted)).1]
    exact List.mem_filter.mpr ⟨he₁, decide_eq_true hne⟩
  | asleep ms r => exact List.mem_append_left _ he₁
  | forked f => rwa [halt, takeIn_sleepers]

/-- Another task goes on being ready. -/
theorem Acting.awake (ha : Acting P adapter m id m₀ t h m₁) (hm : Sound none m) (hne : k ≠ id)
    (hk : m.Awake k) : (m₁.halt id h).Awake k := by
  have hk₀ : m₀.Awake k := (hm.awake_of_takes ha.takes k).mpr ⟨hk, hne⟩
  have hk₁ : m₁.Awake k := by
    unfold Awake at hk₀ ⊢
    rwa [ha.acts.ready, ha.acts.rootReady]
  cases h with
  | done result =>
    exact (awake_finish ha.lookup_acted fun hid =>
      (ha.sound_acted.root t (hid ▸ ha.lookup_acted)).1).mpr (.inl hk₁)
  | asleep ms r => exact hk₁
  | forked f => exact (awake_takeIn ha.sound_acted.root_lt_fresh).mpr (.inl hk₁)

/-- A task sleeps until a time, or that time has come and it has not yet had its turn. -/
structure Rests (P : Nat → Nat → (Nat → Activity) → Prop) (k time : Nat) (r : Resumption)
    (m : Machine σ) : Prop where
  proper : Proper P m
  calm : Calm m
  paused : ∃ t, m.tasks.lookup k = some t ∧ t.state = .paused r
  due : (time, k) ∈ m.sleepers ∨ m.Awake k ∧ m.world.now = time

/-- A task that is about to go on: it is its turn, and it has no branches. -/
structure Running (P : Nat → Nat → (Nat → Activity) → Prop) (k : Nat) (m : Machine σ) : Prop where
  sound : Sound (some k) m
  lawful : m.Lawful P
  calm : Calm m
  itemsOf : m.itemsOf k = []

theorem Running.withWorld {w : World σ} (hm : Running P k m) (hw : w.now = m.world.now) :
    Running P k { m with world := w } :=
  ⟨hm.sound.withWorld hw, hm.lawful, hm.calm, hm.itemsOf⟩

theorem Running.exists_lookup (hm : Running P k m) :
    ∃ t, m.tasks.lookup k = some t ∧ t.cancelled = false := by
  obtain ⟨t, ht⟩ := Option.isSome_iff_exists.mp (hm.sound.running_isSome k rfl)
  exact ⟨t, ht, hm.calm k t ht⟩

theorem Running.proper {a : Activity} (hm : Running P k m) (ha : a.Lawful P) :
    Proper P (proceed adapter k a m) := by
  obtain ⟨t, ht, hc⟩ := hm.exists_lookup
  have hnow := a.now_advance adapter (k = root) m.world
  rw [proceed_eq_halt]
  refine ⟨(hm.sound.withWorld hnow).halt (fits_advance ha hm.itemsOf m.world) ht hc, ?_⟩
  exact Lawful.halt hm.lawful (ha.advance m.world) ht fun hid => (hm.sound.root t (hid ▸ ht)).1

/-- The running task falls asleep. -/
theorem Running.rests {ms : Nat} (hm : Running P k m) (hms : 0 < ms) (hr : r.Lawful P) :
    Rests P k (m.world.now + ms) r (m.sleep k ms r) := by
  obtain ⟨t, ht, hc⟩ := hm.exists_lookup
  have hlookup : ∀ j, (m.sleep k ms r).tasks.lookup j = _ := fun j => lookup_setState _
  refine ⟨⟨hm.sound.sleep hm.itemsOf ht hc hms, Lawful.setState hm.lawful hr⟩, fun j t' ht' => ?_,
    ⟨{ t with state := .paused r }, ?_, rfl⟩, .inl (List.mem_append_right _ List.mem_cons_self)⟩
  · rw [hlookup] at ht'
    split at ht'
    · obtain ⟨t₀, ht₀, rfl⟩ := Option.map_eq_some_iff.mp ht'
      exact hm.calm j t₀ ht₀
    · exact hm.calm j t' ht'
  · rw [hlookup, if_pos rfl, ht, Option.map_some]

namespace Rests

/-- The turns of other tasks leave it as it is. -/
theorem turn (hm : Rests P k time r m) (htakes : Takes m id m₀) (hid : id ≠ k) :
    Rests P k time r (m₀.turn adapter id) := by
  have hnow : (m₀.turn adapter id).world.now = m.world.now := hm.proper.now_turn htakes
  obtain ⟨t₀, ht₀, hs⟩ := hm.paused
  -- its state, its place among the sleepers, and its place among the ready ones
  suffices h : (∃ t, (m₀.turn adapter id).tasks.lookup k = some t ∧ t.state = .paused r) ∧
      ((time, k) ∈ m.sleepers → (time, k) ∈ (m₀.turn adapter id).sleepers) ∧
      (m.Awake k → (m₀.turn adapter id).Awake k) from
    ⟨hm.proper.turn htakes, hm.calm.turn hm.proper htakes, h.1,
      hm.due.imp h.2.1 fun hdue => ⟨h.2.2 hdue.1, hnow.trans hdue.2⟩⟩
  rw [← htakes.tasks] at ht₀
  refine hm.proper.turn_cases (Q := fun m' =>
    (∃ t, m'.tasks.lookup k = some t ∧ t.state = .paused r) ∧
      ((time, k) ∈ m.sleepers → (time, k) ∈ m'.sleepers) ∧ (m.Awake k → m'.Awake k)) htakes
    (fun _ => ⟨⟨t₀, ht₀, hs⟩, fun h => htakes.sleepers ▸ h, fun h =>
      (hm.proper.sound.awake_of_takes htakes k).mpr ⟨h, hid.symm⟩⟩) (fun t ht hc _ => ?_)
    fun t h m₁ ha => ?_
  · -- a task that is cancelled would be dropped
    have hcalm := hm.calm.of_tasks htakes.tasks id t ht
    exact absurd (hcalm.symm.trans hc) Bool.false_ne_true
  · obtain ⟨t', ht', hkept⟩ := ha.exists_kept hid.symm ht₀
    exact ⟨⟨t', ht', hkept.paused r hs⟩, ha.mem_sleepers hid.symm,
      ha.awake hm.proper.sound hid.symm⟩

/-- When the clock moves, the task sleeps on, or its time has come. -/
theorem clock {next : Nat} (hm : Rests P k time r m)
    (hidle : ∀ k t, m.tasks.lookup k = some t → ¬ m.Awake k) (hnext : m.nextWake = some next) :
    Rests P k time r (m.wakeAt next) := by
  obtain ⟨t, ht, hs⟩ := hm.paused
  have hmem : (time, k) ∈ m.sleepers := hm.due.resolve_right fun h => hidle k t ht h.1
  refine ⟨hm.proper.wakeAt (nextWake_eq_some_iff.mp hnext).2, hm.calm.of_tasks wakeAt_tasks,
    ⟨t, by rwa [wakeAt_tasks], hs⟩, ?_⟩
  by_cases heq : time = next
  · exact .inr ⟨awake_wakeAt.mpr (.inr (heq ▸ hmem)), by rw [wakeAt_world, heq]⟩
  · rw [wakeAt_sleepers]
    exact .inl (List.mem_filter.mpr ⟨hmem, decide_eq_true heq⟩)

/-- When it has its turn, its time has come. -/
theorem take (hm : Rests P k time r m) (htakes : Takes m k m₀) :
    m₀.world.now = time ∧ Running P k m₀ ∧
      ∃ t, m₀.tasks.lookup k = some t ∧ t.state = .paused r ∧ t.cancelled = false := by
  obtain ⟨t, ht, hs⟩ := hm.paused
  have hawake : m.Awake k := hm.proper.sound.awake_of_takes_self htakes
  -- nobody who is ready is among the sleepers
  have hnow : m.world.now = time :=
    (hm.due.resolve_left fun hmem => (hm.proper.sound.sleepers _ hmem).2.2.1 hawake).2
  refine ⟨htakes.world ▸ hnow, ⟨hm.proper.sound.take htakes ht, ?_, ?_, ?_⟩,
    t, by rwa [htakes.tasks], hs, hm.calm k t ht⟩
  · exact fun j t ht => hm.proper.lawful j t (htakes.tasks ▸ ht)
  · exact hm.calm.of_tasks htakes.tasks
  · rw [htakes.itemsOf]
    exact (hm.proper.sound.paused k t r ht hs nofun).2

theorem elapses (hm : Rests P k time r m) (h : Elapses adapters (· ≠ k) m m') :
    Rests P k time r m' := by
  induction h with
  | refl => exact hm
  | turn _ takes hid ih => exact ih.turn takes hid
  | clock _ idle next ih => exact ih.clock idle next

end Rests

/-! ### Pauses -/

/-- From one machine to the other a task pauses for some milliseconds, while other tasks have their
turns, and then it is its turn. -/
inductive Sleeps (adapters : Nat → Adapter σ) (k ms : Nat) (r : Resumption) (m : Machine σ) :
    Machine σ → Prop
  | none (h : ms = 0) : Sleeps adapters k ms r m m
  | some {m₁ m₂ : Machine σ} {t : Task} (h : 0 < ms)
    (others : Elapses adapters (· ≠ k) (m.sleep k ms r) m₁) (takes : Takes m₁ k m₂)
    (lookup : m₂.tasks.lookup k = Option.some t) (active : t.cancelled = false)
    (paused : t.state = .paused r) : Sleeps adapters k ms r m m₂

/-- After a pause exactly its time has gone by, and the task is about to go on. -/
theorem Sleeps.running {ms : Nat} (h : Sleeps adapters k ms r m m₁) (hm : Running P k m)
    (hr : r.Lawful P) : m₁.world.now = m.world.now + ms ∧ Running P k m₁ := by
  cases h with
  | none hms => exact ⟨by rw [hms, Nat.add_zero], hm⟩
  | some hms others takes _ _ _ =>
    obtain ⟨hnow, hrunning, -⟩ := ((hm.rests hms hr).elapses others).take takes
    exact ⟨hnow, hrunning⟩

theorem turn_of_paused (ht : m.tasks.lookup k = some t) (hc : t.cancelled = false)
    (hs : t.state = .paused r) : m.turn adapter k = m.resume adapter k r := by
  simp only [Machine.turn, ht, hc, hs, Bool.false_eq_true, if_false]

/-- Lets the running task pause, and go on with it if there is nothing to wait for. -/
def await (adapter : Adapter σ) (k ms : Nat) (r : Resumption) (m : Machine σ) : Machine σ :=
  if ms = 0 then m.resume adapter k r else m.sleep k ms r

/-- When a task pauses, it goes on later. -/
theorem Sleeps.onward {ms : Nat} (h : Sleeps adapters k ms r m m₁) :
    Onward adapters (m.await (adapters m.world.now) k ms r)
      (m₁.resume (adapters m₁.world.now) k r) := by
  cases h with
  | none hms =>
    rw [await, if_pos hms]
    exact .refl
  | some hms others takes lookup active paused =>
    rw [await, if_neg hms.ne', ← turn_of_paused lookup active paused]
    exact (others.mono fun _ _ => trivial).turn takes trivial

/-- A task that has ended later has gone on after its pause. -/
theorem Running.exists_sleeps {ms : Nat} (hm : Running P k m) (hr : r.Lawful P)
    (honward : Onward adapters (m.await (adapters m.world.now) k ms r) m')
    (hgone : m'.tasks.lookup k = none) :
    ∃ m₁, Sleeps adapters k ms r m m₁ ∧
      Onward adapters (m₁.resume (adapters m₁.world.now) k r) m' := by
  unfold await at honward
  by_cases hms : ms = 0
  · rw [if_pos hms] at honward
    exact ⟨m, .none hms, honward⟩
  · rw [if_neg hms] at honward
    have hpos : 0 < ms := Nat.pos_of_ne_zero hms
    have hrests := hm.rests hpos hr
    rcases honward.exists_turn k with hothers | ⟨m₁, m₂, hothers, htakes, honward⟩
    · obtain ⟨t, ht, -⟩ := (hrests.elapses hothers).paused
      rw [hgone] at ht
      cases ht
    · obtain ⟨-, -, t, ht, hs, hc⟩ := (hrests.elapses hothers).take htakes
      exact ⟨m₂, .some hpos hothers htakes ht hc hs, turn_of_paused ht hc hs ▸ honward⟩

end Machine

end Conveyor
