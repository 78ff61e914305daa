import Conveyor.Proofs.Run.Termination

/-!
# Changes that a run does not notice

`Machine.transform` changes the world of a machine and what its root is about. If the world is
changed in a way that no activity notices, and the root is changed in a way that is compatible with
receiving results, then whatever the other tasks do commutes with the transformation. The log of a
machine can be changed so, and what follows the activity of the root.
-/

namespace Conveyor

/-- A change of the world that no activity notices. -/
structure World.Inert {σ : Type} (adapter : Adapter σ) (g : World σ → World σ) : Prop where
  now : ∀ w, (g w).now = w.now
  clock : ∀ w time, { g w with now := time } = g { w with now := time }
  note : ∀ top n w, (g w).note top n = g (w.note top n)
  callCount : ∀ operation w, (g w).callCount operation = w.callCount operation
  beginCall : ∀ operation input w, (g w).beginCall operation input = g (w.beginCall operation input)
  answer : ∀ number operation input w, (g w).answer adapter number operation input =
    ((w.answer adapter number operation input).1, g (w.answer adapter number operation input).2)

theorem World.Inert.id {σ : Type} (adapter : Adapter σ) : World.Inert adapter fun w => w :=
  ⟨fun _ => rfl, fun _ _ => rfl, fun _ _ _ => rfl, fun _ _ => rfl, fun _ _ _ => rfl,
    fun _ _ _ _ => rfl⟩

section Advance

variable {σ : Type} {adapter : Adapter σ} {g : World σ → World σ}

theorem World.Inert.advance (hg : World.Inert adapter g) (top : Bool) (a : Activity)
    (w : World σ) : a.advance adapter top (g w) =
      ((a.advance adapter top w).1, g (a.advance adapter top w).2) := by
  induction a generalizing w with
  | done result => rfl
  | note n next ih => simp only [Activity.advance, hg.note, ih]
  | pause ms next ih =>
    unfold Activity.advance
    split
    · exact ih w
    · rfl
  | call operation input next ih =>
    unfold Activity.advance
    dsimp only
    rw [hg.callCount, hg.beginCall, hg.answer]
    split
    · exact ih _ _
    · rfl
  | fork count limit branch next _ ih =>
    unfold Activity.advance
    split
    · exact ih _ w
    · rfl

theorem World.Inert.start (hg : World.Inert adapter g) (r : Resumption) (w : World σ) :
    r.start adapter (g w) = ((r.start adapter w).1, g (r.start adapter w).2) := by
  cases r with
  | activity a => rfl
  | answer number operation input next => simp only [Resumption.start, hg.answer]

end Advance

namespace Machine

/-- A change of what a task is about that is compatible with receiving results. -/
def Receptive (φ : TaskState → TaskState) : Prop :=
  ∀ item result (t : Task), receive item result { t with state := φ t.state } =
    { receive item result t with state := φ (receive item result t).state }

theorem Receptive.id : Receptive fun s => s :=
  fun _ _ _ => rfl

variable {σ : Type} {adapter : Adapter σ} {deadline : Option Nat} {g : World σ → World σ}
  {φ : TaskState → TaskState} {m : Machine σ} {id : Nat}

/-- A task after a change of what the root is about. -/
def rerooted (φ : TaskState → TaskState) (k : Nat) (t : Task) : Task :=
  if k = root then { t with state := φ t.state } else t

theorem rerooted_of_ne {k : Nat} (h : k ≠ root) : rerooted φ k = fun t => t :=
  funext fun _ => if_neg h

theorem rerooted_id {k : Nat} : rerooted (fun s => s) k = fun t => t :=
  funext fun _ => ite_self _

theorem rerooted_parent {k : Nat} {t : Task} : (rerooted φ k t).parent = t.parent := by
  unfold rerooted; split <;> rfl

/-- Changes the world, and what the root is about. -/
def transform (g : World σ → World σ) (φ : TaskState → TaskState) (m : Machine σ) : Machine σ :=
  { m with world := g m.world, tasks := m.tasks.map fun e => (e.1, rerooted φ e.1 e.2) }

theorem lookup_transform {k : Nat} :
    (transform g φ m).tasks.lookup k = (m.tasks.lookup k).map (rerooted φ k) :=
  Keyed.lookup_map _

theorem parent_transform : ((transform g φ m).tasks.lookup id).bind Task.parent =
    (m.tasks.lookup id).bind Task.parent := by
  rw [lookup_transform]
  cases m.tasks.lookup id with
  | none => rfl
  | some t => exact rerooted_parent

theorem onWorld_eq_transform (g : World σ → World σ) (m : Machine σ) :
    m.onWorld g = transform g (fun s => s) m := by
  unfold onWorld transform
  congr 1
  refine ((List.map_congr_left fun e _ => ?_).trans (List.map_id' _)).symm
  rw [rerooted_id]

/-- Without a root, only the world is changed. -/
theorem transform_of_no_root (h : m.tasks.lookup root = none) :
    transform g φ m = { m with world := g m.world } := by
  have htasks : (m.tasks.map fun e => (e.1, rerooted φ e.1 e.2)) = m.tasks := by
    refine (List.map_congr_left fun e he => ?_).trans (List.map_id' _)
    have hne : e.1 ≠ root := fun heq => by
      have hsome := Keyed.isSome_lookup_iff.mpr (heq ▸ List.mem_map_of_mem (f := Prod.fst) he)
      simp [h] at hsome
    rw [rerooted_of_ne hne]
  unfold transform
  rw [htasks]

/-! ### Operations on tasks -/

theorem transform_map (change : Nat → Task → Task)
    (h : ∀ k t, change k (rerooted φ k t) = rerooted φ k (change k t)) :
    (transform g φ m).tasks.map (fun e => (e.1, change e.1 e.2)) =
      (m.tasks.map fun e => (e.1, change e.1 e.2)).map fun e => (e.1, rerooted φ e.1 e.2) := by
  simp only [transform, List.map_map, Function.comp_def, h]

theorem transform_modifyTask (change : Task → Task)
    (h : ∀ t, change (rerooted φ id t) = rerooted φ id (change t)) :
    (transform g φ m).modifyTask id change = transform g φ (m.modifyTask id change) := by
  have htasks : ((transform g φ m).modifyTask id change).tasks =
      (transform g φ (m.modifyTask id change)).tasks := by
    rw [modifyTask_tasks, transform_map fun k t => if k = id then change t else t]
    · simp only [transform, modifyTask_tasks]
    · intro k t
      split
      · rename_i hk
        rw [hk, h]
      · rfl
  exact congrArg (fun tasks => { transform g φ m with tasks }) htasks

theorem transform_removeTask :
    (transform g φ m).removeTask id = transform g φ (m.removeTask id) := by
  simp only [removeTask, transform, Keyed.erase, List.filter_map]
  rfl

theorem transform_wake : (transform g φ m).wake id = transform g φ (m.wake id) := by
  unfold wake transform
  split
  · rfl
  · dsimp only
    split <;> rfl

theorem transform_cancel : (transform g φ m).cancel id = transform g φ (m.cancel id) := by
  unfold cancel
  rw [transform_modifyTask]
  · exact transform_wake (m := { m.modifyTask id fun t => { t with cancelled := true } with
      sleepers := m.sleepers.filter (·.2 ≠ id) })
  · intro t
    unfold rerooted
    split <;> rfl

theorem transform_branchesOf : (transform g φ m).branchesOf id = m.branchesOf id := by
  simp only [branchesOf, transform, List.filter_map, List.map_map, Function.comp_def,
    rerooted_parent]

theorem transform_drop : (transform g φ m).drop id = transform g φ (m.drop id) := by
  have hcancel : ∀ (ids : List Nat) (m : Machine σ),
      ids.foldl cancel (transform g φ m) = transform g φ (ids.foldl cancel m) := by
    intro ids
    induction ids with
    | nil => exact fun _ => rfl
    | cons j ids ih => intro m; rw [List.foldl_cons, transform_cancel, ih, List.foldl_cons]
  rw [drop, transform_branchesOf, transform_removeTask, hcancel]
  rfl

theorem transform_finish (hφ : Receptive φ) (result : Except (Fault StepFailure) Json) :
    (transform g φ m).finish id result = transform g φ (m.finish id result) := by
  unfold finish
  rw [transform_removeTask, parent_transform]
  dsimp only
  split
  · rfl
  · split
    · rfl
    · rename_i p item hp
      rw [← transform_wake]
      refine congrArg (wake p) (transform_modifyTask (receive item (result.mapError (told id)))
        fun t => ?_)
      unfold rerooted
      split
      · exact hφ item _ t
      · rfl

theorem transform_detach : (transform g φ m).detach id = transform g φ (m.detach id) := by
  refine congrArg (fun tasks => { transform g φ m with tasks }) ?_
  refine (detach_tasks (m := transform g φ m)).trans ?_
  rw [transform_map fun _ t => detached id t]
  · exact congrArg (List.map _) (detach_tasks (m := m)).symm
  · intro k t
    unfold rerooted detached
    split <;> split <;> rfl

theorem transform_wakeAt (hg : World.Inert adapter g) {time : Nat} :
    (transform g φ m).wakeAt time = transform g φ (m.wakeAt time) := by
  have hwake : ∀ (ids : List (Nat × Nat)) (m : Machine σ),
      ids.foldl (fun m s => m.wake s.2) (transform g φ m) =
        transform g φ (ids.foldl (fun m s => m.wake s.2) m) := by
    intro ids
    induction ids with
    | nil => exact fun _ => rfl
    | cons j ids ih => intro m; rw [List.foldl_cons, transform_wake, ih, List.foldl_cons]
  unfold wakeAt
  rw [← hwake]
  refine congrArg (List.foldl _ · _) ?_
  simp only [transform, onWorld, hg.clock]

/-! ### Turns -/

/-- A change of what a task is about, if the task is the root. -/
def reroot (φ : TaskState → TaskState) (k : Nat) (s : TaskState) : TaskState :=
  if k = root then φ s else s

theorem rerooted_eq_of_reroot {k : Nat} (h : ∀ s, reroot φ k s = s) :
    rerooted φ k = fun t => t := by
  funext t
  unfold rerooted
  split
  · rename_i hk
    exact congrArg (fun state => { t with state }) ((if_pos hk).symm.trans (h t.state))
  · rfl

theorem reroot_of_ne {k : Nat} (h : k ≠ root) (s : TaskState) : reroot φ k s = s :=
  if_neg h

theorem transform_setState (s : TaskState) :
    (transform g φ m).setState id (reroot φ id s) = transform g φ (m.setState id s) := by
  have htasks : ((transform g φ m).setState id (reroot φ id s)).tasks =
      (transform g φ (m.setState id s)).tasks := by
    rw [setState, modifyTask_tasks]
    simp only [transform, setState, modifyTask_tasks, List.map_map, Function.comp_def]
    refine List.map_congr_left fun e _ => ?_
    split
    · rename_i hid
      rw [hid]
      unfold rerooted reroot
      split <;> rfl
    · rfl
  exact congrArg (fun tasks => { transform g φ m with tasks }) htasks

theorem transform_sleep (hnow : ∀ w, (g w).now = w.now) {ms : Nat} {r r' : Resumption}
    (h : reroot φ id (.paused r) = .paused r') :
    (transform g φ m).sleep id ms r' = transform g φ (m.sleep id ms r) := by
  unfold sleep
  rw [← h, transform_setState]
  simp only [transform, hnow]

theorem transform_takeIn (hfresh : root < m.fresh) {f f' : Fork}
    (h : reroot φ id (.joining f.filled) = .joining f'.filled) (hitems : f'.nextItems = f.nextItems)
    (hbranch : f'.branch = f.branch) :
    (transform g φ m).takeIn id f' = transform g φ (m.takeIn id f) := by
  have hnew : ∀ items n, root < n → (branchTasks id f.branch n items).map
      (fun e => (e.1, rerooted φ e.1 e.2)) = branchTasks id f.branch n items := by
    intro items
    induction items with
    | nil => exact fun _ _ => rfl
    | cons item items ih =>
      intro n hn
      rw [branchTasks, List.map_cons, ih (n + 1) (by omega)]
      exact congrArg (fun t => (n, t) :: _) (if_neg (by omega))
  have hset : (transform g φ m).setState id (.joining f'.filled) =
      transform g φ (m.setState id (.joining f.filled)) := h ▸ transform_setState _
  have hfill : ∀ (f : Fork) (m : Machine σ), m.takeIn id f =
      f.nextItems.foldl (spawn id f.branch) (m.setState id (.joining f.filled)) :=
    fun _ _ => rfl
  rw [hfill, hfill, foldl_spawn, foldl_spawn, hset, hitems, hbranch]
  simp only [transform, List.map_append]
  rw [hnew f.nextItems (m.setState id (.joining f.filled)).fresh hfresh]

theorem transform_halt (hg : World.Inert adapter g) (hφ : Receptive φ) (hfresh : root < m.fresh)
    (hsame : ∀ s, reroot φ id s = s) (h : Halt) :
    halt id h (transform g φ m) = transform g φ (halt id h m) := by
  cases h with
  | done result => exact transform_finish hφ result
  | asleep ms r => exact transform_sleep hg.now (hsame _)
  | forked f => exact transform_takeIn hfresh (hsame _) rfl rfl

theorem transform_resumes (hg : World.Inert adapter g) {s : TaskState} {a : Activity}
    {m₁ : Machine σ} (hr : Resumes adapter id m s a m₁) :
    Resumes adapter id (transform g φ m) s a (transform g φ m₁) := by
  cases hr with
  | pause r =>
    have hres : Resumes adapter id (transform g φ m) (.paused r) (r.start adapter (g m.world)).1
      { transform g φ m with world := (r.start adapter (g m.world)).2 } := .pause r
    rw [hg.start] at hres
    exact hres
  | collapse hf => exact transform_detach ▸ .collapse hf
  | complete hf hover => exact .complete hf hover

theorem transform_acts (hg : World.Inert adapter g) {s : TaskState} {h : Halt} {m₁ : Machine σ}
    (hacts : Acts adapter id m s h m₁) :
    Acts adapter id (transform g φ m) s h (transform g φ m₁) := by
  cases hacts with
  | refill hf hover => exact .refill hf hover
  | @advance _ a m₂ hr =>
    have hacts : Acts adapter id (transform g φ m) s
      (a.advance adapter (id = root) (g m₂.world)).1 { transform g φ m₂ with
        world := (a.advance adapter (id = root) (g m₂.world)).2 } :=
      .advance (transform_resumes hg hr)
    rw [hg.advance] at hacts
    exact hacts

/-- The turn of a task that is not changed. -/
theorem transform_turn (hg : World.Inert adapter g) (hφ : Receptive φ) (hfresh : root < m.fresh)
    (hsame : ∀ s, reroot φ id s = s) :
    (transform g φ m).turn adapter id = transform g φ (m.turn adapter id) := by
  have hlookup : (transform g φ m).tasks.lookup id = m.tasks.lookup id := by
    rw [lookup_transform, rerooted_eq_of_reroot hsame, Option.map_id']
  cases ht : m.tasks.lookup id with
  | none => rw [turn_of_none ht, turn_of_none (hlookup.trans ht)]
  | some t =>
    cases hc : t.cancelled with
    | true =>
      rw [turn_of_cancelled ht hc, turn_of_cancelled (hlookup.trans ht) hc, transform_drop]
    | false =>
      obtain ⟨h, m₁, hacts⟩ := exists_acts adapter id m t.state
      rw [turn_of_acts ht hc hacts, turn_of_acts (hlookup.trans ht) hc (transform_acts hg hacts)]
      exact transform_halt hg hφ (hacts.fresh ▸ hfresh) hsame h

/-! ### Changing the world alone -/

variable {P : Nat → Nat → (Nat → Activity) → Prop}

section OnWorld

theorem turn_onWorld (hg : World.Inert adapter g) (hfresh : root < m.fresh) :
    (m.onWorld g).turn adapter id = (m.turn adapter id).onWorld g := by
  simp only [onWorld_eq_transform]
  exact transform_turn hg .id hfresh fun s => ite_self s

theorem wakeAt_onWorld (hg : World.Inert adapter g) {time : Nat} :
    (m.onWorld g).wakeAt time = (m.wakeAt time).onWorld g := by
  rw [onWorld_eq_transform, onWorld_eq_transform, transform_wakeAt hg]

theorem cut_onWorld : (m.onWorld g).cut = m.cut.onWorld g := by
  rw [cut, onWorld_eq_transform, transform_drop, ← onWorld_eq_transform]
  rfl

theorem rootTurn_onWorld (hg : World.Inert adapter g) (hfresh : root < m.fresh) :
    (m.onWorld g).rootTurn adapter deadline = (m.rootTurn adapter deadline).onWorld g := by
  have hpart : (m.onWorld g).rootPart adapter = (m.rootPart adapter).onWorld g := by
    cases hr : m.rootReady with
    | true =>
      rw [rootPart_of_ready hr, rootPart_of_ready (m := m.onWorld g) hr]
      exact turn_onWorld (m := { m with rootReady := false }) hg hfresh
    | false => rw [rootPart_of_not_ready hr, rootPart_of_not_ready (m := m.onWorld g) hr]
  have hnow : ((m.rootPart adapter).onWorld g).world.now = (m.rootPart adapter).world.now :=
    hg.now _
  rw [rootTurn_eq, rootTurn_eq, hpart, cut_onWorld, hnow, apply_ite (onWorld g)]
  rfl

/-- A step of a machine of which the world is changed. -/
theorem step_onWorld (hg : World.Inert adapter g) (hfresh : root < m.fresh) :
    (m.onWorld g).step adapter deadline = (m.step adapter deadline).onWorld g := by
  cases h : m.ready with
  | cons id ready =>
    rw [step_of_ready h, step_of_ready (m := m.onWorld g) h]
    exact turn_onWorld (m := { m with ready }) hg hfresh
  | nil =>
    cases hr : m.rootReady with
    | true =>
      rw [step_of_rootReady h hr, step_of_rootReady (m := m.onWorld g) h hr]
      exact rootTurn_onWorld hg hfresh
    | false =>
      cases ht : m.nextTime deadline with
      | none =>
        rw [step_of_nextTime_eq_none h hr ht,
          step_of_nextTime_eq_none (m := m.onWorld g) h hr ht]
      | some time =>
        rw [step_of_nextTime_eq_some h hr ht,
          step_of_nextTime_eq_some (m := m.onWorld g) h hr ht, wakeAt_onWorld hg,
          rootTurn_onWorld hg (wakeAt_fresh.symm ▸ hfresh), apply_ite (onWorld g)]
        rfl

/-- The run of a machine of which the world is changed. -/
theorem Proper.run_onWorld (hg : World.Inert adapter g) (hm : Proper P m) :
    (m.onWorld g).run adapter deadline = (m.run adapter deadline).onWorld g := by
  refine hm.run_induction adapter deadline (Q := fun m =>
    (m.onWorld g).run adapter deadline = (m.run adapter deadline).onWorld g)
    (fun m hm h => ?_) fun m hm h ih => ?_
  · rw [run_of_ending h, run_of_ending (m := m.onWorld g) h]
  · rw [run_of_step h, ← ih, ← step_onWorld hg hm.sound.root_lt_fresh]
    exact run_of_step h

theorem settleStep_onWorld (hg : World.Inert adapter g) (hfresh : root < m.fresh) (time : Nat) :
    (m.onWorld g).settleStep adapter time = (m.settleStep adapter time).map (onWorld g) := by
  have hready : (m.onWorld g).ready = m.ready := rfl
  have hwake : (m.onWorld g).nextWake = m.nextWake := rfl
  unfold settleStep
  rw [hready, hwake]
  cases h : m.ready with
  | cons id ready => exact congrArg some (turn_onWorld (m := { m with ready }) hg hfresh)
  | nil =>
    dsimp only
    rw [Option.map_map]
    exact congrArg (Option.map · _) (funext fun _ => wakeAt_onWorld hg)

/-- What the tasks do that are left in a machine of which the world is changed. -/
theorem Proper.settle_onWorld (hg : World.Inert adapter g) (hm : Proper P m) (ms : Nat) :
    (m.onWorld g).settle adapter ms = (m.settle adapter ms).onWorld g := by
  unfold settle
  split
  · rfl
  · have hnow : (m.onWorld g).world.now = m.world.now := hg.now _
    rw [hnow]
    generalize m.world.now + ms = time
    refine hm.settle_induction adapter time (Q := fun m =>
      (m.onWorld g).settleUntil adapter time = (m.settleUntil adapter time).onWorld g)
      (fun m hm h => ?_) fun m m' hm h ih => ?_
    · have hstep := settleStep_onWorld hg hm.sound.root_lt_fresh time
      rw [h, Option.map_none] at hstep
      rw [settleUntil_of_settled h, settleUntil_of_settled hstep]
    · have hstep := settleStep_onWorld hg hm.sound.root_lt_fresh time
      rw [h, Option.map_some] at hstep
      rw [settleUntil_of_step h, settleUntil_of_step hstep, ih]

end OnWorld

end Machine

/-! ### The log -/

/-- Puts lines before the log. -/
def World.withLinesBefore {σ : Type} (lines : List LogLine) (w : World σ) : World σ :=
  { w with log := lines ++ w.log }

theorem World.inert_withLinesBefore {σ : Type} (adapter : Adapter σ) (lines : List LogLine) :
    World.Inert adapter (World.withLinesBefore lines) where
  now _ := rfl
  clock _ _ := rfl
  note top n w := by
    cases n with
    | event id kind => rfl
    | line line => simp [World.note, World.tell, withLinesBefore]
    | reached index context => cases top <;> rfl
  callCount _ _ := rfl
  beginCall _ _ _ := rfl
  answer number operation input w := by simp [World.answer, World.tell, withLinesBefore]

namespace Machine

variable {P : Nat → Nat → (Nat → Activity) → Prop} {σ : Type} {adapter : Adapter σ}
  {deadline : Option Nat} {m m' : Machine σ}

/-- A machine without its log. -/
def unlogged (m : Machine σ) : Machine σ :=
  m.onWorld fun w => { w with log := [] }

theorem eq_onWorld_unlogged (m : Machine σ) :
    m = m.unlogged.onWorld (World.withLinesBefore m.world.log) := by
  simp [unlogged, onWorld, World.withLinesBefore]

theorem Proper.of_unlogged (hm : Proper P m) : Proper P m.unlogged :=
  ⟨hm.sound.withWorld rfl, hm.lawful⟩

/-- The log makes no difference to a run but for itself. -/
theorem Proper.unlogged_run (hm : Proper P m) :
    (m.run adapter deadline).unlogged = (m.unlogged.run adapter deadline).unlogged := by
  have h : (m.unlogged.onWorld _).run adapter deadline = _ :=
    hm.of_unlogged.run_onWorld (World.inert_withLinesBefore adapter m.world.log)
  rw [← eq_onWorld_unlogged] at h
  rw [h]
  rfl

/-- The log makes no difference to what the tasks do that are left but for itself. -/
theorem Proper.unlogged_settle (hm : Proper P m) (ms : Nat) :
    (m.settle adapter ms).unlogged = (m.unlogged.settle adapter ms).unlogged := by
  have h := hm.of_unlogged.settle_onWorld (World.inert_withLinesBefore adapter m.world.log) ms
  rw [← eq_onWorld_unlogged] at h
  rw [h]
  rfl

end Machine

end Conveyor
