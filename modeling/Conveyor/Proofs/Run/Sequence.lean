import Conveyor.Proofs.Run.Orphans
import Conveyor.Proofs.Run.Transform

/-!
# One activity after another

`Activity.andThen` goes on with a second activity when the first one ends well. A run of both is a
run of the first one, and then, if it has ended well, a run of the second one that begins in the
world that the first one has left: when the root ends well, no other task is left
(`Machine.Acting.eq_root`), so that nothing of the first run is missing from the second.
-/

namespace Conveyor

/-! ### Activities -/

/-- Goes on with the context when an activity has ended well. -/
def Activity.andThen (k : Json → Activity) : Activity → Activity
  | .done (.ok context) => k context
  | .done (.error fault) => .done (.error fault)
  | .note n next => .note n (next.andThen k)
  | .call operation input next => .call operation input fun answer => (next answer).andThen k
  | .pause ms next => .pause ms (next.andThen k)
  | .fork count limit branch next => .fork count limit branch fun r => (next r).andThen k

/-- Goes on after a task has ended well. -/
def Resumption.andThen (k : Json → Activity) : Resumption → Resumption
  | .activity a => .activity (a.andThen k)
  | .answer number operation input next =>
    .answer number operation input fun answer => (next answer).andThen k

/-- Goes on after what follows a fork has ended well. -/
def Fork.andThen (k : Json → Activity) (f : Fork) : Fork :=
  { f with next := fun r => (f.next r).andThen k }

/-- Goes on after a task has ended well. -/
def TaskState.andThen (k : Json → Activity) : TaskState → TaskState
  | .paused r => .paused (r.andThen k)
  | .joining f => .joining (f.andThen k)

/-- Goes on after a task has ended well that has halted, but not yet ended. -/
def Halt.andThen (k : Json → Activity) : Halt → Halt
  | .done result => .done result
  | .asleep ms r => .asleep ms (r.andThen k)
  | .forked f => .forked (f.andThen k)

section Activity

variable {σ : Type} {adapter : Adapter σ} {top : Bool} {k : Json → Activity} {a : Activity}

theorem Activity.advance_andThen_of_ok {w : World σ} {context : Json}
    (h : (a.advance adapter top w).1 = .done (.ok context)) :
    (a.andThen k).advance adapter top w =
      (k context).advance adapter top (a.advance adapter top w).2 := by
  induction a generalizing w with
  | done result => obtain rfl := Halt.done.inj h; rfl
  | note n next ih => exact ih h
  | pause ms next ih =>
    by_cases hms : ms = 0
    · simp only [advance, andThen, if_pos hms] at h ⊢
      exact ih h
    · simp only [advance, if_neg hms] at h
      cases h
  | call operation input next ih =>
    by_cases hdelay : adapter.delay operation input = 0
    · simp only [advance, andThen, if_pos hdelay] at h ⊢
      exact ih _ h
    · simp only [advance, if_neg hdelay] at h
      cases h
  | fork count limit branch next _ ih =>
    by_cases hcount : count = 0
    · simp only [advance, andThen, if_pos hcount] at h ⊢
      exact ih _ h
    · simp only [advance, if_neg hcount] at h
      cases h

theorem Activity.advance_andThen {w : World σ}
    (h : ∀ context, (a.advance adapter top w).1 ≠ .done (.ok context)) :
    (a.andThen k).advance adapter top w =
      ((a.advance adapter top w).1.andThen k, (a.advance adapter top w).2) := by
  induction a generalizing w with
  | done result =>
    cases result with
    | ok context => exact absurd rfl (h context)
    | error fault => rfl
  | note n next ih => exact ih h
  | pause ms next ih =>
    by_cases hms : ms = 0
    · simp only [advance, andThen, if_pos hms] at h ⊢
      exact ih h
    · simp only [advance, andThen, if_neg hms]
      rfl
  | call operation input next ih =>
    by_cases hdelay : adapter.delay operation input = 0
    · simp only [advance, andThen, if_pos hdelay] at h ⊢
      exact ih _ h
    · simp only [advance, andThen, if_neg hdelay]
      rfl
  | fork count limit branch next _ ih =>
    by_cases hcount : count = 0
    · simp only [advance, andThen, if_pos hcount] at h ⊢
      exact ih _ h
    · simp only [advance, andThen, if_neg hcount]
      rfl

theorem Resumption.start_andThen (r : Resumption) (w : World σ) :
    (r.andThen k).start adapter w = ((r.start adapter w).1.andThen k, (r.start adapter w).2) := by
  cases r <;> rfl

theorem Fork.gather_andThen {f f' : Fork} {ended : List (Nat × Except (Fault StepFailure) Json)}
    (h : f.gather ended = .ok f') : (f.andThen k).gather ended = .ok (f'.andThen k) := by
  induction ended generalizing f with
  | nil => obtain rfl := Except.ok.inj h; rfl
  | cons e ended ih =>
    obtain ⟨item, fault | output⟩ := e
    · cases h
    · exact ih (f := { f with
        branches := f.branches - 1, collected := f.collected ++ [(item, output)], ended }) h

theorem Fork.gather_andThen_error {f : Fork} {ended : List (Nat × Except (Fault StepFailure) Json)}
    {c : Collapse} (h : f.gather ended = .error c) : (f.andThen k).gather ended = .error c := by
  induction ended generalizing f with
  | nil => cases h
  | cons e ended ih =>
    obtain ⟨item, fault | output⟩ := e
    · exact h
    · exact ih (f := { f with
        branches := f.branches - 1, collected := f.collected ++ [(item, output)], ended }) h

end Activity

namespace Machine

variable {P : Nat → Nat → (Nat → Activity) → Prop} {σ : Type} {adapter : Adapter σ}
  {deadline : Option Nat} {k : Json → Activity} {m m₀ m₁ : Machine σ} {t : Task} {h : Halt}

/-! ### Going on after the root -/

/-- Lets the root go on when it has ended well. -/
def extend (k : Json → Activity) (m : Machine σ) : Machine σ :=
  transform (fun w => w) (TaskState.andThen k) m

@[simp] theorem extend_world : (m.extend k).world = m.world := rfl

@[simp] theorem extend_rootReady : (m.extend k).rootReady = m.rootReady := rfl

@[simp] theorem extend_ending : (m.extend k).ending = m.ending := rfl

theorem receptive_andThen : Receptive (TaskState.andThen k) := by
  intro item result t
  cases hs : t.state with
  | paused r => simp only [receive, hs, TaskState.andThen]
  | joining f => simp only [receive, hs, TaskState.andThen]; rfl

theorem extend_of_no_root (hroot : m.tasks.lookup root = none) : m.extend k = m :=
  transform_of_no_root hroot

theorem extend_cut : (m.extend k).cut = m.cut.extend k := by
  rw [cut, extend, transform_drop]
  rfl

theorem Resumes.extend {s : TaskState} {a : Activity} (hr : Resumes adapter root m s a m₁) :
    Resumes adapter root (m.extend k) (s.andThen k) (a.andThen k) (m₁.extend k) := by
  cases hr with
  | pause r =>
    have hres : Resumes adapter root (m.extend k) (.paused (r.andThen k))
        ((r.andThen k).start adapter m.world).1
        { m.extend k with world := ((r.andThen k).start adapter m.world).2 } := .pause _
    rw [Resumption.start_andThen] at hres
    exact hres
  | @collapse f c hf =>
    have hdetach : (m.extend k).detach root = (m.detach root).extend k := transform_detach
    exact hdetach ▸ .collapse (f := f.andThen k) (Fork.gather_andThen_error hf)
  | @complete f f' hf hover =>
    have hgather : (f.andThen k).gather (f.andThen k).ended = .ok (f'.andThen k) :=
      Fork.gather_andThen hf
    exact (Resumes.complete hgather hover :)

/-- The root does the same as long as it does not end well. -/
theorem Acts.extend {s : TaskState} (hacts : Acts adapter root m s h m₁)
    (hh : ∀ context, h ≠ .done (.ok context)) :
    Acts adapter root (m.extend k) (s.andThen k) (h.andThen k) (m₁.extend k) := by
  cases hacts with
  | @refill f f' hf hover => exact .refill (f := f.andThen k) (Fork.gather_andThen hf) hover
  | @advance _ a m₂ hr =>
    have hacts := Acts.advance (hr.extend (k := k))
    rw [show (m₂.extend k).world = m₂.world from rfl, Activity.advance_andThen hh] at hacts
    exact hacts

/-- When it would end well, the root goes on. -/
theorem Acts.extend_of_ok {s : TaskState} {context : Json}
    (hacts : Acts adapter root m s (.done (.ok context)) m₁) :
    Acts adapter root (m.extend k) (s.andThen k) ((k context).advance adapter true m₁.world).1
      { m₁.extend k with world := ((k context).advance adapter true m₁.world).2 } := by
  generalize hh : Halt.done (.ok context) = h at hacts
  cases hacts with
  | refill hf hover => cases hh
  | @advance _ a m₂ hr =>
    have hacts := Acts.advance (hr.extend (k := k))
    rw [show (m₂.extend k).world = m₂.world from rfl,
      Activity.advance_andThen_of_ok hh.symm] at hacts
    exact hacts

theorem halt_extend (hfresh : root < m.fresh) (hh : ∀ context, h ≠ .done (.ok context)) :
    halt root (h.andThen k) (m.extend k) = (halt root h m).extend k := by
  cases h with
  | done result =>
    refine (?_ : (m.extend k).finish root result = (m.finish root result).extend k)
    exact transform_finish receptive_andThen result
  | asleep ms r =>
    refine (?_ : (m.extend k).sleep root ms (r.andThen k) = (m.sleep root ms r).extend k)
    exact transform_sleep (fun _ => rfl) rfl
  | forked f =>
    refine (?_ : (m.extend k).takeIn root (f.andThen k) = (m.takeIn root f).extend k)
    exact transform_takeIn hfresh rfl rfl rfl

/-- What becomes of the root when it halts does not depend on what it was about. -/
theorem halt_root_congr {m m' : Machine σ} (hremove : m.removeTask root = m'.removeTask root)
    (hset : ∀ s, m.setState root s = m'.setState root s) : halt root h m = halt root h m' := by
  cases h with
  | done result =>
    simp only [halt, finish, if_true]
    rw [hremove]
  | asleep ms r =>
    have hsleepers : m.sleepers = m'.sleepers := by
      have h := congrArg Machine.sleepers (hset (.paused r))
      exact h
    have hnow : m.world.now = m'.world.now := by
      have h := congrArg (·.world.now) (hset (.paused r))
      exact h
    simp only [halt, sleep, hset, hsleepers, hnow]
  | forked f => exact congrArg (f.nextItems.foldl (spawn root f.branch)) (hset _)

theorem rootPart_beginning {w : World σ} {fresh : Nat} {a : Activity} :
    (beginning w fresh a).rootPart adapter = halt root (a.advance adapter true w).1
      { beginning w fresh a with
        rootReady := false
        world := (a.advance adapter true w).2 } := by
  have hlookup : (beginning w fresh a).tasks.lookup root =
      some ⟨none, .paused (.activity a), false⟩ := by
    rw [lookup_beginning, if_pos rfl]
  rw [rootPart_of_ready (m := beginning w fresh a) rfl]
  exact turn_of_acts hlookup rfl (.advance (.pause (.activity a)))

/-- If the root ends well, what follows it begins in a machine in which nothing else is left. -/
theorem Acting.rootPart_extend_of_ok {context : Json} (hintact : Intact m)
    (ha : Acting P adapter m root { m with rootReady := false } t (.done (.ok context)) m₁)
    (hready : m.rootReady = true) :
    m.rootPart adapter = resting m₁.world m₁.fresh context ∧
      (m.extend k).rootPart adapter =
        (beginning m₁.world m₁.fresh (k context)).rootPart adapter := by
  have hlookup := ha.lookup_acted
  have heq := eq_of_only_root ha.sound_acted hlookup fun k t ht => ha.eq_root hintact rfl ht
  have hparent := (ha.sound_acted.root t hlookup).1
  have hcancelled := ha.active
  have hnone : m₁.ending = none := by
    rw [ha.sound_acted.ending, hlookup]
    rfl
  have hext : (m.extend k).rootPart adapter = halt root
      ((k context).advance adapter true m₁.world).1
      { m₁.extend k with world := ((k context).advance adapter true m₁.world).2 } := by
    have hlookup' : ({ m.extend k with rootReady := false } : Machine σ).tasks.lookup root =
        some (rerooted (TaskState.andThen k) root t) := by
      refine (lookup_transform (m := m) (g := fun w => w)).trans ?_
      rw [ha.lookup, Option.map_some]
    rw [rootPart_of_ready (m := m.extend k) hready]
    exact turn_of_acts hlookup' ha.active (Acts.extend_of_ok ha.acts)
  rw [hext, rootPart_beginning, rootPart_of_ready hready,
    turn_of_acts ha.lookup ha.active ha.acts]
  obtain ⟨w, tasks, fresh, ready, rootReady, sleepers, ending⟩ := m₁
  obtain ⟨parent, state, cancelled⟩ := t
  obtain ⟨-, rfl, -, rfl, rfl, rfl, -⟩ := Machine.mk.inj heq
  obtain rfl : parent = none := hparent
  obtain rfl : cancelled = false := hcancelled
  obtain rfl : ending = none := hnone
  exact ⟨rfl, halt_root_congr rfl fun s => rfl⟩

/-- If the root does not end well, it does the same. -/
theorem Acting.rootPart_extend
    (ha : Acting P adapter m root { m with rootReady := false } t h m₁)
    (hready : m.rootReady = true) (hh : ∀ context, h ≠ .done (.ok context)) :
    (m.extend k).rootPart adapter = (m.rootPart adapter).extend k := by
  have hlookup : ({ m.extend k with rootReady := false } : Machine σ).tasks.lookup root =
      some (rerooted (TaskState.andThen k) root t) := by
    refine (lookup_transform (m := m) (g := fun w => w)).trans ?_
    rw [ha.lookup, Option.map_some]
  rw [rootPart_of_ready (m := m.extend k) hready, rootPart_of_ready hready,
    turn_of_acts ha.lookup ha.active ha.acts]
  refine (turn_of_acts hlookup ha.active (Acts.extend ha.acts hh)).trans ?_
  exact halt_extend ha.sound_acted.root_lt_fresh hh

/-! ### Steps and runs -/

/-- What the step of a machine that goes on after its root is, compared with the step of the machine
that does not. -/
inductive Extends (adapter : Adapter σ) (deadline : Option Nat) (k : Json → Activity) :
    Machine σ → Machine σ → Prop
  /-- The root has not ended. -/
  | running {m : Machine σ} (h : m.ending = none) : Extends adapter deadline k m (m.extend k)
  /-- The root has ended well, and what follows it has begun. -/
  | committed (w : World σ) (fresh : Nat) (context : Json) :
    Extends adapter deadline k (resting w fresh context)
      ((beginning w fresh (k context)).step adapter deadline)
  /-- The root has ended in another way. -/
  | ended {m : Machine σ} {ending : Ending} (h : m.ending = some ending)
      (hne : ∀ context, ending ≠ .finished (.ok context)) : Extends adapter deadline k m m

/-- A cut does not notice what follows the root. -/
private theorem extends_cut (hm : Proper P m) (hending : m.ending = none) :
    Extends adapter deadline k m.cut (m.extend k).cut := by
  have hroot := (hm.cut hending).lookup_root_eq_none (Option.some_ne_none _)
  rw [extend_cut, extend_of_no_root hroot]
  exact .ended rfl nofun

private theorem extends_of_rootPart (hm : Proper P (m.rootPart adapter))
    (hnot : ∀ context, (m.rootPart adapter).ending ≠ some (.finished (.ok context)))
    (hpart : (m.extend k).rootPart adapter = (m.rootPart adapter).extend k) :
    Extends adapter deadline k (m.rootTurn adapter deadline)
      ((m.extend k).rootTurn adapter deadline) := by
  rw [rootTurn_eq, rootTurn_eq, hpart, extend_ending, extend_world]
  split
  · rename_i hcut
    exact extends_cut hm hcut.1
  · cases hending : (m.rootPart adapter).ending with
    | none => exact .running hending
    | some ending =>
      rw [extend_of_no_root (hm.lookup_root_eq_none (by simp [hending]))]
      exact .ended hending fun context h => hnot context (h ▸ hending)

theorem Proper.rootTurn_extend (hm : Proper P m) (hending : m.ending = none) (hintact : Intact m) :
    Extends adapter deadline k (m.rootTurn adapter deadline)
      ((m.extend k).rootTurn adapter deadline) := by
  cases hready : m.rootReady with
  | false =>
    have hpart : (m.extend k).rootPart adapter = (m.rootPart adapter).extend k := by
      rw [rootPart_of_not_ready hready, rootPart_of_not_ready (m := m.extend k) hready]
    refine extends_of_rootPart hm.rootPart (fun context => ?_) hpart
    rw [rootPart_of_not_ready hready, hending]
    exact nofun
  | true =>
    obtain ⟨t, ht⟩ := Option.isSome_iff_exists.mp (hm.sound.ending.mp hending)
    obtain ⟨h, m₁, ha, hturn⟩ :=
      hm.exists_acting adapter (.root hready) ht ((hm.sound.root t ht).2 root t ht)
    by_cases hh : ∃ context, h = .done (.ok context)
    · obtain ⟨context, rfl⟩ := hh
      obtain ⟨hrest, hnext⟩ := ha.rootPart_extend_of_ok (k := k) hintact hready
      rw [rootTurn_eq, rootTurn_eq adapter deadline (m.extend k), hrest, hnext, ← rootTurn_eq,
        if_neg fun h => nomatch h.1]
      exact .committed _ _ _
    · refine extends_of_rootPart hm.rootPart (fun context hc => ?_)
        (ha.rootPart_extend hready (not_exists.mp hh))
      rw [rootPart_of_ready hready, hturn] at hc
      rcases ha.ending with ⟨result, rfl, -, hresult⟩ | ⟨hsame, -⟩
      · rw [hresult] at hc
        exact hh ⟨context, congrArg _ (Ending.finished.inj (Option.some.inj hc))⟩
      · rw [hsame, hending] at hc
        cases hc

/-- A step of a machine that goes on after its root. -/
theorem Proper.step_extend (hm : Proper P m) (hending : m.ending = none) (hintact : Intact m) :
    Extends adapter deadline k (m.step adapter deadline) ((m.extend k).step adapter deadline) := by
  cases hready : m.ready with
  | cons id ready =>
    have hid : id ≠ root := fun h => hm.sound.root_notMem_ready (by simp [hready, h])
    have hturn : ({ m with ready }.extend k).turn adapter id =
        ({ m with ready }.turn adapter id).extend k :=
      transform_turn (.id adapter) receptive_andThen hm.sound.root_lt_fresh (reroot_of_ne hid)
    rw [step_of_ready hready, step_of_ready (m := m.extend k) hready]
    refine hturn ▸ .running ?_
    exact (hm.ending_turn (.branch hready) hid).trans hending
  | nil =>
    cases hrootReady : m.rootReady with
    | true =>
      rw [step_of_rootReady hready hrootReady,
        step_of_rootReady (m := m.extend k) hready hrootReady]
      exact hm.rootTurn_extend hending hintact
    | false =>
      cases htime : m.nextTime deadline with
      | none =>
        rw [step_of_nextTime_eq_none hready hrootReady htime,
          step_of_nextTime_eq_none (m := m.extend k) hready hrootReady htime]
        exact .running hending
      | some time =>
        have hwake : (m.extend k).wakeAt time = (m.wakeAt time).extend k :=
          transform_wakeAt (.id adapter)
        rw [step_of_nextTime_eq_some hready hrootReady htime,
          step_of_nextTime_eq_some (m := m.extend k) hready hrootReady htime, hwake,
          extend_rootReady]
        split
        · exact (hm.wakeAt (of_nextTime_eq_some htime).1).rootTurn_extend
            (wakeAt_ending.trans hending) (hintact.of_tasks wakeAt_tasks)
        · exact .running (wakeAt_ending.trans hending)

theorem Intact.step (hm : Proper P m) (h : m.ending = none → Intact m) :
    (m.step adapter deadline).ending = none → Intact (m.step adapter deadline) :=
  hm.step_preserves (I := fun m => m.ending = none → Intact m)
    (fun _ _ _ hm htakes h => Intact.turn hm htakes h)
    (fun _ _ _ _ h he => (h (wakeAt_ending ▸ he)).of_tasks wakeAt_tasks)
    (fun _ _ _ _ _ => nofun) h

/-- Runs another activity after a run that has ended well, in the world that it has left. -/
def thenRun (adapter : Adapter σ) (deadline : Option Nat) (k : Json → Activity) (m : Machine σ) :
    Machine σ :=
  match m.ending with
  | some (.finished (.ok context)) =>
    (beginning m.world m.fresh (k context)).run adapter deadline
  | _ => m

theorem thenRun_of_ok {context : Json} (h : m.ending = some (.finished (.ok context))) :
    m.thenRun adapter deadline k =
      (beginning m.world m.fresh (k context)).run adapter deadline := by
  simp only [thenRun, h]

theorem thenRun_of_ne (h : ∀ context, m.ending ≠ some (.finished (.ok context))) :
    m.thenRun adapter deadline k = m := by
  unfold thenRun
  split
  · exact absurd ‹_› (h _)
  · rfl

/-- A machine that goes on after its root runs its activity, and then what follows. -/
theorem Proper.run_extend (hm : Proper P m) (hending : m.ending = none) (hintact : Intact m) :
    (m.extend k).run adapter deadline = (m.run adapter deadline).thenRun adapter deadline k := by
  refine hm.run_induction adapter deadline (Q := fun m => m.ending = none → Intact m →
    (m.extend k).run adapter deadline = (m.run adapter deadline).thenRun adapter deadline k)
    (fun m hm hne he => absurd he hne) (fun m hm he ih _ hintact => ?_) hending hintact
  rw [run_of_step (m := m.extend k) he, run_of_step he]
  have hext : Extends adapter deadline k _ _ := hm.step_extend he hintact
  have hstep : (m.step adapter deadline).ending = none → Intact _ :=
    Intact.step hm fun _ => hintact
  generalize m.step adapter deadline = m', (m.extend k).step adapter deadline = m₁
    at ih hext hstep ⊢
  cases hext with
  | running h => exact ih h (hstep h)
  | committed w fresh context =>
    rw [run_of_ending (m := resting w fresh context) (Option.some_ne_none _), thenRun_of_ok rfl,
      ← run_of_step rfl]
    rfl
  | ended h hne =>
    have hended : m'.ending ≠ none := by simp [h]
    rw [run_of_ending hended, thenRun_of_ne]
    exact fun context hc => hne context (Option.some.inj (h.symm.trans hc))

/-- When a run has ended well, nothing is left to do. -/
theorem Proper.run_eq_resting (hm : Proper P m) (hending : m.ending = none) (hintact : Intact m)
    {context : Json} (h : (m.run adapter deadline).ending = some (.finished (.ok context))) :
    m.run adapter deadline =
      resting (m.run adapter deadline).world (m.run adapter deadline).fresh context := by
  refine hm.run_induction adapter deadline (Q := fun m => m.ending = none → Intact m →
    (m.run adapter deadline).ending = some (.finished (.ok context)) →
    m.run adapter deadline =
      resting (m.run adapter deadline).world (m.run adapter deadline).fresh context)
    (fun m hm hne he => absurd he hne) (fun m hm he ih _ hintact h => ?_) hending hintact h
  rw [run_of_step he] at h ⊢
  have hext : Extends adapter deadline (fun context => .done (.ok context)) _ _ :=
    hm.step_extend he hintact
  have hstep : (m.step adapter deadline).ending = none → Intact _ :=
    Intact.step hm fun _ => hintact
  generalize m.step adapter deadline = m', (m.extend _).step adapter deadline = m₁
    at ih h hext hstep ⊢
  cases hext with
  | running hrun => exact ih hrun (hstep hrun) h
  | committed w fresh context' =>
    rw [run_of_ending (Option.some_ne_none _)] at h ⊢
    obtain rfl : context' = context :=
      Except.ok.inj (Ending.finished.inj (Option.some.inj h))
    rfl
  | ended hended hne =>
    rw [run_of_ending (by simp [hended]), hended] at h
    exact absurd (Option.some.inj h) (hne context)

theorem intact_beginning {w : World σ} {fresh : Nat} {a : Activity} :
    Intact (beginning w fresh a) := by
  refine .inr fun k t ht hk => ?_
  rw [lookup_beginning, if_neg hk] at ht
  cases ht

/-- **One activity after another**: a run of both is a run of the first, and then, if it has ended
well, a run of the second in the world that the first has left. -/
theorem run_andThen {w : World σ} {fresh : Nat} {a : Activity} (hfresh : root < fresh)
    (ha : a.Lawful P) :
    (beginning w fresh (a.andThen k)).run adapter deadline =
      ((beginning w fresh a).run adapter deadline).thenRun adapter deadline k := by
  have hext : (beginning w fresh a).extend k = beginning w fresh (a.andThen k) := rfl
  exact hext ▸ (Proper.beginning hfresh ha).run_extend rfl intact_beginning

end Machine

end Conveyor
