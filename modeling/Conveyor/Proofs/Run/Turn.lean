import Conveyor.Run.Machine

/-!
# What happens in one turn

The loop of a fork comes to one of three ends, according to the branches that have ended and to the
permits that are free (`Fork.loop_eq`).

A turn goes on with an activity until it halts. How far it gets, and what it records on the way,
depends on the world alone (`Activity.advance`); what becomes of the task then depends on the other
tasks alone (`Machine.halt`). `Machine.proceed_eq_halt` splits a turn into these two parts, and
`Machine.exists_acts` lists what a task can do at its turn.

Every step of a machine is made of turns, moves of the clock, and the cut at the deadline:
`Machine.step_induction` reduces what a step preserves to these.
-/

namespace Conveyor

/-! ### The loop of a fork -/

namespace Fork

/-- Looks at the branches that have ended. -/
def gather (f : Fork) : List (Nat × Except (Fault StepFailure) Json) → Except Collapse Fork
  | [] => .ok { f with ended := [] }
  | (item, .ok output) :: ended =>
    gather { f with
      branches := f.branches - 1
      collected := f.collected ++ [(item, output)]
      ended } ended
  | (item, .error fault) :: _ => .error ⟨item, fault, f.branches - 1, f.count - f.admitted⟩

/-- No branch is left and no item is pending. -/
def Over (f : Fork) : Prop :=
  f.count ≤ f.admitted ∧ f.branches = 0

instance (f : Fork) : Decidable f.Over :=
  inferInstanceAs (Decidable (_ ∧ _))

/-- The number of pending items that there are free permits for. -/
def room (f : Fork) : Nat :=
  min f.permits (f.count - f.admitted)

/-- The items for which a fork begins branches when it takes its free permits. -/
def nextItems (f : Fork) : List Nat :=
  List.range' f.admitted f.room

/-- A fork that has taken its free permits. -/
def filled (f : Fork) : Fork :=
  { f with
    permits := f.permits - f.room
    admitted := f.admitted + f.room
    branches := f.branches + f.room }

variable {f : Fork} {begun : List Nat}

section Rounds

variable {item : Nat} {f' : Fork}

theorem loop_of_joined_ok {output : Json} (h : f.select = .joined item (.ok output) f') :
    f.loop begun = loop begun { f' with collected := f'.collected ++ [(item, output)] } := by
  rw [loop]
  split <;> simp_all

theorem loop_of_joined_error {fault : Fault StepFailure}
    (h : f.select = .joined item (.error fault) f') :
    f.loop begun = (begun, .collapses ⟨item, fault, f'.branches, f'.count - f'.admitted⟩) := by
  rw [loop]
  split <;> simp_all

theorem loop_of_permitted (h : f.select = .permitted item f') :
    f.loop begun = f'.loop (begun ++ [item]) := by
  rw [loop]
  split <;> simp_all

theorem loop_of_waiting (h : f.select = .waiting) : f.loop begun = (begun, .waits f) := by
  rw [loop]
  split <;> simp_all

theorem loop_of_over (h : f.select = .over) : f.loop begun = (begun, .completes f.outputs) := by
  rw [loop]
  split <;> simp_all

theorem select_of_ended_cons {result : Except (Fault StepFailure) Json}
    {ended : List (Nat × Except (Fault StepFailure) Json)} (h : f.ended = (item, result) :: ended) :
    f.select = .joined item result { f with branches := f.branches - 1, ended } := by
  simp only [select, h]

end Rounds

/-- When no branch has ended, the loop takes a free permit for each pending item in turn, until
there is none or no item is left. -/
theorem loop_of_ended_nil (h : f.ended = []) : f.loop begun =
    if f.Over then (begun, .completes f.outputs) else (begun ++ f.nextItems, .waits f.filled) := by
  induction hroom : f.room generalizing f begun with
  | zero =>
    have hnext : f.nextItems = [] := by rw [nextItems, hroom, List.range'_zero]
    have hfilled : f.filled = f := by rw [filled, hroom]; rfl
    rw [hnext, hfilled, List.append_nil]
    by_cases hover : f.Over
    · rw [if_pos hover]
      exact loop_of_over (by simp [select, h, Nat.not_lt.mpr hover.1, hover.2])
    · rw [if_neg hover]
      refine loop_of_waiting ?_
      unfold Over at hover
      unfold room at hroom
      grind [select]
  | succ r ih =>
    have hpermits : 0 < f.permits := by unfold room at hroom; omega
    have hpending : f.admitted < f.count := by unfold room at hroom; omega
    obtain ⟨f', hf'⟩ : ∃ f', f' = { f with
        permits := f.permits - 1, admitted := f.admitted + 1, branches := f.branches + 1 } :=
      ⟨_, rfl⟩
    have hselect : f.select = .permitted f.admitted f' := by
      simp [select, h, hpending, hpermits, hf']
    have hroom' : f'.room = r := by
      rw [hf']
      unfold room at hroom ⊢
      dsimp only
      omega
    have hover : ¬ f.Over := fun hover => absurd hpending (Nat.not_lt.mpr hover.1)
    have hover' : ¬ f'.Over := fun hover' => by simpa [hf'] using hover'.2
    have hended' : f'.ended = [] := by rw [hf']; exact h
    have hnext : f.nextItems = f.admitted :: f'.nextItems := by
      rw [nextItems, nextItems, hroom, hroom', hf']
      rfl
    have hfilled : f'.filled = f.filled := by
      rw [filled, filled, hroom, hroom', hf']
      simp only [Fork.mk.injEq, true_and, and_true]
      omega
    rw [loop_of_permitted hselect, ih hended' hroom', if_neg hover, if_neg hover', hnext, hfilled,
      List.append_assoc, List.singleton_append]

/-- The loop looks at all branches that have ended, unless one of them has failed or panicked; then
it takes the free permits. -/
theorem loop_eq (f : Fork) (begun : List Nat) : f.loop begun =
    match f.gather f.ended with
    | .error c => (begun, .collapses c)
    | .ok f' =>
      if f'.Over then (begun, .completes f'.outputs) else (begun ++ f'.nextItems, .waits f'.filled)
    := by
  induction hended : f.ended generalizing f with
  | nil =>
    have hf : { f with ended := [] } = f := by rw [← hended]
    rw [gather, hf]
    exact loop_of_ended_nil hended
  | cons branch ended ih =>
    obtain ⟨item, result⟩ := branch
    cases result with
    | ok output =>
      rw [loop_of_joined_ok (select_of_ended_cons hended), gather]
      exact ih _ rfl
    | error fault =>
      rw [loop_of_joined_error (select_of_ended_cons hended), gather]

theorem loop_eq_waits_iff {items : List Nat} {f₁ : Fork} : f.loop begun = (items, .waits f₁) ↔
    ∃ f', f.gather f.ended = .ok f' ∧ ¬ f'.Over ∧
      items = begun ++ f'.nextItems ∧ f₁ = f'.filled := by
  rw [loop_eq]
  cases f.gather f.ended with
  | error c' => simp
  | ok f' => by_cases hover : f'.Over <;> simp [hover, eq_comm]

end Fork

/-- How a turn ends. -/
inductive Halt where
  | done (result : Except (Fault StepFailure) Json)
  | asleep (ms : Nat) (r : Resumption)
  | forked (f : Fork)

/-! ### The part of the world -/

section Advance

variable {σ : Type} (adapter : Adapter σ) (top : Bool)

/-- How an activity halts, and the world by then. -/
def Activity.advance : Activity → World σ → Halt × World σ
  | .done result, w => (.done result, w)
  | .note n next, w => next.advance (w.note top n)
  | .pause ms next, w => if ms = 0 then next.advance w else (.asleep ms (.activity next), w)
  | .call operation input next, w =>
    let number := w.callCount operation + 1
    let w := w.beginCall operation input
    let delay := adapter.delay operation input
    if delay = 0 then
      let (result, w) := w.answer adapter number operation input
      (next result).advance w
    else (.asleep delay (.answer number operation input next), w)
  | .fork count limit branch next, w =>
    if count = 0 then (next (.ok [])).advance w
    else (.forked (.ofBranches count limit branch next), w)

/-- What a task goes on with after a pause, and the world then. -/
def Resumption.start : Resumption → World σ → Activity × World σ
  | .activity a, w => (a, w)
  | .answer number operation input next, w =>
    let (result, w) := w.answer adapter number operation input
    (next result, w)

/-- No time goes by when something is recorded. -/
theorem World.now_note (n : Note) (w : World σ) : (w.note top n).now = w.now := by
  cases n with
  | reached index context => cases top <;> rfl
  | _ => rfl

/-- No time goes by in a turn. -/
theorem Activity.now_advance (a : Activity) (w : World σ) :
    (a.advance adapter top w).2.now = w.now := by
  induction a generalizing w with
  | done result => rfl
  | note n next ih => exact (ih _).trans (World.now_note top n w)
  | pause ms next ih =>
    unfold Activity.advance
    split
    · exact ih w
    · rfl
  | call operation input next ih =>
    unfold Activity.advance
    dsimp only
    split
    · exact ih _ _
    · rfl
  | fork count limit branch next _ ih =>
    unfold Activity.advance
    split
    · exact ih _ w
    · rfl

theorem Resumption.now_start (r : Resumption) (w : World σ) :
    (r.start adapter w).2.now = w.now := by
  cases r <;> rfl

end Advance

namespace Machine

variable {σ : Type} {adapter : Adapter σ} {deadline : Option Nat} {id : Nat} {m m' : Machine σ}

/-! ### The part of the tasks -/

/-- A task takes in the items that there are free permits for. -/
def takeIn (id : Nat) (f : Fork) (m : Machine σ) : Machine σ :=
  f.nextItems.foldl (spawn id f.branch) (m.setState id (.joining f.filled))

/-- What a fork comes to, said at once. -/
theorem attend_eq (id : Nat) (f : Fork)
    (next : Except Collapse (List Json) → Machine σ → Machine σ) (m : Machine σ) :
    m.attend id f next =
      match f.gather f.ended with
      | .error c => next (.error c) (m.detach id)
      | .ok f' => if f'.Over then next (.ok f'.outputs) m else m.takeIn id f' := by
  rw [attend, Fork.loop_eq]
  cases f.gather f.ended with
  | error c => rfl
  | ok f' => by_cases hover : f'.Over <;> simp only [hover, if_true, if_false] <;> rfl

/-- A fork of which no branch has begun is over if there are no items. -/
theorem attend_ofBranches {count limit : Nat} {branch : Nat → Activity}
    {next : Except Collapse (List Json) → Activity}
    {next' : Except Collapse (List Json) → Machine σ → Machine σ} :
    m.attend id (.ofBranches count limit branch next) next' =
      if count = 0 then next' (.ok []) m
      else m.takeIn id (.ofBranches count limit branch next) := by
  have hover : (Fork.ofBranches count limit branch next).Over ↔ count = 0 := by
    simp [Fork.Over, Fork.ofBranches]
  rw [attend_eq, Fork.ofBranches, Fork.gather]
  by_cases hcount : count = 0
  · subst hcount
    rfl
  · simp only [if_neg hcount]
    exact if_neg fun h => hcount (hover.mp h)

/-- What becomes of a task that has halted. -/
def halt (id : Nat) : Halt → Machine σ → Machine σ
  | .done result, m => m.finish id result
  | .asleep ms r, m => m.sleep id ms r
  | .forked f, m => m.takeIn id f

/-- A turn is an advance of the world, followed by what becomes of the task. -/
theorem proceed_eq_halt (adapter : Adapter σ) (id : Nat) (a : Activity) (m : Machine σ) :
    proceed adapter id a m =
      halt id (a.advance adapter (id = root) m.world).1
        { m with world := (a.advance adapter (id = root) m.world).2 } := by
  induction a generalizing m with
  | done result => rfl
  | note n next ih => simp only [proceed, Activity.advance, ih, onWorld]
  | pause ms next ih =>
    by_cases h : ms = 0
    · simp only [proceed, Activity.advance, if_pos h, ih]
    · simp only [proceed, Activity.advance, if_neg h, halt]
  | call operation input next ih =>
    by_cases h : adapter.delay operation input = 0
    · simp only [proceed, Activity.advance, if_pos h, ih, onWorld]
    · simp only [proceed, Activity.advance, if_neg h, halt, onWorld]
  | fork count limit branch next _ ih =>
    rw [proceed, attend_ofBranches, Activity.advance]
    by_cases h : count = 0
    · simp only [if_pos h, ih]
    · simp only [if_neg h, halt]

theorem resume_eq_halt (adapter : Adapter σ) (id : Nat) (r : Resumption) (m : Machine σ) :
    m.resume adapter id r =
      halt id
        ((r.start adapter m.world).1.advance adapter (id = root) (r.start adapter m.world).2).1
        { m with world := ((r.start adapter m.world).1.advance adapter (id = root)
            (r.start adapter m.world).2).2 } := by
  cases r with
  | activity a => exact proceed_eq_halt adapter id a m
  | answer number operation input next => simp only [resume, proceed_eq_halt]; rfl

/-- What a task that is not cancelled goes on with at its turn, and on which machine. -/
inductive Resumes (adapter : Adapter σ) (id : Nat) (m : Machine σ) :
    TaskState → Activity → Machine σ → Prop
  /-- It goes on after a pause. -/
  | pause (r : Resumption) : Resumes adapter id m (.paused r) (r.start adapter m.world).1
      { m with world := (r.start adapter m.world).2 }
  /-- It meets a branch that has failed or panicked and goes on without the other branches. -/
  | collapse {f c} (hf : f.gather f.ended = .error c) :
      Resumes adapter id m (.joining f) (f.next (.error c)) (m.detach id)
  /-- It has the results of all branches. -/
  | complete {f f'} (hf : f.gather f.ended = .ok f') (hover : f'.Over) :
      Resumes adapter id m (.joining f) (f.next (.ok f'.outputs)) m

/-- What a task that is not cancelled does at its turn: how it halts, and on which machine. -/
inductive Acts (adapter : Adapter σ) (id : Nat) (m : Machine σ) :
    TaskState → Halt → Machine σ → Prop
  | advance {s a m'} (hr : Resumes adapter id m s a m') :
      Acts adapter id m s (a.advance adapter (id = root) m'.world).1
        { m' with world := (a.advance adapter (id = root) m'.world).2 }
  /-- It takes in further items. -/
  | refill {f f'} (hf : f.gather f.ended = .ok f') (hover : ¬ f'.Over) :
      Acts adapter id m (.joining f) (.forked f') m

theorem exists_acts (adapter : Adapter σ) (id : Nat) (m : Machine σ) (s : TaskState) :
    ∃ h m', Acts adapter id m s h m' := by
  cases s with
  | paused r => exact ⟨_, _, .advance (.pause r)⟩
  | joining f =>
    cases hf : f.gather f.ended with
    | error c => exact ⟨_, _, .advance (.collapse hf)⟩
    | ok f' =>
      by_cases hover : f'.Over
      · exact ⟨_, _, .advance (.complete hf hover)⟩
      · exact ⟨_, _, .refill hf hover⟩

theorem Acts.fresh {s : TaskState} {h : Halt} (hacts : Acts adapter id m s h m') :
    m'.fresh = m.fresh := by
  cases hacts with
  | refill hf hover => rfl
  | advance hr => cases hr <;> rfl

theorem Acts.ready {s : TaskState} {h : Halt} (hacts : Acts adapter id m s h m') :
    m'.ready = m.ready := by
  cases hacts with
  | refill hf hover => rfl
  | advance hr => cases hr <;> rfl

theorem Acts.sleepers {s : TaskState} {h : Halt} (hacts : Acts adapter id m s h m') :
    m'.sleepers = m.sleepers := by
  cases hacts with
  | refill hf hover => rfl
  | advance hr => cases hr <;> rfl

theorem Acts.rootReady {s : TaskState} {h : Halt} (hacts : Acts adapter id m s h m') :
    m'.rootReady = m.rootReady := by
  cases hacts with
  | refill hf hover => rfl
  | advance hr => cases hr <;> rfl

/-- The turn of a task that is not cancelled. -/
theorem turn_of_acts {t : Task} {h : Halt} (ht : m.tasks.lookup id = some t)
    (hc : t.cancelled = false) (hacts : Acts adapter id m t.state h m') :
    m.turn adapter id = halt id h m' := by
  simp only [turn, ht, hc, Bool.false_eq_true, if_false]
  generalize t.state = s at hacts
  cases hacts with
  | advance hr =>
    cases hr with
    | pause r => exact resume_eq_halt adapter id r m
    | collapse hf => simp only [attend_eq, hf]; exact proceed_eq_halt adapter id _ _
    | complete hf hover =>
      simp only [attend_eq, hf, if_pos hover]; exact proceed_eq_halt adapter id _ _
  | refill hf hover => simp only [attend_eq, hf, if_neg hover]; rfl

theorem turn_of_none (h : m.tasks.lookup id = none) : m.turn adapter id = m := by
  simp only [turn, h]

theorem turn_of_cancelled {t : Task} (ht : m.tasks.lookup id = some t) (hc : t.cancelled = true) :
    m.turn adapter id = m.drop id := by
  simp only [turn, ht, hc, if_true]

/-! ### The parts of a step -/

/-- The task that is next to have its turn is taken off the ready ones. -/
inductive Takes (m : Machine σ) : Nat → Machine σ → Prop
  | branch {id ready} (h : m.ready = id :: ready) : Takes m id { m with ready }
  | root (h : m.rootReady = true) : Takes m root { m with rootReady := false }

/-- The run is cut off: the root ends, and its branches will. -/
def cut (m : Machine σ) : Machine σ :=
  { m.drop root with ending := some .timedOut }

/-- What the root does when its time has come. -/
def rootPart (adapter : Adapter σ) (m : Machine σ) : Machine σ :=
  if m.rootReady then { m with rootReady := false }.turn adapter root else m

theorem rootPart_of_ready (h : m.rootReady = true) :
    m.rootPart adapter = { m with rootReady := false }.turn adapter root :=
  if_pos h

theorem rootPart_of_not_ready (h : m.rootReady = false) : m.rootPart adapter = m :=
  if_neg (Bool.eq_false_iff.mp h)

/-- The turn of the root is followed by the cut if its time has come. -/
theorem rootTurn_eq (adapter : Adapter σ) (deadline : Option Nat) (m : Machine σ) :
    m.rootTurn adapter deadline =
      if (m.rootPart adapter).ending = none ∧ deadline.any (· ≤ (m.rootPart adapter).world.now) then
        (m.rootPart adapter).cut
      else m.rootPart adapter := by
  unfold rootTurn rootPart cut
  simp only [Bool.and_eq_true, Option.isNone_iff_eq_none]

/-- The turn of the root ends with the cut, or the time for that has not come. -/
theorem rootTurn_cases (adapter : Adapter σ) (deadline : Option Nat) (m : Machine σ) :
    m.rootTurn adapter deadline = (m.rootPart adapter).cut ∨
      m.rootTurn adapter deadline = m.rootPart adapter ∧ ((m.rootPart adapter).ending = none →
        ∀ time ∈ deadline, (m.rootPart adapter).world.now < time) := by
  rw [rootTurn_eq]
  split
  · exact .inl rfl
  · rename_i hcut
    refine .inr ⟨rfl, fun hending time htime => Nat.lt_of_not_le fun hle => ?_⟩
    exact hcut ⟨hending, by simpa [Option.mem_def.mp htime] using hle⟩

theorem step_of_ready {ready : List Nat} (h : m.ready = id :: ready) :
    m.step adapter deadline = { m with ready }.turn adapter id := by
  simp only [step, h]

theorem step_of_rootReady (h : m.ready = []) (hr : m.rootReady = true) :
    m.step adapter deadline = m.rootTurn adapter deadline := by
  simp only [step, h, hr, if_true]

theorem step_of_nextTime_eq_none (h : m.ready = []) (hr : m.rootReady = false)
    (ht : m.nextTime deadline = none) : m.step adapter deadline = m := by
  simp only [step, h, hr, ht, Bool.false_eq_true, if_false]

theorem step_of_nextTime_eq_some {time : Nat} (h : m.ready = []) (hr : m.rootReady = false)
    (ht : m.nextTime deadline = some time) :
    m.step adapter deadline =
      if (m.wakeAt time).rootReady = true ∨ deadline = some time then
        (m.wakeAt time).rootTurn adapter deadline
      else m.wakeAt time := by
  simp only [step, h, hr, ht, Bool.false_eq_true, if_false, Bool.or_eq_true, decide_eq_true_eq]

theorem nextWake_eq_some_iff {time : Nat} :
    m.nextWake = some time ↔
      time ∈ m.sleepers.map Prod.fst ∧ ∀ s ∈ m.sleepers, time ≤ s.1 := by
  simp only [nextWake, List.min?_eq_some_iff, List.forall_mem_map]

/-- The clock never moves past a sleeper, and stops at sleepers and at the deadline only. -/
theorem of_nextTime_eq_some {time : Nat} (h : m.nextTime deadline = some time) :
    (∀ s ∈ m.sleepers, time ≤ s.1) ∧
      (time ∈ m.sleepers.map Prod.fst ∨ deadline = some time) := by
  unfold nextTime at h
  split at h
  · rename_i wake limit hw
    obtain ⟨hmem, hle⟩ := nextWake_eq_some_iff.mp hw
    obtain rfl : min wake limit = time := by simpa using h
    refine ⟨fun s hs => Nat.le_trans (Nat.min_le_left _ _) (hle s hs), ?_⟩
    rcases Nat.le_total wake limit with hwl | hwl
    · exact .inl (by rwa [Nat.min_eq_left hwl])
    · exact .inr (by rw [Nat.min_eq_right hwl])
  · rename_i wake hw
    obtain rfl : wake = time := by simpa using h
    obtain ⟨hmem, hle⟩ := nextWake_eq_some_iff.mp hw
    exact ⟨hle, .inl hmem⟩
  · rename_i hw
    have hnil : m.sleepers = [] := by simpa [nextWake] using hw
    exact ⟨by simp [hnil], .inr h⟩

theorem nextTime_le {time limit : Nat} (ht : m.nextTime (some limit) = some time) :
    time ≤ limit := by
  unfold nextTime at ht
  cases hwake : m.nextWake with
  | none =>
    simp only [hwake] at ht
    exact Nat.le_of_eq (Option.some.inj ht).symm
  | some wake =>
    simp only [hwake] at ht
    exact Option.some.inj ht ▸ Nat.min_le_right _ _

/-- Whatever turns, moves of the clock, and the cut preserve, a step preserves. -/
theorem step_induction {P : Machine σ → Prop}
    (turn : ∀ m id m₀, P m → Takes m id m₀ → P (m₀.turn adapter id))
    (wake : ∀ m time, P m → m.ready = [] → (∀ s ∈ m.sleepers, time ≤ s.1) →
      (time ∈ m.sleepers.map Prod.fst ∨ deadline = some time) → P (m.wakeAt time))
    (cut : ∀ m, P m → m.ending = none → deadline.any (· ≤ m.world.now) → P m.cut)
    (h : P m) : P (m.step adapter deadline) := by
  have hcut : ∀ m, P m → P (if m.ending.isNone && deadline.any (· ≤ m.world.now) then m.cut
      else m) := by
    intro m hm
    split
    · rename_i hnow
      simp only [Bool.and_eq_true, Option.isNone_iff_eq_none] at hnow
      exact cut m hm hnow.1 hnow.2
    · exact hm
  have hroot : ∀ m, P m → P (m.rootTurn adapter deadline) := by
    intro m hm
    apply hcut
    split
    · exact turn m root _ hm (.root ‹_›)
    · exact hm
  unfold step
  split
  · exact turn m _ _ h (.branch ‹_›)
  · split
    · exact hroot m h
    · split
      · exact h
      · rename_i time htime
        obtain ⟨hle, hmem⟩ := of_nextTime_eq_some htime
        have hwake : P (m.wakeAt time) := wake m time h ‹_› hle hmem
        dsimp only
        split
        · exact hroot _ hwake
        · exact hwake

/-- Whatever turns and moves of the clock preserve, a step after the end of the root preserves. -/
theorem settleStep_induction {P : Machine σ → Prop} {time : Nat}
    (turn : ∀ m id m₀, P m → Takes m id m₀ → P (m₀.turn adapter id))
    (wake : ∀ m time, P m → m.ready = [] → (∀ s ∈ m.sleepers, time ≤ s.1) →
      time ∈ m.sleepers.map Prod.fst → P (m.wakeAt time))
    (h : P m) (hs : m.settleStep adapter time = some m') : P m' := by
  unfold settleStep at hs
  split at hs
  · obtain rfl := Option.some.inj hs
    exact turn m _ _ h (.branch ‹_›)
  · simp only [Option.map_eq_some_iff, Option.filter_eq_some_iff] at hs
    obtain ⟨next, ⟨hnext, -⟩, rfl⟩ := hs
    obtain ⟨hmem, hle⟩ := nextWake_eq_some_iff.mp hnext
    exact wake m next h ‹_› hle hmem

end Machine

end Conveyor
