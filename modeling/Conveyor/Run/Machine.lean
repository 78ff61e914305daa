import Conveyor.Keyed
import Conveyor.Run.World
import Conveyor.Text.Quoted

/-!
# Running activities

A machine runs an activity, the root, and the branches of its forks as tasks that take turns. A task
goes on until it sleeps, waits for branches, or ends. Tasks that are ready take their turns in the
order in which they became so, and the root after them. When none is ready the clock moves to the
time at which the next one wakes: then the root goes first, and the others follow in the order in
which they fell asleep.

A fork goes through a loop. First it looks at the branches that have ended, in the order of their
ends; the first one that has failed or panicked ends the fork, and the other branches go on without
it. Then it takes free permits, one for each pending item in order, and begins the branches of these
items. Then it waits for branches that are in work; if there are none, it is over. There are as many
permits as the limit of the fork allows, and a branch gives its permit back when it ends.
-/

namespace Conveyor

/-- A fork of which not all results are there. -/
structure Fork where
  /-- The number of items. -/
  count : Nat
  /-- The number of permits. -/
  limit : Nat
  branch : Nat → Activity
  next : Except Collapse (List Json) → Activity
  /-- The number of permits that are free. -/
  permits : Nat
  /-- The number of items that are no longer pending; they are the first ones. -/
  admitted : Nat
  /-- The number of branches that have been begun and not been looked at since. -/
  branches : Nat
  /-- The results of the branches that have been looked at. -/
  collected : List (Nat × Json)
  /-- The branches that have ended since then, in that order. -/
  ended : List (Nat × Except (Fault StepFailure) Json)

namespace Fork

/-- A fork of which no branch has begun. -/
def ofBranches (count limit : Nat) (branch : Nat → Activity)
    (next : Except Collapse (List Json) → Activity) : Fork :=
  { count, limit, branch, next, permits := limit, admitted := 0, branches := 0, collected := [],
    ended := [] }

/-- The results in the order of the items. -/
def outputs (f : Fork) : List Json :=
  (List.range f.count).filterMap fun item => f.collected.lookup item

/-- What the loop of a fork finds ready in a round, with what is left of the fork. -/
inductive Round where
  /-- The branch of an item has ended. -/
  | joined (item : Nat) (result : Except (Fault StepFailure) Json) (f : Fork)
  /-- There is a permit for the next item. -/
  | permitted (item : Nat) (f : Fork)
  /-- Nothing is ready. -/
  | waiting
  /-- No branch is left and no item is pending. -/
  | over

/-- Looks for what is ready: a branch that has ended comes before a permit. -/
def select (f : Fork) : Round :=
  match f.ended with
  | (item, result) :: ended => .joined item result { f with branches := f.branches - 1, ended }
  | [] =>
    if f.admitted < f.count then
      if 0 < f.permits then
        .permitted f.admitted { f with
          permits := f.permits - 1, admitted := f.admitted + 1, branches := f.branches + 1 }
      else .waiting
    else if f.branches = 0 then .over
    else .waiting

/-- What the loop of a fork comes to. -/
inductive Stop where
  | waits (f : Fork)
  | collapses (c : Collapse)
  | completes (outputs : List Json)

theorem select_joined_lt {f f' : Fork} {item : Nat} {result : Except (Fault StepFailure) Json}
    (h : f.select = .joined item result f') :
    f'.ended.length + (f'.count - f'.admitted) < f.ended.length + (f.count - f.admitted) := by
  unfold select at h
  split at h
  · obtain ⟨-, -, rfl⟩ := Round.joined.inj h
    simp [*]
  · split at h
    · split at h <;> cases h
    · split at h <;> cases h

theorem select_permitted_lt {f f' : Fork} {item : Nat} (h : f.select = .permitted item f') :
    f'.ended.length + (f'.count - f'.admitted) < f.ended.length + (f.count - f.admitted) := by
  unfold select at h
  split at h
  · cases h
  · split at h
    · split at h
      · obtain ⟨-, rfl⟩ := Round.permitted.inj h
        dsimp only
        omega
      · cases h
    · split at h <;> cases h

/-- Goes through the loop of a fork, with the items whose branches are begun on the way. -/
def loop (begun : List Nat) (f : Fork) : List Nat × Stop :=
  match _h : f.select with
  | .joined item (.ok output) f' =>
    loop begun { f' with collected := f'.collected ++ [(item, output)] }
  | .joined item (.error fault) f' =>
    (begun, .collapses ⟨item, fault, f'.branches, f'.count - f'.admitted⟩)
  | .permitted item f' => loop (begun ++ [item]) f'
  | .waiting => (begun, .waits f)
  | .over => (begun, .completes f.outputs)
termination_by f.ended.length + (f.count - f.admitted)
decreasing_by
  · exact select_joined_lt ‹_›
  · exact select_permitted_lt ‹_›

end Fork

/-- What a task goes on with. -/
inductive Resumption where
  | activity (a : Activity)
  /-- The answer to the call with this number. -/
  | answer (number : Nat) (operation : String) (input : Json)
      (next : Except CallError Json → Activity)

/-- What a task is about. -/
inductive TaskState where
  /-- It is ready or asleep. -/
  | paused (r : Resumption)
  /-- It waits for branches. -/
  | joining (f : Fork)

/-- The root or a branch. -/
structure Task where
  /-- The task with the fork of a branch, and the item of the branch. -/
  parent : Option (Nat × Nat)
  state : TaskState
  /-- Whether the task ends at its next turn, whatever is left of it. -/
  cancelled : Bool

/-- How the root ended. -/
inductive Ending where
  | finished (result : Except (Fault StepFailure) Json)
  | timedOut

/-- The tasks of a run, and its world. -/
structure Machine (σ : Type) where
  world : World σ
  /-- The tasks by their numbers; the root has the number zero. -/
  tasks : List (Nat × Task)
  /-- The number of the next task. -/
  fresh : Nat
  /-- The tasks that are ready, in the order of their turns. -/
  ready : List Nat
  /-- Whether the root is ready. -/
  rootReady : Bool
  /-- The tasks that are asleep with the times at which they wake, in the order in which they fell
  asleep. -/
  sleepers : List (Nat × Nat)
  ending : Option Ending

namespace Machine

/-- The number of the root. -/
def root : Nat := 0

/-- The machine at the beginning of a run. -/
def start (state : σ) (context : Json) (a : Activity) : Machine σ where
  world := .initial state context
  tasks := [(root, ⟨none, .paused (.activity a), false⟩)]
  fresh := root + 1
  ready := []
  rootReady := true
  sleepers := []
  ending := none

/-! ### Tasks -/

/-- Changes the world. -/
def onWorld (change : World σ → World σ) (m : Machine σ) : Machine σ :=
  { m with world := change m.world }

/-- Changes a task. -/
def modifyTask (id : Nat) (change : Task → Task) (m : Machine σ) : Machine σ :=
  { m with tasks := m.tasks.map fun (k, t) => if k = id then (k, change t) else (k, t) }

/-- Sets what a task is about. -/
def setState (id : Nat) (state : TaskState) (m : Machine σ) : Machine σ :=
  m.modifyTask id fun t => { t with state }

/-- Removes a task. -/
def removeTask (id : Nat) (m : Machine σ) : Machine σ :=
  { m with tasks := Keyed.erase id m.tasks, sleepers := m.sleepers.filter (·.2 ≠ id) }

/-- Makes a task ready. -/
def wake (id : Nat) (m : Machine σ) : Machine σ :=
  if id = root then { m with rootReady := true }
  else if id ∈ m.ready then m
  else { m with ready := m.ready ++ [id] }

/-- Lets a task sleep. -/
def sleep (id ms : Nat) (r : Resumption) (m : Machine σ) : Machine σ :=
  { m.setState id (.paused r) with sleepers := m.sleepers ++ [(m.world.now + ms, id)] }

/-- The branches of a task. -/
def branchesOf (id : Nat) (m : Machine σ) : List Nat :=
  (m.tasks.filter fun (_, t) => t.parent.any (·.1 = id)).map Prod.fst

/-- Lets the branches of a task go on without it. -/
def detach (id : Nat) (m : Machine σ) : Machine σ :=
  { m with tasks := m.tasks.map fun (k, t) =>
      if t.parent.any (·.1 = id) then (k, { t with parent := none }) else (k, t) }

/-- Lets a task end at its next turn. -/
def cancel (m : Machine σ) (id : Nat) : Machine σ :=
  wake id { m.modifyTask id fun t => { t with cancelled := true } with
    sleepers := m.sleepers.filter (·.2 ≠ id) }

/-- Removes a task and lets its branches end at their next turns. -/
def drop (id : Nat) (m : Machine σ) : Machine σ :=
  (m.branchesOf id).foldl cancel (m.removeTask id)

/-- Begins the branch of an item. -/
def spawn (parent : Nat) (branch : Nat → Activity) (m : Machine σ) (item : Nat) : Machine σ :=
  { m with
    tasks := m.tasks ++ [(m.fresh, ⟨some (parent, item), .paused (.activity (branch item)), false⟩)]
    fresh := m.fresh + 1
    ready := m.ready ++ [m.fresh] }

/-- The panic of a branch as its fork learns of it, with the number of the task. -/
def toldPanic (id : Nat) (p : Panic) : Panic :=
  ⟨"task " ++ Decimal.text id ++ " panicked with message " ++ Text.quoted p.message⟩

/-- The fault of a branch as its fork learns of it. -/
def told (id : Nat) : Fault StepFailure → Fault StepFailure
  | .error failure => .error failure
  | .panic p => .panic (toldPanic id p)

/-- Ends a task; its permit and its result go to the fork that it is a branch of. -/
def finish (id : Nat) (result : Except (Fault StepFailure) Json) (m : Machine σ) : Machine σ :=
  let m' := m.removeTask id
  if id = root then { m' with ending := some (.finished result) }
  else
    match (m.tasks.lookup id).bind Task.parent with
    | none => m'
    | some (parent, item) =>
      wake parent (m'.modifyTask parent fun t =>
        match t.state with
        | .joining f =>
          { t with state := .joining { f with
              permits := f.permits + 1, ended := f.ended ++ [(item, result.mapError (told id))] } }
        | .paused _ => t)

/-! ### Turns -/

/-- Goes through the loop of a fork: it waits for branches, or the task goes on with `next`. -/
def attend (id : Nat) (f : Fork) (next : Except Collapse (List Json) → Machine σ → Machine σ)
    (m : Machine σ) : Machine σ :=
  match f.loop [] with
  | (items, .waits f) => items.foldl (spawn id f.branch) (m.setState id (.joining f))
  | (items, .collapses c) => next (.error c) ((items.foldl (spawn id f.branch) m).detach id)
  | (items, .completes outputs) => next (.ok outputs) (items.foldl (spawn id f.branch) m)

/-- Goes on with an activity until it sleeps, waits for branches, or ends. -/
def proceed (adapter : Adapter σ) (id : Nat) : Activity → Machine σ → Machine σ
  | .done result, m => m.finish id result
  | .note n next, m => proceed adapter id next (m.onWorld (.note (id = root) n))
  | .pause ms next, m =>
    if ms = 0 then proceed adapter id next m else m.sleep id ms (.activity next)
  | .call operation input next, m =>
    let number := m.world.callCount operation + 1
    let m := m.onWorld (.beginCall operation input)
    let delay := adapter.delay operation input
    if delay = 0 then
      let (result, world) := m.world.answer adapter number operation input
      proceed adapter id (next result) { m with world }
    else m.sleep id delay (.answer number operation input next)
  | .fork count limit branch next, m =>
    m.attend id (.ofBranches count limit branch next) fun result => proceed adapter id (next result)

/-- Goes on with what a task was paused at. -/
def resume (adapter : Adapter σ) (id : Nat) (m : Machine σ) : Resumption → Machine σ
  | .activity a => proceed adapter id a m
  | .answer number operation input next =>
    let (result, world) := m.world.answer adapter number operation input
    proceed adapter id (next result) { m with world }

/-- Gives a task its turn. -/
def turn (adapter : Adapter σ) (id : Nat) (m : Machine σ) : Machine σ :=
  match m.tasks.lookup id with
  | none => m
  | some t =>
    if t.cancelled then m.drop id
    else
      match t.state with
      | .paused r => m.resume adapter id r
      | .joining f => m.attend id f fun result => proceed adapter id (f.next result)

/-- Gives the root its turn if it is ready; at the deadline it ends, unless it has just done so. -/
def rootTurn (adapter : Adapter σ) (deadline : Option Nat) (m : Machine σ) : Machine σ :=
  let m := if m.rootReady then { m with rootReady := false }.turn adapter root else m
  if m.ending.isNone && deadline.any (· ≤ m.world.now) then
    { m.drop root with ending := some .timedOut }
  else m

/-- Moves the clock to a time and makes the tasks ready that wake then. -/
def wakeAt (time : Nat) (m : Machine σ) : Machine σ :=
  let woken := m.sleepers.filter (·.1 = time)
  woken.foldl (fun m s => m.wake s.2)
    { m.onWorld ({ · with now := time }) with sleepers := m.sleepers.filter (·.1 ≠ time) }

/-- The time at which the next task wakes. -/
def nextWake (m : Machine σ) : Option Nat :=
  (m.sleepers.map Prod.fst).min?

/-- The time to which the clock moves next. -/
def nextTime (deadline : Option Nat) (m : Machine σ) : Option Nat :=
  match m.nextWake, deadline with
  | some wake, some deadline => some (min wake deadline)
  | some wake, none => some wake
  | none, deadline => deadline

/-- One step of a run: a turn, or a move of the clock with a turn of the root if it is its time. -/
def step (adapter : Adapter σ) (deadline : Option Nat) (m : Machine σ) : Machine σ :=
  match m.ready with
  | id :: ready => { m with ready }.turn adapter id
  | [] =>
    if m.rootReady then m.rootTurn adapter deadline
    else
      match m.nextTime deadline with
      | none => m
      | some time =>
        let m := m.wakeAt time
        if m.rootReady || deadline = some time then m.rootTurn adapter deadline else m

/-- Goes on from step to step until there is no next one. -/
def exhaust (next : Machine σ → Option (Machine σ)) (m : Machine σ) : Machine σ :=
  haveI : Nonempty (Machine σ) := ⟨m⟩
  Id.run (repeatM (fun m => pure ((next m).elim (.inr m) .inl)) m)

/-- Runs until the root ends. -/
def run (adapter : Adapter σ) (deadline : Option Nat) (m : Machine σ) : Machine σ :=
  m.exhaust fun m => if m.ending.isSome then none else some (m.step adapter deadline)

/-- After the end of the root: one step of the tasks that are left, before a time. -/
def settleStep (adapter : Adapter σ) (time : Nat) (m : Machine σ) : Option (Machine σ) :=
  match m.ready with
  | id :: ready => some ({ m with ready }.turn adapter id)
  | [] => (m.nextWake.filter (· < time)).map m.wakeAt

/-- Lets the tasks that are left go on until a time. -/
def settleUntil (adapter : Adapter σ) (time : Nat) (m : Machine σ) : Machine σ :=
  m.exhaust (settleStep adapter time)

/-- Lets the tasks that are left go on for a number of milliseconds. -/
def settle (adapter : Adapter σ) (ms : Nat) (m : Machine σ) : Machine σ :=
  if ms = 0 then m else m.settleUntil adapter (m.world.now + ms)

end Machine

end Conveyor
