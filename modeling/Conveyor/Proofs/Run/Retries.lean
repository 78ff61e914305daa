import Conveyor.Proofs.Run.Pauses
import Conveyor.Proofs.Run.Pipelines

/-!
# How a task step retries

A task step calls its operation until a call succeeds, as often as its policy allows, with the same
input each time and with the pauses of the policy in between (`TaskStep.Retries`). What the step
makes of the context depends on the last of these calls alone (`TaskStep.Conducts`).

`Machine.task_retries` states this of every task step that is begun in the run of a pipeline, at the
top or in a branch of a map, while other branches go on. The adapter may change its state with each
call, and may be another one at each time. The runs of one adapter that are not cut off are among
these runs (`Machine.Proper.onward_run`, `Machine.Proper.onward_settle`).
-/

namespace Conveyor

/-- A call that has been answered. -/
structure Exchange where
  operation : String
  input : Json
  /-- The time at which the call began. -/
  began : Nat
  /-- The time at which it was answered. -/
  ended : Nat
  answer : Except CallError Json

namespace TaskStep

variable {s : TaskStep} {input : Json} {retries attempt start finish : Nat} {xs : List Exchange}
  {r : Except CallError Json}

/-! ### The law -/

/-- These are the calls of a task step with this input; the first of them begins at `start`. -/
structure Retries (s : TaskStep) (input : Json) (start : Nat) (xs : List Exchange) : Prop where
  asks : ∀ x ∈ xs, x.operation = s.adapter ∧ x.input = input
  first : ∀ x ∈ xs.head?, x.began = start
  /-- Exactly the pause of the policy goes by between two calls. -/
  waits : ∀ j x y, xs[j]? = some x → xs[j + 1]? = some y →
    y.began = x.ended + s.delayAfter (j + 1)
  /-- Only a failed call is followed by another one. -/
  failed : ∀ j x, xs[j]? = some x → j + 1 < xs.length → ∃ error, x.answer = .error error
  length_le : xs.length ≤ s.attempts

/-- The calls that a task step makes from the time `start` on, its result, and the time by then. -/
inductive Conducts (s : TaskStep) (context : Json) (start : Nat) :
    List Exchange → Except (Fault StepError) Json → Nat → Prop
  /-- There is no input, and no call. -/
  | unresolved {error} (hinput : s.input context = .error error) :
    Conducts s context start [] (.error (.error error)) start
  /-- The last call succeeds; what becomes of its output is not asked before. -/
  | succeeded {input xs x output} (hinput : s.input context = .ok input)
    (hcalls : s.Retries input start (xs ++ [x])) (hlast : x.answer = .ok output) :
    Conducts s context start (xs ++ [x]) (s.finish context output) x.ended
  /-- All calls fail, and there are as many as the policy allows. -/
  | exhausted {input xs x error} (hinput : s.input context = .ok input)
    (hcalls : s.Retries input start (xs ++ [x])) (hlast : x.answer = .error error)
    (hall : (xs ++ [x]).length = s.attempts) :
    Conducts s context start (xs ++ [x]) (.error (.error (.call s.adapter error))) x.ended

/-! ### Attempt by attempt -/

/-- The calls from an attempt on, with `retries` more at most; the answer to the last one, and the
time at which it came. -/
inductive Tries (s : TaskStep) (input : Json) :
    (retries attempt start : Nat) → List Exchange → Except CallError Json → Nat → Prop
  | succeeds {retries attempt start ended output} : Tries s input retries attempt start
      [⟨s.adapter, input, start, ended, .ok output⟩] (.ok output) ended
  | fails {attempt start ended error} : Tries s input 0 attempt start
      [⟨s.adapter, input, start, ended, .error error⟩] (.error error) ended
  | again {retries attempt start ended error xs r finish}
      (h : Tries s input retries (attempt + 1) (ended + s.delayAfter attempt) xs r finish) :
      Tries s input (retries + 1) attempt start
        (⟨s.adapter, input, start, ended, .error error⟩ :: xs) r finish

namespace Tries

theorem asks (h : s.Tries input retries attempt start xs r finish) :
    ∀ x ∈ xs, x.operation = s.adapter ∧ x.input = input := by
  induction h with
  | succeeds | fails => simp
  | again _ ih => exact List.forall_mem_cons.mpr ⟨⟨rfl, rfl⟩, ih⟩

theorem first (h : s.Tries input retries attempt start xs r finish) :
    ∀ x ∈ xs.head?, x.began = start := by
  cases h <;> simp

theorem waits (h : s.Tries input retries attempt start xs r finish) :
    ∀ j x y, xs[j]? = some x → xs[j + 1]? = some y →
      y.began = x.ended + s.delayAfter (attempt + j) := by
  induction h with
  | succeeds | fails => simp
  | again h ih =>
    rintro (_ | j) x y hx hy
    · -- the call that follows is the first one of the next attempt
      obtain rfl := Option.some.inj hx
      exact h.first y (by simpa [List.head?_eq_getElem?] using hy)
    · have hwait := ih j x y hx hy
      rwa [Nat.add_right_comm] at hwait

theorem failed (h : s.Tries input retries attempt start xs r finish) :
    ∀ j x, xs[j]? = some x → j + 1 < xs.length → ∃ error, x.answer = .error error := by
  induction h with
  | succeeds | fails => simp
  | @again _ _ _ _ error _ _ _ _ ih =>
    rintro (_ | j) x hx hlt
    · obtain rfl := Option.some.inj hx
      exact ⟨error, rfl⟩
    · exact ih j x hx (Nat.lt_of_succ_lt_succ hlt)

theorem length_le (h : s.Tries input retries attempt start xs r finish) :
    xs.length ≤ retries + 1 := by
  induction h with
  | succeeds | fails => simp
  | again _ ih => exact Nat.succ_le_succ ih

/-- If no call succeeds, all attempts have been made. -/
theorem length_eq {error : CallError}
    (h : s.Tries input retries attempt start xs (.error error) finish) :
    xs.length = retries + 1 := by
  generalize hr : (.error error : Except CallError Json) = r at h
  induction h with
  | succeeds => cases hr
  | fails => rfl
  | again _ ih => exact congrArg (· + 1) (ih hr)

theorem exists_last (h : s.Tries input retries attempt start xs r finish) :
    ∃ before x, xs = before ++ [x] ∧ x.answer = r ∧ x.ended = finish := by
  induction h with
  | succeeds | fails => exact ⟨[], _, rfl, rfl, rfl⟩
  | again _ ih =>
    obtain ⟨before, x, rfl, hr, hfinish⟩ := ih
    exact ⟨_ :: before, x, rfl, hr, hfinish⟩

end Tries

theorem attempts_pos (s : TaskStep) : 0 < s.attempts := by
  unfold attempts
  cases s.retry with
  | none => exact Nat.one_pos
  | some policy => exact Nat.lt_of_lt_of_le Nat.one_pos (Nat.le_max_right _ _)

/-- All attempts of a task step obey its policy. -/
theorem Tries.obeys (h : s.Tries input (s.attempts - 1) 1 start xs r finish) :
    s.Retries input start xs := by
  have hattempts : s.attempts - 1 + 1 = s.attempts := Nat.sub_add_cancel s.attempts_pos
  exact ⟨h.asks, h.first, fun j x y hx hy => Nat.add_comm 1 j ▸ h.waits j x y hx hy, h.failed,
    hattempts ▸ h.length_le⟩

/-- What a task step makes of the context depends on the last attempt. -/
theorem Tries.conducts {context : Json} (hinput : s.input context = .ok input)
    (h : s.Tries input (s.attempts - 1) 1 start xs r finish) :
    s.Conducts context start xs
      ((r.mapError fun error => .error (.call s.adapter error)).bind (s.finish context))
      finish := by
  have hcalls := h.obeys
  obtain ⟨before, x, rfl, rfl, rfl⟩ := h.exists_last
  cases hlast : x.answer with
  | ok output => exact .succeeded hinput hcalls hlast
  | error error =>
    rw [hlast] at h
    refine .exhausted hinput hcalls hlast (h.length_eq.trans ?_)
    exact Nat.sub_add_cancel s.attempts_pos

end TaskStep

namespace Machine

variable {P : Nat → Nat → (Nat → Activity) → Prop} {σ : Type} {adapters : Nat → Adapter σ}
  {k : Nat} {m m' m₀ m₁ start : Machine σ} {t : Task} {a a' : Activity} {xs : List Exchange}

/-! ### Following one task -/

/-- A task that is about to go on with `a` on the machine `m` comes to `a'` on `m'`, and these are
the calls that it makes on the way. -/
inductive Attends (adapters : Nat → Adapter σ) (k : Nat) :
    Activity → Machine σ → List Exchange → Activity → Machine σ → Prop
  | refl {a : Activity} {m : Machine σ} : Attends adapters k a m [] a m
  | note {n : Note} {next a : Activity} {m m' : Machine σ} {xs : List Exchange}
    (h : Attends adapters k next (m.onWorld (.note (k = root) n)) xs a m') :
    Attends adapters k (.note n next) m xs a m'
  | pause {ms : Nat} {next a : Activity} {m m₁ m' : Machine σ} {xs : List Exchange}
    (sleeps : Sleeps adapters k ms (.activity next) m m₁)
    (h : Attends adapters k next m₁ xs a m') : Attends adapters k (.pause ms next) m xs a m'
  /-- The task sleeps until the call is answered. -/
  | call {operation : String} {input : Json} {next : Except CallError Json → Activity}
    {a : Activity} {m m₁ m' : Machine σ} {result : Except CallError Json} {w : World σ}
    {xs : List Exchange}
    (sleeps : Sleeps adapters k ((adapters m.world.now).delay operation input)
      (.answer (m.world.callCount operation + 1) operation input next)
      (m.onWorld (.beginCall operation input)) m₁)
    (answers : m₁.world.answer (adapters m₁.world.now) (m.world.callCount operation + 1) operation
      input = (result, w))
    (h : Attends adapters k (next result) { m₁ with world := w } xs a m') :
    Attends adapters k (.call operation input next) m
      (⟨operation, input, m.world.now, m₁.world.now, result⟩ :: xs) a m'

/-- In a run from `start` a task comes to an activity: it is about to go on with `a` on `m`. -/
inductive Comes (adapters : Nat → Adapter σ) (start : Machine σ) (k : Nat) (a : Activity)
    (m : Machine σ) : Prop
  | intro {m₀ m₁ m₂ : Machine σ} {t : Task} {a₀ : Activity} {xs : List Exchange}
    (before : Onward adapters start m₀) (takes : Takes m₀ k m₁)
    (lookup : m₁.tasks.lookup k = some t) (active : t.cancelled = false)
    (resumes : Resumes (adapters m₁.world.now) k m₁ t.state a₀ m₂)
    (attends : Attends adapters k a₀ m₂ xs a m)

/-- No time goes by when a call is answered. -/
theorem now_answer {adapter : Adapter σ} {number : Nat} {operation : String} {input : Json}
    {w w' : World σ} {result : Except CallError Json}
    (h : w.answer adapter number operation input = (result, w')) : w'.now = w.now := by
  obtain rfl : w' = _ := (Prod.mk.inj h).2.symm
  rfl

theorem proceed_pause (adapter : Adapter σ) (ms : Nat) (next : Activity) (m : Machine σ) :
    proceed adapter k (.pause ms next) m = m.await adapter k ms (.activity next) :=
  rfl

theorem proceed_call (adapter : Adapter σ) (operation : String) (input : Json)
    (next : Except CallError Json → Activity) (m : Machine σ) :
    proceed adapter k (.call operation input next) m =
      (m.onWorld (.beginCall operation input)).await adapter k (adapter.delay operation input)
        (.answer (m.world.callCount operation + 1) operation input next) :=
  rfl

theorem resume_answer {number : Nat} {operation : String} {input : Json}
    {next : Except CallError Json → Activity} {result : Except CallError Json} {w : World σ}
    (h : m.world.answer (adapters m.world.now) number operation input = (result, w)) :
    m.resume (adapters m.world.now) k (.answer number operation input next) =
      proceed (adapters w.now) k (next result) { m with world := w } := by
  rw [now_answer h]
  simp only [resume, h]

/-- What a task attends to is on the way onward. -/
theorem Attends.onward (h : Attends adapters k a m xs a' m') :
    Onward adapters (proceed (adapters m.world.now) k a m)
      (proceed (adapters m'.world.now) k a' m') := by
  induction h with
  | refl => exact .refl
  | @note n _ _ m _ _ _ ih =>
    have hnow : (m.onWorld (.note (k = root) n)).world.now = m.world.now :=
      World.now_note _ n m.world
    rw [hnow] at ih
    exact ih
  | pause sleeps _ ih => exact sleeps.onward.trans ih
  | call sleeps answers _ ih =>
    have honward := sleeps.onward
    rw [resume_answer answers] at honward
    exact honward.trans ih

/-- The turn at which a task comes to an activity is part of the run, up to its end. -/
theorem Comes.onward (h : Comes adapters start k a m) :
    Onward adapters start (proceed (adapters m.world.now) k a m) := by
  obtain @⟨m₀, m₁, m₂, t, a₀, xs, before, takes, lookup, active, resumes, attends⟩ := h
  have hturn : m₁.turn (adapters m₁.world.now) k = proceed (adapters m₂.world.now) k a₀ m₂ := by
    rw [resumes.now, proceed_eq_halt]
    exact turn_of_acts lookup active (.advance resumes)
  have honward := before.turn takes trivial
  rw [hturn] at honward
  exact honward.trans attends.onward

/-- Nobody is cancelled when a task goes on. -/
theorem Calm.resumes {adapter : Adapter σ} {s : TaskState} (hm : Calm m)
    (h : Resumes adapter k m s a m₁) : Calm m₁ := by
  cases h with
  | pause r => exact hm
  | complete hf hover => exact hm
  | collapse hf =>
    intro j t ht
    rw [lookup_detach, Option.map_eq_some_iff] at ht
    obtain ⟨t₀, ht₀, rfl⟩ := ht
    exact detached_cancelled.trans (hm j t₀ ht₀)

/-- On its way a task is always about to go on. -/
theorem Running.attends (hm : Running P k m) (ha : a.Lawful P)
    (h : Attends adapters k a m xs a' m') : Running P k m' ∧ a'.Lawful P := by
  induction h with
  | refl => exact ⟨hm, ha⟩
  | @note n next _ m _ _ _ ih => exact ih (hm.withWorld (World.now_note _ n m.world)) ha
  | pause sleeps _ ih => exact ih (sleeps.running hm ha).2 ha
  | @call operation input next _ m m₁ _ result _ _ sleeps answers _ ih =>
    have hrunning := (sleeps.running (hm.withWorld rfl) ha).2
    exact ih (hrunning.withWorld (now_answer answers)) (ha result)

/-- A task that comes to an activity in a run that is not cut off can go on with it. -/
theorem Comes.running (hm : Proper P start) (hcalm : Calm start)
    (h : Comes adapters start k a m) : Running P k m ∧ a.Lawful P := by
  obtain ⟨before, takes, lookup, active, resumes, attends⟩ := h
  -- the task has no branches left when it goes on, whatever it was waiting for
  have hbefore := before.proper hm
  have ha := hbefore.acting takes lookup active (.advance resumes)
  have hrunning : Running P k _ := ⟨resumes.sound ha.sound, resumes.machine_lawful ha.lawful,
    ((before.calm hm hcalm).of_tasks takes.tasks).resumes resumes,
    resumes.itemsOf_eq_nil ha.paused ha.joining⟩
  exact hrunning.attends (resumes.lawful ha.state_lawful) attends

/-! ### Going on -/

section Onward

variable (hm : Running P k m) (hgone : m'.tasks.lookup k = none)

include hm hgone

/-- A task that has ended later has gone on after its pause. -/
theorem Running.exists_pause {ms : Nat} {next : Activity}
    (honward : Onward adapters (proceed (adapters m.world.now) k (.pause ms next) m) m')
    (ha : next.Lawful P) :
    ∃ m₁, Sleeps adapters k ms (.activity next) m m₁ ∧ m₁.world.now = m.world.now + ms ∧
      Running P k m₁ ∧ Onward adapters (proceed (adapters m₁.world.now) k next m₁) m' := by
  rw [proceed_pause] at honward
  have hr : (Resumption.activity next).Lawful P := ha
  obtain ⟨m₁, hsleeps, honward⟩ := hm.exists_sleeps hr honward hgone
  obtain ⟨hnow, hrunning⟩ := hsleeps.running hm hr
  exact ⟨m₁, hsleeps, hnow, hrunning, honward⟩

/-- A task that has ended later has gone on with the answer to its call. -/
theorem Running.exists_call {operation : String} {input : Json}
    {next : Except CallError Json → Activity}
    (honward : Onward adapters (proceed (adapters m.world.now) k (.call operation input next) m)
      m') (ha : ∀ result, (next result).Lawful P) :
    ∃ m₁ result, Running P k m₁ ∧
      (∀ xs a m₂, Attends adapters k (next result) m₁ xs a m₂ →
        Attends adapters k (.call operation input next) m
          (⟨operation, input, m.world.now, m₁.world.now, result⟩ :: xs) a m₂) ∧
      Onward adapters (proceed (adapters m₁.world.now) k (next result) m₁) m' := by
  rw [proceed_call] at honward
  have hr : (Resumption.answer (m.world.callCount operation + 1) operation input next).Lawful P :=
    ha
  have hcalling : Running P k (m.onWorld (.beginCall operation input)) := hm.withWorld rfl
  obtain ⟨m₁, hsleeps, honward⟩ := hcalling.exists_sleeps hr honward hgone
  have hrunning : Running P k m₁ := (hsleeps.running hcalling hr).2
  cases hanswer : m₁.world.answer (adapters m₁.world.now) (m.world.callCount operation + 1)
    operation input with
  | mk result w =>
    have hnow : w.now = m₁.world.now := now_answer hanswer
    rw [resume_answer hanswer] at honward
    refine ⟨{ m₁ with world := w }, result, hrunning.withWorld hnow, fun xs a m₂ h => ?_, honward⟩
    exact hnow.symm ▸ .call hsleeps hanswer h

end Onward

/-- A task that has ended later has made all attempts of its task step. -/
theorem Running.exists_tries {s : TaskStep} {input : Json}
    {next : Except StepError Json → Activity} {retries attempt : Nat} {m : Machine σ}
    (hm : Running P k m) (hgone : m'.tasks.lookup k = none)
    (honward : Onward adapters (proceed (adapters m.world.now) k
      (s.callActivity input next retries attempt) m) m')
    (ha : (s.callActivity input next retries attempt).Lawful P) :
    ∃ xs r m₁, Attends adapters k (s.callActivity input next retries attempt) m xs
        (next (r.mapError (.call s.adapter))) m₁ ∧
      s.Tries input retries attempt m.world.now xs r m₁.world.now ∧
      Onward adapters (proceed (adapters m₁.world.now) k (next (r.mapError (.call s.adapter))) m₁)
        m' := by
  -- on `retries`, which each attempt that is followed by another one makes smaller
  unfold TaskStep.callActivity at ha honward ⊢
  obtain ⟨m₁, result, hrunning, hattends, honward⟩ := hm.exists_call hgone honward ha
  cases result with
  | ok output => exact ⟨_, .ok output, _, hattends _ _ _ (.note .refl), .succeeds, honward⟩
  | error error =>
    cases retries with
    | zero => exact ⟨_, .error error, m₁, hattends _ _ _ .refl, .fails, honward⟩
    | succ retries =>
      -- the task tells about the failure, pauses, and tries again
      have htold :
          Running P k (m₁.onWorld (.note (k = root) (.line (s.retryLine attempt error)))) :=
        hrunning.withWorld (World.now_note _ _ _)
      obtain ⟨m₂, hsleeps, hnow, hpaused, honward⟩ :=
        htold.exists_pause hgone honward (ha (.error error))
      obtain ⟨xs, r, m₃, hrest, htries, honward⟩ :=
        hpaused.exists_tries hgone honward (ha (.error error))
      rw [hnow] at htries
      exact ⟨_, r, m₃, hattends _ _ _ (.note (.pause hsleeps hrest)), .again htries, honward⟩
termination_by retries

/-- A task that has ended later has conducted its task step. -/
theorem Running.exists_conducts {s : TaskStep} {context : Json}
    {next : Except StepError Json → Activity} (hm : Running P k m)
    (hgone : m'.tasks.lookup k = none)
    (honward : Onward adapters (proceed (adapters m.world.now) k (s.activity context next) m) m')
    (ha : (s.activity context next).Lawful P) :
    ∃ xs r m₁, Attends adapters k (s.activity context next) m xs (.onward next r) m₁ ∧
      s.Conducts context m.world.now xs r m₁.world.now ∧
      Onward adapters (proceed (adapters m₁.world.now) k (.onward next r) m₁) m' := by
  unfold TaskStep.activity at ha honward ⊢
  cases hinput : s.input context with
  | error error =>
    simp only [hinput] at honward
    exact ⟨[], .error (.error error), m, .refl, .unresolved hinput, honward⟩
  | ok input =>
    simp only [hinput] at ha honward
    obtain ⟨xs, r, m₁, hattends, htries, honward⟩ := hm.exists_tries hgone honward ha
    have hnext : Activity.finishWith (s.finish context) next (r.mapError (.call s.adapter)) =
        .onward next
          ((r.mapError fun error => .error (.call s.adapter error)).bind (s.finish context)) := by
      cases r <;> rfl
    rw [hnext] at hattends honward
    exact ⟨xs, _, m₁, hattends, htries.conducts hinput, honward⟩

/-- **How a task step retries.** When a task of a run that is not cut off, the root or a branch,
comes to a task step, then however the run goes on it leads to the end of the task; and whenever the
task has ended, it has conducted the step: it has made the calls of the step and no others, and then
it has gone on with the result, unless the step has panicked. -/
theorem task_retries {steps : Pipeline} {scope : String} {context₀ context : Json} {w : World σ}
    {n : Nat} {s : TaskStep} {next : Except StepError Json → Activity} (hn : root < n)
    (hcomes : Comes adapters (beginning w n (steps.activity scope context₀)) k
      (s.activity context next) m)
    (honward : Onward adapters (proceed (adapters m.world.now) k (s.activity context next) m) m') :
    (∃ m'', Onward adapters m' m'' ∧ m''.tasks.lookup k = none) ∧
    (m'.tasks.lookup k = none →
      ∃ xs r m₁, Attends adapters k (s.activity context next) m xs (.onward next r) m₁ ∧
        s.Conducts context m.world.now xs r m₁.world.now ∧
        Onward adapters (proceed (adapters m₁.world.now) k (.onward next r) m₁) m') := by
  obtain ⟨hm, ha⟩ := hcomes.running (P := anyFork)
    (.beginning hn (steps.activity_lawful scope context₀)) calm_beginning
  refine ⟨?_, fun hgone => hm.exists_conducts hgone honward ha⟩
  obtain ⟨m'', hlater, hnil⟩ := (honward.proper (hm.proper ha)).exists_onward adapters
  exact ⟨m'', hlater, by rw [hnil]; rfl⟩

/-- The root comes to the first step of its pipeline at its first turn. -/
theorem exists_comes (s : TaskStep) (steps : Pipeline) (scope : String) (context : Json)
    (w : World σ) (n : Nat) :
    ∃ next m, Comes adapters (beginning w n (Pipeline.activity scope (.task s :: steps) context))
      root (s.activity context next) m := by
  unfold Pipeline.activity pipelineActivity Step.activity
  exact ⟨_, _,
    .intro .refl (.root rfl) rfl rfl (.pause (.activity _)) (.note (.note (.note .refl)))⟩

/-- An adapter that takes five milliseconds for a call and fails as often as its state says. -/
def flaky : Adapter Nat where
  delay _ _ := 5
  answer _ _ input failures :=
    ((if failures = 0 then .ok input else .error (.failed "busy"), []), failures - 1)

/-- A step that calls three times at most, with pauses of ten milliseconds. -/
def patient : TaskStep :=
  ⟨"fetch", none, "fetch", none, none, .replace, some ⟨3, 10, .one⟩⟩

/-- The patient step on an adapter that fails twice. -/
theorem task_retries_patient :
    ∃ (next : Except StepError Json → Activity) (m m' m₁ : Machine Nat) (xs : List Exchange)
      (r : Except (Fault StepError) Json),
      Comes (fun _ => flaky) (beginning (.initial 2 .null) 1
        (Pipeline.activity "" [.task patient] .null)) root (patient.activity .null next) m ∧
      Onward (fun _ => flaky) (proceed flaky root (patient.activity .null next) m) m' ∧
      m'.tasks.lookup root = none ∧
      Attends (fun _ => flaky) root (patient.activity .null next) m xs (.onward next r) m₁ ∧
      patient.Conducts .null m.world.now xs r m₁.world.now ∧
      Onward (fun _ => flaky) (proceed flaky root (.onward next r) m₁) m' := by
  obtain ⟨next, m, hcomes⟩ : ∃ next m, Comes (fun _ => flaky) (beginning (.initial 2 .null) 1
      (Pipeline.activity "" [.task patient] .null)) root (patient.activity .null next) m :=
    exists_comes patient [] "" .null _ 1
  obtain ⟨m', honward, hgone⟩ := (task_retries Nat.one_pos hcomes .refl).1
  obtain ⟨xs, r, m₁, hattends, hconducts, hlast⟩ :=
    (task_retries Nat.one_pos hcomes honward).2 hgone
  exact ⟨next, m, m', m₁, xs, r, hcomes, honward, hgone, hattends, hconducts, hlast⟩

end Machine

end Conveyor
