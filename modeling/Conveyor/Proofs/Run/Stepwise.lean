import Conveyor.Proofs.Run.Deadlines
import Conveyor.Proofs.Run.Pipelines
import Conveyor.Proofs.Run.Sequence

/-!
# Pipelines step by step

What a pipeline does is what its first step does alone, and then what the other steps do. So a run
of a pipeline is made of runs of its steps (`Machine.Executed`), each of which begins with the
context and in the world that the one before has left, up to the first one that does not end well:
`Machine.exists_executed`. A run of a single step gets no further than to its position, and if it
fails, the failure tells that position and the name of the step (`Machine.run_alone`).
-/

namespace Conveyor

/-! ### Pipelines and what follows them -/

section AndThen

variable {k : Json → Activity}

theorem TaskStep.callActivity_andThen (s : TaskStep) (input : Json)
    (next : Except StepError Json → Activity) (retries attempt : Nat) :
    (s.callActivity input next retries attempt).andThen k =
      s.callActivity input (fun r => (next r).andThen k) retries attempt := by
  induction retries generalizing attempt with
  | zero =>
    unfold callActivity
    refine congrArg (Activity.call _ _) (funext fun answer => ?_)
    cases answer <;> rfl
  | succ retries ih =>
    unfold callActivity
    refine congrArg (Activity.call _ _) (funext fun answer => ?_)
    cases answer with
    | ok output => rfl
    | error error =>
      exact congrArg (fun a => Activity.say (s.retryLine attempt error) (.pause _ a))
        (ih (attempt + 1))

theorem MapHead.fanOut_andThen (s : MapHead) (id : String) (branch : Nat → Json → Activity)
    (items : List Json) (next : Except StepError (List Json) → Activity) :
    (s.fanOut id branch items next).andThen k =
      s.fanOut id branch items fun r => (next r).andThen k := by
  by_cases h : items.length = 0
  · simp only [fanOut, if_pos h]
    rfl
  · rw [fanOut_eq h, fanOut_eq h]
    refine congrArg (Activity.say _) (congrArg (Activity.fork _ _ _) (funext fun r => ?_))
    rcases r with ⟨item, failure | panic, inFlight, pending⟩ | outputs <;> rfl

theorem Activity.onward_andThen (next : Except StepError Json → Activity)
    (result : Except (Fault StepError) Json) :
    (onward next result).andThen k = onward (fun r => (next r).andThen k) result := by
  rcases result with (error | panic) | context <;> rfl

theorem Activity.finishWith_andThen {α : Type} (finish : α → Except (Fault StepError) Json)
    (next : Except StepError Json → Activity) :
    (fun r => (finishWith finish next r).andThen k) =
      finishWith finish fun r => (next r).andThen k := by
  funext r
  cases r with
  | ok value => exact onward_andThen next (finish value)
  | error error => rfl

theorem Step.activity_andThen (s : Step) (id : String) (context : Json)
    (next : Except StepError Json → Activity) :
    (s.activity id context next).andThen k = s.activity id context fun r => (next r).andThen k := by
  cases s with
  | pass s =>
    simp only [Step.activity]
    exact Activity.onward_andThen next _
  | task s =>
    simp only [Step.activity, TaskStep.activity]
    split
    · rfl
    · rw [s.callActivity_andThen, Activity.finishWith_andThen]
  | map head iterator =>
    simp only [Step.activity, MapHead.activity]
    split
    · rfl
    · rw [head.fanOut_andThen, Activity.finishWith_andThen]

theorem pipelineActivity_andThen (steps : List Step) (scope : String) (index : Nat)
    (context : Json) (next : Except StepFailure Json → Activity) :
    (pipelineActivity scope index steps context next).andThen k =
      pipelineActivity scope index steps context fun r => (next r).andThen k := by
  induction steps generalizing index context with
  | nil => simp only [pipelineActivity]
  | cons s steps ih =>
    simp only [pipelineActivity, Activity.andThen, Activity.mark, Activity.say,
      Step.activity_andThen]
    refine congrArg (fun next => Activity.note _ (.note _ (.note _ (s.activity _ _ next))))
      (funext fun r => ?_)
    cases r with
    | ok context => exact congrArg (fun a => Activity.note _ (.note _ a)) (ih _ _)
    | error error => rfl

end AndThen

/-- What a step at a position of the pipeline at the top does. -/
def Step.alone (s : Step) (index : Nat) (context : Json) : Activity :=
  pipelineActivity "" index [s] context .ended

/-- A pipeline does what its first step does, and then what the other steps do. -/
theorem pipelineActivity_cons (s : Step) (steps : List Step) (index : Nat) (context : Json) :
    pipelineActivity "" index (s :: steps) context .ended =
      (s.alone index context).andThen fun context =>
        pipelineActivity "" (index + 1) steps context .ended := by
  unfold Step.alone
  rw [pipelineActivity_andThen]
  simp only [pipelineActivity]
  refine congrArg (fun next => Activity.note _ (.mark _ _ (.say _ (s.activity _ _ next))))
    (funext fun r => ?_)
  cases r <;> rfl

theorem Step.alone_lawful (s : Step) (index : Nat) (context : Json) :
    (s.alone index context).Lawful anyFork :=
  pipelineActivity_lawful (Q := fun _ _ => True) (fun _ _ _ _ _ _ _ => trivial) [s]
    (Pipeline.maps_true [s]) "" index context continues_ended

/-! ### Staying at a step -/

/-- An activity gets to no further step, and fails at this one if it fails. -/
def Activity.StaysAt (index : Nat) (name : String) : Activity → Prop
  | .done (.error (.error failure)) => failure.index = index ∧ failure.name = name
  | .done _ => True
  | .note n next => (∀ i context, n ≠ .reached i context) ∧ next.StaysAt index name
  | .call _ _ next => ∀ answer, (next answer).StaysAt index name
  | .pause _ next => next.StaysAt index name
  | .fork _ _ _ next => ∀ r, (next r).StaysAt index name

/-- What is left to do after a pause stays at a step. -/
def Resumption.StaysAt (index : Nat) (name : String) : Resumption → Prop
  | .activity a => a.StaysAt index name
  | .answer _ _ _ next => ∀ answer, (next answer).StaysAt index name

/-- What is left to do of a task stays at a step. -/
def TaskState.StaysAt (index : Nat) (name : String) : TaskState → Prop
  | .paused r => r.StaysAt index name
  | .joining f => ∀ r, (f.next r).StaysAt index name

/-- What is left to do after a turn stays at a step. -/
def Halt.StaysAt (index : Nat) (name : String) : Halt → Prop
  | .done result => (Activity.done result).StaysAt index name
  | .asleep _ r => r.StaysAt index name
  | .forked f => ∀ r, (f.next r).StaysAt index name

section StaysAt

variable {σ : Type} {adapter : Adapter σ} {index : Nat} {name : String}

theorem World.reached_note {top : Bool} {n : Note} (h : ∀ i context, n ≠ .reached i context)
    (w : World σ) : (w.note top n).reached = w.reached := by
  cases n with
  | reached i context => exact absurd rfl (h i context)
  | _ => rfl

theorem World.state_note {top : Bool} (n : Note) (w : World σ) :
    (w.note top n).state = w.state := by
  cases n with
  | reached i context => unfold note; dsimp only; split <;> rfl
  | _ => rfl

theorem Activity.StaysAt.advance {top : Bool} {a : Activity} (ha : a.StaysAt index name)
    (w : World σ) : (a.advance adapter top w).1.StaysAt index name ∧
      (a.advance adapter top w).2.reached = w.reached := by
  induction a generalizing w with
  | done result => exact ⟨ha, rfl⟩
  | note n next ih =>
    obtain ⟨hstays, hreached⟩ := ih ha.2 (w.note top n)
    exact ⟨hstays, hreached.trans (World.reached_note ha.1 w)⟩
  | pause ms next ih =>
    unfold Activity.advance
    split
    · exact ih ha w
    · exact ⟨ha, rfl⟩
  | call operation input next ih =>
    unfold Activity.advance
    dsimp only
    split
    · exact ih _ (ha _) _
    · exact ⟨ha, rfl⟩
  | fork count limit branch next _ ih =>
    unfold Activity.advance
    split
    · exact ih _ (ha _) w
    · exact ⟨ha, rfl⟩

/-- A branch does not get the pipeline at the top anywhere. -/
theorem Activity.reached_advance (a : Activity) (w : World σ) :
    (a.advance adapter false w).2.reached = w.reached := by
  induction a generalizing w with
  | done result => rfl
  | note n next ih =>
    refine (ih _).trans ?_
    cases n <;> rfl
  | pause ms next ih =>
    unfold Activity.advance
    split
    · exact ih w
    · rfl
  | call operation input next ih =>
    unfold Activity.advance
    dsimp only
    split
    · exact ih _ _
    · rfl
  | fork count limit branch next _ ih =>
    unfold Activity.advance
    split
    · exact ih _ w
    · rfl

namespace Machine

variable {P : Nat → Nat → (Nat → Activity) → Prop} {deadline : Option Nat} {id : Nat}
  {context : Json} {m m₀ m₁ : Machine σ} {t : Task} {h : Halt}

theorem Acts.staysAt {s : TaskState} (hacts : Acts adapter root m s h m₁)
    (hs : s.StaysAt index name) :
    h.StaysAt index name ∧ m₁.world.reached = m.world.reached := by
  cases hacts with
  | refill hf hover =>
    obtain ⟨outputs, -, rfl⟩ := Fork.of_gather_eq_ok hf
    exact ⟨hs, rfl⟩
  | advance hr =>
    cases hr with
    | pause r =>
      cases r with
      | activity a => exact Activity.StaysAt.advance hs _
      | answer number operation input next => exact Activity.StaysAt.advance (hs _) _
    | collapse hf => exact (hs _).advance _
    | complete hf hover =>
      obtain ⟨outputs, -, rfl⟩ := Fork.of_gather_eq_ok hf
      exact (hs _).advance _

theorem Acts.reached {s : TaskState} (hacts : Acts adapter id m s h m₁) (hid : id ≠ root) :
    m₁.world.reached = m.world.reached := by
  cases hacts with
  | refill hf hover => rfl
  | advance hr =>
    rw [decide_eq_false hid]
    refine (Activity.reached_advance _ _).trans ?_
    cases hr with
    | pause r => cases r <;> rfl
    | _ => rfl

/-- The root is at the step at a position, with this name and context, and stays at it. -/
structure At (index : Nat) (name : String) (context : Json) (m : Machine σ) : Prop where
  reached : m.world.reached = (index, context)
  root : ∀ t, m.tasks.lookup Machine.root = some t → t.state.StaysAt index name
  failure : ∀ failure, m.ending = some (.finished (.error (.error failure))) →
    failure.index = index ∧ failure.name = name

theorem At.turn (hm : Proper P m) (htakes : Takes m id m₀) (hat : At index name context m) :
    At index name context (m₀.turn adapter id) := by
  have hending := htakes.ending
  refine hm.turn_cases (Q := At index name context) htakes (fun _ => ?_) (fun t _ _ hsound => ?_)
    fun t halt m₁ ha => ?_
  · exact ⟨htakes.world ▸ hat.reached, htakes.tasks ▸ hat.root, hending ▸ hat.failure⟩
  · refine ⟨?_, fun t ht => ?_, fun failure hf => ?_⟩
    · rw [drop_world, htakes.world, hat.reached]
    · obtain ⟨-, t₀, ht₀, rfl⟩ := of_lookup_drop hsound.keys_nodup ht
      rw [abandoned_state]
      exact hat.root t₀ (htakes.tasks ▸ ht₀)
    · exact hat.failure failure (hending ▸ drop_ending ▸ hf)
  · have hreached : (m₁.halt id halt).world.reached = m₁.world.reached :=
      congrArg World.reached ha.halt_world
    have hworld : m₀.world.reached = (index, context) := by rw [htakes.world, hat.reached]
    by_cases hid : id = Machine.root
    · subst hid
      obtain ⟨hstays, hsame⟩ := ha.acts.staysAt (hat.root t (htakes.tasks ▸ ha.lookup))
      refine ⟨(hreached.trans hsame).trans hworld, fun t' ht' => ?_, fun failure hf => ?_⟩
      · rcases ha.after ht' with ⟨hne, -⟩ | ⟨-, -, -, hstate⟩ | ⟨hk, -⟩
        · exact absurd rfl hne
        · cases halt with
          | done result => cases hstate
          | asleep ms r => exact Option.some.inj hstate ▸ hstays
          | forked f => exact Option.some.inj hstate ▸ hstays
        · exact absurd ha.sound.root_lt_fresh (Nat.not_lt.mpr hk)
      · rcases ha.ending with ⟨result, rfl, -, hresult⟩ | ⟨hsame, -⟩
        · obtain rfl := Ending.finished.inj (Option.some.inj (hresult.symm.trans hf))
          exact hstays
        · exact hat.failure failure (hsame.symm.trans hf)
    · refine ⟨(hreached.trans (ha.acts.reached hid)).trans hworld, fun t' ht' => ?_,
        fun failure hf => ?_⟩
      · rcases ha.after ht' with @⟨t₀, -, ht₀, hkept⟩ | ⟨hk, -⟩ | ⟨hk, -⟩
        · have hstays := hat.root t₀ (htakes.tasks ▸ ht₀)
          cases hs : t₀.state with
          | paused r => rw [hkept.paused r hs]; exact hs ▸ hstays
          | joining f => rw [hs] at hstays; rw [hkept.joining f hs]; exact hstays
        · exact absurd hk.symm hid
        · exact absurd ha.sound.root_lt_fresh (Nat.not_lt.mpr hk)
      · exact hat.failure failure
          ((ha.ending.resolve_left fun ⟨_, _, hroot, _⟩ => hid hroot).1.symm.trans hf)

theorem At.run (hm : Proper P m) (hat : At index name context m) :
    At index name context (m.run adapter deadline) := by
  refine hm.run_preserves (fun m hm _ hat => ?_) hat
  refine hm.step_preserves (I := At index name context)
    (fun m id m₀ hm htakes hat => hat.turn hm htakes) (fun m time hm _ hat => ?_)
    (fun m hm he _ hat => ?_) hat
  · refine ⟨?_, ?_, ?_⟩
    · rw [wakeAt_world]
      exact hat.reached
    · rw [wakeAt_tasks]
      exact hat.root
    · rw [wakeAt_ending]
      exact hat.failure
  · refine ⟨(congrArg World.reached cut_world).trans hat.reached, fun t ht => ?_, nofun⟩
    rw [(hm.cut he).lookup_root_eq_none (Option.some_ne_none _)] at ht
    cases ht

/-- A run that begins with a note is a run in the world with that note. -/
theorem run_note {w : World σ} {fresh : Nat} {n : Note} {a : Activity} :
    (beginning w fresh (.note n a)).run adapter deadline =
      (beginning (w.note true n) fresh a).run adapter deadline := by
  have hpart : (beginning w fresh (.note n a)).rootPart adapter =
      (beginning (w.note true n) fresh a).rootPart adapter := by
    rw [rootPart_beginning, rootPart_beginning]
    exact halt_root_congr rfl fun s => rfl
  have hstep : (beginning w fresh (.note n a)).step adapter deadline =
      (beginning (w.note true n) fresh a).step adapter deadline := by
    rw [step_of_rootReady rfl rfl, step_of_rootReady rfl rfl, rootTurn_eq, rootTurn_eq, hpart]
  rw [run_of_step (m := beginning w fresh (.note n a)) rfl,
    run_of_step (m := beginning (w.note true n) fresh a) rfl, hstep]

end Machine

/-! ### Runs of single steps -/

theorem Activity.StaysAt.say {a : Activity} (h : a.StaysAt index name) (line : LogLine) :
    (Activity.say line a).StaysAt index name :=
  ⟨fun _ _ => Note.noConfusion, h⟩

theorem Activity.StaysAt.mark {a : Activity} (h : a.StaysAt index name) (id : String)
    (kind : EventKind) : (Activity.mark id kind a).StaysAt index name :=
  ⟨fun _ _ => Note.noConfusion, h⟩

theorem TaskStep.callActivity_staysAt {s : TaskStep} {next : Except StepError Json → Activity}
    (h : ∀ r, (next r).StaysAt index name) (input : Json) (retries attempt : Nat) :
    (s.callActivity input next retries attempt).StaysAt index name := by
  induction retries generalizing attempt with
  | zero =>
    unfold callActivity
    rintro (error | output)
    · exact h _
    · exact (h _).say _
  | succ retries ih =>
    unfold callActivity
    rintro (error | output)
    · exact Activity.StaysAt.say (ih (attempt + 1)) _
    · exact (h _).say _

theorem MapHead.fanOut_staysAt {s : MapHead} {id : String} {branch : Nat → Json → Activity}
    {next : Except StepError (List Json) → Activity} (h : ∀ r, (next r).StaysAt index name)
    (items : List Json) : (s.fanOut id branch items next).StaysAt index name := by
  by_cases hcount : items.length = 0
  · rw [fanOut, if_pos hcount]
    exact (h _).say _
  · rw [fanOut_eq hcount]
    apply Activity.StaysAt.say
    exact afterBranches_of h fun line a ha => ha.say line

theorem Step.activity_staysAt {s : Step} {next : Except StepError Json → Activity}
    (h : ∀ r, (next r).StaysAt index name) (id : String) (context : Json) :
    (s.activity id context next).StaysAt index name := by
  cases s with
  | pass s =>
    unfold Step.activity
    exact Activity.onward_of h (fun _ => trivial) _
  | task s =>
    unfold Step.activity TaskStep.activity
    split
    · exact h _
    · exact TaskStep.callActivity_staysAt (Activity.finishWith_of h (fun _ => trivial) _) _ _ _
  | map head iterator =>
    unfold Step.activity MapHead.activity
    split
    · exact h _
    · exact MapHead.fanOut_staysAt (Activity.finishWith_of h (fun _ => trivial) _) _

/-- A step begins with telling that it is reached, and then stays where it is. -/
theorem Step.exists_alone_eq (s : Step) (index : Nat) (context : Json) :
    ∃ a, s.alone index context = .note (.reached index context) a ∧ a.StaysAt index s.name := by
  unfold Step.alone
  simp only [pipelineActivity]
  refine ⟨_, rfl, .mark (.say (Step.activity_staysAt (fun r => ?_) _ _) _) _ _⟩
  cases r with
  | ok context =>
    refine .mark (.say ?_ _) _ _
    exact trivial
  | error error =>
    refine .mark (.say ?_ _) _ _
    exact ⟨rfl, rfl⟩

namespace Machine

variable {deadline : Option Nat} {context : Json} {m : Machine σ}

/-- A run of a single step stays at the step. -/
theorem run_alone {w : World σ} {fresh : Nat} (hfresh : root < fresh) (s : Step) :
    At index s.name context
      ((beginning w fresh (s.alone index context)).run adapter deadline) := by
  have hlawful := s.alone_lawful index context
  obtain ⟨a, ha, hstays⟩ := s.exists_alone_eq index context
  rw [ha] at hlawful ⊢
  have hnext : a.Lawful anyFork := hlawful
  rw [run_note]
  refine At.run (.beginning hfresh hnext) ⟨rfl, fun t ht => ?_, nofun⟩
  rw [lookup_beginning, if_pos rfl] at ht
  exact Option.some.inj ht ▸ hstays

/-! ### Runs of pipelines -/

/-- The root has ended well with this context, and nothing is left to do. -/
def AtRest (context : Json) (m : Machine σ) : Prop :=
  m = resting m.world m.fresh context ∧ root < m.fresh

theorem AtRest.ending (h : AtRest context m) : m.ending = some (.finished (.ok context)) := by
  rw [h.1]
  rfl

/-- What a run of a pipeline from a position on leaves, when the steps before it have left a
machine. -/
def runFrom (adapter : Adapter σ) (deadline : Option Nat) (index : Nat) (steps : List Step) :
    Machine σ → Machine σ :=
  thenRun adapter deadline fun context => pipelineActivity "" index steps context .ended

/-- What a run of a single step leaves, when the steps before it have left a machine. -/
def runStep (adapter : Adapter σ) (deadline : Option Nat) (index : Nat) (s : Step) :
    Machine σ → Machine σ :=
  thenRun adapter deadline (s.alone index)

theorem runFrom_nil (h : AtRest context m) : m.runFrom adapter deadline index [] = m := by
  have hpart : (beginning m.world m.fresh (.ended (.ok context))).rootPart adapter =
      resting m.world m.fresh context := by
    rw [rootPart_beginning]
    rfl
  rw [runFrom, thenRun_of_ok h.ending]
  simp only [pipelineActivity]
  rw [run_of_step (m := beginning m.world m.fresh (.ended (.ok context))) rfl,
    step_of_rootReady rfl rfl, rootTurn_eq, hpart, if_neg fun h => Option.some_ne_none _ h.1]
  exact (run_of_ending (Option.some_ne_none _)).trans h.1.symm

theorem runFrom_cons (h : AtRest context m) (s : Step) (steps : List Step) :
    m.runFrom adapter deadline index (s :: steps) =
      (m.runStep adapter deadline index s).runFrom adapter deadline (index + 1) steps := by
  unfold runFrom runStep
  rw [thenRun_of_ok h.ending, thenRun_of_ok (m := m) h.ending, pipelineActivity_cons,
    run_andThen h.2 (s.alone_lawful index context)]

/-- A step that ends well leaves nothing to do. -/
theorem atRest_runStep (h : AtRest context m) {s : Step} {context' : Json}
    (hend : (m.runStep adapter deadline index s).ending = some (.finished (.ok context'))) :
    AtRest context' (m.runStep adapter deadline index s) := by
  have hproper : Proper anyFork (beginning m.world m.fresh (s.alone index context)) :=
    .beginning h.2 (s.alone_lawful index context)
  unfold runStep at hend ⊢
  rw [thenRun_of_ok h.ending] at hend ⊢
  have hrun : Proper anyFork
    ((beginning m.world m.fresh (s.alone index context)).run adapter deadline) := hproper.run
  exact ⟨hproper.run_eq_resting rfl intact_beginning hend, hrun.sound.root_lt_fresh⟩

/-- The run of a step stays at the step. -/
theorem at_runStep (h : AtRest context m) (s : Step) :
    At index s.name context (m.runStep adapter deadline index s) := by
  unfold runStep
  rw [thenRun_of_ok h.ending]
  exact run_alone h.2 s

/-- The run of a step adds to the calls before it. -/
theorem later_runStep (h : AtRest context m) (s : Step) :
    m.world.Later (m.runStep adapter deadline index s).world := by
  have hproper : Proper anyFork (beginning m.world m.fresh (s.alone index context)) :=
    .beginning h.2 (s.alone_lawful index context)
  unfold runStep
  rw [thenRun_of_ok h.ending]
  exact hproper.run_later inTime_beginning

/-- Steps, of which the first has this position, are executed in order, each of them once: a step
runs alone, with the context and in the world that the one before it has left, and ends well. -/
inductive Executed (adapter : Adapter σ) (deadline : Option Nat) :
    Nat → List Step → Machine σ → Machine σ → Prop
  | nil (index : Nat) (m : Machine σ) : Executed adapter deadline index [] m m
  | cons {index : Nat} {s : Step} {steps : List Step} {m m' : Machine σ} (context : Json)
      (hs : (m.runStep adapter deadline index s).ending = some (.finished (.ok context)))
      (hsteps : Executed adapter deadline (index + 1) steps
        (m.runStep adapter deadline index s) m') :
      Executed adapter deadline index (s :: steps) m m'

/-- When steps have been executed, a run goes on with those that follow. -/
theorem Executed.runFrom_append {steps : List Step} {m' : Machine σ} (h : AtRest context m)
    (hsteps : Executed adapter deadline index steps m m') (more : List Step) :
    m.runFrom adapter deadline index (steps ++ more) =
        m'.runFrom adapter deadline (index + steps.length) more ∧
      ∃ context', AtRest context' m' := by
  induction hsteps generalizing context with
  | nil index m => exact ⟨rfl, context, h⟩
  | @cons index s steps m m' context' hs hsteps ih =>
    obtain ⟨hrun, hrest⟩ := ih (atRest_runStep h hs)
    refine ⟨?_, hrest⟩
    rw [List.cons_append, runFrom_cons h, hrun, List.length_cons, Nat.add_right_comm, Nat.add_assoc]

/-- A run of a pipeline executes its steps up to the first one that does not end well. -/
theorem exists_executed (adapter : Adapter σ) (deadline : Option Nat) (steps : List Step)
    (h : AtRest context m) (index : Nat) :
    (∃ m' context', Executed adapter deadline index steps m m' ∧ AtRest context' m') ∨
      ∃ before s after m' context', steps = before ++ s :: after ∧
        Executed adapter deadline index before m m' ∧ AtRest context' m' ∧
        ∀ context'', (m'.runStep adapter deadline (index + before.length) s).ending ≠
          some (.finished (.ok context'')) := by
  induction steps generalizing m context index with
  | nil => exact .inl ⟨m, context, .nil index m, h⟩
  | cons s steps ih =>
    by_cases hs : ∃ context', (m.runStep adapter deadline index s).ending =
        some (.finished (.ok context'))
    · obtain ⟨context', hs⟩ := hs
      rcases ih (atRest_runStep h hs) (index + 1) with
        ⟨m', c, hexec, hrest⟩ | ⟨before, s', after, m', c, rfl, hexec, hrest, hnot⟩
      · exact .inl ⟨m', c, .cons context' hs hexec, hrest⟩
      · refine .inr ⟨s :: before, s', after, m', c, rfl, .cons context' hs hexec, hrest, ?_⟩
        rwa [List.length_cons, ← Nat.add_assoc, Nat.add_right_comm]
    · exact .inr ⟨[], s, steps, m, context, rfl, .nil index m, h, not_exists.mp hs⟩

/-- After a step that does not end well, a run goes no further. -/
theorem runFrom_of_ne (h : AtRest context m) {s : Step} (after : List Step)
    (hnot : ∀ context, (m.runStep adapter deadline index s).ending ≠
      some (.finished (.ok context))) :
    m.runFrom adapter deadline index (s :: after) = m.runStep adapter deadline index s := by
  rw [runFrom_cons h, runFrom, thenRun_of_ne hnot]

/-- A step that ends well within a deadline does so without one. -/
theorem runStep_deadline (h : AtRest context m) (hle : ∀ limit ∈ deadline, m.world.now ≤ limit)
    {s : Step} {context' : Json}
    (hs : (m.runStep adapter deadline index s).ending = some (.finished (.ok context'))) :
    m.runStep adapter deadline index s = m.runStep adapter none index s ∧
      ∀ limit ∈ deadline, (m.runStep adapter deadline index s).world.now ≤ limit := by
  have hproper : Proper anyFork (beginning m.world m.fresh (s.alone index context)) :=
    .beginning h.2 (s.alone_lawful index context)
  unfold runStep at hs ⊢
  rw [thenRun_of_ok h.ending] at hs ⊢
  rw [thenRun_of_ok h.ending]
  cases deadline with
  | none => exact ⟨rfl, nofun⟩
  | some limit =>
    rcases hproper.run_deadline adapter (hle limit rfl) inTime_beginning with ⟨heq, hnow⟩ | hcut
    · refine ⟨heq, fun limit' hlimit => ?_⟩
      obtain rfl := Option.some.inj (Option.mem_def.mp hlimit)
      exact hnow
    · exact absurd (hcut.ending.symm.trans hs) nofun

/-- What has been executed within a deadline is executed so without one. -/
theorem Executed.of_deadline {steps : List Step} {m' : Machine σ} (h : AtRest context m)
    (hle : ∀ limit ∈ deadline, m.world.now ≤ limit)
    (hsteps : Executed adapter deadline index steps m m') :
    Executed adapter none index steps m m' ∧ ∀ limit ∈ deadline, m'.world.now ≤ limit := by
  induction hsteps generalizing context with
  | nil index m => exact ⟨.nil index m, hle⟩
  | @cons index s steps m m' context' hs hsteps ih =>
    obtain ⟨heq, hnow⟩ := runStep_deadline h hle hs
    obtain ⟨hexec, hend⟩ := ih (atRest_runStep h hs) hnow
    rw [heq] at hs hexec
    exact ⟨.cons context' hs hexec, hend⟩

/-- The log makes no difference to what a step does but for itself. -/
theorem runStep_unlogged {m' : Machine σ} (h : AtRest context m) (hsame : m'.unlogged = m.unlogged)
    (s : Step) : (m'.runStep adapter deadline index s).unlogged =
      (m.runStep adapter deadline index s).unlogged := by
  obtain ⟨hworld, -, hfresh, -, -, -, hending⟩ := Machine.mk.inj hsame
  have hbegin : ∀ w : World σ, Proper anyFork (beginning w m.fresh (s.alone index context)) :=
    fun w => .beginning h.2 (s.alone_lawful index context)
  unfold runStep
  rw [thenRun_of_ok h.ending, thenRun_of_ok (hending.trans h.ending), hfresh,
    (hbegin _).unlogged_run, (hbegin m.world).unlogged_run]
  exact congrArg (fun w => ((beginning w _ _).run adapter deadline).unlogged) hworld

end Machine

end StaysAt

end Conveyor
