import Conveyor.Proofs.Run.Alternation
import Conveyor.Proofs.Run.Panics
import Conveyor.Proofs.Run.Scopes
import Conveyor.Proofs.Run.Stepwise

/-!
# What is started is ended

An activity is balanced if, however its calls are answered, it ends the steps that are open and
those that it starts itself, the last one first, unless it panics on the way (`Activity.Balanced`).
When a branch of a fork has failed, what follows starts nothing any more. What a pipeline does is
balanced; and a turn of a balanced activity keeps the timeline in order, if what it may start is not
open (`Activity.Balanced.advance`).
-/

namespace Conveyor

/-! ### Balanced activities -/

/-- When these steps are open a note may be recorded, and then those are. A step may be started if
`may` says so, and the last one may end. -/
inductive Note.Shifts (may : List String → String → Prop) :
    List String → Note → List String → Prop
  | start {opened : List String} {id : String} (h : may opened id) :
    Shifts may opened (.event id .started) (id :: opened)
  | stop {opened : List String} {id : String} {kind : EventKind}
      (hkind : kind = .completed ∨ kind = .failed) :
    Shifts may (id :: opened) (.event id kind) opened
  | line {opened : List String} {line : LogLine} : Shifts may opened (.line line) opened
  | reached {opened : List String} {index : Nat} {context : Json} :
    Shifts may opened (.reached index context) opened

/-- Nothing may be started. -/
abbrev OpensNothing : List String → String → Prop := fun _ _ => False

/-- The first thing that an activity does is to start a step. -/
def Activity.Starts (id : String) (a : Activity) : Prop :=
  ∃ next, a = .mark id .started next

/-- An activity may be done so when these steps are open: there are none, or it has panicked and
`stuck` says so. -/
def LeavesOpen (stuck : List String → Prop) (opened : List String) :
    Except (Fault StepFailure) Json → Prop
  | .error (.panic _) => stuck opened
  | _ => opened = []

/-- An activity ends the steps that are open, and those that it starts where `may` allows it, or it
panics where `stuck` does. It waits only inside of a step, and the branches of a fork are those of
the step that was opened last. -/
def Activity.Balanced (stuck : List String → Prop) (may : List String → String → Prop) :
    List String → Activity → Prop
  | opened, .done result => LeavesOpen stuck opened result
  | opened, .note n next => ∃ opened', n.Shifts may opened opened' ∧ next.Balanced stuck may opened'
  | opened, .call _ _ next => opened ≠ [] ∧ ∀ answer, (next answer).Balanced stuck may opened
  | opened, .pause _ next => opened ≠ [] ∧ next.Balanced stuck may opened
  | opened, .fork _ _ branch next =>
    (∃ id rest, opened = id :: rest ∧ ∀ item, (branch item).Starts (branchId id item) ∧
      (branch item).Balanced stuck (OpensInside (branchId id item)) []) ∧
      (∀ outputs, (next (.ok outputs)).Balanced stuck may opened) ∧
      ∀ collapse, (next (.error collapse)).Balanced stuck OpensNothing opened

section Balanced

variable (stuck : List String → Prop) (may : List String → String → Prop) (opened : List String)

/-- What is left to do after a pause is balanced. -/
def Resumption.Balanced : Resumption → Prop
  | .activity a => a.Balanced stuck may opened
  | .answer _ _ _ next => ∀ answer, (next answer).Balanced stuck may opened

/-- A fork is balanced if its activity is. -/
def Fork.Balanced (f : Fork) : Prop :=
  (Activity.fork f.count f.limit f.branch f.next).Balanced stuck may opened

/-- What is left to do of a task is balanced. -/
def TaskState.Balanced : TaskState → Prop
  | .paused r => r.Balanced stuck may opened
  | .joining f => f.Balanced stuck may opened

/-- What is left to do after a turn is balanced. -/
def Halt.Balanced : Halt → Prop
  | .done result => LeavesOpen stuck opened result
  | .asleep _ r => opened ≠ [] ∧ r.Balanced stuck may opened
  | .forked f => f.Balanced stuck may opened

end Balanced

section Activities

variable {stuck : List String → Prop} {may may' : List String → String → Prop}
  {opened opened' rest : List String}

theorem Note.Shifts.mono {n : Note} (h : ∀ opened id, may opened id → may' opened id)
    (hn : n.Shifts may opened opened') : n.Shifts may' opened opened' := by
  cases hn with
  | start hid => exact .start (h _ _ hid)
  | stop hkind => exact .stop hkind
  | line => exact .line
  | reached => exact .reached

theorem Note.Shifts.grown {n : Note} (hn : n.Shifts may opened opened') (h : Grown may opened) :
    Grown may opened' := by
  cases hn with
  | start hid => exact .cons hid h
  | stop hkind => exact h.tail
  | line => exact h
  | reached => exact h

theorem Activity.Balanced.mono (h : ∀ opened id, may opened id → may' opened id) {a : Activity}
    (ha : a.Balanced stuck may opened) : a.Balanced stuck may' opened := by
  induction a generalizing opened with
  | done result => exact ha
  | note n next ih =>
    obtain ⟨opened', hn, hnext⟩ := ha
    exact ⟨opened', hn.mono h, ih hnext⟩
  | call operation input next ih => exact ⟨ha.1, fun answer => ih answer (ha.2 answer)⟩
  | pause ms next ih => exact ⟨ha.1, ih ha.2⟩
  | fork count limit branch next ihbranch ihnext =>
    exact ⟨ha.1, fun outputs => ihnext _ (ha.2.1 outputs), ha.2.2⟩

theorem Activity.Balanced.of_nothing {a : Activity} (ha : a.Balanced stuck OpensNothing opened) :
    a.Balanced stuck may opened :=
  ha.mono fun _ _ h => h.elim

/-- A task that has halted and goes on waits inside of a step. -/
theorem Halt.Balanced.of_state? {h : Halt} {state : TaskState} (hh : h.Balanced stuck may opened)
    (hstate : h.state? = some state) : opened ≠ [] ∧ state.Balanced stuck may opened := by
  cases h with
  | done result => cases hstate
  | asleep ms r =>
    obtain rfl := Option.some.inj hstate
    exact hh
  | forked f =>
    obtain rfl := Option.some.inj hstate
    obtain ⟨name, rest, hopened, -⟩ := hh.1
    exact ⟨hopened ▸ List.cons_ne_nil _ _, hh⟩

/-! ### Turns -/

section Turns

variable {σ : Type} {top : Bool} {w w' : World σ}

/-- The timeline is in order, these steps are open, and none has been interrupted. -/
structure World.Logs (opened : List String) (w : World σ) : Prop where
  ordered : w.timeline.Ordered
  openSteps : w.timeline.openSteps.Perm opened
  uncut (e : Event) (he : e ∈ w.timeline.events) : e.kind ≠ .interrupted

theorem World.Logs.of_timeline (h : w.Logs opened) (ht : w'.timeline = w.timeline) :
    w'.Logs opened :=
  ⟨ht ▸ h.ordered, ht ▸ h.openSteps, ht ▸ h.uncut⟩

theorem World.Logs.of_perm (h : w.Logs opened) (hperm : opened.Perm opened') : w.Logs opened' :=
  ⟨h.ordered, h.openSteps.trans hperm, h.uncut⟩

theorem World.Logs.record {id : String} {kind : EventKind} (h : w.Logs opened)
    (hkind : kind ≠ .interrupted) : ∀ e ∈ (w.timeline.record ⟨id, kind, w.now⟩).events,
      e.kind ≠ .interrupted := by
  intro e he
  rcases List.mem_append.mp he with he | he
  · exact h.uncut e he
  · rw [List.mem_singleton.mp he]
    exact hkind

/-- A note keeps the timeline in order if what it may start is not open. -/
theorem World.Logs.note {n : Note} (h : w.Logs (opened ++ rest)) (hn : n.Shifts may opened opened')
    (hfree : ∀ opened id, may opened id → id ∉ opened ∧ id ∉ rest) :
    (w.note top n).Logs (opened' ++ rest) := by
  cases hn with
  | @start _ id hid =>
    have hclosed : id ∉ w.timeline.openSteps := fun hopen =>
      (List.mem_append.mp (h.openSteps.mem_iff.mp hopen)).elim (hfree _ _ hid).1 (hfree _ _ hid).2
    exact ⟨h.ordered.record (iff_of_false Bool.false_ne_true hclosed),
      Timeline.openSteps_start h.openSteps, h.record nofun⟩
  | @stop _ id kind hkind =>
    have hopen : id ∈ w.timeline.openSteps := h.openSteps.mem_iff.mpr List.mem_cons_self
    have hend : kind.isEnd = true ∧ kind ≠ .interrupted := by
      rcases hkind with rfl | rfl <;> exact ⟨rfl, nofun⟩
    exact ⟨h.ordered.record (iff_of_true hend.1 hopen),
      h.ordered.openSteps_end hend.1 h.openSteps, h.record hend.2⟩
  | line => exact h.of_timeline rfl
  | reached => exact h.of_timeline (by unfold World.note; dsimp only; split <;> rfl)

/-- A turn keeps the timeline in order if what may be started is not open, and leaves a part that is
balanced. -/
theorem Activity.Balanced.advance (adapter : Adapter σ) (top : Bool) {a : Activity}
    (ha : a.Balanced stuck may opened) (hw : w.Logs (opened ++ rest))
    (hfree : ∀ opened id, may opened id → id ∉ opened ∧ id ∉ rest) :
    ∃ opened', (∀ may', (∀ opened id, may opened id → may' opened id) → Grown may' opened →
        Grown may' opened') ∧ (a.advance adapter top w).1.Balanced stuck may opened' ∧
      (a.advance adapter top w).2.Logs (opened' ++ rest) := by
  induction a generalizing opened w with
  | done result => exact ⟨opened, fun _ _ h => h, ha, hw⟩
  | note n next ih =>
    obtain ⟨opened', hn, hnext⟩ := ha
    have hnoted : (w.note top n).Logs (opened' ++ rest) := hw.note hn hfree
    obtain ⟨last, hgrown, hbalanced, hlogs⟩ := ih hnext hnoted
    exact ⟨last, fun may' hmay h => hgrown may' hmay ((hn.mono hmay).grown h), hbalanced, hlogs⟩
  | pause ms next ih =>
    unfold Activity.advance
    split
    · exact ih ha.2 hw
    · exact ⟨opened, fun _ _ h => h, ha, hw⟩
  | call operation input next ih =>
    unfold Activity.advance
    dsimp only
    split
    · exact ih _ (ha.2 _) (hw.of_timeline rfl)
    · exact ⟨opened, fun _ _ h => h, ha, hw.of_timeline rfl⟩
  | fork count limit branch next _ ih =>
    unfold Activity.advance
    split
    · exact ih _ (ha.2.1 _) hw
    · exact ⟨opened, fun _ _ h => h, ha, hw⟩

end Turns

/-! ### Pipelines -/

/-- What a step of a branch of a pipeline leaves open when its result does not fit, `stuck`
allows. -/
def Pipeline.Strands (stuck : List String → Prop) (steps : Pipeline) : Prop :=
  ∀ s scope, steps.Holds s → ¬ s.resultPath.Fits → stuck [scope ++ "/" ++ s.name, scope]

theorem Pipeline.strands_cons {s : Step} {steps : List Step} :
    Strands stuck (s :: steps) ↔ Strands stuck [s] ∧ Strands stuck steps := by
  have hcons (x : Step) : Holds (s :: steps) x ↔ _ := holds_cons
  simp only [Strands, hcons, or_imp, forall_and]

theorem Pipeline.Strands.iterator {s : Step} (h : Strands stuck [s]) (head : MapHead)
    (iterator : Pipeline) (hs : s = .map head iterator) : Strands stuck iterator :=
  fun x scope hx => h x scope (holds_singleton.mpr (.inr ⟨head, iterator, hs, hx⟩))

section Pipelines

variable {ε α : Type} {id scope : String}

/-- What follows a part of a pipeline ends what is open then, and starts nothing if the part has
failed. -/
structure Closing (stuck : List String → Prop) (may : List String → String → Prop)
    (opened : List String) (next : Except ε α → Activity) : Prop where
  ok (x : α) : (next (.ok x)).Balanced stuck may opened
  error (e : ε) : (next (.error e)).Balanced stuck OpensNothing opened

theorem Closing.balanced {next : Except ε α → Activity} (h : Closing stuck may opened next)
    (r : Except ε α) : (next r).Balanced stuck may opened := by
  cases r with
  | ok x => exact h.ok x
  | error e => exact (h.error e).of_nothing

/-- What follows a step ends what is open then, or is stuck if the step panics. -/
theorem Closing.onward {next : Except StepError Json → Activity} (h : Closing stuck may opened next)
    {result : Except (Fault StepError) Json}
    (hstuck : ∀ p, result = .error (.panic p) → stuck opened) :
    (Activity.onward next result).Balanced stuck may opened := by
  rcases result with (error | p) | context
  · exact h.balanced _
  · exact hstuck p rfl
  · exact h.balanced _

theorem Closing.finishWith {next : Except StepError Json → Activity}
    (h : Closing stuck may opened next) {finish : α → Except (Fault StepError) Json}
    (hstuck : ∀ x p, finish x = .error (.panic p) → stuck opened) :
    Closing stuck may opened (Activity.finishWith finish next) :=
  ⟨fun x => h.onward (hstuck x), h.error⟩

theorem Activity.balanced_ended {result : Except StepFailure Json} :
    (Activity.ended result).Balanced stuck may [] := by
  cases result <;> rfl

theorem Activity.Balanced.say {a : Activity} (h : a.Balanced stuck may opened) (line : LogLine) :
    (Activity.say line a).Balanced stuck may opened :=
  ⟨opened, .line, h⟩

theorem Activity.Balanced.stop {a : Activity} (h : a.Balanced stuck may opened) {kind : EventKind}
    (hkind : kind = .completed ∨ kind = .failed) :
    (Activity.mark id kind a).Balanced stuck may (id :: opened) :=
  ⟨opened, .stop hkind, h⟩

theorem Activity.Balanced.start {a : Activity} (h : a.Balanced stuck may (id :: opened))
    (hid : may opened id) : (Activity.mark id .started a).Balanced stuck may opened :=
  ⟨id :: opened, .start hid, h⟩

theorem TaskStep.callActivity_balanced {s : TaskStep} {next : Except StepError Json → Activity}
    (h : Closing stuck may (id :: opened) next) (input : Json) (retries attempt : Nat) :
    (s.callActivity input next retries attempt).Balanced stuck may (id :: opened) := by
  have hopened : id :: opened ≠ [] := List.cons_ne_nil _ _
  induction retries generalizing attempt with
  | zero =>
    unfold callActivity
    refine ⟨hopened, fun answer => ?_⟩
    cases answer with
    | error error => exact h.balanced _
    | ok output => exact .say (h.ok output) _
  | succ retries ih =>
    unfold callActivity
    refine ⟨hopened, fun answer => ?_⟩
    cases answer with
    | error error =>
      have hretry : (Activity.pause (s.delayAfter attempt)
          (s.callActivity input next retries (attempt + 1))).Balanced stuck may (id :: opened) :=
        ⟨hopened, ih (attempt + 1)⟩
      exact hretry.say _
    | ok output => exact .say (h.ok output) _

theorem TaskStep.activity_balanced {s : TaskStep} {next : Except StepError Json → Activity}
    (h : Closing stuck may (id :: opened) next)
    (hstuck : ¬ (Step.task s).resultPath.Fits → stuck (id :: opened)) (context : Json) :
    (s.activity context next).Balanced stuck may (id :: opened) := by
  unfold activity
  split
  · exact h.balanced _
  · exact callActivity_balanced
      (h.finishWith fun _ _ hp => hstuck (Step.Panics.output hp).not_fits) _ _ _

theorem MapHead.activity_balanced {s : MapHead} {branch : Nat → Json → Activity}
    {next : Except StepError Json → Activity} (h : Closing stuck may (id :: opened) next)
    (hstuck : ∀ context outputs p, s.finish context outputs = .error (.panic p) →
      stuck (id :: opened))
    (hbranch : ∀ item x, (branch item x).Starts (branchId id item) ∧
      (branch item x).Balanced stuck (OpensInside (branchId id item)) [])
    (context : Json) : (s.activity id branch context next).Balanced stuck may (id :: opened) := by
  have hfinish : Closing stuck may (id :: opened) (Activity.finishWith (s.finish context) next) :=
    h.finishWith (hstuck context)
  unfold activity
  split
  · exact h.balanced _
  · rename_i items _
    by_cases hcount : items.length = 0
    · rw [fanOut, if_pos hcount]
      exact .say (hfinish.balanced _) _
    · rw [fanOut_eq hcount]
      have hafter (c : Collapse) :
          (afterBranches id (Activity.finishWith (s.finish context) next) (.error c)).Balanced stuck
            OpensNothing (id :: opened) := by
        unfold afterBranches
        dsimp only
        split
        · exact .say (hfinish.error _) _
        · exact hfinish.error _
      have hfork : (Activity.fork items.length (s.limit items.length)
          (fun item => branch item (items.getD item .null))
          (afterBranches id (Activity.finishWith (s.finish context) next))).Balanced stuck may
            (id :: opened) :=
        ⟨⟨id, opened, rfl, fun item => hbranch item _⟩, fun outputs => hfinish.ok _, hafter⟩
      exact hfork.say _

theorem branchActivity_balanced
    {pipeline : String → Json → (Except StepFailure Json → Activity) → Activity} {item : Nat}
    {x : Json} (h : ∀ next, Closing stuck (OpensInside (branchId id item)) [branchId id item] next →
      (pipeline (branchId id item) x next).Balanced stuck (OpensInside (branchId id item))
        [branchId id item]) :
    (branchActivity id pipeline item x).Starts (branchId id item) ∧
      (branchActivity id pipeline item x).Balanced stuck (OpensInside (branchId id item)) [] := by
  refine ⟨⟨_, rfl⟩, .start (h _ ⟨fun context => ?_, fun failure => ?_⟩) (.inl ⟨rfl, rfl⟩)⟩
  · exact .stop Activity.balanced_ended (.inl rfl)
  · exact .stop Activity.balanced_ended (.inr rfl)

mutual

theorem Step.activity_balanced : ∀ (s : Step) (may : List String → String → Prop) (id : String)
    (opened : List String) (context : Json) {next : Except StepError Json → Activity},
    Closing stuck may (id :: opened) next → (¬ s.resultPath.Fits → stuck (id :: opened)) →
    (∀ head iterator, s = .map head iterator → Pipeline.Strands stuck iterator) →
    (s.activity id context next).Balanced stuck may (id :: opened)
  | .pass s, _, _, _, context, _, h, hstuck, _ => by
    unfold Step.activity
    exact h.onward fun _ hp => hstuck (Step.Panics.pass hp).not_fits
  | .task s, _, _, _, context, _, h, hstuck, _ => by
    unfold Step.activity
    exact TaskStep.activity_balanced h hstuck context
  | .map head iterator, _, id, _, context, _, h, hstuck, hstrands => by
    unfold Step.activity
    refine MapHead.activity_balanced h (fun _ _ _ hp => hstuck (Step.Panics.outputs hp).not_fits)
      (fun item x => ?_) context
    exact branchActivity_balanced fun next hnext =>
      pipelineActivity_balanced iterator id item 0 x hnext (hstrands head iterator rfl)

/-- What the pipeline of a map does in a branch is balanced. -/
theorem pipelineActivity_balanced : ∀ (steps : List Step) (id : String) (item index : Nat)
    (context : Json) {next : Except StepFailure Json → Activity},
    Closing stuck (OpensInside (branchId id item)) [branchId id item] next →
    Pipeline.Strands stuck steps →
    (pipelineActivity (branchId id item) index steps context next).Balanced stuck
      (OpensInside (branchId id item)) [branchId id item]
  | [], _, _, _, context, _, h, _ => by
    unfold pipelineActivity
    exact h.ok context
  | s :: steps, id, item, index, context, next, h, hstrands => by
    obtain ⟨hs, hsteps⟩ := Pipeline.strands_cons.mp hstrands
    unfold pipelineActivity
    simp only [scopedId_branchId]
    refine ⟨_, .reached, .start (.say ?_ _) (.inr ⟨rfl, s.name, rfl⟩)⟩
    refine Step.activity_balanced s _ _ _ context ⟨fun context => ?_, fun error => ?_⟩
      (hs s _ (.here List.mem_cons_self)) hs.iterator
    · have hrest := pipelineActivity_balanced steps id item (index + 1) context h hsteps
      exact .stop (hrest.say _) (.inl rfl)
    · exact .stop (.say (h.error _) _) (.inr rfl)

end

/-- What is left open when the step `s` of the pipeline at the top panics, or a step of a branch
below it: that step, and its branch. -/
inductive Step.Stuck (s : Step) : List String → Prop
  | top (h : ¬ s.resultPath.Fits) : Stuck s [s.name]
  | branch {head : MapHead} {iterator : Pipeline} {x : Step} {scope : String}
    (hs : s = .map head iterator) (hx : iterator.Holds x) (h : ¬ x.resultPath.Fits) :
    Stuck s [scope ++ "/" ++ x.name, scope]

/-- What a step of the pipeline at the top does is balanced. -/
theorem Step.alone_balanced (s : Step) (index : Nat) (context : Json) :
    (s.alone index context).Balanced s.Stuck (OpensAlone s.name) [] := by
  unfold Step.alone
  simp only [pipelineActivity]
  have hid : scopedId "" s.name = s.name := rfl
  rw [hid]
  refine ⟨_, .reached, .start (.say ?_ _) ⟨rfl, rfl⟩⟩
  refine Step.activity_balanced s _ _ _ context ⟨fun context => ?_, fun error => ?_⟩ .top
    fun head iterator hs x scope hx h => .branch hs hx h
  · exact .stop (.say Activity.balanced_ended _) (.inl rfl)
  · exact .stop (.say Activity.balanced_ended _) (.inr rfl)

end Pipelines

end Activities

end Conveyor
