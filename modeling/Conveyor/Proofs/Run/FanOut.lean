import Conveyor.Proofs.Run.Panics
import Conveyor.Proofs.Run.Pipelines

/-!
# Maps run like their items one after another

With an adapter that answers by operation and input alone, what an activity without forks comes to
does not depend on when its calls are answered (`Activity.value`). So each branch of a map whose
pipeline has no map comes to what its pipeline comes to alone, and the fork puts the results into
the order of the items, or ends with one of the failures or panics, in whatever order the branches
end.
-/

namespace Conveyor

/-- The adapter answers by operation and input alone. -/
def Adapter.Answers {σ : Type} (adapter : Adapter σ)
    (answers : String → Json → Except CallError Json) : Prop :=
  ∀ number operation input state,
    (adapter.answer number operation input state).1.1 = answers operation input

/-! ### What activities come to -/

section Value

variable (answers : String → Json → Except CallError Json)

/-- What an activity comes to if its calls are answered so; none if it has a fork on its way. -/
def Activity.value : Activity → Option (Except (Fault StepFailure) Json)
  | .done result => some result
  | .note _ next => next.value
  | .call operation input next => (next (answers operation input)).value
  | .pause _ next => next.value
  | .fork .. => none

/-- What a task comes to after a pause. -/
def Resumption.value : Resumption → Option (Except (Fault StepFailure) Json)
  | .activity a => a.value answers
  | .answer _ operation input next => (next (answers operation input)).value answers

/-- What a task that has halted comes to. -/
def Halt.value : Halt → Option (Except (Fault StepFailure) Json)
  | .done result => some result
  | .asleep _ r => r.value answers
  | .forked _ => none

variable {answers}

theorem World.answer_fst {σ : Type} {adapter : Adapter σ} (hadapter : adapter.Answers answers)
    (number : Nat) (operation : String) (input : Json) (w : World σ) :
    (w.answer adapter number operation input).1 = answers operation input :=
  hadapter number operation input w.state

/-- A turn does not change what an activity comes to. -/
theorem Activity.value_advance {σ : Type} {adapter : Adapter σ}
    (hadapter : adapter.Answers answers) {top : Bool} {a : Activity}
    {v : Except (Fault StepFailure) Json} (ha : a.value answers = some v) (w : World σ) :
    (a.advance adapter top w).1.value answers = some v := by
  induction a generalizing w with
  | done result => exact ha
  | note n next ih => exact ih ha _
  | pause ms next ih =>
    unfold advance
    split
    · exact ih ha w
    · exact ha
  | call operation input next ih =>
    unfold advance
    dsimp only
    split
    · refine ih _ ?_ _
      rw [World.answer_fst hadapter]
      exact ha
    · exact ha
  | fork count limit branch next => cases ha

theorem Resumption.value_start {σ : Type} {adapter : Adapter σ}
    (hadapter : adapter.Answers answers) {r : Resumption} {v : Except (Fault StepFailure) Json}
    (hr : r.value answers = some v) (w : World σ) :
    (r.start adapter w).1.value answers = some v := by
  cases r with
  | activity a => exact hr
  | answer number operation input next =>
    refine Eq.trans (congrArg (fun x => (next x).value answers) ?_) hr
    exact World.answer_fst hadapter number operation input w

/-! ### What pipelines come to -/

theorem TaskStep.exists_callActivity_value (answers : String → Json → Except CallError Json)
    (s : TaskStep) (input : Json) (retries attempt : Nat) :
    ∃ r, ∀ next, (s.callActivity input next retries attempt).value answers =
      (next r).value answers := by
  induction retries generalizing attempt with
  | zero =>
    unfold callActivity
    simp only [Activity.value]
    cases answers s.adapter input with
    | ok output => exact ⟨.ok output, fun next => rfl⟩
    | error e => exact ⟨.error (.call s.adapter e), fun next => rfl⟩
  | succ retries ih =>
    unfold callActivity
    simp only [Activity.value]
    cases answers s.adapter input with
    | ok output => exact ⟨.ok output, fun next => rfl⟩
    | error e =>
      obtain ⟨r, hr⟩ := ih (attempt + 1)
      exact ⟨r, fun next => hr next⟩

theorem Step.exists_activity_value (answers : String → Json → Except CallError Json) {s : Step}
    (hs : s.Maps fun _ _ => False) (context : Json) :
    ∃ r, (∀ p, r = .error (.panic p) → ¬ s.resultPath.Fits) ∧
      ∀ id next, (s.activity id context next).value answers =
        (Activity.onward next r).value answers := by
  cases s with
  | pass s =>
    exact ⟨s.apply context, fun p hp => (Step.Panics.pass hp).not_fits,
      fun id next => by rw [Step.activity]⟩
  | map head iterator => exact hs.1.elim
  | task s =>
    simp only [Step.activity, TaskStep.activity]
    cases s.input context with
    | error e => exact ⟨.error (.error e), fun _ hp => (by cases hp), fun id next => rfl⟩
    | ok input =>
      obtain ⟨r, hr⟩ := s.exists_callActivity_value answers input (s.attempts - 1) 1
      cases r with
      | error e => exact ⟨.error (.error e), fun _ hp => (by cases hp), fun id next => hr _⟩
      | ok output =>
        exact ⟨s.finish context output, fun p hp => (Step.Panics.output hp).not_fits,
          fun id next => hr _⟩

/-- A pipeline without maps comes to a result that depends on the context alone, and panics only if
not all of its results fit. -/
theorem exists_pipelineActivity_value (answers : String → Json → Except CallError Json)
    {steps : List Step} (hsteps : Pipeline.MapFree steps) (index : Nat) (context : Json) :
    ∃ r, (∀ p, r = .error (.panic p) → ¬ Pipeline.Fits steps) ∧
      ∀ scope next, (pipelineActivity scope index steps context next).value answers =
        (Activity.onward next r).value answers := by
  induction steps generalizing index context with
  | nil =>
    exact ⟨.ok context, fun _ hp => (by cases hp), fun scope next => by rw [pipelineActivity]; rfl⟩
  | cons s steps ih =>
    obtain ⟨r, hpanic, hr⟩ := Step.exists_activity_value answers hsteps.1 context
    simp only [pipelineActivity, Activity.mark, Activity.say, Activity.value, hr]
    rcases r with (e | p) | context
    · exact ⟨.error (.error ⟨index, s.name, e⟩), fun _ hp => (by cases hp), fun scope next => rfl⟩
    · exact ⟨.error (.panic p), fun _ _ hfits => hpanic p rfl (hfits s (.here List.mem_cons_self)),
        fun scope next => rfl⟩
    · obtain ⟨r, hpanic', hr⟩ := ih hsteps.2 (index + 1) context
      exact ⟨r, fun p hp hfits => hpanic' p hp (Pipeline.fits_cons.mp hfits).2,
        fun scope next => hr scope next⟩

/-- The branch of an item comes to what the pipeline comes to alone. -/
theorem exists_branch_value (answers : String → Json → Except CallError Json)
    {iterator : Pipeline} (hiterator : iterator.MapFree) (x : Json) :
    ∃ r, (∀ p, r = .error (.panic p) → ¬ Pipeline.Fits iterator) ∧
      (iterator.activity "" x).value answers = some r ∧
      ∀ id item, (iterator.branch id item x).value answers = some r := by
  obtain ⟨r, hpanic, hr⟩ := exists_pipelineActivity_value answers hiterator 0 x
  refine ⟨r, hpanic, (hr "" .ended).trans ?_, fun id item => ?_⟩
  · rcases r with (failure | p) | context <;> rfl
  · simp only [Pipeline.branch, branchActivity, Activity.mark, Activity.value, hr]
    rcases r with (failure | p) | context <;> rfl

end Value

namespace Machine

variable {P : Nat → Nat → (Nat → Activity) → Prop} {σ : Type} {adapter : Adapter σ}
  {answers : String → Json → Except CallError Json} {m m₀ m₁ : Machine σ} {id : Nat} {t : Task}

/-- A turn does not change what a task comes to. -/
theorem Acting.value {h : Halt} {r : Resumption} {v : Except (Fault StepFailure) Json}
    (ha : Acting P adapter m id m₀ t h m₁) (hadapter : adapter.Answers answers)
    (hr : t.state = .paused r) (hv : r.value answers = some v) : h.value answers = some v := by
  have hacts := ha.acts
  rw [hr] at hacts
  cases hacts with
  | advance hres =>
    cases hres with
    | pause r => exact Activity.value_advance hadapter (Resumption.value_start hadapter hv _) _

/-! ### Activities without forks -/

/-- What the root comes to. -/
structure Solo (answers : String → Json → Except CallError Json)
    (v : Except (Fault StepFailure) Json) (m : Machine σ) : Prop where
  root : ∀ t, m.tasks.lookup root = some t →
    ∃ r, t.state = .paused r ∧ r.value answers = some v
  ending : ∀ e, m.ending = some e → e = .finished v

theorem Solo.turn {v : Except (Fault StepFailure) Json} (hm : Proper P m) (htakes : Takes m id m₀)
    (hadapter : adapter.Answers answers) (h : Solo answers v m) :
    Solo answers v (m₀.turn adapter id) := by
  have hending := htakes.ending
  refine hm.turn_cases htakes (fun _ => ?_) (fun t ht hc hsound => ?_) fun t halt m₁ ha => ?_
  · exact ⟨htakes.tasks ▸ h.root, hending ▸ h.ending⟩
  · refine ⟨fun t₁ ht₁ => ?_, drop_ending.trans hending ▸ h.ending⟩
    obtain ⟨-, t₀, ht₀, rfl⟩ := of_lookup_drop hsound.keys_nodup ht₁
    rw [abandoned_state]
    exact h.root t₀ (htakes.tasks ▸ ht₀)
  · have hroot : ∀ t₀, m₀.tasks.lookup Machine.root = some t₀ →
        ∃ r, t₀.state = .paused r ∧ r.value answers = some v := htakes.tasks ▸ h.root
    refine ⟨fun t₁ ht₁ => ?_, fun e he => ?_⟩
    · rcases ha.after ht₁ with ⟨-, ht₀, hkept⟩ | ⟨rfl, -, -, hstate⟩ | ⟨hk, -⟩
      · obtain ⟨r, hr, hv⟩ := hroot _ ht₀
        exact ⟨r, hkept.paused r hr, hv⟩
      · obtain ⟨r, hr, hv⟩ := hroot t ha.lookup
        have hvalue := ha.value hadapter hr hv
        cases halt with
        | done result => cases hstate
        | asleep ms r => exact ⟨r, (Option.some.inj hstate).symm, hvalue⟩
        | forked f => cases hvalue
      · exact absurd ha.sound.root_lt_fresh (by omega)
    · rcases ha.ending with ⟨result, rfl, rfl, hfinished⟩ | ⟨hsame, -⟩
      · obtain ⟨r, hr, hv⟩ := hroot t ha.lookup
        obtain rfl := Option.some.inj (ha.value hadapter hr hv)
        exact Option.some.inj (he.symm.trans hfinished)
      · exact h.ending e (hsame ▸ he)

/-- An activity without forks ends with what it comes to. -/
theorem run_of_value {w : World σ} {fresh : Nat} {a : Activity}
    {v : Except (Fault StepFailure) Json} (hadapter : adapter.Answers answers)
    (hfresh : root < fresh) (ha : a.Lawful P) (hv : a.value answers = some v) :
    ((beginning w fresh a).run adapter none).ending = some (.finished v) := by
  have hproper : Proper P (beginning w fresh a) := .beginning hfresh ha
  have hsolo : Solo answers v ((beginning w fresh a).run adapter none) := by
    refine hproper.run_preserves (fun m hm he h => ?_) ⟨fun t ht => ?_, nofun⟩
    · refine hm.step_preserves (fun m id m₀ hm ht h => h.turn hm ht hadapter) ?_ ?_ h
      · exact fun m time hm hle h => ⟨by rw [wakeAt_tasks]; exact h.root,
          by rw [wakeAt_ending]; exact h.ending⟩
      · exact fun m hm he hd => absurd hd (by simp)
    · rw [lookup_beginning, if_pos rfl] at ht
      obtain rfl := Option.some.inj ht
      exact ⟨.activity a, rfl, hv⟩
  obtain ⟨e, he⟩ := Option.ne_none_iff_exists'.mp (hproper.run_ending adapter none)
  rw [he, hsolo.ending e he]

/-! ### Forks that have the results of all branches -/

section Complete

variable {f f' : Fork} (hacc : m.Accounts id f) (hf : f.gather f.ended = .ok f') (hover : f'.Over)

include hacc hf hover

theorem Accounts.admitted_of_over : f'.admitted = f'.count :=
  Nat.le_antisymm (hacc.length_gather hf).2.2 hover.1

/-- There is an output of every item. -/
theorem Accounts.exists_collected {item : Nat} (hitem : item < f'.count) :
    ∃ output, f'.collected.lookup item = some output := by
  have hperm := hacc.accounts_gather hf
  rw [hacc.itemsOf_of_over hf hover, List.nil_append, hacc.admitted_of_over hf hover] at hperm
  exact Option.isSome_iff_exists.mp
    (Keyed.isSome_lookup_iff.mpr (hperm.symm.subset (List.mem_range.mpr hitem)))

/-- The outputs are what the items were promised. -/
theorem Accounts.outputs_of_over {β : Type} {promised : Nat → β} {g : Json → β}
    (h : ∀ e ∈ f'.collected, promised e.1 = g e.2) :
    f'.outputs.map g = (List.range f'.count).map promised := by
  unfold Fork.outputs
  rw [List.map_filterMap, ← List.filterMap_eq_map]
  refine List.filterMap_congr fun item hitem => ?_
  obtain ⟨output, houtput⟩ := hacc.exists_collected hf hover (List.mem_range.mp hitem)
  rw [houtput, Option.map_some, Function.comp_apply, h _ (Keyed.mem_of_lookup houtput)]

end Complete

/-! ### Forks of activities without forks -/

/-- How a fork ends whose branches come to what is promised: with all outputs in the order of the
items if each item is promised one, and otherwise with one of the failures, or with one of the
panics as it is told. -/
inductive Settled (count : Nat) (promised : Nat → Except (Fault StepFailure) Json) :
    Except Collapse (List Json) → Prop
  | ok {outputs : List Json} (hlength : outputs.length = count)
      (hall : ∀ item, (h : item < outputs.length) → promised item = .ok outputs[item]) :
      Settled count promised (.ok outputs)
  | error {c : Collapse} {task : Nat} {fault : Fault StepFailure} (hitem : c.item < count)
      (hc : promised c.item = .error fault) (htold : c.fault = told task fault) :
      Settled count promised (.error c)

/-- The branches of a fork come to what is promised, and the fork has been told nothing else. -/
structure Serves (answers : String → Json → Except CallError Json) (count : Nat)
    (promised : Nat → Except (Fault StepFailure) Json)
    (next : Except Collapse (List Json) → Activity) (f : Fork) : Prop where
  count : f.count = count
  branch : ∀ item, (f.branch item).value answers = some (promised item)
  next : f.next = next
  ended : ∀ e ∈ f.ended, ∃ task, e.2 = (promised e.1).mapError (told task)
  collected : ∀ e ∈ f.collected, promised e.1 = .ok e.2

section Serves

variable {count : Nat} {promised : Nat → Except (Fault StepFailure) Json}
  {next : Except Collapse (List Json) → Activity} {f f' : Fork}

theorem Serves.gather (hs : Serves answers count promised next f)
    (hf : f.gather f.ended = .ok f') : Serves answers count promised next f' := by
  obtain ⟨outputs, hended, rfl⟩ := Fork.of_gather_eq_ok hf
  refine ⟨hs.count, hs.branch, hs.next, nofun, fun e he => ?_⟩
  rcases List.mem_append.mp he with he | he
  · exact hs.collected e he
  · obtain ⟨task, htold⟩ := hs.ended (e.1, .ok e.2) (by
      rw [hended]
      exact List.mem_map_of_mem (f := fun e => (e.1, Except.ok e.2)) he)
    exact Except.mapError_eq_ok.mp htold.symm

/-- A fork that is told what is promised of its items serves as before. -/
theorem Serves.receive {permits : Nat} {results : List (Nat × Except (Fault StepFailure) Json)}
    (hs : Serves answers count promised next f)
    (h : ∀ e ∈ results, ∃ task, e.2 = (promised e.1).mapError (told task)) :
    Serves answers count promised next { f with permits, ended := f.ended ++ results } :=
  ⟨hs.count, hs.branch, hs.next, fun e he => (List.mem_append.mp he).elim (hs.ended e) (h e),
    hs.collected⟩

theorem Serves.filled (hs : Serves answers count promised next f) :
    Serves answers count promised next f.filled :=
  ⟨hs.count, hs.branch, hs.next, hs.ended, hs.collected⟩

theorem Serves.settled_error {c : Collapse} (hs : Serves answers count promised next f)
    (hacc : m.Accounts id f) (hf : f.gather f.ended = .error c) :
    Settled count promised (.error c) := by
  have hmem := Fork.of_gather_eq_error hf
  obtain ⟨task, htold⟩ := hs.ended _ hmem
  obtain ⟨fault, hfault, hc⟩ := Except.mapError_eq_error.mp htold.symm
  exact .error (hs.count ▸ hacc.item_lt hmem) hfault hc.symm

/-- No slot is left empty. -/
theorem Serves.settled_ok (hs : Serves answers count promised next f)
    (hacc : m.Accounts id f) (hf : f.gather f.ended = .ok f') (hover : f'.Over) :
    Settled count promised (.ok f'.outputs) := by
  have hs' := hs.gather hf
  have houtputs := hacc.outputs_of_over hf hover hs'.collected
  have hcount : f'.outputs.length = f'.count := by
    simpa using congrArg List.length houtputs
  refine .ok (hcount.trans hs'.count) fun item hitem => ?_
  have hget := congrArg (·[item]?) houtputs
  simp only [List.getElem?_map, List.getElem?_range (hcount ▸ hitem),
    List.getElem?_eq_getElem hitem, Option.map_some] at hget
  exact (Option.some.inj hget).symm

end Serves

/-! ### The root as a map -/

/-- The root is about to begin a fork, or waits for its branches; the branches come to what is
promised, and so does the root. -/
structure Fans (answers : String → Json → Except CallError Json) (start : Activity) (count : Nat)
    (promised : Nat → Except (Fault StepFailure) Json)
    (next : Except Collapse (List Json) → Activity)
    (result : Except Collapse (List Json) → Except (Fault StepFailure) Json) (m : Machine σ) :
    Prop where
  waiting : ∀ t, m.tasks.lookup root = some t → t.state = .paused (.activity start) ∨
    ∃ f, t.state = .joining f ∧ Serves answers count promised next f
  branches : ∀ k t item, m.tasks.lookup k = some t → t.parent = some (root, item) →
    ∃ r, t.state = .paused r ∧ r.value answers = some (promised item)
  ending : ∀ e, m.ending = some e → ∃ r, Settled count promised r ∧ e = .finished (result r)

section Fans

variable {start : Activity} {count limit : Nat} {branch : Nat → Activity}
  {promised : Nat → Except (Fault StepFailure) Json}
  {next : Except Collapse (List Json) → Activity}
  {result : Except Collapse (List Json) → Except (Fault StepFailure) Json} {h : Halt}

/-- The root begins the fork, takes in items, or ends with what is promised. -/
theorem Fans.halt_root (hm : Fans answers start count promised next result m)
    (hstart : ∀ w, (start.advance adapter true w).1 = .forked (.ofBranches count limit branch next))
    (hbranch : ∀ item, (branch item).value answers = some (promised item))
    (hnext : ∀ r w, ((next r).advance adapter true w).1 = .done (result r))
    (ha : Acting P adapter m root m₀ t h m₁) :
    (∃ f, h = .forked f ∧ Serves answers count promised next f) ∨
      ∃ r, h = .done (result r) ∧ Settled count promised r := by
  have hacts := ha.acts
  have hjoining := ha.joining
  rcases hm.waiting t (ha.takes.tasks ▸ ha.lookup) with hs | ⟨f, hs, hserves⟩
  · rw [hs] at hacts
    cases hacts with
    | advance hr =>
      cases hr
      exact .inl ⟨_, hstart _, rfl, hbranch, rfl, nofun, nofun⟩
  · rw [hs] at hacts
    have hacc := hjoining f hs
    cases hacts with
    | refill hf hover => exact .inl ⟨_, rfl, hserves.gather hf⟩
    | advance hr =>
      cases hr with
      | collapse hf =>
        refine .inr ⟨_, ?_, hserves.settled_error hacc hf⟩
        rw [hserves.next]
        exact hnext _ _
      | complete hf hover =>
        refine .inr ⟨_, ?_, hserves.settled_ok hacc hf hover⟩
        rw [hserves.next]
        exact hnext _ _

/-- A branch that halts comes to what is promised. -/
theorem Fans.value_halt {item : Nat} (hm : Fans answers start count promised next result m)
    (hadapter : adapter.Answers answers) (ha : Acting P adapter m id m₀ t h m₁)
    (hp : t.parent = some (root, item)) : h.value answers = some (promised item) := by
  obtain ⟨r, hr, hv⟩ := hm.branches id t item (ha.takes.tasks ▸ ha.lookup) hp
  exact ha.value hadapter hr hv

/-- The fork is told what is promised when a branch ends. -/
theorem Fans.results_promised (hm : Fans answers start count promised next result m)
    (hadapter : adapter.Answers answers) (ha : Acting P adapter m id m₀ t h m₁) :
    ∀ e ∈ h.results id (itemIn root t), ∃ task, e.2 = (promised e.1).mapError (told task) := by
  intro e he
  cases h with
  | done result =>
    obtain ⟨item, hitem, rfl⟩ := List.mem_map.mp he
    have hp := itemIn_eq_some_iff.mp (Option.mem_toList.mp hitem)
    exact ⟨id, by rw [← Option.some.inj (hm.value_halt hadapter ha hp)]⟩
  | asleep ms r => exact absurd he List.not_mem_nil
  | forked f => exact absurd he List.not_mem_nil

/-- As long as there is a root, nothing is cancelled. -/
theorem Fans.drop (hm : Fans answers start count promised next result m)
    (hsound : Sound (some id) m) (ht : m.tasks.lookup id = some t) (hc : t.cancelled = true) :
    Fans answers start count promised next result (m.drop id) := by
  refine ⟨fun t₁ ht₁ => ?_, fun k t₁ item ht₁ hp => ?_,
    fun e he => hm.ending e (drop_ending.symm.trans he)⟩ <;>
    obtain ⟨-, t₀, ht₀, rfl⟩ := of_lookup_drop hsound.keys_nodup ht₁
  · exact absurd (((hsound.root t₀ ht₀).2 id t ht).symm.trans hc) Bool.false_ne_true
  · rw [abandoned_state]
    exact hm.branches k t₀ item ht₀ (abandoned_parent ▸ hp)

theorem Fans.halt (hm : Fans answers start count promised next result m)
    (hadapter : adapter.Answers answers)
    (hstart : ∀ w, (start.advance adapter true w).1 = .forked (.ofBranches count limit branch next))
    (hbranch : ∀ item, (branch item).value answers = some (promised item))
    (hnext : ∀ r w, ((next r).advance adapter true w).1 = .done (result r))
    (ha : Acting P adapter m id m₀ t h m₁) :
    Fans answers start count promised next result (m₁.halt id h) := by
  have htasks := ha.takes.tasks
  have hself : id = root → (∃ f, h = .forked f ∧ Serves answers count promised next f) ∨
      ∃ r, h = .done (result r) ∧ Settled count promised r := by
    rintro rfl
    exact hm.halt_root hstart hbranch hnext ha
  constructor
  case waiting =>
    intro t' ht'
    cases ha.after ht' with
    | @other t₀ hne ht₀ kept =>
      rcases hm.waiting t₀ (htasks ▸ ht₀) with hs | ⟨f, hs, hserves⟩
      · exact .inl (kept.paused _ hs)
      · exact .inr ⟨_, kept.joining f hs, hserves.receive (hm.results_promised hadapter ha)⟩
    | self hid _ _ state =>
      rcases hself hid.symm with ⟨f, rfl, hserves⟩ | ⟨r, rfl, -⟩
      · exact .inr ⟨f.filled, (Option.some.inj state).symm, hserves.filled⟩
      · cases state
    | new hk => exact absurd ha.sound.root_lt_fresh (Nat.not_lt.mpr hk)
  case branches =>
    intro k t' item ht' hp
    cases ha.after ht' with
    | @other t₀ hne ht₀ kept =>
      obtain ⟨r, hr, hv⟩ := hm.branches k t₀ item (htasks ▸ ht₀) (kept.parent_of_some hp)
      exact ⟨r, kept.paused r hr, hv⟩
    | self _ parent _ state =>
      have hv := hm.value_halt hadapter ha (parent.symm.trans hp)
      cases h with
      | done result => cases state
      | asleep ms r => exact ⟨r, (Option.some.inj state).symm, hv⟩
      | forked f => cases hv
    | @new f item' _ hforked _ ht' =>
      subst ht'
      obtain ⟨hid, rfl⟩ := Prod.mk.inj (Option.some.inj hp)
      rcases hself hid with ⟨f', rfl, hserves⟩ | ⟨r, rfl, -⟩
      · obtain rfl := Halt.forked.inj hforked
        exact ⟨_, rfl, hserves.branch _⟩
      · cases hforked
  case ending =>
    intro e he
    rcases ha.ending with ⟨v, rfl, rfl, hfinished⟩ | ⟨hsame, -⟩
    · rcases hself rfl with ⟨f, hf, -⟩ | ⟨r, hr, hsettled⟩
      · cases hf
      · obtain rfl := Halt.done.inj hr
        exact ⟨r, hsettled, Option.some.inj (he.symm.trans hfinished)⟩
    · exact hm.ending e (hsame ▸ he)

theorem Fans.turn (hadapter : adapter.Answers answers)
    (hstart : ∀ w, (start.advance adapter true w).1 = .forked (.ofBranches count limit branch next))
    (hbranch : ∀ item, (branch item).value answers = some (promised item))
    (hnext : ∀ r w, ((next r).advance adapter true w).1 = .done (result r))
    (hm : Proper P m) (htakes : Takes m id m₀)
    (h : Fans answers start count promised next result m) :
    Fans answers start count promised next result (m₀.turn adapter id) := by
  have h₀ : Fans answers start count promised next result m₀ :=
    ⟨htakes.tasks ▸ h.waiting, htakes.tasks ▸ h.branches, htakes.ending ▸ h.ending⟩
  exact hm.turn_cases htakes (fun _ => h₀) (fun t ht hc hsound => h₀.drop hsound ht hc)
    fun t halt m₁ ha => h.halt hadapter hstart hbranch hnext ha

/-- A fork at the root settles. -/
theorem run_of_fork (hadapter : adapter.Answers answers)
    (hstart : ∀ w, (start.advance adapter true w).1 = .forked (.ofBranches count limit branch next))
    (hbranch : ∀ item, (branch item).value answers = some (promised item))
    (hnext : ∀ r w, ((next r).advance adapter true w).1 = .done (result r)) {w : World σ}
    {fresh : Nat} (hfresh : root < fresh) (hlawful : start.Lawful P) :
    ∃ r, Settled count promised r ∧
      ((beginning w fresh start).run adapter none).ending = some (.finished (result r)) := by
  have hproper : Proper P (beginning w fresh start) := .beginning hfresh hlawful
  have hfans : Fans answers start count promised next result
      ((beginning w fresh start).run adapter none) := by
    have htask : ∀ k t, (beginning w fresh start).tasks.lookup k = some t →
        t = ⟨none, .paused (.activity start), false⟩ := by
      intro k t ht
      rw [lookup_beginning, Option.ite_none_right_eq_some] at ht
      exact (Option.some.inj ht.2).symm
    refine hproper.run_preserves (fun m hm he h => ?_)
      ⟨fun t ht => .inl ?_, fun k t item ht hp => ?_, nofun⟩
    · refine hm.step_preserves (fun m id m₀ hm ht h => h.turn hadapter hstart hbranch hnext hm ht)
        (fun m time hm hle h => ?_) (fun m hm he hd => absurd hd (by simp)) h
      exact ⟨by rw [wakeAt_tasks]; exact h.waiting, by rw [wakeAt_tasks]; exact h.branches,
        by rw [wakeAt_ending]; exact h.ending⟩
    · rw [htask _ t ht]
    · simp [htask k t ht] at hp
  obtain ⟨e, he⟩ := Option.ne_none_iff_exists'.mp (hproper.run_ending adapter none)
  obtain ⟨r, hsettled, rfl⟩ := hfans.ending e he
  exact ⟨r, hsettled, he⟩

end Fans

end Machine

/-! ### Maps -/

/-- How the run of a pipeline alone ends, with an item as its whole context. -/
def Pipeline.alone {σ : Type} (adapter : Adapter σ) (state : σ) (steps : Pipeline) (x : Json) :
    Option Ending :=
  ((Machine.start state x (steps.activity "" x)).run adapter none).ending

/-- The outputs of a map, or its error, as the result of a pipeline. -/
def MapHead.result (r : Except StepError (List Json)) : Except StepFailure Json :=
  (r.map Json.array).mapError fun error => ⟨0, "", error⟩

/-- How the run of a map over a list of items ends that begins in a world, in which the numbers of
tasks go on from `fresh`. -/
def MapHead.run {σ : Type} (adapter : Adapter σ) (w : World σ) (fresh : Nat) (head : MapHead)
    (iterator : Pipeline) (id : String) (items : List Json) : Option Ending :=
  ((Machine.beginning w fresh (head.fanOut id (iterator.branch id) items fun r =>
    .ended (result r))).run adapter none).ending

section Maps

variable {σ : Type} {adapter : Adapter σ} {answers : String → Json → Except CallError Json}
  {iterator : Pipeline}

theorem Pipeline.alone_eq (hadapter : adapter.Answers answers) {x : Json}
    {r : Except (Fault StepFailure) Json} (hr : (iterator.activity "" x).value answers = some r)
    (state : σ) : iterator.alone adapter state x = some (.finished r) :=
  Machine.run_of_value hadapter Nat.one_pos (iterator.activity_lawful "" x) hr

/-- What a map does is lawful. -/
theorem MapHead.fanOut_anyFork (head : MapHead) (iterator : Pipeline) (id : String)
    (items : List Json) : (head.fanOut id (iterator.branch id) items fun r =>
      .ended (result r)).Lawful anyFork := by
  have hended : Continues anyFork fun r => .ended (result r) :=
    ⟨fun _ => trivial, fun _ => trivial⟩
  refine MapHead.fanOut_lawful hended (fun item x => ?_) items fun _ => trivial
  exact pipelineActivity_lawful (Q := fun _ _ => True) (fun _ _ _ _ _ _ _ => trivial) iterator
    (Pipeline.maps_true iterator) _ 0 x ⟨fun _ => trivial, fun _ => trivial⟩

/-- A map settles on what its pipeline comes to for each item alone. -/
theorem MapHead.exists_run_eq (hadapter : adapter.Answers answers) (hiterator : iterator.MapFree)
    (w : World σ) {fresh : Nat} (hfresh : Machine.root < fresh) (head : MapHead) (id : String)
    (items : List Json) (promised : Nat → Except (Fault StepFailure) Json)
    (hpromised : ∀ item, (iterator.activity "" (items.getD item .null)).value answers =
      some (promised item)) :
    ∃ r, Machine.Settled items.length promised r ∧ head.run adapter w fresh iterator id items =
      some (.finished ((result (r.mapError Collapse.toError)).mapError .error)) := by
  have hlawful := head.fanOut_anyFork iterator id items
  by_cases hnil : items.length = 0
  · refine ⟨.ok [], .ok hnil.symm nofun, Machine.run_of_value hadapter hfresh hlawful ?_⟩
    simp only [MapHead.fanOut, hnil, if_true]
    rfl
  · have hstart : ∀ w, ((head.fanOut id (iterator.branch id) items fun r =>
        .ended (result r)).advance adapter true w).1 = .forked (.ofBranches items.length
          (head.limit items.length) (fun item => iterator.branch id item (items.getD item .null))
          (afterBranches id fun r => .ended (result r))) := by
      intro w
      rw [fanOut_eq hnil]
      simp only [Activity.say, Activity.advance, if_neg hnil]
    refine Machine.run_of_fork hadapter hstart (fun item => ?_) (fun r w => ?_) hfresh hlawful
    · obtain ⟨r, -, hr, hbranch⟩ :=
        exists_branch_value answers hiterator (items.getD item .null)
      rw [hbranch, ← hr, hpromised]
    · rcases r with ⟨item, failure | p, inFlight, pending⟩ | outputs <;> rfl

/-- How a map ends that fails because of what its pipeline comes to for one of the items alone: with
its failure; or, if it panics, which it does only if not all of its results fit, with the panic as
it is told. -/
inductive MapHead.FailsAs (adapter : Adapter σ) (state : σ) (iterator : Pipeline) (item : Nat)
    (x : Json) : StepError → Prop
  | failed {failure : StepFailure}
    (h : iterator.alone adapter state x = some (.finished (.error (.error failure)))) :
    FailsAs adapter state iterator item x
      (.item item failure.index failure.name failure.error)
  | panicked {p : Panic} {task : Nat} (hfits : ¬ Pipeline.Fits iterator)
    (h : iterator.alone adapter state x = some (.finished (.error (.panic p)))) :
    FailsAs adapter state iterator item x (.aborted (Machine.toldPanic task p).message)

/-- **A map refines its pipeline.** With an adapter that answers by operation and input alone, a map
whose pipeline has no map ends with a list of outputs exactly if they are what its pipeline ends
with for each of the items alone, in the order of the items; otherwise it ends with the failure of
its pipeline for one of the items, or with its panic if not all results of the pipeline fit. -/
theorem map_run_refines_alone (hadapter : adapter.Answers answers) (hiterator : iterator.MapFree)
    (w : World σ) {fresh : Nat} (hfresh : Machine.root < fresh) (head : MapHead) (id : String)
    (items : List Json) (state : σ) :
    ∃ r, head.run adapter w fresh iterator id items =
        some (.finished ((MapHead.result r).mapError .error)) ∧
      (∀ outputs, r = .ok outputs ↔ List.Forall₂ (fun x output =>
        iterator.alone adapter state x = some (.finished (.ok output))) items outputs) ∧
      ∀ error, r = .error error → ∃ item x, items[item]? = some x ∧
        MapHead.FailsAs adapter state iterator item x error := by
  have hvalue : ∀ item, ∃ r, (∀ p, r = .error (.panic p) → ¬ Pipeline.Fits iterator) ∧
      (iterator.activity "" (items.getD item .null)).value answers = some r :=
    fun item => (exists_branch_value answers hiterator _).imp fun _ h => ⟨h.1, h.2.1⟩
  choose promised hpanics hpromised using hvalue
  have halone : ∀ item x, items[item]? = some x →
      iterator.alone adapter state x = some (.finished (promised item)) := by
    intro item x hx
    refine Pipeline.alone_eq hadapter ?_ state
    rw [← hpromised item, List.getD_eq_getElem?_getD, hx, Option.getD_some]
  obtain ⟨r, hsettled, hrun⟩ :=
    MapHead.exists_run_eq hadapter hiterator w hfresh head id items promised hpromised
  refine ⟨_, hrun, fun outputs => ?_, fun error he => ?_⟩
  · rw [List.forall₂_iff_get]
    cases hsettled with
    | @ok outputs' hlength hall =>
      constructor
      · intro heq
        obtain rfl := Except.ok.inj heq
        refine ⟨hlength.symm, fun item h₁ h₂ => ?_⟩
        rw [List.get_eq_getElem, halone item _ (List.getElem?_eq_getElem h₁), hall item h₂]
        rfl
      · rintro ⟨hlength', hall'⟩
        refine congrArg Except.ok (List.ext_getElem (hlength.trans hlength') fun item h₁ h₂ => ?_)
        have h := hall' item (hlength ▸ h₁) h₂
        rw [List.get_eq_getElem, halone item _ (List.getElem?_eq_getElem _), hall item h₁] at h
        exact Except.ok.inj (Ending.finished.inj (Option.some.inj h))
    | @error c task fault hitem hc =>
      refine ⟨nofun, fun h => ?_⟩
      obtain ⟨hlength, hall⟩ := h
      have h := hall c.item hitem (hlength ▸ hitem)
      rw [List.get_eq_getElem, halone c.item _ (List.getElem?_eq_getElem _), hc] at h
      cases h
  · cases hsettled with
    | ok hlength hall => cases he
    | @error c task fault hitem hc htold =>
      obtain rfl := Except.error.inj he
      have hx := List.getElem?_eq_getElem hitem
      have halone := halone c.item _ hx
      rw [hc] at halone
      refine ⟨c.item, items[c.item], hx, ?_⟩
      unfold Collapse.toError
      rw [htold]
      cases fault with
      | error failure => exact .failed halone
      | panic p => exact .panicked (hpanics c.item p hc) halone

/-- A map over two items that are copied by calls of a millisecond each. -/
theorem map_run_copies :
    MapHead.run ⟨fun _ _ => 1, fun _ _ input state => ((.ok input, []), state)⟩
      (.initial () .null) 1 ⟨"each", none, .root, some 1, .replace⟩
      [.task ⟨"copy", none, "copy", none, none, .replace, none⟩] "each" [.null, .bool true] =
    some (.finished (.ok (.array [.null, .bool true]))) := by
  have hadapter : @Adapter.Answers Unit
      ⟨fun _ _ => 1, fun _ _ input state => ((.ok input, []), state)⟩ fun _ input => .ok input :=
    fun _ _ _ _ => rfl
  have hiterator : Pipeline.MapFree [.task ⟨"copy", none, "copy", none, none, .replace, none⟩] :=
    ⟨trivial, trivial⟩
  have hvalue : ∀ x, (Pipeline.activity ""
      [.task ⟨"copy", none, "copy", none, none, .replace, none⟩] x).value
      (fun _ input => .ok input) = some (.ok x) := by
    intro x
    unfold Pipeline.activity pipelineActivity Step.activity TaskStep.activity
    simp only [TaskStep.input, TaskStep.attempts, Option.map_none, Option.getD_none, Nat.sub_self]
    unfold TaskStep.callActivity pipelineActivity
    rfl
  obtain ⟨r, hrun, hok, -⟩ := map_run_refines_alone hadapter
    hiterator (.initial () .null) Nat.one_pos ⟨"each", none, .root, some 1, .replace⟩
    "each" [.null, .bool true] ()
  obtain rfl := (hok [.null, .bool true]).mpr
    (.cons (Pipeline.alone_eq hadapter (hvalue _) ())
      (.cons (Pipeline.alone_eq hadapter (hvalue _) ()) .nil))
  exact hrun

/-- The pipeline of a map writes to the greatest position: it panics for the only item, and the
error of the map is not about the item. -/
theorem overstep_run_aborts :
    let adapter : Adapter Unit := ⟨fun _ _ => 0, fun _ _ input state => ((.ok input, []), state)⟩
    let steps : Pipeline := [.pass ⟨"put", none, some (.literal (.bool true)), .at Path.beyondAll⟩]
    (∃ answers, adapter.Answers answers) ∧ Pipeline.MapFree steps ∧ ∃ error : StepError,
      MapHead.run adapter (.initial () .null) 1 ⟨"each", none, .root, none, .replace⟩ steps "each"
        [.null] = some (.finished ((MapHead.result (.error error)).mapError .error)) ∧
      ∀ item index name cause, error ≠ .item item index name cause := by
  intro adapter steps
  have hadapter : adapter.Answers fun _ input => .ok input := fun _ _ _ _ => rfl
  have hiterator : Pipeline.MapFree steps := ⟨trivial, trivial⟩
  have hpromised (item : Nat) : (Pipeline.activity "" steps ([Json.null].getD item .null)).value
      (fun _ input => .ok input) =
        some (.error (.panic (Json.overflow 18446744073709551615))) := by
    cases item <;> rfl
  obtain ⟨r, hsettled, hrun⟩ := MapHead.exists_run_eq hadapter hiterator (.initial () .null)
    Nat.one_pos ⟨"each", none, .root, none, .replace⟩ "each" [.null] _ hpromised
  refine ⟨⟨_, hadapter⟩, hiterator, ?_⟩
  cases hsettled with
  | ok hlength hall => cases hall 0 (hlength ▸ Nat.one_pos)
  | @error c task fault hitem hc htold =>
    obtain rfl := Except.error.inj hc
    refine ⟨c.toError, hrun, ?_⟩
    unfold Collapse.toError
    rw [htold]
    exact nofun

end Maps

end Conveyor
