import Conveyor.Proofs.Run.FanOut
import Conveyor.Proofs.Run.Stepwise

/-!
# What activities without forks do

With an adapter that answers by operation, input and state alone, an activity without forks makes
certain calls, one after another, and comes to a certain result and state, however long its calls
take (`Activity.Evaluates`). A pipeline without maps does so from every state
(`exists_branch_evaluates`), and its run alone ends accordingly (`Machine.run_of_evaluates`).

Two states may look the same to an activity. If its calls are answered alike on them and leave
states that look the same again (`Simulates`), it makes the same calls from both and comes to the
same result. In this way one turn of a task is compared with what the activity does by itself
(`Activity.Evaluates.advance`).
-/

namespace Conveyor

/-- How calls are answered on a state, with the state that they leave. -/
abbrev Answering (σ : Type) := String → Json → σ → Except CallError Json × σ

/-- The adapter answers by operation, input and state alone. -/
def Adapter.Performs {σ : Type} (adapter : Adapter σ) (act : Answering σ) : Prop :=
  ∀ number operation input state,
    (adapter.answer number operation input state).1.1 = (act operation input state).1 ∧
      (adapter.answer number operation input state).2 = (act operation input state).2

/-- The calls so far, without their times. -/
def World.made {σ : Type} (w : World σ) : List (String × Json) :=
  w.calls.map fun r => (r.operation, r.input)

/-! ### Evaluation -/

section Evaluates

variable {σ : Type} (act : Answering σ)

/-- From a state an activity makes calls, one after another, and comes to a result and a state. -/
inductive Activity.Evaluates :
    Activity → σ → List (String × Json) → Except (Fault StepFailure) Json → σ → Prop
  | done (r : Except (Fault StepFailure) Json) (st : σ) : Evaluates (.done r) st [] r st
  | note {n : Note} {next : Activity} {st st' : σ} {calls : List (String × Json)}
    {r : Except (Fault StepFailure) Json} (h : Evaluates next st calls r st') :
    Evaluates (.note n next) st calls r st'
  | pause {ms : Nat} {next : Activity} {st st' : σ} {calls : List (String × Json)}
    {r : Except (Fault StepFailure) Json} (h : Evaluates next st calls r st') :
    Evaluates (.pause ms next) st calls r st'
  | call {operation : String} {input : Json} {next : Except CallError Json → Activity}
    {st st' : σ} {calls : List (String × Json)} {r : Except (Fault StepFailure) Json}
    (h : Evaluates (next (act operation input st).1) (act operation input st).2 calls r st') :
    Evaluates (.call operation input next) st ((operation, input) :: calls) r st'

/-- What is left to do after a pause; a call that is not yet answered is one of `known`, and has
been made. -/
def Resumption.Evaluates (known : List (String × Json)) :
    Resumption → σ → List (String × Json) → Except (Fault StepFailure) Json → σ → Prop
  | .activity a, st, calls, r, st' => a.Evaluates act st calls r st'
  | .answer _ operation input next, st, calls, r, st' => (operation, input) ∈ known ∧
    (next (act operation input st).1).Evaluates act (act operation input st).2 calls r st'

/-- What is left to do after a turn. -/
def Halt.Evaluates (known : List (String × Json)) :
    Halt → σ → List (String × Json) → Except (Fault StepFailure) Json → σ → Prop
  | .done result, st, calls, r, st' => result = r ∧ calls = [] ∧ st = st'
  | .asleep _ resumption, st, calls, r, st' => resumption.Evaluates act known st calls r st'
  | .forked _, _, _, _, _ => False

/-- States that look the same in the sense of `T` are answered alike when one of these calls is
made, and look the same afterwards. -/
def Simulates (T : σ → σ → Prop) (calls : List (String × Json)) : Prop :=
  ∀ c ∈ calls, ∀ st st', T st st' → (act c.1 c.2 st).1 = (act c.1 c.2 st').1 ∧
    T (act c.1 c.2 st).2 (act c.1 c.2 st').2

variable {act} {adapter : Adapter σ} {T : σ → σ → Prop} {known calls : List (String × Json)}
  {r : Except (Fault StepFailure) Json}

theorem simulates_eq : Simulates act Eq calls := by
  rintro c - st _ rfl
  exact ⟨rfl, rfl⟩

/-- From a state that looks the same an activity comes to the same result. -/
theorem Activity.Evaluates.simulate {a : Activity} {st st' final : σ}
    (ha : a.Evaluates act st calls r final) (hcalls : calls ⊆ known)
    (hT : Simulates act T known) (h : T st' st) :
    ∃ final', a.Evaluates act st' calls r final' ∧ T final' final := by
  -- the calls that are left become fewer, but all of them stay known
  induction ha generalizing st' with
  | done r st => exact ⟨st', .done r st', h⟩
  | note _ ih =>
    obtain ⟨final', ha, hfinal⟩ := ih hcalls h
    exact ⟨final', .note ha, hfinal⟩
  | pause _ ih =>
    obtain ⟨final', ha, hfinal⟩ := ih hcalls h
    exact ⟨final', .pause ha, hfinal⟩
  | call _ ih =>
    obtain ⟨hhead, hcalls⟩ := List.cons_subset.mp hcalls
    obtain ⟨hanswer, hstate⟩ := hT _ hhead _ _ h
    obtain ⟨final', ha, hfinal⟩ := ih hcalls hstate
    exact ⟨final', .call (hanswer ▸ ha), hfinal⟩

theorem World.answer_of_performs (hadapter : adapter.Performs act) (number : Nat)
    (operation : String) (input : Json) (w : World σ) :
    (w.answer adapter number operation input).1 = (act operation input w.state).1 ∧
      (w.answer adapter number operation input).2.state = (act operation input w.state).2 :=
  hadapter number operation input w.state

theorem World.made_note (top : Bool) (n : Note) (w : World σ) : (w.note top n).made = w.made := by
  cases n with
  | reached index context => unfold note; dsimp only; split <;> rfl
  | _ => rfl

theorem World.made_beginCall (operation : String) (input : Json) (w : World σ) :
    (w.beginCall operation input).made = w.made ++ [(operation, input)] := by
  simp [made, beginCall]

/-- **One turn of an activity without forks**, on a state that looks the same as the one from which
it evaluates. What it does by itself gets further by the calls that are made in the turn. -/
theorem Activity.Evaluates.advance (hadapter : adapter.Performs act) {top : Bool} {a : Activity}
    {st final : σ} (ha : a.Evaluates act st calls r final) (hcalls : calls ⊆ known)
    (hT : Simulates act T known) (w : World σ) (h : T w.state st) :
    ∃ st' calls', (a.advance adapter top w).1.Evaluates act known st' calls' r final ∧
      T (a.advance adapter top w).2.state st' ∧ calls' ⊆ known ∧
      (a.advance adapter top w).2.made ++ calls' = w.made ++ calls := by
  induction ha generalizing w with
  | done r st => exact ⟨st, [], ⟨rfl, rfl, rfl⟩, h, List.nil_subset _, rfl⟩
  | @note n _ _ _ _ _ _ ih =>
    have hnote : T (w.note top n).state _ := (World.state_note n w).symm ▸ h
    rw [← World.made_note top n w]
    exact ih hcalls _ hnote
  | pause hnext ih =>
    unfold Activity.advance
    split
    · exact ih hcalls w h
    · exact ⟨_, _, hnext, h, hcalls, rfl⟩
  | @call operation input next st _ calls _ hnext ih =>
    obtain ⟨hhead, hcalls⟩ := List.cons_subset.mp hcalls
    have hmade : w.made ++ (operation, input) :: calls =
        (w.beginCall operation input).made ++ calls := by
      rw [World.made_beginCall, List.append_assoc, List.singleton_append]
    unfold Activity.advance
    dsimp only
    rw [hmade]
    split
    · obtain ⟨hresult, hstate⟩ := World.answer_of_performs hadapter (w.callCount operation + 1)
        operation input (w.beginCall operation input)
      obtain ⟨hanswer, hT'⟩ := hT _ hhead w.state st h
      rw [hresult.trans hanswer]
      exact ih hcalls _ (hstate ▸ hT')
    · exact ⟨st, calls, ⟨hhead, hnext⟩, h, hcalls, rfl⟩

/-- One turn of a task after a pause. -/
theorem Resumption.Evaluates.advance (hadapter : adapter.Performs act) {top : Bool}
    {resumption : Resumption} {st final : σ}
    (hr : resumption.Evaluates act known st calls r final) (hcalls : calls ⊆ known)
    (hT : Simulates act T known) (w : World σ) (h : T w.state st) :
    ∃ st' calls', ((resumption.start adapter w).1.advance adapter top
        (resumption.start adapter w).2).1.Evaluates act known st' calls' r final ∧
      T ((resumption.start adapter w).1.advance adapter top
        (resumption.start adapter w).2).2.state st' ∧ calls' ⊆ known ∧
      ((resumption.start adapter w).1.advance adapter top
        (resumption.start adapter w).2).2.made ++ calls' = w.made ++ calls := by
  cases resumption with
  | activity a => exact Activity.Evaluates.advance hadapter hr hcalls hT w h
  | answer number operation input next =>
    obtain ⟨hknown, hnext⟩ := hr
    obtain ⟨hresult, hstate⟩ := World.answer_of_performs hadapter number operation input w
    obtain ⟨hanswer, hT'⟩ := hT _ hknown w.state st h
    rw [← hanswer, ← hresult] at hnext
    exact hnext.advance hadapter hcalls hT (w.answer adapter number operation input).2
      (hstate ▸ hT')

/-! ### Pipelines without maps -/

/-- From a state a part of a pipeline makes calls and passes a result on, whatever follows, unless
it panics. -/
def Passes {ε α : Type} (act : Answering σ) (part : (Except ε α → Activity) → Activity) (st : σ)
    (calls : List (String × Json)) (r : Except (Fault ε) α) (st' : σ) : Prop :=
  ∀ next later v final, (Activity.onward next r).Evaluates act st' later v final →
    (part next).Evaluates act st (calls ++ later) v final

theorem TaskStep.exists_callActivity_passes (act : Answering σ) (s : TaskStep) (input : Json)
    (retries attempt : Nat) (st : σ) : ∃ calls, ∃ r : Except StepError Json, ∃ st', Passes act
      (fun next => s.callActivity input next retries attempt) st calls (r.mapError .error) st' := by
  induction retries generalizing attempt st with
  | zero =>
    cases hanswer : (act s.adapter input st).1 with
    | ok output =>
      refine ⟨[(s.adapter, input)], .ok output, (act s.adapter input st).2,
        fun next later v final h => ?_⟩
      unfold callActivity
      exact .call (hanswer ▸ .note h)
    | error e =>
      refine ⟨[(s.adapter, input)], .error (.call s.adapter e), (act s.adapter input st).2,
        fun next later v final h => ?_⟩
      unfold callActivity
      exact .call (hanswer ▸ h)
  | succ retries ih =>
    cases hanswer : (act s.adapter input st).1 with
    | ok output =>
      refine ⟨[(s.adapter, input)], .ok output, (act s.adapter input st).2,
        fun next later v final h => ?_⟩
      unfold callActivity
      exact .call (hanswer ▸ .note h)
    | error e =>
      obtain ⟨calls, r, st', hpasses⟩ := ih (attempt + 1) (act s.adapter input st).2
      refine ⟨(s.adapter, input) :: calls, r, st', fun next later v final h => ?_⟩
      unfold callActivity
      exact .call (hanswer ▸ .note (.pause (hpasses next later v final h)))

theorem Step.exists_activity_passes (act : Answering σ) {s : Step} (hs : s.Maps fun _ _ => False)
    (context : Json) (st : σ) : ∃ calls r st', ∀ id,
      Passes act (s.activity id context) st calls r st' := by
  cases s with
  | pass s =>
    refine ⟨[], s.apply context, st, fun id next later v final h => ?_⟩
    rwa [Step.activity]
  | map head iterator => exact hs.1.elim
  | task s =>
    cases hinput : s.input context with
    | error e =>
      refine ⟨[], .error (.error e), st, fun id next later v final h => ?_⟩
      simp only [Step.activity, TaskStep.activity, hinput]
      exact h
    | ok input =>
      obtain ⟨calls, r, st', hpasses⟩ :=
        s.exists_callActivity_passes act input (s.attempts - 1) 1 st
      cases r with
      | error e =>
        refine ⟨calls, .error (.error e), st', fun id next later v final h => ?_⟩
        simp only [Step.activity, TaskStep.activity, hinput]
        exact hpasses _ later v final h
      | ok output =>
        refine ⟨calls, s.finish context output, st', fun id next later v final h => ?_⟩
        simp only [Step.activity, TaskStep.activity, hinput]
        exact hpasses _ later v final h

/-- A pipeline without maps passes on what depends on the context and the state alone. -/
theorem exists_pipelineActivity_passes (act : Answering σ) {steps : Pipeline}
    (hsteps : steps.MapFree) (index : Nat) (context : Json) (st : σ) : ∃ calls r st', ∀ scope,
      Passes act (pipelineActivity scope index steps context) st calls r st' := by
  induction steps generalizing index context st with
  | nil =>
    refine ⟨[], .ok context, st, fun scope next later v final h => ?_⟩
    rwa [pipelineActivity]
  | cons s steps ih =>
    obtain ⟨calls, r, st₁, hstep⟩ := Step.exists_activity_passes act hsteps.1 context st
    rcases r with (e | p) | context'
    · refine ⟨calls, .error (.error ⟨index, s.name, e⟩), st₁, fun scope next later v final h => ?_⟩
      simp only [pipelineActivity]
      exact .note (.note (.note (hstep _ _ later v final (.note (.note h)))))
    · refine ⟨calls, .error (.panic p), st₁, fun scope next later v final h => ?_⟩
      simp only [pipelineActivity]
      exact .note (.note (.note (hstep _ _ later v final h)))
    · obtain ⟨calls', r, st', hsteps⟩ := ih hsteps.2 (index + 1) context' st₁
      refine ⟨calls ++ calls', r, st', fun scope next later v final h => ?_⟩
      simp only [pipelineActivity]
      rw [List.append_assoc]
      exact .note (.note (.note (hstep _ _ (calls' ++ later) v final
        (.note (.note (hsteps scope next later v final h))))))

/-- A pipeline that makes a single call with its context, which succeeds. -/
theorem evaluates_singleton (act : Answering σ) (name operation : String) {x output : Json} {st : σ}
    (h : (act operation x st).1 = .ok output) :
    (Pipeline.activity "" [.task ⟨name, none, operation, none, none, .replace, none⟩] x).Evaluates
      act st [(operation, x)] (.ok output) (act operation x st).2 := by
  unfold Pipeline.activity pipelineActivity Step.activity TaskStep.activity
  simp only [TaskStep.input, TaskStep.attempts, Option.map_none, Option.getD_none, Nat.sub_self]
  unfold TaskStep.callActivity pipelineActivity
  refine .note (.note (.note (.call ?_)))
  rw [h]
  exact .note (.note (.note (.done _ _)))

/-- The branch of an item does what the pipeline does alone. -/
theorem exists_branch_evaluates (act : Answering σ) {iterator : Pipeline}
    (hiterator : iterator.MapFree) (x : Json) (st : σ) : ∃ calls r st',
      (iterator.activity "" x).Evaluates act st calls r st' ∧
      ∀ id item, (iterator.branch id item x).Evaluates act st calls r st' := by
  obtain ⟨calls, r, st', hpasses⟩ := exists_pipelineActivity_passes act hiterator 0 x st
  refine ⟨calls, r, st', ?_, fun id item => ?_⟩
  · rw [← List.append_nil calls]
    refine hpasses "" .ended [] r st' ?_
    rcases r with (failure | p) | context <;> exact .done _ st'
  · simp only [Pipeline.branch, branchActivity, Activity.mark]
    rw [← List.append_nil calls]
    refine .note (hpasses _ _ [] r st' ?_)
    rcases r with (failure | p) | context
    · exact .note (.done _ st')
    · exact .done _ st'
    · exact .note (.done _ st')

/-! ### Runs alone -/

namespace Machine

variable {P : Nat → Nat → (Nat → Activity) → Prop} {m m₀ m₁ : Machine σ} {id : Nat} {t : Task}
  {h : Halt} {st final : σ}

/-- One turn of a task without forks. -/
theorem Acting.evaluates (ha : Acting P adapter m id m₀ t h m₁) (hadapter : adapter.Performs act)
    {resumption : Resumption} (hs : t.state = .paused resumption)
    (hr : resumption.Evaluates act known st calls r final) (hcalls : calls ⊆ known)
    (hT : Simulates act T known) (hstate : T m₀.world.state st) :
    ∃ st' calls', h.Evaluates act known st' calls' r final ∧
      T (m₁.halt id h).world.state st' ∧ calls' ⊆ known ∧
      (m₁.halt id h).world.made ++ calls' = m₀.world.made ++ calls := by
  rw [ha.halt_world]
  have hacts := ha.acts
  rw [hs] at hacts
  cases hacts with
  | advance hresumes =>
    cases hresumes with
    | pause => exact hr.advance hadapter hcalls hT m₀.world hstate

/-- The root is the only task. It has some of the calls left to make, those that are missing from
`made`, and comes to `r`. -/
structure Evaluating (act : Answering σ) (calls made : List (String × Json))
    (r : Except (Fault StepFailure) Json) (final : σ) (m : Machine σ) : Prop where
  only : ∀ k t, m.tasks.lookup k = some t → k = root
  root : ∀ t, m.tasks.lookup root = some t → ∃ resumption later, t.state = .paused resumption ∧
    resumption.Evaluates act calls m.world.state later r final ∧ later ⊆ calls ∧
    m.world.made ++ later = made
  ending : ∀ e, m.ending = some e →
    e = .finished r ∧ m.world.state = final ∧ m.world.made = made

theorem Evaluating.of_tasks {m' : Machine σ} {made : List (String × Json)}
    (hm : Evaluating act calls made r final m) (htasks : m'.tasks = m.tasks)
    (hending : m'.ending = m.ending) (hstate : m'.world.state = m.world.state)
    (hmade : m'.world.made = m.world.made) : Evaluating act calls made r final m' := by
  refine ⟨htasks ▸ hm.only, fun t ht => ?_, fun e he => ?_⟩
  · rw [hstate, hmade]
    exact hm.root t (htasks ▸ ht)
  · rw [hstate, hmade]
    exact hm.ending e (hending ▸ he)

theorem Evaluating.turn {made : List (String × Json)} (hadapter : adapter.Performs act)
    (hproper : Proper P m) (htakes : Takes m id m₀) (hm : Evaluating act calls made r final m) :
    Evaluating act calls made r final (m₀.turn adapter id) := by
  have hending := htakes.ending
  have hm₀ := hm.of_tasks htakes.tasks hending (congrArg World.state htakes.world)
    (congrArg World.made htakes.world)
  refine hproper.turn_cases htakes (fun _ => hm₀) (fun t ht hc hsound => ?_) fun t h m₁ ha => ?_
  · -- the root is not cancelled
    obtain rfl := hm₀.only id t ht
    exact absurd (((hsound.root t ht).2 _ t ht).symm.trans hc) Bool.false_ne_true
  · obtain rfl := hm₀.only id t ha.lookup
    obtain ⟨resumption, later, hs, hr, hlater, hmade⟩ := hm₀.root t ha.lookup
    obtain ⟨st', later', hh, rfl, hlater', hmade'⟩ :=
      ha.evaluates hadapter hs hr hlater simulates_eq rfl
    refine ⟨fun k t' ht' => ?_, fun t' ht' => ?_, fun e he => ?_⟩
    · cases ha.after ht' with
      | other hne ht₀ => exact hm₀.only k _ ht₀
      | self hk => exact hk
      | new _ hforked => exact (hforked ▸ hh).elim
    · cases ha.after ht' with
      | other hne => exact absurd rfl hne
      | new hk => exact absurd ha.sound.root_lt_fresh (Nat.not_lt.mpr hk)
      | self _ _ _ state =>
        cases h with
        | done result => cases state
        | forked f => exact hh.elim
        | asleep ms resumption' =>
          exact ⟨resumption', later', (Option.some.inj state).symm, hh, hlater',
            hmade'.trans hmade⟩
    · rcases ha.ending with ⟨result, rfl, -, hfinished⟩ | ⟨hsame, -⟩
      · obtain ⟨rfl, rfl, hfinal⟩ := hh
        rw [List.append_nil] at hmade'
        exact ⟨Option.some.inj (he.symm.trans hfinished), hfinal, hmade'.trans hmade⟩
      · have hrunning := ha.sound.ending.mpr (Option.isSome_of_eq_some ha.lookup)
        rw [hsame, ← hending, hrunning] at he
        cases he

/-- An activity without forks makes the calls that it makes by itself, and ends with what it comes
to. -/
theorem run_of_evaluates (hadapter : adapter.Performs act) {w : World σ} {fresh : Nat}
    (hfresh : Machine.root < fresh) {a : Activity} (hlawful : a.Lawful P)
    (ha : a.Evaluates act w.state calls r final) :
    ((beginning w fresh a).run adapter none).ending = some (.finished r) ∧
      ((beginning w fresh a).run adapter none).world.state = final ∧
      ((beginning w fresh a).run adapter none).world.made = w.made ++ calls := by
  have hproper : Proper P (beginning w fresh a) := .beginning hfresh hlawful
  have hevaluating : Evaluating act calls (w.made ++ calls) r final
      ((beginning w fresh a).run adapter none) := by
    refine hproper.run_preserves (fun m hm _ h => ?_) ⟨fun k t ht => ?_, fun t ht => ?_, nofun⟩
    · refine hm.step_preserves (fun m id m₀ hm ht h => h.turn hadapter hm ht)
        (fun m time _ _ h => ?_) (fun m _ _ hd => absurd hd (by simp)) h
      exact h.of_tasks wakeAt_tasks wakeAt_ending (by rw [wakeAt_world])
        (by rw [wakeAt_world]; rfl)
    · rw [lookup_beginning, Option.ite_none_right_eq_some] at ht
      exact ht.1
    · rw [lookup_beginning, if_pos rfl] at ht
      obtain rfl := Option.some.inj ht
      exact ⟨.activity a, calls, rfl, ha, List.Subset.refl _, rfl⟩
  obtain ⟨e, he⟩ := Option.ne_none_iff_exists'.mp (hproper.run_ending adapter none)
  obtain ⟨rfl, hfinal, hmade⟩ := hevaluating.ending e he
  exact ⟨he, hfinal, hmade⟩

end Machine

end Evaluates

end Conveyor
