import Conveyor.Proofs.Result
import Conveyor.Proofs.Run.Admission
import Conveyor.Proofs.Run.Budgets

/-!
# Runs that take no time

When no call takes time, an activity without forks ends in its first turn, with a state that depends
on the state before alone (`Activity.Turns`). A fork then does its items in order: those that are
admitted take their turns one after another, and when all of them have ended the root takes in as
many as before. So what a map leaves is what its items leave one after another
(`Machine.run_waiting`), whatever its limit is.
-/

namespace Conveyor

/-! ### Activities that end in one turn -/

/-- Begun in the state `st`, an activity ends in one turn with the result `r` and the state
`st'`. -/
def Activity.Turns {σ : Type} (adapter : Adapter σ) (top : Bool) (st : σ)
    (r : Except (Fault StepFailure) Json) (st' : σ) (a : Activity) : Prop :=
  ∀ w : World σ, w.state = st →
    (a.advance adapter top w).1 = .done r ∧ (a.advance adapter top w).2.state = st'

section Turns

variable {σ : Type} {adapter : Adapter σ} {top : Bool} {st st₁ st' : σ}
  {r : Except (Fault StepFailure) Json} {a : Activity}

namespace Activity.Turns

theorem done : (Activity.done r).Turns adapter top st r st :=
  fun _ hw => ⟨rfl, hw⟩

theorem note (ha : a.Turns adapter top st r st') (n : Note) :
    (Activity.note n a).Turns adapter top st r st' :=
  fun w hw => ha (w.note top n) ((World.state_note n w).trans hw)

theorem call {operation : String} {input : Json} {next : Except CallError Json → Activity}
    {answer : Except CallError Json} (hdelay : adapter.delay operation input = 0)
    (hanswer : ∀ count, (adapter.answer (count + 1) operation input st).1.1 = answer ∧
      (adapter.answer (count + 1) operation input st).2 = st₁)
    (hnext : (next answer).Turns adapter top st₁ r st') :
    (Activity.call operation input next).Turns adapter top st r st' := by
  intro w hw
  obtain ⟨hresult, hstate⟩ := hanswer (w.callCount operation)
  have hadvance := hnext
    ((w.beginCall operation input).answer adapter (w.callCount operation + 1) operation input).2
  have hresult' : ((w.beginCall operation input).answer adapter (w.callCount operation + 1)
      operation input).1 = answer := by
    rw [← hresult, ← hw]
    rfl
  unfold advance
  simp only [if_pos hdelay, hresult']
  refine hadvance ?_
  rw [← hstate, ← hw]
  rfl

end Activity.Turns

/-! ### Steps that end in one turn -/

variable {c c' : Json} {next : Except StepError Json → Activity}

theorem PassStep.turns {s : PassStep} (hs : s.apply c = .ok c')
    (hnext : (next (.ok c')).Turns adapter top st r st') (id : String) :
    ((Step.pass s).activity id c next).Turns adapter top st r st' := by
  unfold Step.activity
  rw [hs]
  exact hnext

theorem TaskStep.input_eq {s : TaskStep} {payload : Payload} {value : Json}
    (hparameters : s.parameters = some payload) (h : payload.resolve c = .ok value) :
    s.input c = .ok value := by
  rw [input, hparameters]
  exact Except.mapError_eq_ok.mpr h

theorem TaskStep.finish_eq {s : TaskStep} {output : Json} (hselector : s.resultSelector = none)
    (h : s.resultPath.apply c output = .ok c') : s.finish c output = .ok c' := by
  simp only [finish, hselector]
  exact Except.mapError_eq_ok.mpr h

theorem TaskStep.finish_eq_of_selector {s : TaskStep} {selector : Payload} {output value : Json}
    (hselector : s.resultSelector = some selector) (hvalue : selector.resolve output = .ok value)
    (h : s.resultPath.apply c value = .ok c') : s.finish c output = .ok c' := by
  simp only [finish, hselector, hvalue]
  exact Except.mapError_eq_ok.mpr h

theorem TaskStep.turns {s : TaskStep} {input output : Json} (hinput : s.input c = .ok input)
    (hdelay : adapter.delay s.adapter input = 0)
    (hanswer : ∀ count, (adapter.answer (count + 1) s.adapter input st).1.1 = .ok output ∧
      (adapter.answer (count + 1) s.adapter input st).2 = st₁)
    (hfinish : s.finish c output = .ok c')
    (hnext : (next (.ok c')).Turns adapter top st₁ r st') (id : String) :
    ((Step.task s).activity id c next).Turns adapter top st r st' := by
  unfold Step.activity activity
  rw [hinput]
  dsimp only
  have hgoes :
      (Activity.finishWith (s.finish c) next (.ok output)).Turns adapter top st₁ r st' := by
    rw [Activity.finishWith, hfinish]
    exact hnext
  cases s.attempts - 1 with
  | zero =>
    unfold callActivity
    exact .call hdelay hanswer (.note hgoes _)
  | succ retries =>
    unfold callActivity
    exact .call hdelay hanswer (.note hgoes _)

/-- A pipeline of a step that ends in one turn. -/
theorem pipelineActivity_turns {s : Step} {scope : String} {index : Nat}
    {next : Except StepFailure Json → Activity}
    (hs : ∀ next' : Except StepError Json → Activity,
      (next' (.ok c')).Turns adapter top st₁ r st' →
        (s.activity (scopedId scope s.name) c next').Turns adapter top st r st')
    (hnext : (next (.ok c')).Turns adapter top st₁ r st') :
    (pipelineActivity scope index [s] c next).Turns adapter top st r st' := by
  simp only [pipelineActivity]
  exact .note (.note (.note (hs _ (.note (.note hnext _) _)) _) _) _

/-- A step alone is what the step does between some notes. -/
theorem Step.exists_alone_turns (adapter : Adapter σ) (s : Step) (index : Nat) (c : Json) :
    ∃ (n₁ n₂ n₃ : Note) (id : String) (next : Except StepError Json → Activity),
      s.alone index c = .note n₁ (.note n₂ (.note n₃ (s.activity id c next))) ∧
        ∀ c' st, (next (.ok c')).Turns adapter true st (.ok c') st := by
  unfold Step.alone
  simp only [pipelineActivity]
  exact ⟨_, _, _, _, _, rfl, fun _ _ => .note (.note .done _) _⟩

/-- An item of a map over a step that ends in one turn. -/
theorem branch_turns {s : Step} {x out : Json} (id : String) (item : Nat)
    (hs : ∀ (id : String) (next : Except StepError Json → Activity),
      (next (.ok out)).Turns adapter top st' (.ok out) st' →
        (s.activity id x next).Turns adapter top st (.ok out) st') :
    (Pipeline.branch [s] id item x).Turns adapter top st (.ok out) st' :=
  .note (pipelineActivity_turns (hs _) (.note .done _)) _

end Turns

/-! ### Items one after another -/

/-- The branches for items, each begun in the state that the one before has left, end in one turn
each, and well. -/
inductive Chain {σ : Type} (adapter : Adapter σ) (branch : Nat → Activity) :
    List Nat → σ → σ → Prop
  | nil (st : σ) : Chain adapter branch [] st st
  | cons {item : Nat} {items : List Nat} {st st₁ st' : σ} {out : Json}
      (h : (branch item).Turns adapter false st (.ok out) st₁)
      (hs : Chain adapter branch items st₁ st') : Chain adapter branch (item :: items) st st'

section Chain

variable {σ : Type} {adapter : Adapter σ} {branch : Nat → Activity} {items more : List Nat}
  {st st' : σ}

theorem Chain.of_append (h : Chain adapter branch (items ++ more) st st') :
    ∃ st₁, Chain adapter branch items st st₁ ∧ Chain adapter branch more st₁ st' := by
  induction items generalizing st with
  | nil => exact ⟨st, .nil st, h⟩
  | cons item items ih =>
    cases h with
    | cons hitem hitems =>
      obtain ⟨st₁, hfirst, hrest⟩ := ih hitems
      exact ⟨st₁, .cons hitem hfirst, hrest⟩

/-- When each item leads from one assertion to the next, the items lead from the first assertion to
the last. -/
theorem Chain.exists_range {A : Nat → σ → Prop} {count : Nat} (hst : A 0 st)
    (hitem : ∀ item < count, ∀ st, A item st → ∃ out st', A (item + 1) st' ∧
      (branch item).Turns adapter false st (.ok out) st') :
    ∃ st', A count st' ∧ Chain adapter branch (List.range count) st st' := by
  have hfrom (n start : Nat) (hn : start + n = count) (st : σ) (hst : A start st) :
      ∃ st', A count st' ∧ Chain adapter branch (List.range' start n) st st' := by
    induction n generalizing start st with
    | zero => exact ⟨st, hn ▸ hst, .nil st⟩
    | succ n ih =>
      obtain ⟨out, st₁, hst₁, hturns⟩ := hitem start (by omega) st hst
      obtain ⟨st', hst', hchain⟩ := ih (start + 1) (by omega) st₁ hst₁
      exact ⟨st', hst', .cons hturns hchain⟩
  rw [List.range_eq_range']
  exact hfrom count 0 (Nat.zero_add count) st hst

end Chain

namespace Machine

variable {σ : Type} {adapter : Adapter σ} {deadline : Option Nat} {m : Machine σ} {w w' : World σ}
  {f f' : Fork} {n item index : Nat} {items : List Nat} {out : Json} {st st' : σ} {a : Activity}
  {c c' : Json}

/-- The turn of a task that goes on with an activity. -/
theorem turn_of_activity {id : Nat} {p : Option (Nat × Nat)} {h : Halt}
    (ht : m.tasks.lookup id = some ⟨p, .paused (.activity a), false⟩)
    (hw : a.advance adapter (id = root) m.world = (h, w')) :
    m.turn adapter id = halt id h { m with world := w' } := by
  refine (turn_of_acts ht rfl (.advance (.pause (.activity a)))).trans ?_
  change halt id (a.advance adapter (id = root) m.world).1
    { m with world := (a.advance adapter (id = root) m.world).2 } = _
  rw [hw]

/-! ### A fork and its branches -/

/-- The root waits for the branches for items, which are the only other tasks and ready, in order;
the first of them has the number `n`. -/
def waiting (w : World σ) (f : Fork) (n : Nat) (items : List Nat) (rootReady : Bool) :
    Machine σ where
  world := w
  tasks := (root, ⟨none, .joining f, false⟩) :: branchTasks root f.branch n items
  fresh := n + items.length
  ready := List.range' n items.length
  rootReady
  sleepers := []
  ending := none

theorem lt_of_mem_branchTasks {p : Nat} {branch : Nat → Activity} {e : Nat × Task}
    (he : e ∈ branchTasks p branch n items) : n ≤ e.1 := by
  have hkey : e.1 ∈ (branchTasks p branch n items).map Prod.fst := List.mem_map_of_mem he
  rw [map_fst_branchTasks] at hkey
  exact (List.mem_range'_1.mp hkey).1

theorem modifyTask_root {t : Task} {others : List (Nat × Task)}
    (htasks : m.tasks = (root, t) :: others) (hothers : ∀ e ∈ others, e.1 ≠ root)
    (change : Task → Task) :
    m.modifyTask root change = { m with tasks := (root, change t) :: others } := by
  have hsame : others.map (fun e => (e.1, if e.1 = root then change e.2 else e.2)) = others := by
    refine (List.map_congr_left fun e he => ?_).trans (List.map_id _)
    rw [if_neg (hothers e he), id]
  have hchanged : (m.modifyTask root change).tasks = (root, change t) :: others := by
    rw [modifyTask_tasks, htasks, List.map_cons, if_pos rfl, hsame]
  exact congrArg (fun tasks => { m with tasks }) hchanged

/-- The branch whose turn it is ends well, and the root learns of its result. -/
theorem step_waiting (hn : root < n) {ready : Bool} {w₁ : World σ}
    (hw : (f.branch item).advance adapter false w = (.done (.ok out), w₁)) :
    (waiting w f n (item :: items) ready).step adapter deadline =
      waiting w₁ { f with permits := f.permits + 1, ended := f.ended ++ [(item, .ok out)] } (n + 1)
        items true := by
  have hne : n ≠ root := Nat.ne_of_gt hn
  have hlookup : (waiting w f n (item :: items) ready).tasks.lookup n =
      some ⟨some (root, item), .paused (.activity (f.branch item)), false⟩ := by
    rw [waiting, List.lookup_cons, beq_false_of_ne hne]
    exact List.lookup_cons_self
  have hothers : ∀ e ∈ branchTasks root f.branch (n + 1) items, e.1 ≠ n ∧ e.1 ≠ root :=
    fun e he => ⟨Nat.ne_of_gt (lt_of_mem_branchTasks he),
      Nat.ne_of_gt (hn.trans (lt_of_mem_branchTasks he))⟩
  have hready : (waiting w f n (item :: items) ready).ready =
    n :: List.range' (n + 1) items.length := rfl
  have hadvance : (f.branch item).advance adapter (n = root) w = (.done (.ok out), w₁) := by
    rw [decide_eq_false hne]
    exact hw
  -- the branch is removed from the tasks, and the root has one result more
  have herase : Keyed.erase n (waiting w f n (item :: items) ready).tasks =
      (root, ⟨none, .joining f, false⟩) :: branchTasks root f.branch (n + 1) items := by
    have hkeep : (branchTasks root f.branch (n + 1) items).filter (·.1 ≠ n) =
        branchTasks root f.branch (n + 1) items :=
      List.filter_eq_self.mpr fun e he => by simpa using (hothers e he).1
    rw [Keyed.erase, waiting, List.filter_cons_of_pos (by simpa using hne.symm), branchTasks,
      List.filter_cons_of_neg (by simp), hkeep]
  have hfresh : n + (item :: items).length = n + 1 + items.length := by
    rw [List.length_cons]
    omega
  rw [step_of_ready hready, turn_of_activity (m := { waiting w f n (item :: items) ready with
    ready := List.range' (n + 1) items.length }) hlookup hadvance]
  simp only [halt, finish, if_neg hne, hlookup, Option.bind_some]
  rw [modifyTask_root herase fun e he => (hothers e he).2]
  simp only [removeTask, wake, if_pos, waiting, hfresh, List.filter_nil, Except.mapError]

/-- The results of branches that have ended well, with these outputs. -/
def succeeded (outputs : List (Nat × Json)) : List (Nat × Except (Fault StepFailure) Json) :=
  outputs.map fun e => (e.1, .ok e.2)

/-- The branches that are ready end one after another. -/
theorem run_branches (deadline : Option Nat) {ready : Bool} (hn : root < n)
    (hready : items = [] → ready = true)
    (hitems : Chain adapter f.branch items w.state st') :
    ∃ (w' : World σ) (outputs : List (Nat × Json)), w'.state = st' ∧ w'.now = w.now ∧
      outputs.length = items.length ∧
      (waiting w f n items ready).run adapter deadline =
        (waiting w' { f with
            permits := f.permits + items.length, ended := f.ended ++ succeeded outputs }
          (n + items.length) [] true).run adapter deadline := by
  induction items generalizing w f n ready with
  | nil =>
    cases hitems with
    | nil =>
      refine ⟨w, [], rfl, rfl, rfl, ?_⟩
      rw [hready rfl, succeeded, List.map_nil, List.append_nil]
      rfl
  | cons item items ih =>
    cases hitems with
    | @cons _ _ _ st₁ _ out hitem hitems =>
      obtain ⟨hhalt, hstate⟩ := hitem w rfl
      obtain ⟨w', outputs, hstate', hnow, hlength, hrun⟩ := ih (Nat.lt_succ_of_lt hn) (fun _ => rfl)
        (f := { f with permits := f.permits + 1, ended := f.ended ++ [(item, .ok out)] })
        (w := ((f.branch item).advance adapter false w).2) (hstate.symm ▸ hitems)
      refine ⟨w', (item, out) :: outputs, hstate', hnow.trans (Activity.now_advance _ _ _ _),
        congrArg Nat.succ hlength, ?_⟩
      rw [run_of_step rfl, step_waiting hn (Prod.ext hhalt rfl), hrun]
      simp only [succeeded, List.append_assoc, List.map_cons, List.singleton_append,
        List.length_cons, Nat.add_right_comm _ 1, Nat.add_assoc]

theorem gather_succeeded (outputs : List (Nat × Json)) :
    f.gather (succeeded outputs) = .ok { f with
      branches := f.branches - outputs.length, collected := f.collected ++ outputs,
      ended := [] } := by
  induction outputs generalizing f with
  | nil => simp only [succeeded, List.map_nil, Fork.gather, List.append_nil, List.length_nil,
      Nat.sub_zero]
  | cons e outputs ih =>
    have hcons : succeeded (e :: outputs) = (e.1, .ok e.2) :: succeeded outputs := rfl
    simp only [hcons, Fork.gather, ih, List.append_assoc, List.singleton_append, List.length_cons,
      Nat.sub_sub, Nat.add_comm 1]

/-- The root is the only task, and it has its turn. -/
def lone (w : World σ) (n : Nat) (s : TaskState) : Machine σ where
  world := w
  tasks := [(root, ⟨none, s, false⟩)]
  fresh := n
  ready := []
  rootReady := false
  sleepers := []
  ending := none

theorem takeIn_lone {s : TaskState} :
    (lone w n s).takeIn root f = waiting w f.filled n f.nextItems false := by
  rw [takeIn_eq, setState, modifyTask_root rfl (by simp)]
  simp only [lone, waiting, List.nil_append, List.cons_append]
  rfl

/-- The root takes in further items when all branches have ended. -/
theorem step_refill (hf : f.gather f.ended = .ok f') (hover : ¬ f'.Over) :
    (waiting w f n [] true).step adapter none = waiting w f'.filled n f'.nextItems false := by
  rw [step_of_rootReady rfl rfl, rootTurn_none, rootPart_of_ready rfl]
  change (lone w n (.joining f)).turn adapter root = _
  rw [turn_of_acts (m := lone w n (.joining f)) (List.lookup_cons_self) rfl (.refill hf hover)]
  exact takeIn_lone

/-- The root ends when the last branches have ended. -/
theorem step_complete (hf : f.gather f.ended = .ok f') (hover : f'.Over)
    (hw : (f.next (.ok f'.outputs)).advance adapter true w = (.done (.ok c), w')) :
    (waiting w f n [] true).step adapter none = resting w' n c := by
  rw [step_of_rootReady rfl rfl, rootTurn_none, rootPart_of_ready rfl]
  change (lone w n (.joining f)).turn adapter root = _
  rw [turn_of_acts (m := lone w n (.joining f)) (List.lookup_cons_self) rfl
    (.advance (.complete hf hover))]
  change halt root ((f.next (.ok f'.outputs)).advance adapter true w).1
    { lone w n (.joining f) with
      world := ((f.next (.ok f'.outputs)).advance adapter true w).2 } = _
  rw [hw]
  rfl

/-- What a fork that has permits and pending items takes in: at least one item, and the rest is left
for later. -/
theorem range'_pending (hpermits : 0 < f.permits) (hlt : f.admitted < f.count) :
    0 < f.room ∧ f.admitted + f.room ≤ f.count ∧
      List.range' f.admitted (f.count - f.admitted) =
        f.nextItems ++ List.range' f.filled.admitted (f.count - f.filled.admitted) := by
  have hpos : 0 < f.room := by unfold Fork.room; omega
  have hle : f.admitted + f.room ≤ f.count := by unfold Fork.room; omega
  refine ⟨hpos, hle, ?_⟩
  rw [Fork.nextItems, Fork.filled, List.range'_append_1]
  congr 1
  dsimp only
  omega

/-- The root waits until all items have ended, one after another, and then ends itself. -/
theorem run_waiting {Q : Json → Prop} (hn : root < n) (hpermits : 0 < f.permits)
    (hended : f.ended = []) (hbranches : f.branches = 0) (hlt : f.admitted < f.count)
    (hitems : Chain adapter f.branch (List.range' f.admitted (f.count - f.admitted)) w.state st')
    (hnext : ∀ outputs, ∃ c, Q c ∧ (f.next (.ok outputs)).Turns adapter true st' (.ok c) st') :
    ∃ w' n' c, w'.state = st' ∧ w'.now = w.now ∧ root < n' ∧ Q c ∧
      (waiting w f.filled n f.nextItems false).run adapter none = resting w' n' c := by
  -- induction on the number of items that have not been taken in
  induction hk : f.count - f.admitted using Nat.strong_induction_on generalizing w f n with
  | _ k ih =>
    obtain ⟨hroom, hle, hsplit⟩ := range'_pending hpermits hlt
    have hround : f.nextItems.length = f.room := List.length_range'
    rw [hsplit] at hitems
    obtain ⟨st₁, hfirst, hrest⟩ := hitems.of_append
    have hnonempty : f.nextItems = [] → false = true := by
      intro hnil
      rw [hnil, List.length_nil] at hround
      exact absurd hround hroom.ne
    -- the items of this round end, and the root learns of it
    obtain ⟨w₁, outputs, hstate, hnow, hlength, hrun⟩ :=
      run_branches (f := f.filled) none hn hnonempty hfirst
    obtain ⟨f', hf'⟩ : ∃ f', f' = { f.filled with
        permits := f.filled.permits + f.nextItems.length,
        branches := f.filled.branches - outputs.length,
        collected := f.filled.collected ++ outputs, ended := [] } := ⟨_, rfl⟩
    have hgather : Fork.gather { f.filled with
          permits := f.filled.permits + f.nextItems.length,
          ended := f.filled.ended ++ succeeded outputs }
        (f.filled.ended ++ succeeded outputs) = .ok f' := by
      have hnil : f.filled.ended = [] := hended
      rw [hnil, List.nil_append, hf']
      exact gather_succeeded outputs
    -- all permits are free again, and no branch is left
    have hpermits' : f'.permits = f.permits := by
      rw [hf', hround]
      exact Nat.sub_add_cancel (Nat.min_le_left _ _)
    have hbranches' : f'.branches = 0 := by
      rw [hf']
      change f.branches + f.room - outputs.length = 0
      omega
    have hadmitted : f'.admitted = f.admitted + f.room := by rw [hf']; rfl
    have hcount : f'.count = f.count := by rw [hf']; rfl
    have hn' : root < n + f.nextItems.length := hn.trans_le (Nat.le_add_right _ _)
    rw [hrun, run_of_step rfl]
    by_cases hover : f'.Over
    · -- these were the last items
      obtain ⟨c, hc, hturns⟩ := hnext _
      have hlast : st₁ = st' := by
        have hzero : f.count - f.filled.admitted = 0 := by
          have := hover.1
          rw [hcount, hadmitted] at this
          exact Nat.sub_eq_zero_of_le this
        rw [hzero] at hrest
        cases hrest
        rfl
      obtain ⟨hhalt, hstate'⟩ := hturns w₁ (hstate.trans hlast)
      refine ⟨_, _, c, hstate', (Activity.now_advance _ _ _ _).trans hnow, hn', hc, ?_⟩
      rw [step_complete hgather hover (Prod.ext hhalt rfl)]
      exact run_of_ending (Option.some_ne_none _)
    · -- the next round begins in the state that this one has left
      have hlt' : f'.admitted < f'.count :=
        Nat.lt_of_not_le fun hle => hover ⟨hle, hbranches'⟩
      have hless : f'.count - f'.admitted < k := by omega
      have hrest' : Chain adapter f'.branch
          (List.range' f'.admitted (f'.count - f'.admitted)) w₁.state st' := by
        rw [hstate, hf']
        exact hrest
      have hnext' : ∀ outputs, ∃ c, Q c ∧
          (f'.next (.ok outputs)).Turns adapter true st' (.ok c) st' := by
        rw [hf']
        exact hnext
      rw [step_refill hgather hover]
      obtain ⟨w', n', c, hstate', hnow', hn'', hc, hrun'⟩ := ih _ hless hn'
        (hpermits' ▸ hpermits) (by rw [hf']) hbranches' hlt' hrest' hnext' rfl
      exact ⟨w', n', c, hstate', hnow'.trans hnow, hn'', hc, hrun'⟩

/-! ### Steps -/

/-- The steps so far have left this context and this state, and have taken no time. -/
structure Arrived (context : Json) (st : σ) (m : Machine σ) : Prop where
  rest : AtRest context m
  state : m.world.state = st
  now : m.world.now = 0

theorem arrived_untouched : Arrived c st (Engine.untouched st c) :=
  ⟨Engine.atRest_untouched st c, rfl, rfl⟩

theorem Arrived.runFrom_nil (h : Arrived c st m) :
    Arrived c st (m.runFrom adapter none index []) := by
  rw [Machine.runFrom_nil h.rest]
  exact h

theorem Arrived.runFrom_cons {s : Step} {steps : List Step} (h : Arrived c st m)
    (hsteps : Arrived c' st' ((m.runStep adapter none index s).runFrom adapter none (index + 1)
      steps)) :
    Arrived c' st' (m.runFrom adapter none index (s :: steps)) := by
  rw [Machine.runFrom_cons h.rest]
  exact hsteps

/-- A step that ends in one turn. -/
theorem Arrived.runStep {s : Step} (h : Arrived c st m)
    (ht : (s.alone index c).Turns adapter true st (.ok c') st') :
    Arrived c' st' (m.runStep adapter none index s) := by
  obtain ⟨hhalt, hstate⟩ := ht m.world h.state
  have hrun : m.runStep adapter none index s =
      resting ((s.alone index c).advance adapter true m.world).2 m.fresh c' := by
    unfold Machine.runStep
    rw [thenRun_of_ok h.rest.ending, run_of_step rfl, step_of_rootReady rfl rfl, rootTurn_none,
      rootPart_beginning, hhalt]
    exact run_of_ending (Option.some_ne_none _)
  rw [hrun]
  exact ⟨⟨rfl, h.rest.2⟩, hstate, (Activity.now_advance _ _ _ _).trans h.now⟩

theorem Arrived.pass {s : PassStep} (h : Arrived c st m) (hs : s.apply c = .ok c') :
    Arrived c' st (m.runStep adapter none index (.pass s)) := by
  obtain ⟨n₁, n₂, n₃, id, next, halone, hnext⟩ :=
    (Step.pass s).exists_alone_turns adapter index c
  refine h.runStep ?_
  rw [halone]
  exact .note (.note (.note (PassStep.turns hs (hnext c' st) id) _) _) _

theorem Arrived.task {s : TaskStep} {input output : Json} (h : Arrived c st m)
    (hinput : s.input c = .ok input) (hdelay : adapter.delay s.adapter input = 0)
    (hanswer : ∀ count, (adapter.answer (count + 1) s.adapter input st).1.1 = .ok output ∧
      (adapter.answer (count + 1) s.adapter input st).2 = st')
    (hfinish : s.finish c output = .ok c') :
    Arrived c' st' (m.runStep adapter none index (.task s)) := by
  obtain ⟨n₁, n₂, n₃, id, next, halone, hnext⟩ :=
    (Step.task s).exists_alone_turns adapter index c
  refine h.runStep ?_
  rw [halone]
  exact .note (.note (.note
    (TaskStep.turns hinput hdelay hanswer hfinish (hnext c' st') id) _) _) _

/-- A step that begins a fork waits for its branches. -/
theorem runStep_of_forked {s : Step} {w₀ : World σ} (hrest : AtRest c m)
    (hadvance : (s.alone index c).advance adapter true m.world = (.forked f, w₀)) :
    m.runStep adapter none index s =
      (waiting w₀ f.filled m.fresh f.nextItems false).run adapter none := by
  unfold runStep
  rw [thenRun_of_ok hrest.ending, run_of_step rfl, step_of_rootReady rfl rfl, rootTurn_none,
    rootPart_beginning, hadvance]
  exact congrArg (run adapter none) (takeIn_lone (w := w₀) (n := m.fresh))

/-- A step whose first turn ends at a fork of which every branch ends in one turn. -/
theorem Arrived.fork {Q : Json → Prop} {s : Step} {count limit : Nat} {branch : Nat → Activity}
    {next : Except Collapse (List Json) → Activity} (h : Arrived c st m)
    (hhalt : ((s.alone index c).advance adapter true m.world).1 =
      .forked (.ofBranches count limit branch next))
    (hstate : ((s.alone index c).advance adapter true m.world).2.state = m.world.state)
    (hcount : 0 < count) (hlimit : 0 < limit)
    (hitems : Chain adapter branch (List.range count) st st')
    (hnext : ∀ outputs, ∃ c', Q c' ∧ (next (.ok outputs)).Turns adapter true st' (.ok c') st') :
    ∃ c', Q c' ∧ Arrived c' st' (m.runStep adapter none index s) := by
  have hnow := Activity.now_advance adapter true (s.alone index c) m.world
  rw [← h.state, ← hstate, List.range_eq_range'] at hitems
  obtain ⟨w', n', c', hstate', hnow', hn', hc', hrun⟩ := run_waiting (Q := Q)
    (f := .ofBranches count limit branch next) h.rest.2 hlimit rfl rfl hcount hitems hnext
  refine ⟨c', hc', ?_⟩
  rw [runStep_of_forked h.rest (Prod.ext hhalt rfl), hrun]
  exact ⟨⟨rfl, hn'⟩, hstate', (hnow'.trans hnow).trans h.now⟩

/-- A map whose items end in one turn each. -/
theorem Arrived.map {Q : Json → Prop} {R : σ → Prop} {head : MapHead} {iterator : Pipeline}
    {xs : List Json} (h : Arrived c st m) (hxs : head.items c = .ok xs)
    (hitems : ∀ id, ∃ st', R st' ∧ Chain adapter
      (fun item => iterator.branch id item (xs.getD item .null)) (List.range xs.length) st st')
    (hfinish : ∀ outputs, ∃ c', Q c' ∧ head.finish c outputs = .ok c') :
    ∃ c' st', Q c' ∧ R st' ∧
      Arrived c' st' (m.runStep adapter none index (.map head iterator)) := by
  obtain ⟨n₁, n₂, n₃, id, next, halone, hnext⟩ :=
    (Step.map head iterator).exists_alone_turns adapter index c
  obtain ⟨st', hR, hchain⟩ := hitems id
  -- what follows the outputs of the items ends in one turn
  have hlast : ∀ outputs, ∃ c', Q c' ∧
      (Activity.finishWith (head.finish c) next (.ok outputs)).Turns adapter true st' (.ok c')
        st' := by
    intro outputs
    obtain ⟨c', hc', hok⟩ := hfinish outputs
    refine ⟨c', hc', ?_⟩
    rw [Activity.finishWith, hok]
    exact hnext c' st'
  simp only [Step.activity, MapHead.activity, hxs] at halone
  by_cases hcount : xs.length = 0
  · -- without items there is no fork
    obtain rfl : xs = [] := List.length_eq_zero_iff.mp hcount
    cases hchain with
    | nil =>
      obtain ⟨c', hc', hturns⟩ := hlast []
      refine ⟨c', st, hc', hR, h.runStep ?_⟩
      rw [halone, MapHead.fanOut, if_pos hcount]
      exact .note (.note (.note (.note hturns _) _) _) _
  · rw [MapHead.fanOut_eq hcount] at halone
    -- nothing but notes comes before the fork
    obtain ⟨n₄, hadvance⟩ : ∃ n₄, ((Step.map head iterator).alone index c).advance adapter true
        m.world = (.forked (.ofBranches xs.length (head.limit xs.length)
            (fun item => iterator.branch id item (xs.getD item .null))
            (MapHead.afterBranches id (.finishWith (head.finish c) next))),
          (((m.world.note true n₁).note true n₂).note true n₃).note true n₄) := by
      rw [halone]
      exact ⟨_, if_neg hcount⟩
    obtain ⟨c', hc', harrived⟩ := h.fork (Q := Q) (congrArg Prod.fst hadvance) (by
      rw [hadvance]
      exact ((World.state_note _ _).trans (World.state_note _ _)).trans
        ((World.state_note _ _).trans (World.state_note _ _)))
      (Nat.pos_of_ne_zero hcount) (head.limit_pos xs.length) hchain hlast
    exact ⟨c', st', hc', hR, harrived⟩

end Machine

/-- A run that takes no time is completed within every budget. -/
theorem Engine.execute_of_arrived {σ : Type} {e : Engine σ} {w : Workflow} {context c : Json}
    {state st : σ} (h : Machine.Arrived c st (stepsRun e.adapter none w.steps context state))
    (hbudget : e.budgetFor w ≠ some 0) :
    ∃ report m, e.execute w context state = some (.ok report, m) ∧
      report.outcome = .completed c ∧ m.world.state = st := by
  have hrun : stepsRun e.adapter (e.budgetFor w) w.steps context state =
      stepsRun e.adapter none w.steps context state := by
    cases hlimit : e.budgetFor w with
    | none => rfl
    | some limit =>
      rcases stepsRun_deadline e.adapter limit w.steps context state with ⟨heq, -⟩ | hcut
      · exact heq
      · -- what happens at the deadline or later would happen at the time zero
        obtain ⟨w₀, -, hlater, hw₀⟩ := hcut.later
        have hzero : limit = 0 := Nat.le_zero.mp ((hlater.trans hw₀.now_le).trans h.now.le)
        exact absurd (hlimit.trans (congrArg some hzero)) hbudget
  obtain ⟨report, m, hexec, houtcome, hsame⟩ := e.execute_of_atRest w hrun h.rest
  have hstate : m.world.state = _ := congrArg (·.world.state) hsame
  exact ⟨report, m, hexec, houtcome, hstate.trans h.state⟩

end Conveyor
