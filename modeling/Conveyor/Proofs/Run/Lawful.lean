import Conveyor.Proofs.Run.Sound

/-!
# Lawful activities

An activity is lawful if each of its forks has items and room for them, satisfies a given condition,
and fails at once when a branch fails or panics. What a pipeline does is lawful; what is left of a
lawful activity is lawful; so the forks of all tasks of a run satisfy the condition.
-/

namespace Conveyor

/-- An activity that does nothing but fail. -/
def Activity.Abrupt : Activity → Prop
  | .done (.error (.error _)) => True
  | .note _ next => next.Abrupt
  | _ => False

section Lawful

variable (P : Nat → Nat → (Nat → Activity) → Prop)

/-- All forks of an activity, and of the branches of its forks, have items and room for them,
satisfy `P`, and fail with a branch that fails or panics. -/
def Activity.Lawful : Activity → Prop
  | .done _ => True
  | .note _ next => next.Lawful
  | .call _ _ next => ∀ answer, (next answer).Lawful
  | .pause _ next => next.Lawful
  | .fork count limit branch next =>
    (0 < count ∧ 0 < limit ∧ P count limit branch) ∧ (∀ item, (branch item).Lawful) ∧
      (∀ outputs, (next (.ok outputs)).Lawful) ∧ ∀ collapse, (next (.error collapse)).Abrupt

/-- What is left to do after a pause is lawful. -/
def Resumption.Lawful : Resumption → Prop
  | .activity a => a.Lawful P
  | .answer _ _ _ next => ∀ answer, (next answer).Lawful P

/-- A fork is lawful if its activity is. -/
def Fork.Lawful (f : Fork) : Prop :=
  (Activity.fork f.count f.limit f.branch f.next).Lawful P

/-- What is left to do of a task is lawful. -/
def TaskState.Lawful : TaskState → Prop
  | .paused r => r.Lawful P
  | .joining f => f.Lawful P

/-- What is left to do after a turn is lawful. -/
def Halt.Lawful : Halt → Prop
  | .done _ => True
  | .asleep ms r => 0 < ms ∧ r.Lawful P
  | .forked f => f.Lawful P

/-- What is left to do of every task is lawful. -/
def Machine.Lawful {σ : Type} (m : Machine σ) : Prop :=
  ∀ k t, m.tasks.lookup k = some t → t.state.Lawful P

end Lawful

variable {P : Nat → Nat → (Nat → Activity) → Prop} {σ : Type} {adapter : Adapter σ} {top : Bool}
  {m : Machine σ} {id : Nat}

theorem Activity.Abrupt.lawful {a : Activity} (h : a.Abrupt) : a.Lawful P := by
  induction a with
  | done result => trivial
  | note n next ih => exact ih h
  | _ => exact h.elim

/-- An abrupt activity fails in one turn. -/
theorem Activity.Abrupt.fails {a : Activity} (h : a.Abrupt) (w : World σ) :
    ∃ failure, (a.advance adapter top w).1 = .done (.error (.error failure)) := by
  induction a generalizing w with
  | done result =>
    rcases result with (failure | p) | context
    · exact ⟨failure, rfl⟩
    · exact h.elim
    · exact h.elim
  | note n next ih => exact ih h (w.note top n)
  | _ => exact h.elim

theorem Activity.Abrupt.advance {a : Activity} (h : a.Abrupt) (w : World σ) :
    ∃ fault, (a.advance adapter top w).1 = .done (.error fault) := by
  obtain ⟨failure, hfails⟩ : ∃ failure, (a.advance adapter top w).1 =
    .done (.error (.error failure)) := h.fails w
  exact ⟨_, hfails⟩

theorem Activity.Lawful.advance {a : Activity} (ha : a.Lawful P) (w : World σ) :
    (a.advance adapter top w).1.Lawful P := by
  induction a generalizing w with
  | done result => trivial
  | note n next ih => exact ih ha _
  | pause ms next ih =>
    unfold Activity.advance
    split
    · exact ih ha w
    · exact ⟨Nat.pos_of_ne_zero ‹_›, ha⟩
  | call operation input next ih =>
    unfold Activity.advance
    dsimp only
    split
    · exact ih _ (ha _) _
    · exact ⟨Nat.pos_of_ne_zero ‹_›, ha⟩
  | fork count limit branch next _ ih =>
    unfold Activity.advance
    rw [if_neg ha.1.1.ne']
    exact ha

theorem Resumption.Lawful.start {r : Resumption} (hr : r.Lawful P) (w : World σ) :
    (r.start adapter w).1.Lawful P := by
  cases r with
  | activity a => exact hr
  | answer number operation input next => exact hr _

theorem Fork.Lawful.next {f : Fork} (hf : f.Lawful P) (outputs : Except Collapse (List Json)) :
    (f.next outputs).Lawful P := by
  cases outputs with
  | error collapse => exact (hf.2.2.2 collapse).lawful
  | ok outputs => exact hf.2.2.1 outputs

/-! ### Looking at the branches that have ended -/

/-- If none of the branches has failed or panicked, their results are collected. -/
theorem Fork.of_gather_eq_ok {f f' : Fork} {ended : List (Nat × Except (Fault StepFailure) Json)}
    (h : f.gather ended = .ok f') :
    ∃ outputs : List (Nat × Json), ended = outputs.map (fun e => (e.1, .ok e.2)) ∧
      f' = { f with
        branches := f.branches - outputs.length, collected := f.collected ++ outputs,
        ended := [] } := by
  induction ended generalizing f with
  | nil =>
    obtain rfl := Except.ok.inj h
    exact ⟨[], rfl, by simp⟩
  | cons e ended ih =>
    obtain ⟨item, result⟩ := e
    cases result with
    | error fault => cases h
    | ok output =>
      obtain ⟨outputs, rfl, rfl⟩ := ih h
      refine ⟨(item, output) :: outputs, rfl, ?_⟩
      simp only [List.append_assoc, List.singleton_append, List.length_cons, Nat.sub_sub,
        Nat.add_comm]

/-- If the results are collected, none of the branches has failed or panicked. -/
theorem Fork.notMem_error_of_gather {f f' : Fork}
    {ended : List (Nat × Except (Fault StepFailure) Json)} {item : Nat} {fault : Fault StepFailure}
    (h : f.gather ended = .ok f') : (item, .error fault) ∉ ended := by
  intro hfailed
  obtain ⟨outputs, rfl, -⟩ := Fork.of_gather_eq_ok h
  obtain ⟨e, -, he⟩ := List.mem_map.mp hfailed
  cases he

/-- A fork collapses with one of the branches that have failed or panicked. -/
theorem Fork.of_gather_eq_error {f : Fork} {ended : List (Nat × Except (Fault StepFailure) Json)}
    {c : Collapse} (h : f.gather ended = .error c) : (c.item, .error c.fault) ∈ ended := by
  induction ended generalizing f with
  | nil => cases h
  | cons e ended ih =>
    obtain ⟨item, result⟩ := e
    cases result with
    | error fault =>
      obtain rfl := Except.error.inj h
      exact List.mem_cons_self
    | ok output => exact List.mem_cons_of_mem _ (ih h)

theorem Fork.Lawful.gather {f f' : Fork} {ended : List (Nat × Except (Fault StepFailure) Json)}
    (hf : f.Lawful P) (h : f.gather ended = .ok f') : f'.Lawful P := by
  obtain ⟨outputs, -, rfl⟩ := Fork.of_gather_eq_ok h
  exact hf

namespace Machine

/-! ### What becomes of the other tasks -/

namespace Lawful

theorem detach (hm : m.Lawful P) : (m.detach id).Lawful P := by
  intro k t ht
  rw [lookup_detach, Option.map_eq_some_iff] at ht
  obtain ⟨t₀, ht₀, rfl⟩ := ht
  rw [detached_state]
  exact hm k t₀ ht₀

theorem drop (hm : m.Lawful P) (hn : (m.tasks.map Prod.fst).Nodup) : (m.drop id).Lawful P := by
  intro k t ht
  obtain ⟨-, t₀, ht₀, rfl⟩ := of_lookup_drop hn ht
  rw [abandoned_state]
  exact hm k t₀ ht₀

theorem setState {state : TaskState} (hm : m.Lawful P) (hs : state.Lawful P) :
    (m.setState id state).Lawful P := by
  intro k t ht
  rw [lookup_setState] at ht
  split at ht
  · obtain ⟨t₀, -, rfl⟩ := Option.map_eq_some_iff.mp ht
    exact hs
  · exact hm k t ht

theorem finish {t : Task} {result : Except (Fault StepFailure) Json} (hm : m.Lawful P)
    (ht : m.tasks.lookup id = some t) (hroot : id = root → t.parent = none) :
    (m.finish id result).Lawful P := by
  intro k t' ht'
  obtain ⟨-, t₀, ht₀, rfl⟩ := of_lookup_finish ht hroot ht'
  have h₀ := hm k t₀ ht₀
  cases hs : t₀.state with
  | paused r => rwa [informed_state_of_paused hs, ← hs]
  | joining f =>
    rw [hs] at h₀
    rw [informed_state_of_joining hs]
    exact h₀

theorem takeIn {f : Fork} (hm : m.Lawful P) (hf : f.Lawful P) :
    (m.takeIn id f).Lawful P := by
  intro k t ht
  have hset : (m.setState id (.joining f.filled)).Lawful P := hm.setState hf
  rcases of_lookup_takeIn ht with ht | ⟨-, item, -, rfl⟩
  · exact hset k t ht
  · exact hf.2.1 item

theorem halt {t : Task} {h : Halt} (hm : m.Lawful P) (hh : h.Lawful P)
    (ht : m.tasks.lookup id = some t) (hroot : id = root → t.parent = none) :
    (m.halt id h).Lawful P := by
  cases h with
  | done result => exact hm.finish ht hroot
  | asleep ms r => exact hm.setState hh.2
  | forked f => exact hm.takeIn hh

end Lawful

end Machine

end Conveyor
