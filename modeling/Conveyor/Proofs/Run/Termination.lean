import Conveyor.Proofs.Run.Proper
import Mathlib.Algebra.BigOperators.Group.Multiset.Basic
import Mathlib.Logic.Hydra
import Mathlib.Tactic.Abel

/-!
# Every run ends

The load of a machine is what is left to do, as a multiset: of each task what it goes on with, of
each fork what follows it, the branches that are not begun, and the results that are not looked at.
A turn replaces what a task goes on with by finitely many parts of it, as in the game of the hydra
(`Relation.CutExpand`), or leaves the load as it is and shortens the list of tasks that are ready;
the clock only moves when it wakes a sleeper. So no run goes on for ever, and because in a sound
machine a task is ready or asleep as long as there is one, a run only stops when its root has ended.
-/

namespace Conveyor

open Relation

namespace Activity

/-- The least activity. -/
def void : Activity :=
  .done (.ok .null)

/-- What a node of an activity is followed by, or has as a branch; `void` is part of every other
activity. -/
inductive Part : Activity → Activity → Prop
  | void {a} (h : a ≠ void) : Part void a
  | note (n next) : Part next (.note n next)
  | call (operation input next answer) : Part (next answer) (.call operation input next)
  | pause (ms next) : Part next (.pause ms next)
  | branch (count limit branch next item) : Part (branch item) (.fork count limit branch next)
  | next (count limit branch next outputs) : Part (next outputs) (.fork count limit branch next)

theorem wellFounded_part : WellFounded Part := by
  have hvoid : Acc Part void := ⟨_, fun _ h => by
    generalize hv : void = a at h
    cases h with
    | void hne => exact absurd hv.symm hne
    | _ => cases hv⟩
  refine ⟨fun a => ?_⟩
  induction a with
  | done result => exact ⟨_, fun _ h => by cases h; exact hvoid⟩
  | note n next ih => exact ⟨_, fun _ h => by cases h <;> assumption⟩
  | call operation input next ih =>
    refine ⟨_, fun _ h => ?_⟩
    cases h with
    | void => exact hvoid
    | call => exact ih _
  | pause ms next ih => exact ⟨_, fun _ h => by cases h <;> assumption⟩
  | fork count limit branch next ihb ihn =>
    refine ⟨_, fun _ h => ?_⟩
    cases h with
    | void => exact hvoid
    | branch => exact ihb _
    | next => exact ihn _

end Activity

/-- An activity that is left to do; with zero for one of which the first node is done. -/
abbrev Load := Activity × Nat

/-- A load is lighter than another one if it is a part of it, or more of it is done. -/
def Lighter : Load → Load → Prop :=
  Prod.Lex (TransGen Activity.Part) (· < ·)

namespace Lighter

theorem wellFounded : WellFounded Lighter :=
  Activity.wellFounded_part.transGen.prod_lex wellFounded_lt

theorem of_part {a b : Activity} {i j : Nat} (h : Activity.Part a b) : Lighter (a, i) (b, j) :=
  .left i j (.single h)

theorem of_lt {a : Activity} {i j : Nat} (h : i < j) : Lighter (a, i) (a, j) :=
  .right a h

theorem void (a : Activity) : Lighter (.void, 0) (a, 1) := by
  by_cases h : a = .void
  · exact h ▸ of_lt Nat.one_pos
  · exact of_part (.void h)

theorem trans {x y z : Load} (hxy : Lighter x y) (hyz : Lighter y z) : Lighter x z := by
  rcases hxy with ⟨i, j, h⟩ | ⟨a, h⟩ <;> rcases hyz with ⟨j', k, h'⟩ | ⟨b, h'⟩
  · exact .left _ _ (h.trans h')
  · exact .left _ _ h
  · exact .left _ _ h'
  · exact .right _ (h.trans h')

end Lighter

/-! ### Loads of tasks -/

namespace Fork

/-- What follows a fork, and the branches that are not begun. -/
def load (f : Fork) : Multiset Load :=
  (Activity.fork f.count f.limit f.branch f.next, 0) ::ₘ
    (((List.range f.count).drop f.admitted).map fun item => ((f.branch item, 1) : Load) : List Load)

end Fork

namespace TaskState

/-- What is left to do of a task, with the results that it has not looked at. -/
def load : TaskState → Multiset Load
  | .paused (.activity a) => {(a, 1)}
  | .paused (.answer _ operation input next) => {(.call operation input next, 0)}
  | .joining f => f.load + (f.ended.map fun _ => ((.void, 0) : Load) : List Load)

theorem load_ne_zero (s : TaskState) : s.load ≠ 0 := by
  rcases s with (a | _) | f <;> simp [load, Fork.load]

end TaskState

/-- What is left to do of a task that has halted. -/
def Halt.load : Halt → Multiset Load
  | .done _ => {(.void, 0)}
  | .asleep _ r => (TaskState.paused r).load
  | .forked f => (TaskState.joining f).load

theorem Activity.lighter_of_advance {σ : Type} {adapter : Adapter σ} {top : Bool} (a : Activity)
    (w : World σ) : ∀ x ∈ (a.advance adapter top w).1.load, Lighter x (a, 1) := by
  induction a generalizing w with
  | done result => simpa [advance, Halt.load] using Lighter.void _
  | note n next ih => exact fun x hx => (ih _ x hx).trans (.of_part (.note n next))
  | pause ms next ih =>
    unfold advance
    split
    · exact fun x hx => (ih _ x hx).trans (.of_part (.pause ms next))
    · simpa [Halt.load, TaskState.load] using Lighter.of_part (.pause ms next)
  | call operation input next ih =>
    unfold advance
    dsimp only
    split
    · exact fun x hx => (ih _ _ x hx).trans (.of_part (.call operation input next _))
    · simpa [Halt.load, TaskState.load] using Lighter.of_lt Nat.one_pos
  | fork count limit branch next ihb ihn =>
    unfold advance
    split
    · exact fun x hx => (ihn _ _ x hx).trans (.of_part (.next count limit branch next _))
    · intro x hx
      simp only [Halt.load, TaskState.load, Fork.load, Fork.ofBranches, List.drop_zero,
        List.map_nil, Multiset.coe_nil, add_zero, Multiset.mem_cons, Multiset.mem_coe,
        List.mem_map] at hx
      rcases hx with rfl | ⟨item, -, rfl⟩
      · exact .of_lt Nat.one_pos
      · exact .of_part (.branch count limit branch next item)

/-! ### Loads of machines -/

/-- A load is reduced in some moves of the hydra game. -/
abbrev Reduces : Multiset Load → Multiset Load → Prop :=
  ReflTransGen (CutExpand Lighter)

theorem Reduces.remove (s t : Multiset Load) : Reduces s (t + s) := by
  induction t using Multiset.induction with
  | empty => rw [zero_add]
  | cons x t ih =>
    rw [Multiset.cons_add, ← Multiset.singleton_add]
    refine ih.tail ?_
    simpa using (cutExpand_add_right (t + s)).mpr (cutExpand_zero (r := Lighter) (x := x))

/-- A load is reduced in at least one move. -/
abbrev Falls : Multiset Load → Multiset Load → Prop :=
  TransGen (CutExpand Lighter)

theorem Falls.remove (s : Multiset Load) {t : Multiset Load} (ht : t ≠ 0) : Falls s (t + s) := by
  obtain ⟨x, hx⟩ := Multiset.exists_mem_of_ne_zero ht
  obtain ⟨t, rfl⟩ := Multiset.exists_cons_of_mem hx
  rw [Multiset.cons_add, ← Multiset.singleton_add]
  refine TransGen.tail' (Reduces.remove s t) ?_
  simpa using (cutExpand_add_right (t + s)).mpr (cutExpand_zero (r := Lighter) (x := x))

/-- A load is replaced by parts of one of its members. -/
theorem Falls.of_mem {s s' : Multiset Load} {x : Load} (hx : x ∈ s)
    (h : ∀ y ∈ s', Lighter y x) : Falls s' s := by
  obtain ⟨t, rfl⟩ := Multiset.exists_cons_of_mem hx
  rw [← Multiset.singleton_add, add_comm]
  refine TransGen.tail' (Reduces.remove s' t) ?_
  exact (cutExpand_add_left t).mpr (cutExpand_singleton h)

theorem Falls.add_right {s s' : Multiset Load} (h : Falls s' s) (t : Multiset Load) :
    Falls (s' + t) (s + t) :=
  h.lift (· + t) fun _ _ => (cutExpand_add_right t).mpr

namespace Machine

variable {P : Nat → Nat → (Nat → Activity) → Prop} {σ : Type} {adapter : Adapter σ}
  {deadline : Option Nat} {m m₀ m₁ : Machine σ} {id : Nat} {t : Task}

/-- What is left to do of all tasks. -/
def load (m : Machine σ) : Multiset Load :=
  (m.tasks.map fun e => e.2.state.load).sum

theorem load_removeTask (hn : (m.tasks.map Prod.fst).Nodup) (ht : m.tasks.lookup id = some t) :
    m.load = t.state.load + (m.removeTask id).load := by
  obtain ⟨l₁, l₂, htasks, herase⟩ := Keyed.erase_of_lookup hn ht
  rw [load, load, removeTask, herase, htasks]
  simp only [List.map_append, List.map_cons, List.sum_append, List.sum_cons]
  exact add_left_comm _ _ _

theorem load_modifyTask {change : Task → Task} (h : ∀ t, (change t).state = t.state) :
    (m.modifyTask id change).load = m.load := by
  rw [load, modifyTask, List.map_map]
  refine congrArg List.sum (List.map_congr_left fun e _ => ?_)
  dsimp only [Function.comp_apply]
  split
  · rw [h]
  · rfl

theorem removeTask_modifyTask (change : Task → Task) :
    ((m.modifyTask id change).removeTask id).tasks = (m.removeTask id).tasks := by
  have hkeys : ((fun e : Nat × Task => decide (e.1 ≠ id)) ∘ fun e : Nat × Task =>
      if e.1 = id then (e.1, change e.2) else (e.1, e.2)) = fun e => decide (e.1 ≠ id) :=
    funext fun e => by dsimp only [Function.comp_apply]; split <;> rfl
  simp only [removeTask, modifyTask, Keyed.erase, List.filter_map, hkeys]
  refine (List.map_congr_left fun e he => ?_).trans (List.map_id' _)
  exact if_neg (by simpa using (List.mem_filter.mp he).2)

theorem load_setState (hn : (m.tasks.map Prod.fst).Nodup) (ht : m.tasks.lookup id = some t)
    (s : TaskState) : (m.setState id s).load = s.load + (m.removeTask id).load := by
  have hset : (m.setState id s).tasks.lookup id = some { t with state := s } := by
    rw [lookup_setState, if_pos rfl, ht, Option.map_some]
  rw [load_removeTask (by rwa [setState, map_fst_modifyTask]) hset]
  exact congrArg (s.load + ·) (congrArg (fun l => (l.map fun e => e.2.state.load).sum)
    (removeTask_modifyTask _))

/-- The result of a branch is left to be looked at, if anything waits for it. -/
theorem load_receive (hn : (m.tasks.map Prod.fst).Nodup) (item : Nat)
    (result : Except (Fault StepFailure) Json) :
    Reduces (m.modifyTask id (receive item result)).load ({(.void, 0)} + m.load) := by
  have hsame : (∀ t, m.tasks.lookup id = some t → receive item result t = t) →
      (m.modifyTask id (receive item result)).load = m.load := by
    intro h
    refine congrArg List.sum ?_
    rw [modifyTask, List.map_map]
    refine List.map_congr_left fun e he => ?_
    dsimp only [Function.comp_apply]
    split
    · rw [h e.2 (‹e.1 = id› ▸ Keyed.lookup_of_mem hn he)]
    · rfl
  cases ht : m.tasks.lookup id with
  | none => rw [hsame fun t h => by simp [ht] at h]; exact .remove _ _
  | some t =>
    cases hs : t.state with
    | paused r =>
      rw [hsame fun t' ht' => ?_]
      · exact .remove _ _
      · obtain rfl := Option.some.inj (ht.symm.trans ht')
        simp only [receive, hs]
    | joining f =>
      have hchange : (m.modifyTask id (receive item result)).tasks.lookup id =
          some { t with state := .joining { f with
            permits := f.permits + 1, ended := f.ended ++ [(item, result)] } } := by
        rw [lookup_modifyTask, if_pos rfl, ht, Option.map_some]
        simp only [receive, hs]
      rw [load_removeTask (by rwa [map_fst_modifyTask]) hchange, load_removeTask hn ht, hs]
      have hrest : ((m.modifyTask id (receive item result)).removeTask id).load =
          (m.removeTask id).load :=
        congrArg (fun l => (l.map fun e => e.2.state.load).sum) (removeTask_modifyTask _)
      have hload : (TaskState.joining { f with
          permits := f.permits + 1, ended := f.ended ++ [(item, result)] }).load =
          {(.void, 0)} + (TaskState.joining f).load := by
        simp only [TaskState.load, List.map_append, ← Multiset.coe_add, List.map_cons,
          List.map_nil, Multiset.coe_singleton]
        rw [← add_assoc]
        exact add_comm _ _
      rw [hrest, hload, add_assoc]

theorem load_finish (hn : (m.tasks.map Prod.fst).Nodup) (ht : m.tasks.lookup id = some t)
    (hroot : id = root → t.parent = none) (result : Except (Fault StepFailure) Json) :
    Reduces (m.finish id result).load ({(.void, 0)} + (m.removeTask id).load) := by
  rcases finish_cases (r := result) ht hroot with ⟨-, h | ⟨-, h⟩⟩ | ⟨p, item, -, h⟩
  · rw [h]; exact .remove _ _
  · rw [h]; exact .remove _ _
  · rw [h, load, wake_tasks]
    exact load_receive (nodup_removeTask hn) item _

theorem load_detach : (m.detach id).load = m.load := by
  rw [load, detach_tasks, List.map_map]
  exact congrArg List.sum (List.map_congr_left fun e _ => congrArg TaskState.load detached_state)

theorem load_drop : (m.drop id).load = (m.removeTask id).load := by
  have hcancel : ∀ (ids : List Nat) (m : Machine σ), (ids.foldl cancel m).load = m.load := by
    intro ids
    induction ids with
    | nil => exact fun _ => rfl
    | cons j ids ih =>
      intro m
      rw [List.foldl_cons, ih, load, cancel_tasks]
      exact load_modifyTask fun _ => rfl
  exact hcancel _ _

/-- A branch that is begun is the same load as before. -/
theorem load_takeIn {f : Fork} (hn : (m.tasks.map Prod.fst).Nodup)
    (ht : m.tasks.lookup id = some t) (hle : f.admitted ≤ f.count) :
    (m.takeIn id f).load = (TaskState.joining f).load + (m.removeTask id).load := by
  have hbegun : ∀ (items : List Nat) (n : Nat),
      ((branchTasks id f.branch n items).map fun e => e.2.state.load).sum =
        (items.map fun item => ((f.branch item, 1) : Load) : List Load) := by
    intro items
    induction items with
    | nil => exact fun _ => rfl
    | cons item items ih =>
      intro n
      rw [branchTasks, List.map_cons, List.sum_cons, ih, List.map_cons, ← Multiset.cons_coe,
        ← Multiset.singleton_add]
      rfl
  have hpending : (List.range f.count).drop f.admitted =
      f.nextItems ++ (List.range f.count).drop f.filled.admitted := by
    have hroom := f.room_le
    have happend := @List.range'_append_1 f.admitted f.room (f.count - f.filled.admitted)
    rw [← Fork.nextItems, ← Fork.filled_admitted] at happend
    rw [List.range_eq_range', List.drop_range', List.drop_range', Nat.zero_add, Nat.zero_add,
      Nat.mul_one, Nat.mul_one, happend]
    congr 1
    rw [Fork.filled_admitted]
    omega
  rw [load, takeIn_tasks, List.map_append, List.sum_append, hbegun]
  refine (congrArg (· + _) (load_setState hn ht _)).trans ?_
  simp only [TaskState.load, Fork.load, hpending, List.map_append, ← Multiset.coe_add,
    ← Multiset.singleton_add]
  simp only [Fork.filled]
  abel

theorem load_halt {h : Halt} (hm : Sound (some id) m) (ht : m.tasks.lookup id = some t)
    (hfits : m.Fits id h) : Reduces (m.halt id h).load (h.load + (m.removeTask id).load) := by
  have hn := hm.keys_nodup
  cases h with
  | done result => exact load_finish hn ht (fun hid => (hm.root t (hid ▸ ht)).1) result
  | asleep ms r => exact (load_setState hn ht (.paused r)) ▸ .refl
  | forked f => exact (load_takeIn hn ht hfits.admitted_le) ▸ .refl

/-! ### Turns -/

theorem Takes.load (h : Takes m id m₀) : m₀.load = m.load := by
  rw [Machine.load, Machine.load, h.tasks]

namespace Resumes

variable {s : TaskState} {a : Activity}

theorem load (hr : Resumes adapter id m s a m₁) : m₁.load = m.load := by
  cases hr with
  | collapse hf => exact load_detach
  | _ => rfl

/-- What a task goes on with is a part of what was left to do of it. -/
theorem exists_mem_load (hr : Resumes adapter id m s a m₁) :
    ∃ x ∈ s.load, ∀ y, Lighter y (a, 1) → Lighter y x := by
  cases hr with
  | pause r =>
    cases r with
    | activity a => exact ⟨(a, 1), Multiset.mem_singleton_self _, fun _ h => h⟩
    | answer number operation input next =>
      exact ⟨_, Multiset.mem_singleton_self _, fun _ h => h.trans (.of_part (.call _ _ next _))⟩
  | @collapse f c hf =>
    exact ⟨_, Multiset.mem_add.mpr (.inl (Multiset.mem_cons_self _ _)),
      fun _ h => h.trans (.of_part (.next _ _ f.branch f.next _))⟩
  | @complete f f' hf hover =>
    obtain ⟨outputs, -, rfl⟩ := Fork.of_gather_eq_ok hf
    exact ⟨_, Multiset.mem_add.mpr (.inl (Multiset.mem_cons_self _ _)),
      fun _ h => h.trans (.of_part (.next _ _ f.branch f.next _))⟩

end Resumes

/-- A turn reduces the load, or it is the one of a fork of which no branch has ended. -/
theorem Acting.load {h : Halt} (ha : Acting P adapter m id m₀ t h m₁) :
    Falls (m₁.halt id h).load m.load ∨
      (m₁.halt id h).load = m.load ∧ (m₁.halt id h).sleepers = m₀.sleepers ∧
        (m₁.halt id h).ready = m₀.ready ∧ (m₁.halt id h).rootReady = m₀.rootReady := by
  have hhalt := load_halt ha.sound_acted ha.lookup_acted ha.fits
  have hload : m₁.load = m.load := by
    rw [← ha.takes.load]
    have hacts := ha.acts
    generalize t.state = s at hacts
    cases hacts with
    | advance hr => exact hr.load
    | refill hf hover => rfl
  rw [← hload, load_removeTask ha.sound_acted.keys_nodup ha.lookup_acted]
  have hacts := ha.acts
  have hjoining := ha.joining
  generalize hs : t.state = s at hacts hjoining
  cases hacts with
  | advance hr =>
    obtain ⟨x, hx, hle⟩ := hr.exists_mem_load
    refine .inl (TransGen.trans_right hhalt (Falls.add_right (Falls.of_mem hx fun y hy => ?_) _))
    exact hle y (Activity.lighter_of_advance _ _ y hy)
  | @refill f f' hf hover =>
    obtain ⟨outputs, hended, rfl⟩ := Fork.of_gather_eq_ok hf
    have hsplit : (TaskState.joining f).load =
        (f.ended.map fun _ => ((.void, 0) : Load) : List Load) + (Halt.forked { f with
          branches := f.branches - outputs.length, collected := f.collected ++ outputs,
          ended := [] }).load := by
      simp only [Halt.load, TaskState.load, List.map_nil, Multiset.coe_nil, add_zero]
      exact add_comm _ _
    by_cases hnil : f.ended = []
    · obtain rfl : outputs = [] := by simpa [hnil] using hended.symm
      have hf : ({ f with
          branches := f.branches - 0
          collected := f.collected ++ []
          ended := [] } : Fork) = f := by
        rw [List.append_nil, ← hnil, Nat.sub_zero]
      have hacc := hjoining f rfl
      have hfull : f.nextItems = [] :=
        List.length_eq_zero_iff.mp (f.length_nextItems.trans (hacc.room_eq_zero hnil))
      rw [List.length_nil, hf]
      refine .inr ⟨load_takeIn ha.sound.keys_nodup ha.lookup hacc.admitted_le,
        takeIn_sleepers, ?_, takeIn_rootReady⟩
      rw [halt, takeIn_ready, hfull, List.length_nil, List.range'_zero, List.append_nil]
    · refine .inl (TransGen.trans_right hhalt (Falls.add_right ?_ _))
      rw [hsplit]
      exact Falls.remove _ (by simpa using hnil)

/-! ### Steps -/

/-- A machine is nearer to its end if it has less to do, or as much and fewer sleepers, or as many
and fewer tasks that are ready. -/
def Nearer (m' m : Machine σ) : Prop :=
  Prod.Lex Falls (Prod.Lex (· < ·) (· < ·))
    (m'.load, m'.sleepers.length, m'.ready.length + m'.rootReady.toNat)
    (m.load, m.sleepers.length, m.ready.length + m.rootReady.toNat)

theorem Nearer.wellFounded : WellFounded (@Nearer σ) :=
  InvImage.wf _ (Lighter.wellFounded.cutExpand.transGen.prod_lex
    (wellFounded_lt.prod_lex wellFounded_lt))

theorem Nearer.trans (h : Nearer m₁ m₀) (h' : Nearer m₀ m) : Nearer m₁ m :=
  trans_of (Prod.Lex Falls (Prod.Lex (· < ·) (· < ·))) h h'

private theorem nearer_of_takes (h : Takes m id m₀) (hload : m₁.load = m.load)
    (hsleepers : m₁.sleepers = m₀.sleepers) (hready : m₁.ready = m₀.ready)
    (hroot : m₁.rootReady = m₀.rootReady) : Nearer m₁ m := by
  unfold Nearer
  rw [hload, hsleepers, hready, hroot]
  refine .right _ ?_
  cases h with
  | branch h => exact .right _ (by simp [h])
  | root h => exact .right _ (by simp [h])

theorem Proper.nearer_turn (hm : Proper P m) (h : Takes m id m₀) :
    Nearer (m₀.turn adapter id) m := by
  refine hm.turn_cases (Q := (Nearer · m)) h (fun _ => ?_) (fun t ht hc hsound => ?_)
    fun t halt m₁ ha => ?_
  · exact nearer_of_takes h h.load rfl rfl rfl
  · refine .left _ _ ?_
    rw [load_drop, ← h.load, load_removeTask hsound.keys_nodup ht]
    exact Falls.remove _ t.state.load_ne_zero
  · rcases ha.load with hfalls | ⟨hload, hsleepers, hready, hroot⟩
    · exact .left _ _ hfalls
    · exact nearer_of_takes h hload hsleepers hready hroot

theorem nearer_wakeAt {time : Nat} (h : time ∈ m.sleepers.map Prod.fst) :
    Nearer (m.wakeAt time) m := by
  unfold Nearer
  rw [load, load, wakeAt_tasks]
  refine .right _ (.left _ _ ?_)
  rw [wakeAt_sleepers]
  obtain ⟨s, hs, rfl⟩ := List.mem_map.mp h
  exact List.length_filter_lt_length_iff_exists.mpr ⟨s, hs, by simp⟩

/-! ### Progress -/

/-- A fork that waits has branches in work, or one has ended and the task of the fork is ready. -/
theorem Accounts.itemsOf_ne_nil {k : Nat} {f : Fork} (hf : m.Accounts k f) (hended : f.ended = []) :
    m.itemsOf k ≠ [] := by
  intro hnil
  have hlength := hf.accounts.length_eq
  have hadmitted := hf.admitted
  have hunfinished := hf.unfinished
  have hlimit := hf.limit
  simp only [hnil, hended, List.map_nil, List.append_nil, List.nil_append, List.length_map,
    List.length_range] at hlength
  omega

/-- As long as there is a task, a task is ready or asleep. -/
theorem Sound.exists_awake_or_asleep (hm : Sound none m) (h : m.tasks ≠ []) :
    (∃ k t, m.tasks.lookup k = some t ∧ m.Awake k) ∨ m.sleepers ≠ [] := by
  by_contra hnone
  obtain ⟨hawake, hsleepers⟩ := not_or.mp hnone
  rw [not_not] at hsleepers
  simp only [not_exists, not_and] at hawake
  -- each task waits for a branch, whose number is greater
  have hbranch : ∀ k t, m.tasks.lookup k = some t →
      ∃ k' t', m.tasks.lookup k' = some t' ∧ k < k' := by
    intro k t ht
    cases hs : t.state with
    | paused r =>
      rcases (hm.paused k t r ht hs nofun).1 with h | h
      · exact absurd h (hawake k t ht)
      · simp [hsleepers] at h
    | joining f =>
      have hw := hm.joining k t f ht hs nofun
      have hended : f.ended = [] := by
        by_contra hne
        exact hawake k t ht (hw.woken hne)
      have hitems := mt (itemsOf_eq_nil_iff hm.keys_nodup).mpr (hw.itemsOf_ne_nil hended)
      simp only [not_forall, not_not] at hitems
      obtain ⟨k', t', item, ht', hp⟩ := hitems
      exact ⟨k', t', ht', hm.parent_lt k' t' k item ht' hp⟩
  have hnotask : ∀ n k t, m.tasks.lookup k = some t → m.fresh ≤ k + n → False := by
    intro n
    induction n with
    | zero => exact fun k t ht hle => absurd (hm.lt_fresh k t ht) (by omega)
    | succ n ih =>
      intro k t ht hle
      obtain ⟨k', t', ht', hlt⟩ := hbranch k t ht
      exact ih k' t' ht' (by omega)
  obtain ⟨⟨k, t⟩, htasks⟩ := List.exists_mem_of_ne_nil _ h
  exact hnotask m.fresh k t (Keyed.lookup_of_mem hm.keys_nodup htasks) (by omega)

/-- If no task is ready and none asleep, there is none. -/
theorem Sound.tasks_eq_nil (hm : Sound none m) (hready : m.ready = [])
    (hroot : m.rootReady = false ∨ m.tasks.lookup Machine.root = none)
    (hsleepers : m.sleepers = []) : m.tasks = [] := by
  by_contra h
  rcases hm.exists_awake_or_asleep h with ⟨k, t, ht, hk⟩ | hne
  · unfold Awake at hk
    split at hk
    · subst k
      simp [hk, ht] at hroot
    · simp [hready] at hk
  · exact hne hsleepers

theorem Proper.rootPart (hm : Proper P m) : Proper P (m.rootPart adapter) := by
  unfold Machine.rootPart
  split
  · exact hm.turn (.root ‹_›)
  · exact hm

theorem Proper.rootPart_nearer (adapter : Adapter σ) (hm : Proper P m) :
    m.rootPart adapter = m ∨ Nearer (m.rootPart adapter) m := by
  unfold Machine.rootPart
  split
  · exact .inr (hm.nearer_turn (.root ‹_›))
  · exact .inl rfl

theorem Proper.now_turn (hm : Proper P m) (h : Takes m id m₀) :
    (m₀.turn adapter id).world.now = m.world.now := by
  rw [← h.world]
  refine hm.turn_cases (Q := fun m' => m'.world.now = m₀.world.now) h (fun _ => rfl)
    (fun t ht hc hsound => by rw [drop_world]) fun t halt m₁ ha => ?_
  refine Eq.trans ?_ ha.now
  cases halt with
  | done result =>
    exact congrArg World.now (finish_world ha.lookup_acted fun hid =>
      (ha.sound_acted.root t (hid ▸ ha.lookup_acted)).1)
  | asleep ms r => rfl
  | forked f => exact congrArg World.now takeIn_world

theorem Proper.now_rootPart (hm : Proper P m) :
    (m.rootPart adapter).world.now = m.world.now := by
  unfold Machine.rootPart
  split
  · exact hm.now_turn (.root ‹_›)
  · rfl

/-- When nobody is ready, the clock moves, and then it is the turn of the root. -/
theorem step_of_nextTime {time : Nat} (hready : m.ready = []) (hroot : m.rootReady = false)
    (ht : m.nextTime deadline = some time) :
    m.step adapter deadline = (m.wakeAt time).rootTurn adapter deadline := by
  rw [step_of_nextTime_eq_some hready hroot ht]
  split
  · rfl
  · rename_i hturn
    obtain ⟨hnot, hne⟩ := not_or.mp hturn
    rw [rootTurn_eq, rootPart_of_not_ready (Bool.eq_false_iff.mpr hnot), if_neg]
    rintro ⟨-, hcome⟩
    cases deadline with
    | none => cases hcome
    | some limit =>
      simp only [Option.any_some, decide_eq_true_eq, wakeAt_world] at hcome
      exact hne (congrArg some (le_antisymm hcome (nextTime_le ht)))

/-- A step is the turn of a branch, or the turn of the root, before which the clock moves if the
root is not ready. It is nothing if there is nothing to wait for. -/
theorem step_cases {Q : Machine σ → Prop}
    (branch : ∀ id ready, m.ready = id :: ready → Q ({ m with ready }.turn adapter id))
    (root : m.ready = [] → m.rootReady = true → Q (m.rootTurn adapter deadline))
    (stuck : m.ready = [] → m.rootReady = false → m.nextTime deadline = none → Q m)
    (later : ∀ time, m.ready = [] → m.rootReady = false → m.nextTime deadline = some time →
      Q ((m.wakeAt time).rootTurn adapter deadline)) :
    Q (m.step adapter deadline) := by
  cases hready : m.ready with
  | cons id ready =>
    rw [step_of_ready hready]
    exact branch id ready hready
  | nil =>
    cases hroot : m.rootReady with
    | true =>
      rw [step_of_rootReady hready hroot]
      exact root hready hroot
    | false =>
      cases htime : m.nextTime deadline with
      | none =>
        rw [step_of_nextTime_eq_none hready hroot htime]
        exact stuck hready hroot htime
      | some time =>
        rw [step_of_nextTime hready hroot htime]
        exact later time hready hroot htime

/-- Before the root has ended, a task is ready or asleep. -/
theorem Proper.exists_nextWake (hm : Proper P m) (hending : m.ending = none)
    (hready : m.ready = []) (hroot : m.rootReady = false) : ∃ wake, m.nextWake = some wake := by
  refine Option.ne_none_iff_exists'.mp fun hnone => ?_
  have hnil := hm.sound.tasks_eq_nil hready (.inl hroot) (by simpa [nextWake] using hnone)
  have hsome := hm.sound.ending.mp hending
  simp [hnil] at hsome

/-- A step ends the run or comes nearer to its end. -/
theorem Proper.step_nearer (adapter : Adapter σ) (deadline : Option Nat) (hm : Proper P m)
    (hending : m.ending = none) :
    (m.step adapter deadline).ending ≠ none ∨ Nearer (m.step adapter deadline) m := by
  refine step_cases (Q := fun m' => m'.ending ≠ none ∨ Nearer m' m)
    (fun id ready hready => .inr (hm.nearer_turn (.branch hready))) (fun _ hroot => ?_)
    (fun hready hroot htime => ?_) fun time hready hroot htime => ?_
  · rcases rootTurn_cases adapter deadline m with heq | ⟨heq, -⟩ <;> rw [heq]
    · exact .inl (Option.some_ne_none _)
    · rw [rootPart_of_ready hroot]
      exact .inr (hm.nearer_turn (.root hroot))
  · obtain ⟨wake, hwake⟩ := hm.exists_nextWake hending hready hroot
    cases deadline <;> simp [nextTime, hwake] at htime
  · obtain ⟨hle, hmem⟩ := of_nextTime_eq_some htime
    have hproper := hm.wakeAt hle
    rcases rootTurn_cases adapter deadline (m.wakeAt time) with heq | ⟨heq, hearly⟩ <;> rw [heq]
    · exact .inl (Option.some_ne_none _)
    · rcases hmem with hmem | hdeadline
      · have hnear := nearer_wakeAt hmem
        exact .inr ((hproper.rootPart_nearer adapter).elim (fun h => h.symm ▸ hnear)
          (·.trans hnear))
      · refine .inl fun hnone => (hearly hnone time hdeadline).ne ?_
        rw [hproper.now_rootPart, wakeAt_world]

/-- A step of the tasks that are left comes nearer to their end. -/
theorem Proper.settleStep_nearer {time : Nat} (hm : Proper P m)
    (h : m.settleStep adapter time = some m₁) : Nearer m₁ m := by
  unfold Machine.settleStep at h
  split at h
  · obtain rfl := Option.some.inj h
    exact hm.nearer_turn (.branch ‹_›)
  · simp only [Option.map_eq_some_iff, Option.filter_eq_some_iff] at h
    obtain ⟨next, ⟨hnext, -⟩, rfl⟩ := h
    exact nearer_wakeAt (nextWake_eq_some_iff.mp hnext).1

/-! ### Runs -/

/-- What holds of machines that have ended, and of a machine if it does after a step, holds. -/
theorem Proper.run_induction (adapter : Adapter σ) (deadline : Option Nat) {Q : Machine σ → Prop}
    (hm : Proper P m)
    (ended : ∀ m, Proper P m → m.ending ≠ none → Q m)
    (step : ∀ m, Proper P m → m.ending = none → Q (m.step adapter deadline) → Q m) : Q m := by
  induction m using Nearer.wellFounded.induction with
  | _ m ih =>
    by_cases hending : m.ending = none
    · refine step m hm hending ?_
      rcases hm.step_nearer adapter deadline hending with h | h
      · exact ended _ hm.step h
      · exact ih _ h hm.step
    · exact ended m hm hending

theorem exhaust_of_none {next : Machine σ → Option (Machine σ)} (h : next m = none) :
    m.exhaust next = m := by
  have : Nonempty (Machine σ) := ⟨m⟩
  unfold exhaust
  rw [repeatM_eq_of_monadTail]
  simp only [repeatM.body, h]
  rfl

theorem exhaust_of_some {next : Machine σ → Option (Machine σ)} (h : next m = some m') :
    m.exhaust next = m'.exhaust next := by
  have : Nonempty (Machine σ) := ⟨m⟩
  unfold exhaust
  rw [repeatM_eq_of_monadTail]
  simp only [repeatM.body, h]
  rfl

theorem run_of_ending (h : m.ending ≠ none) : m.run adapter deadline = m :=
  exhaust_of_none (if_pos (Option.isSome_iff_ne_none.mpr h))

theorem run_of_step (h : m.ending = none) :
    m.run adapter deadline = (m.step adapter deadline).run adapter deadline :=
  exhaust_of_some (if_neg (by simp [h]))

/-- A run takes the steps that there are before its end. -/
theorem run_eq_iterate (count : Nat)
    (hopen : ∀ k < count, ((step adapter deadline)^[k] m).ending.isNone)
    (hend : ((step adapter deadline)^[count] m).ending.isSome) :
    m.run adapter deadline = (step adapter deadline)^[count] m := by
  induction count generalizing m with
  | zero => exact run_of_ending (Option.isSome_iff_ne_none.mp hend)
  | succ count ih =>
    have hnone : m.ending = none := Option.isNone_iff_eq_none.mp (hopen 0 count.succ_pos)
    rw [run_of_step hnone]
    exact ih (fun k hk => hopen (k + 1) (Nat.succ_lt_succ hk)) hend

/-- Every run ends. -/
theorem Proper.run_ending (adapter : Adapter σ) (deadline : Option Nat) (hm : Proper P m) :
    (m.run adapter deadline).ending ≠ none := by
  refine hm.run_induction adapter deadline
    (Q := fun m => (m.run adapter deadline).ending ≠ none) (fun m hm h => ?_) (fun m hm h ih => ?_)
  · rwa [run_of_ending h]
  · rwa [run_of_step h]

/-- What every step preserves, a run preserves. -/
theorem Proper.run_preserves {I : Machine σ → Prop} (hm : Proper P m)
    (step : ∀ m, Proper P m → m.ending = none → I m → I (m.step adapter deadline)) (h : I m) :
    I (m.run adapter deadline) := by
  refine hm.run_induction adapter deadline (Q := fun m => I m → I (m.run adapter deadline))
    (fun m _ he h => ?_) (fun m hm he ih h => ?_) h
  · rwa [run_of_ending he]
  · rw [run_of_step he]
    exact ih (step m hm he h)

theorem Proper.run (hm : Proper P m) : Proper P (m.run adapter deadline) :=
  hm.run_preserves (fun _ hm _ _ => hm.step) hm

/-! ### After the end of the root -/

/-- What holds of machines in which nothing is left to happen before a time, and of a machine if it
does after a step, holds. -/
theorem Proper.settle_induction (adapter : Adapter σ) (time : Nat) {Q : Machine σ → Prop}
    (hm : Proper P m)
    (settled : ∀ m, Proper P m → m.settleStep adapter time = none → Q m)
    (step : ∀ m m', Proper P m → m.settleStep adapter time = some m' → Q m' → Q m) : Q m := by
  induction m using Nearer.wellFounded.induction with
  | _ m ih =>
    cases h : m.settleStep adapter time with
    | none => exact settled m hm h
    | some m' => exact step m m' hm h (ih m' (hm.settleStep_nearer h) (hm.settleStep h))

theorem settleUntil_of_settled {time : Nat} (h : m.settleStep adapter time = none) :
    m.settleUntil adapter time = m :=
  exhaust_of_none h

theorem settleUntil_of_step {time : Nat} (h : m.settleStep adapter time = some m₁) :
    m.settleUntil adapter time = m₁.settleUntil adapter time :=
  exhaust_of_some h

/-- What every step of the tasks that are left preserves, they preserve. -/
theorem Proper.settle_preserves {Q : Machine σ → Prop} (hm : Proper P m)
    (step : ∀ m m' time, Proper P m → m.settleStep adapter time = some m' → Q m → Q m')
    (h : Q m) (ms : Nat) : Q (m.settle adapter ms) := by
  unfold settle
  split
  · exact h
  · generalize m.world.now + ms = time
    refine hm.settle_induction adapter time (Q := fun m => Q m → Q (m.settleUntil adapter time))
      (fun m _ hs h => ?_) (fun m m' hm hs ih h => ?_) h
    · rwa [settleUntil_of_settled hs]
    · rw [settleUntil_of_step hs]
      exact ih (step m m' time hm hs h)

end Machine

end Conveyor
