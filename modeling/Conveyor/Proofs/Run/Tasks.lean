import Conveyor.Proofs.Keyed
import Conveyor.Proofs.Run.Turn
import Mathlib.Data.List.Range

/-!
# The tasks of a machine after each operation

What is found under each number, which tasks are ready, and for which items a task has branches in
work, after each operation of a machine. The invariants of runs are proved from these equations and
never open an operation.
-/

namespace Conveyor

namespace Fork

variable {f : Fork} {item : Nat}

@[simp] theorem filled_admitted (f : Fork) : f.filled.admitted = f.admitted + f.room :=
  rfl

@[simp] theorem length_nextItems (f : Fork) : f.nextItems.length = f.room :=
  List.length_range'

theorem room_le (f : Fork) : f.room ≤ f.count - f.admitted :=
  Nat.min_le_right _ _

theorem mem_nextItems : item ∈ f.nextItems ↔ f.admitted ≤ item ∧ item < f.filled.admitted :=
  List.mem_range'_1

theorem range_append_nextItems (f : Fork) :
    List.range f.admitted ++ f.nextItems = List.range f.filled.admitted := by
  have happend := @List.range'_append_1 0 f.admitted f.room
  rw [Nat.zero_add] at happend
  rw [nextItems, List.range_eq_range', happend, filled_admitted, List.range_eq_range']

end Fork

namespace Machine

variable {σ : Type} {m : Machine σ} {id k p : Nat} {t : Task}

/-- A task is ready to have its turn. -/
def Awake (m : Machine σ) (k : Nat) : Prop :=
  if k = root then m.rootReady = true else k ∈ m.ready

/-- The item of a task that is a branch of a task. -/
def itemIn (p : Nat) (t : Task) : Option Nat :=
  t.parent.bind fun (q, item) => if q = p then some item else none

/-- The items for which a task has branches in work. -/
def itemsOf (p : Nat) (m : Machine σ) : List Nat :=
  m.tasks.filterMap fun e => itemIn p e.2

theorem itemIn_eq_some_iff {item : Nat} : itemIn p t = some item ↔ t.parent = some (p, item) := by
  unfold itemIn
  rcases t.parent with _ | ⟨q, j⟩
  · simp
  · by_cases h : q = p <;> simp [h]

theorem mem_itemsOf_of_lookup {item : Nat} (ht : m.tasks.lookup k = some t)
    (hp : t.parent = some (p, item)) : item ∈ m.itemsOf p :=
  List.mem_filterMap.mpr ⟨(k, t), Keyed.mem_of_lookup ht, itemIn_eq_some_iff.mpr hp⟩

theorem itemsOf_eq_nil_iff (hn : (m.tasks.map Prod.fst).Nodup) :
    m.itemsOf p = [] ↔
      ∀ k t item, m.tasks.lookup k = some t → t.parent ≠ some (p, item) := by
  constructor
  · intro h k t item ht hp
    have := mem_itemsOf_of_lookup ht hp
    simp [h] at this
  · intro h
    refine List.eq_nil_iff_forall_not_mem.mpr fun item hitem => ?_
    obtain ⟨⟨k, t⟩, hmem, hi⟩ := List.mem_filterMap.mp hitem
    exact h k t item (Keyed.lookup_of_mem hn hmem) (itemIn_eq_some_iff.mp hi)

/-! ### Changing and removing one task -/

/-- The branches of a task that no change concerns. -/
theorem itemsOf_map (change : Nat → Task → Task)
    (h : ∀ k t item, (change k t).parent = some (p, item) ↔ t.parent = some (p, item)) :
    ({ m with tasks := m.tasks.map fun e => (e.1, change e.1 e.2) } : Machine σ).itemsOf p =
      m.itemsOf p := by
  unfold itemsOf
  rw [List.filterMap_map]
  refine List.filterMap_congr fun e _ => Option.ext fun item => ?_
  simp only [Function.comp_apply, itemIn_eq_some_iff, h]

theorem modifyTask_tasks (change : Task → Task) : (m.modifyTask id change).tasks =
    m.tasks.map fun e => (e.1, if e.1 = id then change e.2 else e.2) :=
  List.map_congr_left fun e _ => by dsimp only; split <;> rfl

theorem map_fst_modifyTask (change : Task → Task) :
    (m.modifyTask id change).tasks.map Prod.fst = m.tasks.map Prod.fst := by
  rw [modifyTask_tasks, List.map_map]
  rfl

theorem lookup_modifyTask (change : Task → Task) :
    (m.modifyTask id change).tasks.lookup k =
      if k = id then (m.tasks.lookup k).map change else m.tasks.lookup k := by
  rw [modifyTask_tasks, Keyed.lookup_map fun j t => if j = id then change t else t]
  by_cases h : k = id
  · simp only [if_pos h]
  · simp only [if_neg h, Option.map_id']

theorem itemsOf_modifyTask {change : Task → Task} (h : ∀ t, (change t).parent = t.parent) :
    (m.modifyTask id change).itemsOf p = m.itemsOf p := by
  rw [itemsOf, modifyTask_tasks]
  refine itemsOf_map (m := m) (fun k t => if k = id then change t else t) fun k t item => ?_
  split
  · rw [h]
  · rfl

theorem lookup_setState (state : TaskState) :
    (m.setState id state).tasks.lookup k =
      if k = id then (m.tasks.lookup k).map fun t => { t with state } else m.tasks.lookup k :=
  lookup_modifyTask _

theorem itemsOf_setState (state : TaskState) : (m.setState id state).itemsOf p = m.itemsOf p :=
  itemsOf_modifyTask fun _ => rfl

theorem lookup_removeTask :
    (m.removeTask id).tasks.lookup k = if k = id then none else m.tasks.lookup k :=
  Keyed.lookup_erase

theorem nodup_removeTask (hn : (m.tasks.map Prod.fst).Nodup) :
    ((m.removeTask id).tasks.map Prod.fst).Nodup :=
  hn.sublist (Keyed.erase_sublist.map _)

/-- Removing a branch takes its item away from its task, and nothing else. -/
theorem itemsOf_removeTask (hn : (m.tasks.map Prod.fst).Nodup) (ht : m.tasks.lookup id = some t) :
    (m.itemsOf p).Perm ((itemIn p t).toList ++ (m.removeTask id).itemsOf p) := by
  obtain ⟨l₁, l₂, htasks, herase⟩ := Keyed.erase_of_lookup hn ht
  unfold itemsOf removeTask
  rw [herase, htasks, List.filterMap_append, List.filterMap_append, List.filterMap_cons]
  cases itemIn p t with
  | none => exact List.Perm.refl _
  | some item => exact List.perm_middle

/-! ### Taking a task -/

section Takes

variable {m₀ : Machine σ} (h : Takes m id m₀)

include h

theorem Takes.tasks : m₀.tasks = m.tasks := by
  cases h <;> rfl

theorem Takes.world : m₀.world = m.world := by
  cases h <;> rfl

theorem Takes.ending : m₀.ending = m.ending := by
  cases h <;> rfl

theorem Takes.fresh : m₀.fresh = m.fresh := by
  cases h <;> rfl

theorem Takes.sleepers : m₀.sleepers = m.sleepers := by
  cases h <;> rfl

theorem Takes.ready_sublist : m₀.ready.Sublist m.ready := by
  cases h with
  | branch h => exact h ▸ List.sublist_cons_self _ _
  | root h => exact List.Sublist.refl _

theorem Takes.itemsOf (k : Nat) : m₀.itemsOf k = m.itemsOf k := by
  simp only [Machine.itemsOf, h.tasks]

end Takes

/-! ### Waking tasks -/

@[simp] theorem wake_tasks : (wake id m).tasks = m.tasks := by
  unfold wake; split_ifs <;> rfl

@[simp] theorem wake_world : (wake id m).world = m.world := by
  unfold wake; split_ifs <;> rfl

@[simp] theorem wake_fresh : (wake id m).fresh = m.fresh := by
  unfold wake; split_ifs <;> rfl

@[simp] theorem wake_sleepers : (wake id m).sleepers = m.sleepers := by
  unfold wake; split_ifs <;> rfl

@[simp] theorem wake_ending : (wake id m).ending = m.ending := by
  unfold wake; split_ifs <;> rfl

@[simp] theorem itemsOf_wake : (wake id m).itemsOf p = m.itemsOf p := by
  simp only [itemsOf, wake_tasks]

theorem awake_wake : (wake id m).Awake k ↔ m.Awake k ∨ k = id := by
  unfold wake Awake
  by_cases hid : id = root
  · subst hid
    by_cases hk : k = root <;> simp [hk]
  · by_cases hk : k = root
    · subst hk
      have hne : root ≠ id := fun h => hid h.symm
      split_ifs <;> simp [hne]
    · by_cases hmem : id ∈ m.ready
      · simp only [if_neg hid, if_pos hmem, if_neg hk]
        exact ⟨.inl, fun h => h.elim (fun h => h) fun h => h ▸ hmem⟩
      · simp [hid, hmem, hk]

theorem nodup_ready_wake (hn : m.ready.Nodup) : (wake id m).ready.Nodup := by
  unfold wake
  split_ifs with hid hmem
  · exact hn
  · exact hn
  · exact hn.append (List.nodup_singleton id) (by simpa using hmem)

theorem root_notMem_ready_wake (h : root ∉ m.ready) : root ∉ (wake id m).ready := by
  unfold wake
  split_ifs with hid hmem
  · exact h
  · exact h
  · simpa [h] using fun h => hid h.symm

/-! ### Ending a task -/

/-- A task that waits for branches receives the permit and the result of one of them. -/
def receive (item : Nat) (result : Except (Fault StepFailure) Json) (t : Task) : Task :=
  match t.state with
  | .joining f =>
    { t with state := .joining { f with
        permits := f.permits + 1, ended := f.ended ++ [(item, result)] } }
  | .paused _ => t

theorem receive_parent {item : Nat} {result : Except (Fault StepFailure) Json} :
    (receive item result t).parent = t.parent := by
  unfold receive; split <;> rfl

theorem receive_cancelled {item : Nat} {result : Except (Fault StepFailure) Json} :
    (receive item result t).cancelled = t.cancelled := by
  unfold receive; split <;> rfl

/-- What becomes of a task `k` when the task `t` ends with a result. -/
def informed (t : Task) (result : Except (Fault StepFailure) Json) (k : Nat) (t' : Task) : Task :=
  match t.parent with
  | some (p, item) => if k = p then receive item result t' else t'
  | none => t'

theorem informed_of_parent_none {result : Except (Fault StepFailure) Json} (hp : t.parent = none) :
    informed t result k = fun t' => t' :=
  funext fun _ => by simp only [informed, hp]

theorem informed_of_parent {item : Nat} {result : Except (Fault StepFailure) Json}
    (hp : t.parent = some (p, item)) :
    informed t result k = fun t' => if k = p then receive item result t' else t' :=
  funext fun _ => by simp only [informed, hp]

theorem informed_parent {result : Except (Fault StepFailure) Json} {t' : Task} :
    (informed t result k t').parent = t'.parent := by
  rcases hp : t.parent with _ | ⟨p, item⟩
  · rw [informed_of_parent_none hp]
  · rw [informed_of_parent hp]
    split
    · exact receive_parent
    · rfl

theorem informed_cancelled {result : Except (Fault StepFailure) Json} {t' : Task} :
    (informed t result k t').cancelled = t'.cancelled := by
  rcases hp : t.parent with _ | ⟨p, item⟩
  · rw [informed_of_parent_none hp]
  · rw [informed_of_parent hp]
    split
    · exact receive_cancelled
    · rfl

theorem informed_state_of_paused {result : Except (Fault StepFailure) Json} {t' : Task}
    {r : Resumption} (h : t'.state = .paused r) : (informed t result k t').state = .paused r := by
  have hreceive : ∀ item, (receive item result t').state = .paused r := by
    intro item
    unfold receive
    split
    · rename_i f hf
      exact TaskState.noConfusion (hf.symm.trans h)
    · exact h
  unfold informed
  split
  · split
    · exact hreceive _
    · exact h
  · exact h

theorem informed_state_of_joining {result : Except (Fault StepFailure) Json} {t' : Task} {f : Fork}
    (h : t'.state = .joining f) :
    (informed t result k t').state =
      .joining { f with
        permits := f.permits + (itemIn k t).toList.length,
        ended := f.ended ++ (itemIn k t).toList.map (·, result) } := by
  rcases hp : t.parent with _ | ⟨p, item⟩
  · rw [informed_of_parent_none hp, h]
    simp [itemIn, hp]
  · rw [informed_of_parent hp]
    by_cases hk : k = p
    · subst hk
      simp [receive, h, itemIn, hp]
    · have hne : p ≠ k := fun heq => hk heq.symm
      simp [h, itemIn, hp, hk, hne]

section Finish

variable {r : Except (Fault StepFailure) Json}

/-- The root has no parent; so the cases are a task without a parent and a branch. -/
theorem finish_cases (ht : m.tasks.lookup id = some t) (hroot : id = root → t.parent = none) :
    (t.parent = none ∧ (m.finish id r = m.removeTask id ∨
        id = root ∧ m.finish id r =
          { m.removeTask id with ending := some (.finished r) })) ∨
      ∃ p item, t.parent = some (p, item) ∧
        m.finish id r =
          wake p ((m.removeTask id).modifyTask p (receive item (r.mapError (told id)))) := by
  by_cases hid : id = root
  · exact .inl ⟨hroot hid, .inr ⟨hid, by simp only [finish, if_pos hid]⟩⟩
  · rcases hp : t.parent with _ | ⟨p, item⟩
    · exact .inl ⟨rfl, .inl (by simp only [finish, if_neg hid, ht, Option.bind_some, hp])⟩
    · refine .inr ⟨p, item, rfl, ?_⟩
      simp only [finish, if_neg hid, ht, Option.bind_some, hp]
      rfl

variable (ht : m.tasks.lookup id = some t) (hroot : id = root → t.parent = none)

include ht hroot

theorem lookup_finish :
    (m.finish id r).tasks.lookup k =
      if k = id then none else (m.tasks.lookup k).map (informed t (r.mapError (told id)) k) := by
  rcases finish_cases (r := r) ht hroot with ⟨hp, h | ⟨-, h⟩⟩ | ⟨p, item, hp, h⟩
  · rw [h, lookup_removeTask, informed_of_parent_none hp, Option.map_id']
  · rw [h, informed_of_parent_none hp, Option.map_id']
    exact lookup_removeTask
  · rw [h, wake_tasks, lookup_modifyTask, lookup_removeTask, informed_of_parent hp]
    by_cases hk : k = p
    · simp only [if_pos hk]
      split <;> rfl
    · simp only [if_neg hk, Option.map_id']

/-- A task that is left was there before. -/
theorem of_lookup_finish {t' : Task} (h : (m.finish id r).tasks.lookup k = some t') :
    k ≠ id ∧ ∃ t₀, m.tasks.lookup k = some t₀ ∧ t' = informed t (r.mapError (told id)) k t₀ := by
  rw [lookup_finish ht hroot, Option.ite_none_left_eq_some, Option.map_eq_some_iff] at h
  obtain ⟨hne, t₀, ht₀, rfl⟩ := h
  exact ⟨hne, t₀, ht₀, rfl⟩

theorem lookup_finish_of_ne {t₀ : Task} (hne : k ≠ id) (ht₀ : m.tasks.lookup k = some t₀) :
    (m.finish id r).tasks.lookup k = some (informed t (r.mapError (told id)) k t₀) := by
  rw [lookup_finish ht hroot, if_neg hne, ht₀, Option.map_some]

theorem lookup_finish_of_none (hnone : m.tasks.lookup k = none) :
    (m.finish id r).tasks.lookup k = none := by
  rw [lookup_finish ht hroot, hnone, Option.map_none, ite_self]

theorem map_fst_finish :
    (m.finish id r).tasks.map Prod.fst = (m.removeTask id).tasks.map Prod.fst := by
  rcases finish_cases (r := r) ht hroot with ⟨hp, h | ⟨-, h⟩⟩ | ⟨p, item, hp, h⟩
  · rw [h]
  · rw [h]
  · rw [h, wake_tasks, map_fst_modifyTask]

/-- The end of a branch takes its item away from its task, and nothing else. -/
theorem itemsOf_finish (hn : (m.tasks.map Prod.fst).Nodup) :
    (m.itemsOf p).Perm ((itemIn p t).toList ++ (m.finish id r).itemsOf p) := by
  have hitems : (m.finish id r).itemsOf p = (m.removeTask id).itemsOf p := by
    rcases finish_cases (r := r) ht hroot with ⟨hp, h | ⟨-, h⟩⟩ | ⟨q, item, hp, h⟩
    · rw [h]
    · rw [h]; rfl
    · rw [h, itemsOf_wake, itemsOf_modifyTask fun _ => receive_parent]
  exact hitems ▸ itemsOf_removeTask hn ht

theorem awake_finish :
    (m.finish id r).Awake k ↔ m.Awake k ∨ ∃ item, t.parent = some (k, item) := by
  rcases finish_cases (r := r) ht hroot with ⟨hp, h | ⟨-, h⟩⟩ | ⟨p, item, hp, h⟩
  · rw [h]; simp [hp]; rfl
  · rw [h]; simp [hp]; rfl
  · rw [h, awake_wake, hp]
    simp only [Option.some.injEq, Prod.mk.injEq, exists_and_left, exists_eq', and_true]
    exact or_congr Iff.rfl eq_comm

theorem finish_sleepers :
    (m.finish id r).sleepers = m.sleepers.filter (·.2 ≠ id) := by
  rcases finish_cases (r := r) ht hroot with ⟨-, h | ⟨-, h⟩⟩ | ⟨p, item, -, h⟩
  · rw [h]; rfl
  · rw [h]; rfl
  · rw [h, wake_sleepers]; rfl

theorem finish_fresh : (m.finish id r).fresh = m.fresh := by
  rcases finish_cases (r := r) ht hroot with ⟨-, h | ⟨-, h⟩⟩ | ⟨p, item, -, h⟩
  · rw [h]; rfl
  · rw [h]; rfl
  · rw [h, wake_fresh]; rfl

theorem finish_world : (m.finish id r).world = m.world := by
  rcases finish_cases (r := r) ht hroot with ⟨-, h | ⟨-, h⟩⟩ | ⟨p, item, -, h⟩
  · rw [h]; rfl
  · rw [h]; rfl
  · rw [h, wake_world]; rfl

theorem finish_ending :
    (m.finish id r).ending = if id = root then some (.finished r) else m.ending := by
  by_cases hid : id = root
  · simp only [finish, if_pos hid]
  · rw [if_neg hid]
    rcases finish_cases (r := r) ht hroot with ⟨-, h | ⟨h, -⟩⟩ | ⟨p, item, -, h⟩
    · rw [h]; rfl
    · exact absurd h hid
    · rw [h, wake_ending]; rfl

theorem nodup_ready_finish (hn : m.ready.Nodup) : (m.finish id r).ready.Nodup := by
  rcases finish_cases (r := r) ht hroot with ⟨-, h | ⟨-, h⟩⟩ | ⟨p, item, -, h⟩
  · rw [h]; exact hn
  · rw [h]; exact hn
  · rw [h]; exact nodup_ready_wake hn

theorem root_notMem_ready_finish (hn : root ∉ m.ready) : root ∉ (m.finish id r).ready := by
  rcases finish_cases (r := r) ht hroot with ⟨-, h | ⟨-, h⟩⟩ | ⟨p, item, -, h⟩
  · rw [h]; exact hn
  · rw [h]; exact hn
  · rw [h]; exact root_notMem_ready_wake hn

end Finish

/-! ### Detaching and cancelling branches -/

/-- A branch of a task without its task. -/
def detached (id : Nat) (t : Task) : Task :=
  if t.parent.any (·.1 = id) then { t with parent := none } else t

theorem detach_tasks :
    (m.detach id).tasks = m.tasks.map fun e => (e.1, detached id e.2) :=
  List.map_congr_left fun e _ => by unfold detached; dsimp only; split <;> rfl

theorem lookup_detach :
    (m.detach id).tasks.lookup k = (m.tasks.lookup k).map (detached id) := by
  rw [detach_tasks, Keyed.lookup_map fun _ t => detached id t]

theorem map_fst_detach : (m.detach id).tasks.map Prod.fst = m.tasks.map Prod.fst := by
  rw [detach_tasks, List.map_map]
  rfl

theorem detached_state : (detached id t).state = t.state := by
  unfold detached; split <;> rfl

theorem detached_cancelled : (detached id t).cancelled = t.cancelled := by
  unfold detached; split <;> rfl

theorem detached_of_parent_ne (h : ∀ item, t.parent ≠ some (id, item)) : detached id t = t := by
  unfold detached
  rcases hp : t.parent with _ | ⟨q, j⟩
  · rfl
  · have hq : q ≠ id := fun heq => h j (heq ▸ hp)
    simp only [Option.any_some, hq, decide_false, Bool.false_eq_true, if_false]

theorem detached_parent_eq_some_iff {item : Nat} :
    (detached id t).parent = some (p, item) ↔ t.parent = some (p, item) ∧ p ≠ id := by
  unfold detached
  rcases hp : t.parent with _ | ⟨q, j⟩
  · simp [hp]
  · by_cases h : q = id
    · simp only [Option.any_some, h, decide_true, if_true, reduceCtorEq, Option.some.injEq,
        Prod.mk.injEq, false_iff, not_and, not_not, and_imp]
      exact fun hp _ => hp.symm
    · simp only [Option.any_some, h, decide_false, Bool.false_eq_true, if_false, hp,
        Option.some.injEq, Prod.mk.injEq, iff_self_and, and_imp]
      exact fun hq _ => hq ▸ h

theorem itemsOf_detach : (m.detach id).itemsOf p = if p = id then [] else m.itemsOf p := by
  rw [itemsOf, detach_tasks]
  split
  · rename_i h
    rw [List.filterMap_map]
    refine List.filterMap_eq_nil_iff.mpr fun e _ => Option.eq_none_iff_forall_ne_some.mpr ?_
    intro item hitem
    exact (detached_parent_eq_some_iff.mp (itemIn_eq_some_iff.mp hitem)).2 h
  · rename_i h
    refine itemsOf_map (m := m) (fun _ t => detached id t) fun k t item => ?_
    rw [detached_parent_eq_some_iff]
    exact and_iff_left h

theorem mem_branchesOf (hn : (m.tasks.map Prod.fst).Nodup) :
    k ∈ m.branchesOf id ↔ ∃ t item, m.tasks.lookup k = some t ∧ t.parent = some (id, item) := by
  simp only [branchesOf, List.mem_map, List.mem_filter, Prod.exists, exists_and_right,
    exists_eq_right, Keyed.mem_iff_lookup hn]
  refine exists_congr fun t => ?_
  rw [exists_and_left]
  refine and_congr_right fun _ => ?_
  rcases t.parent with _ | ⟨q, j⟩ <;> simp

theorem cancel_tasks :
    (m.cancel id).tasks = (m.modifyTask id fun t => { t with cancelled := true }).tasks :=
  wake_tasks

private theorem itemsOf_cancel : (m.cancel id).itemsOf p = m.itemsOf p := by
  unfold itemsOf
  rw [cancel_tasks]
  exact itemsOf_modifyTask fun _ => rfl

theorem lookup_foldl_cancel (ids : List Nat) :
    (ids.foldl cancel m).tasks.lookup k =
      (m.tasks.lookup k).map fun t => if k ∈ ids then { t with cancelled := true } else t := by
  induction ids generalizing m with
  | nil => simp
  | cons j ids ih =>
    rw [List.foldl_cons, ih, cancel_tasks, lookup_modifyTask]
    by_cases hj : k = j
    · subst hj
      simp [Option.map_map, Function.comp_def]
    · simp [hj]

theorem map_fst_foldl_cancel (ids : List Nat) :
    (ids.foldl cancel m).tasks.map Prod.fst = m.tasks.map Prod.fst := by
  induction ids generalizing m with
  | nil => rfl
  | cons j ids ih => rw [List.foldl_cons, ih, cancel_tasks, map_fst_modifyTask]

theorem itemsOf_foldl_cancel (ids : List Nat) :
    (ids.foldl cancel m).itemsOf p = m.itemsOf p := by
  induction ids generalizing m with
  | nil => rfl
  | cons j ids ih => rw [List.foldl_cons, ih, itemsOf_cancel]

theorem foldl_cancel_sleepers (ids : List Nat) :
    (ids.foldl cancel m).sleepers = m.sleepers.filter fun s => s.2 ∉ ids := by
  induction ids generalizing m with
  | nil => simp
  | cons j ids ih =>
    rw [List.foldl_cons, ih, cancel, wake_sleepers, List.filter_filter]
    refine List.filter_congr fun s _ => ?_
    by_cases hj : s.2 = j <;> simp [hj]

@[simp] theorem foldl_cancel_world (ids : List Nat) : (ids.foldl cancel m).world = m.world := by
  induction ids generalizing m with
  | nil => rfl
  | cons j ids ih => rw [List.foldl_cons, ih, cancel, wake_world]; rfl

@[simp] theorem foldl_cancel_fresh (ids : List Nat) : (ids.foldl cancel m).fresh = m.fresh := by
  induction ids generalizing m with
  | nil => rfl
  | cons j ids ih => rw [List.foldl_cons, ih, cancel, wake_fresh]; rfl

@[simp] theorem foldl_cancel_ending (ids : List Nat) : (ids.foldl cancel m).ending = m.ending := by
  induction ids generalizing m with
  | nil => rfl
  | cons j ids ih => rw [List.foldl_cons, ih, cancel, wake_ending]; rfl

theorem awake_foldl_cancel (ids : List Nat) :
    (ids.foldl cancel m).Awake k ↔ m.Awake k ∨ k ∈ ids := by
  induction ids generalizing m with
  | nil => simp
  | cons j ids ih =>
    rw [List.foldl_cons, ih, cancel, awake_wake, List.mem_cons, or_assoc]
    rfl

theorem nodup_ready_foldl_cancel (ids : List Nat) (hn : m.ready.Nodup) :
    (ids.foldl cancel m).ready.Nodup := by
  induction ids generalizing m with
  | nil => exact hn
  | cons j ids ih => exact ih (nodup_ready_wake hn)

theorem root_notMem_ready_foldl_cancel (ids : List Nat) (h : root ∉ m.ready) :
    root ∉ (ids.foldl cancel m).ready := by
  induction ids generalizing m with
  | nil => exact h
  | cons j ids ih => exact ih (root_notMem_ready_wake h)

/-- A branch of a task after the end of its task. -/
def abandoned (id : Nat) (t : Task) : Task :=
  if t.parent.any (·.1 = id) then { t with cancelled := true } else t

theorem abandoned_parent : (abandoned id t).parent = t.parent := by
  unfold abandoned; split <;> rfl

theorem abandoned_state : (abandoned id t).state = t.state := by
  unfold abandoned; split <;> rfl

theorem abandoned_of_parent_ne (h : ∀ item, t.parent ≠ some (id, item)) : abandoned id t = t := by
  unfold abandoned
  rcases hp : t.parent with _ | ⟨q, j⟩
  · rfl
  · have hq : q ≠ id := fun heq => h j (heq ▸ hp)
    simp only [Option.any_some, hq, decide_false, Bool.false_eq_true, if_false]

theorem abandoned_cancelled_iff :
    (abandoned id t).cancelled = true ↔
      t.cancelled = true ∨ ∃ item, t.parent = some (id, item) := by
  unfold abandoned
  rcases hp : t.parent with _ | ⟨q, j⟩
  · simp
  · by_cases hq : q = id <;> simp [hq]

theorem lookup_drop (hn : (m.tasks.map Prod.fst).Nodup) :
    (m.drop id).tasks.lookup k =
      if k = id then none else (m.tasks.lookup k).map (abandoned id) := by
  rw [drop, lookup_foldl_cancel, lookup_removeTask]
  by_cases hk : k = id
  · simp only [if_pos hk, Option.map_none]
  · rw [if_neg hk, if_neg hk]
    cases ht : m.tasks.lookup k with
    | none => rfl
    | some t =>
      have hmem : k ∈ m.branchesOf id ↔ ∃ item, t.parent = some (id, item) := by
        rw [mem_branchesOf hn, ht]
        simp
      rw [Option.map_some, Option.map_some]
      by_cases hp : ∃ item, t.parent = some (id, item)
      · rw [if_pos (hmem.mpr hp)]
        obtain ⟨item, hp⟩ := hp
        simp [abandoned, hp]
      · rw [if_neg fun h => hp (hmem.mp h), abandoned_of_parent_ne fun item h => hp ⟨item, h⟩]

/-- A task that is left was there before. -/
theorem of_lookup_drop (hn : (m.tasks.map Prod.fst).Nodup)
    (ht : (m.drop id).tasks.lookup k = some t) :
    k ≠ id ∧ ∃ t₀, m.tasks.lookup k = some t₀ ∧ t = abandoned id t₀ := by
  rw [lookup_drop hn, Option.ite_none_left_eq_some, Option.map_eq_some_iff] at ht
  obtain ⟨hne, t₀, ht₀, rfl⟩ := ht
  exact ⟨hne, t₀, ht₀, rfl⟩

theorem lookup_drop_of_ne {t₀ : Task} (hn : (m.tasks.map Prod.fst).Nodup) (hne : k ≠ id)
    (ht₀ : m.tasks.lookup k = some t₀) :
    (m.drop id).tasks.lookup k = some (abandoned id t₀) := by
  rw [lookup_drop hn, if_neg hne, ht₀, Option.map_some]

theorem lookup_drop_of_none (hn : (m.tasks.map Prod.fst).Nodup)
    (hnone : m.tasks.lookup k = none) : (m.drop id).tasks.lookup k = none := by
  rw [lookup_drop hn, hnone, Option.map_none, ite_self]

theorem lookup_drop_self (hn : (m.tasks.map Prod.fst).Nodup) :
    (m.drop id).tasks.lookup id = none := by
  rw [lookup_drop hn, if_pos rfl]

theorem map_fst_drop :
    (m.drop id).tasks.map Prod.fst = (m.removeTask id).tasks.map Prod.fst :=
  map_fst_foldl_cancel _

theorem awake_drop : (m.drop id).Awake k ↔ m.Awake k ∨ k ∈ m.branchesOf id :=
  awake_foldl_cancel _

theorem drop_sleepers :
    (m.drop id).sleepers = m.sleepers.filter fun s => s.2 ≠ id ∧ s.2 ∉ m.branchesOf id := by
  rw [drop, foldl_cancel_sleepers, removeTask, List.filter_filter]
  refine List.filter_congr fun s _ => ?_
  simp [Bool.and_comm]

/-- The end of a branch takes its item away from its task, and nothing else. -/
theorem itemsOf_drop (hn : (m.tasks.map Prod.fst).Nodup) (ht : m.tasks.lookup id = some t) :
    (m.itemsOf p).Perm ((itemIn p t).toList ++ (m.drop id).itemsOf p) := by
  rw [drop, itemsOf_foldl_cancel]
  exact itemsOf_removeTask hn ht

theorem nodup_ready_drop (hn : m.ready.Nodup) : (m.drop id).ready.Nodup :=
  nodup_ready_foldl_cancel _ hn

theorem root_notMem_ready_drop (h : root ∉ m.ready) : root ∉ (m.drop id).ready :=
  root_notMem_ready_foldl_cancel _ h

@[simp] theorem drop_world : (m.drop id).world = m.world := by
  rw [drop, foldl_cancel_world]; rfl

@[simp] theorem drop_fresh : (m.drop id).fresh = m.fresh := by
  rw [drop, foldl_cancel_fresh]; rfl

@[simp] theorem drop_ending : (m.drop id).ending = m.ending := by
  rw [drop, foldl_cancel_ending]; rfl

/-! ### Moving the clock -/

section Wake

variable (ids : List (Nat × Nat))

theorem foldl_wake_tasks : (ids.foldl (fun m s => wake s.2 m) m).tasks = m.tasks := by
  induction ids generalizing m with
  | nil => rfl
  | cons s ids ih => rw [List.foldl_cons, ih, wake_tasks]

theorem foldl_wake_sleepers : (ids.foldl (fun m s => wake s.2 m) m).sleepers = m.sleepers := by
  induction ids generalizing m with
  | nil => rfl
  | cons s ids ih => rw [List.foldl_cons, ih, wake_sleepers]

theorem foldl_wake_world : (ids.foldl (fun m s => wake s.2 m) m).world = m.world := by
  induction ids generalizing m with
  | nil => rfl
  | cons s ids ih => rw [List.foldl_cons, ih, wake_world]

theorem foldl_wake_fresh : (ids.foldl (fun m s => wake s.2 m) m).fresh = m.fresh := by
  induction ids generalizing m with
  | nil => rfl
  | cons s ids ih => rw [List.foldl_cons, ih, wake_fresh]

theorem foldl_wake_ending : (ids.foldl (fun m s => wake s.2 m) m).ending = m.ending := by
  induction ids generalizing m with
  | nil => rfl
  | cons s ids ih => rw [List.foldl_cons, ih, wake_ending]

theorem awake_foldl_wake :
    (ids.foldl (fun m s => wake s.2 m) m).Awake k ↔ m.Awake k ∨ k ∈ ids.map Prod.snd := by
  induction ids generalizing m with
  | nil => simp
  | cons s ids ih => rw [List.foldl_cons, ih, awake_wake, List.map_cons, List.mem_cons, or_assoc]

theorem nodup_ready_foldl_wake (hn : m.ready.Nodup) :
    (ids.foldl (fun m s => wake s.2 m) m).ready.Nodup := by
  induction ids generalizing m with
  | nil => exact hn
  | cons s ids ih => exact ih (nodup_ready_wake hn)

theorem root_notMem_ready_foldl_wake (h : root ∉ m.ready) :
    root ∉ (ids.foldl (fun m s => wake s.2 m) m).ready := by
  induction ids generalizing m with
  | nil => exact h
  | cons s ids ih => exact ih (root_notMem_ready_wake h)

end Wake

section WakeAt

variable {time : Nat}

@[simp] theorem wakeAt_tasks : (m.wakeAt time).tasks = m.tasks :=
  foldl_wake_tasks _

@[simp] theorem wakeAt_fresh : (m.wakeAt time).fresh = m.fresh :=
  foldl_wake_fresh _

@[simp] theorem wakeAt_ending : (m.wakeAt time).ending = m.ending :=
  foldl_wake_ending _

theorem wakeAt_sleepers : (m.wakeAt time).sleepers = m.sleepers.filter (·.1 ≠ time) :=
  foldl_wake_sleepers _

theorem wakeAt_world : (m.wakeAt time).world = { m.world with now := time } :=
  foldl_wake_world _

theorem nodup_ready_wakeAt (hn : m.ready.Nodup) : (m.wakeAt time).ready.Nodup :=
  nodup_ready_foldl_wake _ hn

theorem root_notMem_ready_wakeAt (h : root ∉ m.ready) : root ∉ (m.wakeAt time).ready :=
  root_notMem_ready_foldl_wake _ h

theorem awake_wakeAt :
    (m.wakeAt time).Awake k ↔ m.Awake k ∨ (time, k) ∈ m.sleepers := by
  rw [wakeAt, awake_foldl_wake]
  refine or_congr Iff.rfl ?_
  simp only [List.mem_map, List.mem_filter, decide_eq_true_eq, Prod.exists]
  constructor
  · rintro ⟨s, i, ⟨hmem, rfl⟩, rfl⟩
    exact hmem
  · exact fun hmem => ⟨time, k, ⟨hmem, rfl⟩, rfl⟩

end WakeAt

/-! ### Beginning branches -/

/-- The tasks of branches that are begun one after another. -/
def branchTasks (p : Nat) (branch : Nat → Activity) : Nat → List Nat → List (Nat × Task)
  | _, [] => []
  | n, item :: items =>
    (n, ⟨some (p, item), .paused (.activity (branch item)), false⟩)
      :: branchTasks p branch (n + 1) items

theorem foldl_spawn (p : Nat) (branch : Nat → Activity) (items : List Nat) (m : Machine σ) :
    items.foldl (spawn p branch) m =
      { m with
        tasks := m.tasks ++ branchTasks p branch m.fresh items
        fresh := m.fresh + items.length
        ready := m.ready ++ List.range' m.fresh items.length } := by
  induction items generalizing m with
  | nil => simp [branchTasks]
  | cons item items ih =>
    rw [List.foldl_cons, ih]
    simp [spawn, branchTasks, List.range'_succ, Nat.add_assoc, Nat.add_comm 1]

section Spawn

variable {branch : Nat → Activity} {item : Nat}

theorem lookup_spawn_of_some (h : m.tasks.lookup k = some t) :
    (m.spawn p branch item).tasks.lookup k = some t := by
  rw [spawn, List.lookup_append, h, Option.some_or]

/-- A task is an old one, or the branch that is begun. -/
theorem of_lookup_spawn (h : (m.spawn p branch item).tasks.lookup k = some t) :
    m.tasks.lookup k = some t ∨
      k = m.fresh ∧ t = ⟨some (p, item), .paused (.activity (branch item)), false⟩ := by
  rw [spawn, List.lookup_append, Option.or_eq_some_iff] at h
  refine h.imp_right fun ⟨_, hnew⟩ => ?_
  exact Prod.mk.inj (List.mem_singleton.mp (Keyed.mem_of_lookup hnew))

theorem itemsOf_spawn {q : Nat} :
    (m.spawn p branch item).itemsOf q = m.itemsOf q ++ if q = p then [item] else [] := by
  rw [itemsOf, itemsOf, spawn, List.filterMap_append]
  by_cases h : q = p
  · subst h; simp [itemIn]
  · have hne : p ≠ q := fun heq => h heq.symm
    simp [itemIn, h, hne]

theorem awake_spawn (hroot : root < m.fresh) :
    (m.spawn p branch item).Awake k ↔ m.Awake k ∨ k = m.fresh := by
  by_cases hk : k = root
  · simp only [Awake, hk, hroot.ne, or_false]
    rfl
  · simp only [Awake, if_neg hk, spawn, List.mem_append, List.mem_singleton]

end Spawn

section BranchTasks

variable {branch : Nat → Activity} {n : Nat} {items : List Nat}

theorem map_fst_branchTasks :
    (branchTasks p branch n items).map Prod.fst = List.range' n items.length := by
  induction items generalizing n with
  | nil => rfl
  | cons item items ih => simp [branchTasks, List.range'_succ, ih]

theorem of_mem_branchTasks (h : (k, t) ∈ branchTasks p branch n items) :
    ∃ item ∈ items, t = ⟨some (p, item), .paused (.activity (branch item)), false⟩ := by
  induction items generalizing n with
  | nil => simp [branchTasks] at h
  | cons item items ih =>
    rcases List.mem_cons.mp h with heq | hmem
    · exact ⟨item, List.mem_cons_self, (Prod.mk.inj heq).2⟩
    · obtain ⟨j, hj, rfl⟩ := ih hmem
      exact ⟨j, List.mem_cons_of_mem _ hj, rfl⟩

theorem exists_mem_branchTasks {item : Nat} (p : Nat) (branch : Nat → Activity) (n : Nat)
    (h : item ∈ items) :
    ∃ k, (k, ⟨some (p, item), .paused (.activity (branch item)), false⟩) ∈
      branchTasks p branch n items := by
  induction items generalizing n with
  | nil => cases h
  | cons first items ih =>
    rcases List.mem_cons.mp h with rfl | h
    · exact ⟨n, List.mem_cons_self⟩
    · obtain ⟨k, hk⟩ := ih (n + 1) h
      exact ⟨k, List.mem_cons_of_mem _ hk⟩

theorem filterMap_itemIn_branchTasks {q : Nat} :
    (branchTasks p branch n items).filterMap (fun e => itemIn q e.2) =
      if q = p then items else [] := by
  induction items generalizing n with
  | nil => simp [branchTasks]
  | cons item items ih =>
    rw [branchTasks, List.filterMap_cons, ih]
    by_cases h : q = p
    · subst h; simp [itemIn]
    · have hne : p ≠ q := fun heq => h heq.symm
      simp [itemIn, h, hne]

end BranchTasks

section TakeIn

variable {f : Fork}

theorem takeIn_eq (f : Fork) (m : Machine σ) :
    m.takeIn id f =
      { m.setState id (.joining f.filled) with
        tasks := (m.setState id (.joining f.filled)).tasks ++
          branchTasks id f.branch m.fresh f.nextItems
        fresh := m.fresh + f.nextItems.length
        ready := m.ready ++ List.range' m.fresh f.nextItems.length } :=
  foldl_spawn id f.branch f.nextItems (m.setState id (.joining f.filled))

@[simp] theorem takeIn_world : (m.takeIn id f).world = m.world := by
  rw [takeIn_eq]; rfl

@[simp] theorem takeIn_sleepers : (m.takeIn id f).sleepers = m.sleepers := by
  rw [takeIn_eq]; rfl

@[simp] theorem takeIn_ending : (m.takeIn id f).ending = m.ending := by
  rw [takeIn_eq]; rfl

@[simp] theorem takeIn_rootReady : (m.takeIn id f).rootReady = m.rootReady := by
  rw [takeIn_eq]; rfl

theorem takeIn_fresh : (m.takeIn id f).fresh = m.fresh + f.nextItems.length := by
  rw [takeIn_eq]

theorem takeIn_ready :
    (m.takeIn id f).ready = m.ready ++ List.range' m.fresh f.nextItems.length := by
  rw [takeIn_eq]

theorem takeIn_tasks :
    (m.takeIn id f).tasks = (m.setState id (.joining f.filled)).tasks ++
      branchTasks id f.branch m.fresh f.nextItems := by
  rw [takeIn_eq]

theorem map_fst_takeIn :
    (m.takeIn id f).tasks.map Prod.fst =
      m.tasks.map Prod.fst ++ List.range' m.fresh f.nextItems.length := by
  rw [takeIn_tasks, List.map_append, map_fst_branchTasks, setState, map_fst_modifyTask]

theorem itemsOf_takeIn :
    (m.takeIn id f).itemsOf p = m.itemsOf p ++ if p = id then f.nextItems else [] := by
  have hset : (m.setState id (.joining f.filled)).itemsOf p = m.itemsOf p := itemsOf_setState _
  rw [← hset]
  unfold itemsOf
  rw [takeIn_tasks, List.filterMap_append, filterMap_itemIn_branchTasks]

theorem lookup_takeIn_of_some
    (h : (m.setState id (.joining f.filled)).tasks.lookup k = some t) :
    (m.takeIn id f).tasks.lookup k = some t := by
  rw [takeIn_tasks, List.lookup_append, h, Option.some_or]

/-- A task is an old one, or the branch of a new item. -/
theorem of_lookup_takeIn (h : (m.takeIn id f).tasks.lookup k = some t) :
    (m.setState id (.joining f.filled)).tasks.lookup k = some t ∨
      (m.fresh ≤ k ∧ k < m.fresh + f.nextItems.length) ∧ ∃ item ∈ f.nextItems,
        t = ⟨some (id, item), .paused (.activity (f.branch item)), false⟩ := by
  rw [takeIn_tasks, List.lookup_append, Option.or_eq_some_iff] at h
  refine h.imp_right fun ⟨_, hnew⟩ => ⟨?_, of_mem_branchTasks (Keyed.mem_of_lookup hnew)⟩
  rw [← List.mem_range'_1, ← map_fst_branchTasks, ← Keyed.isSome_lookup_iff, hnew]
  rfl

theorem awake_takeIn (hroot : root < m.fresh) :
    (m.takeIn id f).Awake k ↔
      m.Awake k ∨ m.fresh ≤ k ∧ k < m.fresh + f.nextItems.length := by
  by_cases hk : k = root
  · simp only [Awake, if_pos hk, takeIn_rootReady]
    exact ⟨.inl, fun h => h.resolve_right fun h => by omega⟩
  · simp only [Awake, if_neg hk, takeIn_ready, List.mem_append, List.mem_range'_1]

end TakeIn

end Machine

end Conveyor
