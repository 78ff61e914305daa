import Conveyor.Proofs.Run.Termination

/-!
# What happens in which order

A run, and what goes on after its end, is made of moves: turns, moves of the clock, and the cut at
the deadline. `Machine.Moves` follows the moves between two machines together with the branches that
are begun by them, in order. What every move preserves holds of all that a run passes through, also
in the middle of a step (`Machine.Proper.leads_run` and `Machine.Proper.leads_settle`).
-/

namespace Conveyor

/-- A branch that was begun: its task, the task that it is a branch of, and its item. -/
structure Begun where
  task : Nat
  parent : Nat
  item : Nat
  deriving DecidableEq, Repr

/-- The items for which a task has begun branches, in order. -/
def itemsBegun (parent : Nat) (history : List Begun) : List Nat :=
  (history.filter (·.parent = parent)).map Begun.item

/-- A task works for an item of the task `p` if it is the branch for it, or a branch of such a
task. -/
inductive WorksFor (history : List Begun) (p item : Nat) : Nat → Prop
  | branch {k : Nat} (h : ⟨k, p, item⟩ ∈ history) : WorksFor history p item k
  | inner {k q i : Nat} (h : ⟨k, q, i⟩ ∈ history) (hq : WorksFor history p item q) :
    WorksFor history p item k

theorem itemsBegun_append {parent : Nat} {history later : List Begun} :
    itemsBegun parent (history ++ later) =
      itemsBegun parent history ++ itemsBegun parent later := by
  simp only [itemsBegun, List.filter_append, List.map_append]

theorem WorksFor.mono {history later : List Begun} {p item k : Nat}
    (h : WorksFor history p item k) : WorksFor (history ++ later) p item k := by
  induction h with
  | branch h => exact .branch (List.mem_append_left _ h)
  | inner h _ ih => exact .inner (List.mem_append_left _ h) ih

/-- The item that a task works for was begun. -/
theorem WorksFor.mem_itemsBegun {history : List Begun} {p item k : Nat}
    (h : WorksFor history p item k) : item ∈ itemsBegun p history := by
  induction h with
  | branch h => exact List.mem_map.mpr ⟨_, List.mem_filter.mpr ⟨h, decide_eq_true rfl⟩, rfl⟩
  | inner _ _ ih => exact ih

namespace Machine

variable {P : Nat → Nat → (Nat → Activity) → Prop} {σ : Type} {adapter : Adapter σ}
  {deadline : Option Nat} {id k : Nat} {m m' m'' m₀ m₁ : Machine σ} {t : Task} {h : Halt}
  {history later : List Begun}

/-! ### The branches that are begun -/

/-- The branch with this number, if it is at least `fresh`. -/
def begunFrom (fresh : Nat) (e : Nat × Task) : Option Begun :=
  if fresh ≤ e.1 then e.2.parent.map fun p => ⟨e.1, p.1, p.2⟩ else none

/-- The branches that are begun from one machine to the next. -/
def begun (m m' : Machine σ) : List Begun :=
  m'.tasks.filterMap (begunFrom m.fresh)

theorem filterMap_begunFrom_of_lt {fresh : Nat} {tasks : List (Nat × Task)}
    (h : ∀ e ∈ tasks, e.1 < fresh) : tasks.filterMap (begunFrom fresh) = [] := by
  refine List.filterMap_eq_nil_iff.mpr fun e he => ?_
  exact if_neg (Nat.not_le.mpr (h e he))

/-- If no number is given away, no branch is begun. -/
theorem begun_eq_nil {running : Option Nat} (hm : Sound running m') (h : m'.fresh ≤ m.fresh) :
    begun m m' = [] :=
  filterMap_begunFrom_of_lt fun e he =>
    (hm.lt_fresh e.1 e.2 (Keyed.lookup_of_mem hm.keys_nodup he)).trans_le h

/-- The branches of a task for items, with numbers from `n` on. -/
def newcomers (p : Nat) : Nat → List Nat → List Begun
  | _, [] => []
  | n, item :: items => ⟨n, p, item⟩ :: newcomers p (n + 1) items

theorem itemsBegun_newcomers {p q n : Nat} {items : List Nat} :
    itemsBegun q (newcomers p n items) = if q = p then items else [] := by
  induction items generalizing n with
  | nil => simp [newcomers, itemsBegun]
  | cons item items ih =>
    have hcons : itemsBegun q (newcomers p n (item :: items)) =
        (if p = q then [item] else []) ++ itemsBegun q (newcomers p (n + 1) items) := by
      by_cases hpq : p = q <;> simp [newcomers, itemsBegun, hpq]
    rw [hcons, ih]
    by_cases hpq : p = q
    · simp [hpq]
    · have hqp : ¬ q = p := fun h => hpq h.symm
      simp [hpq, hqp]

theorem filterMap_begunFrom_branchTasks {p fresh n : Nat} {branch : Nat → Activity}
    {items : List Nat} (h : fresh ≤ n) :
    (branchTasks p branch n items).filterMap (begunFrom fresh) = newcomers p n items := by
  induction items generalizing n with
  | nil => rfl
  | cons item items ih =>
    rw [branchTasks, List.filterMap_cons, ih (Nat.le_succ_of_le h), begunFrom, if_pos h]
    rfl

/-- A task that was not there is the branch that was begun. -/
theorem mem_begun {p item : Nat} (ht : m'.tasks.lookup k = some t) (hk : m.fresh ≤ k)
    (hp : t.parent = some (p, item)) : ⟨k, p, item⟩ ∈ begun m m' := by
  refine List.mem_filterMap.mpr ⟨(k, t), Keyed.mem_of_lookup ht, ?_⟩
  rw [begunFrom, if_pos hk, hp]
  rfl

/-- The branches that a task begins that halts. -/
def newcomersOf (id fresh : Nat) : Halt → List Begun
  | .forked f => newcomers id fresh f.nextItems
  | _ => []

theorem Acting.begun_eq (ha : Acting P adapter m id m₀ t h m₁) :
    begun m (m₁.halt id h) = newcomersOf id m.fresh h := by
  have hfresh : m₁.fresh = m.fresh := ha.acts.fresh.trans ha.takes.fresh
  cases h with
  | done result =>
    have hsame : (m₁.finish id result).fresh = m₁.fresh :=
      finish_fresh ha.lookup_acted fun hid => (ha.sound_acted.root t (hid ▸ ha.lookup_acted)).1
    exact begun_eq_nil ha.proper.sound (hsame.trans hfresh).le
  | asleep ms r => exact begun_eq_nil ha.proper.sound hfresh.le
  | forked f =>
    have hold : ∀ e ∈ (m₁.setState id (.joining f.filled)).tasks, e.1 < m.fresh := by
      intro e he
      have hkey : e.1 ∈ (m₁.setState id (.joining f.filled)).tasks.map Prod.fst :=
        List.mem_map_of_mem he
      rw [setState, map_fst_modifyTask] at hkey
      obtain ⟨t, ht⟩ := Option.isSome_iff_exists.mp (Keyed.isSome_lookup_iff.mpr hkey)
      exact hfresh ▸ ha.sound_acted.lt_fresh e.1 t ht
    rw [begun, halt, takeIn_tasks, List.filterMap_append, filterMap_begunFrom_of_lt hold,
      List.nil_append, filterMap_begunFrom_branchTasks hfresh.ge, hfresh]
    rfl

/-- Only the task whose turn it is begins branches. -/
theorem Acting.itemsBegun_eq (ha : Acting P adapter m id m₀ t h m₁) {p : Nat} :
    itemsBegun p (begun m (m₁.halt id h)) =
      if p = id then (match h with | .forked f => f.nextItems | _ => []) else [] := by
  rw [ha.begun_eq]
  cases h with
  | forked f => exact itemsBegun_newcomers
  | _ => exact (ite_self _).symm

/-! ### Moves -/

/-- What happens to a machine at once. -/
inductive Move (adapter : Adapter σ) : Machine σ → Machine σ → Prop
  | turn {m m₀ : Machine σ} {id : Nat} (h : Takes m id m₀) : Move adapter m (m₀.turn adapter id)
  | wakeAt {m : Machine σ} {time : Nat} (h : ∀ s ∈ m.sleepers, time ≤ s.1) :
    Move adapter m (m.wakeAt time)
  | cut {m : Machine σ} (h : m.ending = none) : Move adapter m m.cut

/-- What happens to a machine one after another, with the branches that are begun. -/
inductive Moves (adapter : Adapter σ) (m : Machine σ) : List Begun → Machine σ → Prop
  | refl : Moves adapter m [] m
  | tail {history : List Begun} {m' m'' : Machine σ} (h : Moves adapter m history m')
    (hmove : Move adapter m' m'') : Moves adapter m (history ++ begun m' m'') m''

theorem Moves.trans (h : Moves adapter m history m') (h' : Moves adapter m' later m'') :
    Moves adapter m (history ++ later) m'' := by
  induction h' with
  | refl => rwa [List.append_nil]
  | tail _ hmove ih => exact List.append_assoc .. ▸ .tail ih hmove

theorem Move.proper (hm : Proper P m) (h : Move adapter m m') : Proper P m' := by
  cases h with
  | turn h => exact hm.turn h
  | wakeAt h => exact hm.wakeAt h
  | cut h => exact hm.cut h

theorem Moves.proper (hm : Proper P m) (h : Moves adapter m history m') : Proper P m' := by
  induction h with
  | refl => exact hm
  | tail _ hmove ih => exact hmove.proper ih

/-- What every move preserves holds of all that is passed through. -/
theorem Moves.preserves {I : List Begun → Machine σ → Prop} (hm : Proper P m)
    (move : ∀ history m' m'', Proper P m' → Move adapter m' m'' → I history m' →
      I (history ++ begun m' m'') m'')
    (h : Moves adapter m history m') (hI : I [] m) : I history m' := by
  induction h with
  | refl => exact hI
  | tail h hmove ih => exact move _ _ _ (h.proper hm) hmove ih

/-- A move of the clock begins no branches. -/
theorem begun_wakeAt {time : Nat} (hm : Sound none m) (h : ∀ s ∈ m.sleepers, time ≤ s.1) :
    begun m (m.wakeAt time) = [] :=
  begun_eq_nil (hm.wakeAt h) wakeAt_fresh.le

theorem begun_cut (hm : Sound none m) (h : m.ending = none) : begun m m.cut = [] :=
  begun_eq_nil (hm.cut h) (drop_fresh (m := m)).le

/-! ### Runs are made of moves -/

/-- Moves lead from one machine to the other. -/
def Leads (adapter : Adapter σ) (m m' : Machine σ) : Prop :=
  ∃ history, Moves adapter m history m'

theorem Leads.refl : Leads adapter m m :=
  ⟨[], .refl⟩

theorem Leads.move (h : Leads adapter m m') (hmove : Move adapter m' m'') :
    Leads adapter m m'' := by
  obtain ⟨history, h⟩ := h
  exact ⟨_, h.tail hmove⟩

/-- Every step of a run is made of moves. -/
theorem Leads.step (h : Leads adapter m m') : Leads adapter m (m'.step adapter deadline) :=
  step_induction (P := Leads adapter m) (fun _ _ _ h htakes => h.move (.turn htakes))
    (fun _ _ h _ hle _ => h.move (.wakeAt hle)) (fun _ h he _ => h.move (.cut he)) h

/-- A step after the end is a move. -/
theorem move_of_settleStep {time : Nat} (hs : m.settleStep adapter time = some m') :
    Move adapter m m' := by
  unfold settleStep at hs
  split at hs
  · exact Option.some.inj hs ▸ .turn (.branch ‹_›)
  · simp only [Option.map_eq_some_iff, Option.filter_eq_some_iff] at hs
    obtain ⟨next, ⟨hnext, -⟩, rfl⟩ := hs
    exact .wakeAt (nextWake_eq_some_iff.mp hnext).2

theorem Leads.settleStep {time : Nat} (h : Leads adapter m m')
    (hs : m'.settleStep adapter time = some m'') : Leads adapter m m'' :=
  h.move (move_of_settleStep hs)

/-- A run is made of moves. -/
theorem Proper.leads_run (hm : Proper P m) : Leads adapter m (m.run adapter deadline) :=
  hm.run_preserves (fun _ _ _ h => h.step) .refl

/-- What goes on after the end of a run is made of moves. -/
theorem Proper.leads_settle (hm : Proper P m) (ms : Nat) : Leads adapter m (m.settle adapter ms) :=
  hm.settle_preserves (fun _ _ _ _ hs h => h.settleStep hs) .refl ms

end Machine

end Conveyor
