import Conveyor.Proofs.Run.Aftermath
import Conveyor.Proofs.Run.Stepwise

/-!
# What holds of the adapter all along

Assertions on the state of the adapter, one for each position of the pipeline at the top: `A i` is
meant to hold while the step at the position `i` is at work. The root may give up an assertion only
by getting to a further position, for the assertion there (`Activity.Upholds`). Between its calls
other tasks may change the state in any way that leaves the assertion true. A branch never gets the
pipeline at the top anywhere, but may outlive its map; it has to keep the assertions of all
positions from that of its map on (`Activity.Keeps`).

These are conditions on the activity alone. They are enough for the assertions to hold at every
moment (`Machine.Moment.meets`), also between two calls of one turn and after the end of the root,
whatever the order of the turns is and whenever the run is cut.
-/

namespace Conveyor

/-! ### The rules -/

section Rules

variable {σ : Type} (adapter : Adapter σ)

/-- Every call of an activity and of its branches preserves `K`. -/
def Activity.Keeps (K : σ → Prop) : Activity → Prop
  | .done _ => True
  | .note _ next => next.Keeps K
  | .call operation input next =>
    (∀ number s, K s → K (adapter.answer number operation input s).2) ∧ ∀ r, (next r).Keeps K
  | .pause _ next => next.Keeps K
  | .fork _ _ branch next => (∀ item, (branch item).Keeps K) ∧ ∀ r, (next r).Keeps K

/-- What is left to do after a pause preserves `K`. -/
def Resumption.Keeps (K : σ → Prop) : Resumption → Prop
  | .activity a => a.Keeps adapter K
  | .answer number operation input next =>
    (∀ s, K s → K (adapter.answer number operation input s).2) ∧ ∀ r, (next r).Keeps adapter K

/-- What is left to do of a fork preserves `K`. -/
def Fork.Keeps (K : σ → Prop) (f : Fork) : Prop :=
  (∀ item, (f.branch item).Keeps adapter K) ∧ ∀ r, (f.next r).Keeps adapter K

/-- What is left to do of a task preserves `K`. -/
def TaskState.Keeps (K : σ → Prop) : TaskState → Prop
  | .paused r => r.Keeps adapter K
  | .joining f => f.Keeps adapter K

/-- What is left to do after a turn preserves `K`. -/
def Halt.Keeps (K : σ → Prop) : Halt → Prop
  | .done _ => True
  | .asleep _ r => r.Keeps adapter K
  | .forked f => f.Keeps adapter K

/-- From a position and a state on, an activity of the root makes the assertion of each position
true that it gets to, and keeps it true. Others may act on the state while it waits. -/
def Activity.Upholds (A : Nat → σ → Prop) : Activity → Nat → σ → Prop
  | .done _, i, s => A i s
  | .note (.reached j _) next, i, s => A i s ∧ i ≤ j ∧ next.Upholds A j s
  | .note _ next, i, s => next.Upholds A i s
  | .call operation input next, i, s =>
    A i s ∧ ∀ number s', A i s' →
      (next (adapter.answer number operation input s').1.1).Upholds A i
        (adapter.answer number operation input s').2
  | .pause _ next, i, s => A i s ∧ ∀ s', A i s' → next.Upholds A i s'
  | .fork _ _ branch next, i, s =>
    A i s ∧ (∀ item j, i ≤ j → (branch item).Keeps adapter (A j)) ∧
      ∀ r s', A i s' → (next r).Upholds A i s'

/-- What is left to do of the root after a pause upholds the assertions. -/
def Resumption.Upholds (A : Nat → σ → Prop) (i : Nat) : Resumption → Prop
  | .activity a => ∀ s, A i s → a.Upholds adapter A i s
  | .answer number operation input next => ∀ s, A i s →
    (next (adapter.answer number operation input s).1.1).Upholds adapter A i
      (adapter.answer number operation input s).2

/-- What is left to do of a fork of the root upholds the assertions. -/
def Fork.Upholds (A : Nat → σ → Prop) (i : Nat) (f : Fork) : Prop :=
  (∀ item j, i ≤ j → (f.branch item).Keeps adapter (A j)) ∧
    ∀ r s, A i s → (f.next r).Upholds adapter A i s

/-- What is left to do of the root upholds the assertions. -/
def TaskState.Upholds (A : Nat → σ → Prop) (i : Nat) : TaskState → Prop
  | .paused r => r.Upholds adapter A i
  | .joining f => f.Upholds adapter A i

/-- What is left to do of the root after its turn upholds the assertions. -/
def Halt.Upholds (A : Nat → σ → Prop) (i : Nat) : Halt → Prop
  | .done _ => True
  | .asleep _ r => r.Upholds adapter A i
  | .forked f => f.Upholds adapter A i

/-- The assertion of the position that the pipeline at the top has reached is true. -/
def World.Meets (A : Nat → σ → Prop) (w : World σ) : Prop :=
  A w.reached.1 w.state

/-- The worlds that an activity passes through in one turn. -/
def Activity.worlds (top : Bool) : Activity → World σ → List (World σ)
  | .done _, w => [w]
  | .note n next, w => w :: next.worlds top (w.note top n)
  | .pause ms next, w => if ms = 0 then next.worlds top w else [w]
  | .call operation input next, w =>
    let number := w.callCount operation + 1
    let begun := w.beginCall operation input
    if adapter.delay operation input = 0 then
      let (result, answered) := begun.answer adapter number operation input
      w :: begun :: (next result).worlds top answered
    else [w, begun]
  | .fork count _ _ next, w => if count = 0 then (next (.ok [])).worlds top w else [w]

end Rules

/-! ### One turn -/

section Turn

variable {σ : Type} {adapter : Adapter σ} {A : Nat → σ → Prop} {K : σ → Prop}

/-- A turn ends in one of the worlds that it passes through. -/
theorem Activity.advance_mem_worlds (a : Activity) (top : Bool) (w : World σ) :
    (a.advance adapter top w).2 ∈ a.worlds adapter top w := by
  induction a generalizing w with
  | done result => exact List.mem_singleton_self w
  | note n next ih => exact List.mem_cons_of_mem _ (ih _)
  | pause ms next ih =>
    unfold advance worlds
    split
    · exact ih w
    · exact List.mem_singleton_self w
  | call operation input next ih =>
    unfold advance worlds
    dsimp only
    split
    · exact List.mem_cons_of_mem _ (List.mem_cons_of_mem _ (ih _ _))
    · exact List.mem_cons_of_mem _ (List.mem_singleton_self _)
  | fork count limit branch next _ ih =>
    unfold advance worlds
    split
    · exact ih _ w
    · exact List.mem_singleton_self w

namespace Activity

theorem mem_worlds_pause {ms : Nat} {next : Activity} {top : Bool} {w w' : World σ}
    (hw' : w' ∈ (Activity.pause ms next).worlds adapter top w) :
    w' = w ∨ w' ∈ next.worlds adapter top w := by
  unfold worlds at hw'
  split at hw'
  · exact .inr hw'
  · exact .inl (List.mem_singleton.mp hw')

theorem mem_worlds_fork {count limit : Nat} {branch : Nat → Activity}
    {next : Except Collapse (List Json) → Activity} {top : Bool} {w w' : World σ}
    (hw' : w' ∈ (Activity.fork count limit branch next).worlds adapter top w) :
    w' = w ∨ w' ∈ (next (.ok [])).worlds adapter top w := by
  unfold worlds at hw'
  split at hw'
  · exact .inr hw'
  · exact .inl (List.mem_singleton.mp hw')

/-- A call is made in the world as it is and in the one where it has begun; only if it takes no time
does the turn go on. -/
theorem mem_worlds_call {operation : String} {input : Json}
    {next : Except CallError Json → Activity} {top : Bool} {w w' : World σ}
    (hw' : w' ∈ (Activity.call operation input next).worlds adapter top w) :
    w' = w ∨ w' = w.beginCall operation input ∨
      w' ∈ (next ((w.beginCall operation input).answer adapter (w.callCount operation + 1) operation
          input).1).worlds adapter top
        ((w.beginCall operation input).answer adapter (w.callCount operation + 1) operation
          input).2 := by
  unfold worlds at hw'
  dsimp only at hw'
  split at hw'
  · rcases List.mem_cons.mp hw' with hw' | hw'
    · exact .inl hw'
    · exact .inr (List.mem_cons.mp hw')
  · rcases List.mem_cons.mp hw' with hw' | hw'
    · exact .inl hw'
    · exact .inr (.inl (List.mem_singleton.mp hw'))

theorem Upholds.start {a : Activity} {i : Nat} {s : σ} (ha : a.Upholds adapter A i s) :
    A i s := by
  induction a with
  | note n next ih =>
    cases n with
    | reached j context => exact ha.1
    | _ => exact ih ha
  | done result => exact ha
  | _ => exact ha.1

/-- The root upholds the assertions in its turn. -/
theorem Upholds.worlds {a : Activity} {w w' : World σ}
    (ha : a.Upholds adapter A w.reached.1 w.state) (hw' : w' ∈ a.worlds adapter true w) :
    w'.Meets A := by
  induction a generalizing w with
  | done result => exact List.mem_singleton.mp hw' ▸ ha
  | note n next ih =>
    rcases List.mem_cons.mp hw' with rfl | hnext
    · exact ha.start
    · cases n with
      | reached j context => exact ih (w := w.note true (.reached j context)) ha.2.2 hnext
      | event id kind => exact ih (w := w.note true (.event id kind)) ha hnext
      | line line => exact ih (w := w.note true (.line line)) ha hnext
  | pause ms next ih =>
    rcases mem_worlds_pause hw' with rfl | hnext
    · exact ha.1
    · exact ih (ha.2 _ ha.1) hnext
  | call operation input next ih =>
    -- the state is the same when the call has begun, and the answer is that of the adapter
    rcases mem_worlds_call hw' with rfl | rfl | hnext
    · exact ha.1
    · exact ha.1
    · exact ih _ (ha.2 _ _ ha.1) hnext
  | fork count limit branch next _ ih =>
    rcases mem_worlds_fork hw' with rfl | hnext
    · exact ha.1
    · exact ih _ (ha.2.2 _ _ ha.1) hnext

/-- What the root has left to do after its turn upholds the assertions. -/
theorem Upholds.advance {a : Activity} {w : World σ}
    (ha : a.Upholds adapter A w.reached.1 w.state) :
    (a.advance adapter true w).1.Upholds adapter A (a.advance adapter true w).2.reached.1 ∧
      w.reached.1 ≤ (a.advance adapter true w).2.reached.1 := by
  induction a generalizing w with
  | done result => exact ⟨trivial, le_rfl⟩
  | note n next ih =>
    cases n with
    | reached j context =>
      obtain ⟨hnext, hle⟩ := ih (w := w.note true (.reached j context)) ha.2.2
      exact ⟨hnext, ha.2.1.trans hle⟩
    | event id kind => exact ih (w := w.note true (.event id kind)) ha
    | line line => exact ih (w := w.note true (.line line)) ha
  | pause ms next ih =>
    unfold Activity.advance
    split
    · exact ih (ha.2 _ ha.1)
    · exact ⟨ha.2, le_rfl⟩
  | call operation input next ih =>
    unfold Activity.advance
    dsimp only
    split
    · exact ih _ (w := (World.answer adapter _ operation input (w.beginCall operation input)).2)
        (ha.2 _ _ ha.1)
    · exact ⟨ha.2 _, le_rfl⟩
  | fork count limit branch next _ ih =>
    unfold Activity.advance
    split
    · exact ih _ (ha.2.2 _ _ ha.1)
    · exact ⟨ha.2, le_rfl⟩

/-- A branch keeps an assertion in its turn. -/
theorem Keeps.worlds {a : Activity} (ha : a.Keeps adapter K) {top : Bool} {w w' : World σ}
    (hw : K w.state) (hw' : w' ∈ a.worlds adapter top w) : K w'.state := by
  induction a generalizing w with
  | done result => exact List.mem_singleton.mp hw' ▸ hw
  | note n next ih =>
    rcases List.mem_cons.mp hw' with rfl | hnext
    · exact hw
    · exact ih ha ((World.state_note n w).symm ▸ hw) hnext
  | pause ms next ih =>
    rcases mem_worlds_pause hw' with rfl | hnext
    · exact hw
    · exact ih ha hw hnext
  | call operation input next ih =>
    rcases mem_worlds_call hw' with rfl | rfl | hnext
    · exact hw
    · exact hw
    · exact ih _ (ha.2 _) (ha.1 _ _ hw) hnext
  | fork count limit branch next _ ih =>
    rcases mem_worlds_fork hw' with rfl | hnext
    · exact hw
    · exact ih _ (ha.2 _) hw hnext

/-- What a branch has left to do after its turn keeps an assertion. -/
theorem Keeps.advance {a : Activity} (ha : a.Keeps adapter K) (top : Bool) (w : World σ) :
    (a.advance adapter top w).1.Keeps adapter K := by
  induction a generalizing w with
  | done result => trivial
  | note n next ih => exact ih ha _
  | pause ms next ih =>
    unfold Activity.advance
    split
    · exact ih ha w
    · exact ha
  | call operation input next ih =>
    unfold Activity.advance
    dsimp only
    split
    · exact ih _ (ha.2 _) _
    · exact ⟨ha.1 _, ha.2⟩
  | fork count limit branch next _ ih =>
    unfold Activity.advance
    split
    · exact ih _ (ha.2 _) w
    · exact ha

/-- A branch does not get the pipeline at the top anywhere. -/
theorem reached_worlds {a : Activity} {w w' : World σ} (hw' : w' ∈ a.worlds adapter false w) :
    w'.reached = w.reached := by
  induction a generalizing w with
  | note n next ih =>
    rcases List.mem_cons.mp hw' with rfl | hnext
    · rfl
    · exact (ih hnext).trans (by cases n <;> rfl)
  | pause ms next ih =>
    rcases mem_worlds_pause hw' with rfl | hnext
    · rfl
    · exact ih hnext
  | call operation input next ih =>
    rcases mem_worlds_call hw' with rfl | rfl | hnext
    · rfl
    · rfl
    · exact (ih _ hnext).trans rfl
  | fork count limit branch next _ ih =>
    rcases mem_worlds_fork hw' with rfl | hnext
    · rfl
    · exact ih _ hnext
  | done result => rw [List.mem_singleton.mp hw']

end Activity

end Turn

namespace Machine

variable {P : Nat → Nat → (Nat → Activity) → Prop} {σ : Type} {adapter : Adapter σ}
  {A : Nat → σ → Prop} {K : σ → Prop} {id : Nat} {m m' m₀ m₁ : Machine σ} {s : TaskState}
  {a : Activity} {h : Halt} {t t' : Task} {w : World σ}

/-! ### The turn of a task -/

theorem Resumes.reached (hr : Resumes adapter id m s a m₁) :
    m₁.world.reached = m.world.reached := by
  cases hr with
  | pause r => cases r <;> rfl
  | _ => rfl

theorem Resumes.upholds (hr : Resumes adapter root m s a m₁)
    (hs : s.Upholds adapter A m.world.reached.1) (hA : m.world.Meets A) :
    a.Upholds adapter A m₁.world.reached.1 m₁.world.state := by
  cases hr with
  | pause r =>
    cases r with
    | activity a => exact hs _ hA
    | answer number operation input next => exact hs _ hA
  | collapse hf => exact hs.2 _ _ hA
  | complete hf hover =>
    obtain ⟨outputs, -, rfl⟩ := Fork.of_gather_eq_ok hf
    exact hs.2 _ _ hA

theorem Resumes.keeps (hr : Resumes adapter id m s a m₁) (hs : s.Keeps adapter K) :
    a.Keeps adapter K ∧ (K m.world.state → K m₁.world.state) := by
  cases hr with
  | pause r =>
    cases r with
    | activity a => exact ⟨hs, fun hK => hK⟩
    | answer number operation input next => exact ⟨hs.2 _, hs.1 _⟩
  | collapse hf => exact ⟨hs.2 _, fun hK => hK⟩
  | complete hf hover =>
    obtain ⟨outputs, -, rfl⟩ := Fork.of_gather_eq_ok hf
    exact ⟨hs.2 _, fun hK => hK⟩

theorem Acts.upholds (hacts : Acts adapter root m s h m₁)
    (hs : s.Upholds adapter A m.world.reached.1) (hA : m.world.Meets A) :
    h.Upholds adapter A m₁.world.reached.1 ∧ m.world.reached.1 ≤ m₁.world.reached.1 ∧
      m₁.world.Meets A := by
  cases hacts with
  | refill hf hover =>
    obtain ⟨outputs, -, rfl⟩ := Fork.of_gather_eq_ok hf
    exact ⟨hs, le_rfl, hA⟩
  | @advance _ a m₂ hr =>
    have ha := hr.upholds hs hA
    obtain ⟨hhalt, hle⟩ := ha.advance
    exact ⟨hhalt, hr.reached ▸ hle, ha.worlds (a.advance_mem_worlds true m₂.world)⟩

theorem Acts.keeps (hacts : Acts adapter id m s h m₁) (hs : s.Keeps adapter K) :
    h.Keeps adapter K ∧ (K m.world.state → K m₁.world.state) := by
  cases hacts with
  | refill hf hover =>
    obtain ⟨outputs, -, rfl⟩ := Fork.of_gather_eq_ok hf
    exact ⟨hs, fun hK => hK⟩
  | advance hr =>
    obtain ⟨ha, hstate⟩ := hr.keeps hs
    exact ⟨ha.advance _ _, fun hK => ha.worlds (hstate hK) (Activity.advance_mem_worlds _ _ _)⟩

/-- A task that has received a result upholds what it did before. -/
theorem Kept.upholds {item : Option Nat} {i : Nat} (hkept : Kept id item h t t')
    (ht : t.state.Upholds adapter A i) : t'.state.Upholds adapter A i := by
  cases hs : t.state with
  | paused r => rw [hkept.paused r hs]; exact hs ▸ ht
  | joining f => rw [hs] at ht; rw [hkept.joining f hs]; exact ht

@[inherit_doc Kept.upholds]
theorem Kept.keeps {item : Option Nat} (hkept : Kept id item h t t')
    (ht : t.state.Keeps adapter K) : t'.state.Keeps adapter K := by
  cases hs : t.state with
  | paused r => rw [hkept.paused r hs]; exact hs ▸ ht
  | joining f => rw [hs] at ht; rw [hkept.joining f hs]; exact ht

theorem upholds_of_state? {i : Nat} (hh : h.Upholds adapter A i) (hs : h.state? = some s) :
    s.Upholds adapter A i := by
  cases h with
  | done result => cases hs
  | asleep ms r => exact Option.some.inj hs ▸ hh
  | forked f => exact Option.some.inj hs ▸ hh

theorem keeps_of_state? (hh : h.Keeps adapter K) (hs : h.state? = some s) : s.Keeps adapter K := by
  cases h with
  | done result => cases hs
  | asleep ms r => exact Option.some.inj hs ▸ hh
  | forked f => exact Option.some.inj hs ▸ hh

/-! ### Guarded machines -/

/-- The assertion of the position that is reached is true; the root upholds the assertions, and all
other tasks keep those that may still count. -/
structure Guarded (adapter : Adapter σ) (A : Nat → σ → Prop) (m : Machine σ) : Prop where
  meets : m.world.Meets A
  root (t : Task) (ht : m.tasks.lookup Machine.root = some t) :
    t.state.Upholds adapter A m.world.reached.1
  branch (k : Nat) (t : Task) (hk : k ≠ Machine.root) (ht : m.tasks.lookup k = some t) (j : Nat)
    (hj : m.world.reached.1 ≤ j) : t.state.Keeps adapter (A j)

namespace Guarded

theorem beginning {fresh : Nat} (ha : a.Upholds adapter A w.reached.1 w.state)
    (hstart : ∀ s, A w.reached.1 s → a.Upholds adapter A w.reached.1 s) :
    Guarded adapter A (beginning w fresh a) where
  meets := ha.start
  root t ht := by
    rw [lookup_beginning, if_pos rfl] at ht
    exact Option.some.inj ht ▸ hstart
  branch k t hk ht := by
    rw [lookup_beginning, if_neg hk] at ht
    cases ht

/-- The tasks and the world count, but neither the clock nor what is recorded. -/
theorem of_tasks (hm : Guarded adapter A m) (htasks : m'.tasks = m.tasks)
    (hreached : m'.world.reached = m.world.reached) (hstate : m'.world.state = m.world.state) :
    Guarded adapter A m' where
  meets := by
    unfold World.Meets
    rw [hreached, hstate]
    exact hm.meets
  root t ht := hreached ▸ hm.root t (htasks ▸ ht)
  branch k t hk ht j hj := hm.branch k t hk (htasks ▸ ht) j (hreached ▸ hj)

theorem drop (hm : Guarded adapter A m) (hn : (m.tasks.map Prod.fst).Nodup) :
    Guarded adapter A (m.drop id) := by
  have hworld : (m.drop id).world = m.world := drop_world
  refine ⟨hworld ▸ hm.meets, fun t ht => ?_, fun k t hk ht j hj => ?_⟩
  all_goals
    obtain ⟨-, t₀, ht₀, rfl⟩ := of_lookup_drop hn ht
    rw [abandoned_state]
  · exact hworld ▸ hm.root t₀ ht₀
  · exact hm.branch k t₀ hk ht₀ j (hworld ▸ hj)

/-- The root gets further in its turn, and the assertions with it. -/
theorem acted_root (hm : Guarded adapter A m₀) (ha : Acting P adapter m Machine.root m₀ t h m₁) :
    Guarded adapter A (m₁.halt Machine.root h) := by
  obtain ⟨hhalt, hle, hmeets⟩ := ha.acts.upholds (hm.root t ha.lookup) hm.meets
  have hworld := ha.halt_world
  refine ⟨hworld ▸ hmeets, fun t' ht' => ?_, fun k t' hk ht' j hj => ?_⟩
  · cases ha.after ht' with
    | other hne => exact absurd rfl hne
    | self _ _ _ hstate => exact hworld ▸ upholds_of_state? hhalt hstate
    | new hk => exact absurd ha.sound.root_lt_fresh (Nat.not_lt.mpr hk)
  · -- the positions that still count for a branch are fewer than before
    rw [hworld] at hj
    cases ha.after ht' with
    | other hne ht₀ kept => exact kept.keeps (hm.branch k _ hk ht₀ j (hle.trans hj))
    | self hself => exact absurd hself hk
    | new _ hh _ hbranch =>
      subst hh hbranch
      exact hhalt.1 _ j hj

/-- Another task keeps the assertions in its turn. -/
theorem acted_branch (hm : Guarded adapter A m₀) (ha : Acting P adapter m id m₀ t h m₁)
    (hid : id ≠ Machine.root) : Guarded adapter A (m₁.halt id h) := by
  have hkeeps (j : Nat) (hj : m₀.world.reached.1 ≤ j) := hm.branch id t hid ha.lookup j hj
  have hreached : (m₁.halt id h).world.reached = m₀.world.reached :=
    (congrArg World.reached ha.halt_world).trans (ha.acts.reached hid)
  refine ⟨?_, fun t' ht' => ?_, fun k t' hk ht' j hj => ?_⟩
  · unfold World.Meets
    rw [hreached, ha.halt_world]
    exact (ha.acts.keeps (hkeeps _ le_rfl)).2 hm.meets
  · rw [hreached]
    cases ha.after ht' with
    | other _ ht₀ kept => exact kept.upholds (hm.root _ ht₀)
    | self hself => exact absurd hself.symm hid
    | new hk => exact absurd ha.sound.root_lt_fresh (Nat.not_lt.mpr hk)
  · rw [hreached] at hj
    cases ha.after ht' with
    | other _ ht₀ kept => exact kept.keeps (hm.branch k _ hk ht₀ j hj)
    | self _ _ _ hstate => exact keeps_of_state? (ha.acts.keeps (hkeeps j hj)).1 hstate
    | new _ hh _ hbranch =>
      subst hh hbranch
      exact (ha.acts.keeps (hkeeps j hj)).1.1 _

theorem turn (hm : Guarded adapter A m) (hproper : Proper P m) (htakes : Takes m id m₀) :
    Guarded adapter A (m₀.turn adapter id) := by
  have hm₀ : Guarded adapter A m₀ :=
    hm.of_tasks htakes.tasks (congrArg World.reached htakes.world)
      (congrArg World.state htakes.world)
  refine hproper.turn_cases htakes (fun _ => hm₀) (fun t _ _ hsound => hm₀.drop hsound.keys_nodup)
    fun t h m₁ ha => ?_
  by_cases hid : id = Machine.root
  · subst hid
    exact hm₀.acted_root ha
  · exact hm₀.acted_branch ha hid

theorem move (hm : Guarded adapter A m) (hproper : Proper P m) (hmove : Move adapter m m') :
    Guarded adapter A m' := by
  cases hmove with
  | turn htakes => exact hm.turn hproper htakes
  | wakeAt hle =>
    refine hm.of_tasks wakeAt_tasks ?_ ?_
    all_goals rw [wakeAt_world]
  | cut hending =>
    have hdrop : Guarded adapter A (m.drop Machine.root) := hm.drop hproper.sound.keys_nodup
    exact hdrop.of_tasks rfl rfl rfl

theorem leads (hm : Guarded adapter A m) (hproper : Proper P m) (h : Leads adapter m m') :
    Guarded adapter A m' := by
  obtain ⟨history, hmoves⟩ := h
  exact hmoves.preserves (I := fun _ => Guarded adapter A) hproper
    (fun _ _ _ hproper hmove hm => hm.move hproper hmove) hm

end Guarded

/-! ### Moments -/

/-- The worlds at the moments after `m`: when moves have led to another machine, and amid the turn
of a task. -/
inductive Moment (adapter : Adapter σ) (m : Machine σ) : World σ → Prop
  | rest {m' : Machine σ} (h : Leads adapter m m') : Moment adapter m m'.world
  | amid {m' m₀ m₁ : Machine σ} {id : Nat} {t : Task} {a : Activity} {w : World σ}
      (h : Leads adapter m m') (htakes : Takes m' id m₀) (ht : m₀.tasks.lookup id = some t)
      (hc : t.cancelled = false) (hr : Resumes adapter id m₀ t.state a m₁)
      (hw : w ∈ a.worlds adapter (id = root) m₁.world) : Moment adapter m w

/-- The assertions of a guarded machine are met at every moment. -/
theorem Moment.meets (h : Moment adapter m w) (hproper : Proper P m) (hm : Guarded adapter A m) :
    w.Meets A := by
  cases h with
  | rest h => exact (hm.leads hproper h).meets
  | @amid m' m₀ m₁ id t a _ h htakes ht hc hr hw =>
    have hm₀ : Guarded adapter A m₀ := (hm.leads hproper h).of_tasks htakes.tasks
      (congrArg World.reached htakes.world) (congrArg World.state htakes.world)
    by_cases hid : id = root
    · subst hid
      exact (hr.upholds (hm₀.root t ht) hm₀.meets).worlds hw
    · rw [decide_eq_false hid] at hw
      obtain ⟨ha, hstate⟩ := hr.keeps (hm₀.branch id t hid ht _ le_rfl)
      unfold World.Meets
      rw [Activity.reached_worlds hw, hr.reached]
      exact ha.worlds (hstate hm₀.meets) hw

/-- After its end the pipeline at the top gets no further. -/
theorem Proper.reached_move (hm : Proper P m) (hending : m.ending ≠ none)
    (hmove : Move adapter m m') : m'.world.reached = m.world.reached := by
  cases hmove with
  | @turn m₀ id htakes =>
    have hworld : m₀.world.reached = m.world.reached := congrArg World.reached htakes.world
    refine hm.turn_cases (Q := (·.world.reached = m.world.reached)) htakes (fun _ => hworld)
      (fun t _ _ _ => (congrArg World.reached drop_world).trans hworld) fun t h m₁ ha => ?_
    -- the root is gone, so the turn is one of a branch
    have hid : id ≠ root := by
      rintro rfl
      have hnone := hm.lookup_root_eq_none hending
      rw [← htakes.tasks, ha.lookup] at hnone
      cases hnone
    rw [ha.halt_world]
    exact (ha.acts.reached hid).trans hworld
  | wakeAt hle => rw [wakeAt_world]
  | cut h => exact absurd h hending

theorem Proper.reached_leads (hm : Proper P m) (hending : m.ending ≠ none)
    (h : Leads adapter m m') :
    Proper P m' ∧ m'.ending ≠ none ∧ m'.world.reached = m.world.reached := by
  obtain ⟨history, hmoves⟩ := h
  have hm' := hmoves.proper hm
  refine ⟨hm', hmoves.preserves
    (I := fun _ m' => m'.ending ≠ none ∧ m'.world.reached = m.world.reached) hm
    (fun _ m₁ m₂ hproper hmove h => ?_) ⟨hending, rfl⟩⟩
  exact ⟨hproper.ending_move h.1 hmove ▸ h.1, (hproper.reached_move h.1 hmove).trans h.2⟩

theorem Moment.reached (h : Moment adapter m w) (hm : Proper P m) (hending : m.ending ≠ none) :
    w.reached = m.world.reached := by
  cases h with
  | rest h => exact (hm.reached_leads hending h).2.2
  | @amid m' m₀ m₁ id t a _ h htakes ht hc hr hw =>
    obtain ⟨hm', hending', hreached⟩ := hm.reached_leads hending h
    have hid : id ≠ root := by
      rintro rfl
      have hnone := hm'.lookup_root_eq_none hending'
      rw [← htakes.tasks, ht] at hnone
      cases hnone
    rw [decide_eq_false hid] at hw
    rw [Activity.reached_worlds hw, hr.reached, htakes.world, hreached]

end Machine

end Conveyor
