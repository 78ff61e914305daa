import Conveyor.Proofs.Run.Aftermath
import Conveyor.Proofs.Run.Orphans
import Conveyor.Proofs.Run.Pipelines

/-!
# How a map admits its items

A map begins the branches of its items in order and each of them once. Whenever it waits, as many
items are admitted as its limit allows besides those of which it has the outputs, and one of them at
least is in work. When it meets a failed branch it ends, and no item is admitted any more, while the
branches that were begun go on to their own ends.

`Machine.map_admission` states this of every map that is begun in the run of a pipeline, at the top
or inside of other maps, and of all machines that are passed through until the map ends.
-/

namespace Conveyor

/-- Another state of the same fork. -/
structure Fork.Same (f₀ f : Fork) : Prop where
  count : f.count = f₀.count
  limit : f.limit = f₀.limit

/-- The fork of a map over items. -/
def MapHead.fork (head : MapHead) (iterator : Pipeline) (id : String) (items : List Json)
    (next : Except StepError (List Json) → Activity) : Fork :=
  .ofBranches items.length (head.limit items.length)
    (fun item => iterator.branch id item (items.getD item .null)) (afterBranches id next)

namespace Machine

variable {P : Nat → Nat → (Nat → Activity) → Prop} {σ : Type} {adapter : Adapter σ}
  {id k fresh : Nat} {m m' m₀ m₁ : Machine σ} {t : Task} {h : Halt} {f f₀ : Fork}
  {history later : List Begun}

/-! ### From the beginning of a fork to its end -/

/-- At this turn a task begins a fork. -/
inductive Begins (adapter : Adapter σ) (k : Nat) (f₀ : Fork) (m : Machine σ) : Machine σ → Prop
  | intro {m₀ m₁ : Machine σ} {t : Task} (takes : Takes m k m₀)
    (lookup : m₀.tasks.lookup k = some t) (active : t.cancelled = false)
    (acts : Acts adapter k m₀ t.state (.forked f₀) m₁) :
    Begins adapter k f₀ m (m₀.turn adapter k)

/-- If a task waits, it goes on doing so at its next turn. -/
def StaysWaiting (k : Nat) (m : Machine σ) : Prop :=
  ∀ t f, m.tasks.lookup k = some t → t.state = .joining f →
    ∃ items f', f.loop [] = (items, .waits f')

/-- How far a task has come with its fork: it waits, with the first items admitted, or it is
gone. -/
inductive Admitting (k : Nat) (f₀ : Fork) (history : List Begun) (m : Machine σ) : Prop
  | waiting {t : Task} {f : Fork} (lookup : m.tasks.lookup k = some t)
    (state : t.state = .joining f) (same : f₀.Same f)
    (items : itemsBegun k history = List.range f.admitted)
  | ended {n : Nat} (gone : Gone k m) (hn : n ≤ f₀.count)
    (items : itemsBegun k history = List.range n)

namespace Admitting

/-- The items that are admitted are the first ones. -/
theorem exists_range (hm : Sound none m) (h : Admitting k f₀ history m) :
    ∃ n, n ≤ f₀.count ∧ itemsBegun k history = List.range n := by
  cases h with
  | waiting lookup state same items =>
    exact ⟨_, same.count ▸ (hm.joining k _ _ lookup state nofun).toAccounts.admitted_le, items⟩
  | ended gone hn items => exact ⟨_, hn, items⟩

/-- A task that waits. -/
theorem of_joining (h : Admitting k f₀ history m) (ht : m.tasks.lookup k = some t)
    (hf : t.state = .joining f) :
    f₀.Same f ∧ itemsBegun k history = List.range f.admitted := by
  cases h with
  | waiting lookup state same items =>
    obtain rfl := Option.some.inj (ht.symm.trans lookup)
    obtain rfl := TaskState.joining.inj (hf.symm.trans state)
    exact ⟨same, items⟩
  | ended gone hn items => simp [gone.1] at ht

/-- A task that is gone stays so. -/
private theorem ended_move {n : Nat} (hm : Proper P m) (hmove : Move adapter m m') (gone : Gone k m)
    (hn : n ≤ f₀.count) (items : itemsBegun k history = List.range n) :
    Admitting k f₀ (history ++ begun m m') m' := by
  obtain ⟨hgone, hnil⟩ := gone.move hm hmove
  exact .ended hgone hn (by rw [itemsBegun_append, hnil, List.append_nil, items])

/-- Another task has its turn. -/
private theorem waiting_other (ha : Acting P adapter m id m₀ t h m₁) (hid : k ≠ id) {t₀ : Task}
    (lookup : m.tasks.lookup k = some t₀) (state : t₀.state = .joining f) (same : f₀.Same f)
    (items : itemsBegun k history = List.range f.admitted) :
    Admitting k f₀ (history ++ begun m (m₁.halt id h)) (m₁.halt id h) := by
  obtain ⟨t', ht', hkept⟩ := ha.exists_kept hid (ha.takes.tasks ▸ lookup)
  refine .waiting ht' (hkept.joining f state) ⟨same.count, same.limit⟩ ?_
  rw [itemsBegun_append, ha.itemsBegun_eq, if_neg hid, List.append_nil, items]

/-- The task has its turn, and goes on waiting. -/
private theorem waiting_own (ha : Acting P adapter m k m₀ t h m₁) (hstays : StaysWaiting k m)
    (state : t.state = .joining f) (same : f₀.Same f)
    (items : itemsBegun k history = List.range f.admitted) :
    Admitting k f₀ (history ++ begun m (m₁.halt k h)) (m₁.halt k h) := by
  obtain ⟨_, _, hwaits⟩ := hstays _ _ (ha.takes.tasks ▸ ha.lookup) state
  obtain ⟨f', hf', hnot, -⟩ := Fork.loop_eq_waits_iff.mp hwaits
  have hacts := ha.acts
  rw [state] at hacts
  cases hacts with
  | @refill _ f' hf hover =>
    obtain ⟨outputs, -, rfl⟩ := Fork.of_gather_eq_ok hf
    refine .waiting (lookup_halt_self ha.lookup_acted rfl) rfl ⟨same.count, same.limit⟩ ?_
    rw [itemsBegun_append, ha.itemsBegun_eq, if_pos rfl, items]
    exact Fork.range_append_nextItems _
  | advance hr =>
    cases hr with
    | collapse hf => simp [hf] at hf'
    | complete hf hover =>
      obtain rfl := Except.ok.inj (hf.symm.trans hf')
      exact absurd hover hnot

theorem turn (hm : Proper P m) (htakes : Takes m id m₀) (hstays : id = k → StaysWaiting k m)
    (hk : Admitting k f₀ history m) :
    Admitting k f₀ (history ++ begun m (m₀.turn adapter id)) (m₀.turn adapter id) := by
  cases hk with
  | ended gone hn items => exact ended_move hm (.turn htakes) gone hn items
  | @waiting t₀ f lookup state same items =>
    have hle := (hm.sound.joining k t₀ f lookup state nofun).toAccounts.admitted_le
    refine hm.turn_cases (Q := fun m' => Admitting k f₀ (history ++ begun m m') m') htakes
      (fun hnone => ?_) (fun t ht hc hsound => ?_) fun t halt m₁ ha => ?_
    · rw [begun_eq_nil (hm.sound.skip htakes hnone) htakes.fresh.le, List.append_nil]
      exact .waiting (htakes.tasks ▸ lookup) state same items
    · rw [begun_eq_nil (hsound.drop ht hc) (drop_fresh.trans htakes.fresh).le, List.append_nil]
      have hlookup : (m₀.drop id).tasks.lookup k = _ := lookup_drop hsound.keys_nodup
      by_cases hid : k = id
      · have hlt : k < (m₀.drop id).fresh :=
          (hm.sound.lt_fresh k t₀ lookup).trans_eq (drop_fresh.trans htakes.fresh).symm
        exact .ended ⟨hlookup.trans (if_pos hid), hlt⟩ (same.count ▸ hle) items
      · rw [if_neg hid, htakes.tasks, lookup] at hlookup
        exact .waiting hlookup (abandoned_state.trans state) same items
    · by_cases hid : k = id
      · subst hid
        obtain rfl := Option.some.inj (lookup.symm.trans (ha.takes.tasks ▸ ha.lookup))
        exact waiting_own ha (hstays rfl) state same items
      · exact waiting_other ha hid lookup state same items

theorem wakeAt {time : Nat} (adapter : Adapter σ) (hm : Proper P m)
    (hle : ∀ s ∈ m.sleepers, time ≤ s.1) (hk : Admitting k f₀ history m) :
    Admitting k f₀ (history ++ begun m (m.wakeAt time)) (m.wakeAt time) := by
  cases hk with
  | ended gone hn items =>
    have hmove : Move adapter m (m.wakeAt time) := .wakeAt hle
    exact ended_move hm hmove gone hn items
  | waiting lookup state same items =>
    rw [begun_wakeAt hm.sound hle, List.append_nil]
    exact .waiting (wakeAt_tasks (m := m) ▸ lookup) state same items

theorem cut (adapter : Adapter σ) (hm : Proper P m) (hending : m.ending = none)
    (hk : Admitting k f₀ history m) : Admitting k f₀ (history ++ begun m m.cut) m.cut := by
  cases hk with
  | ended gone hn items =>
    have hmove : Move adapter m m.cut := .cut hending
    exact ended_move hm hmove gone hn items
  | @waiting t₀ f lookup state same items =>
    rw [begun_cut hm.sound hending, List.append_nil]
    have hlookup : (m.drop root).tasks.lookup k = _ := lookup_drop hm.sound.keys_nodup
    by_cases hid : k = root
    · have hle := (hm.sound.joining k t₀ f lookup state nofun).toAccounts.admitted_le
      have hlt : k < m.cut.fresh := (hm.sound.lt_fresh k t₀ lookup).trans_eq drop_fresh.symm
      exact .ended ⟨hlookup.trans (if_pos hid), hlt⟩ (same.count ▸ hle) items
    · rw [if_neg hid, lookup] at hlookup
      exact .waiting hlookup (abandoned_state.trans state) same items

end Admitting

/-- A task that is older than `fresh`, or works for an item that such a task has admitted. -/
def Known (fresh : Nat) (history : List Begun) (k : Nat) : Prop :=
  k < fresh ∨ ∃ p < fresh, ∃ item ∈ itemsBegun p history, WorksFor history p item k

theorem Known.mono (h : Known fresh history k) : Known fresh (history ++ later) k := by
  refine h.imp_right fun ⟨p, hp, item, hitem, hworks⟩ => ⟨p, hp, item, ?_, hworks.mono⟩
  rw [itemsBegun_append]
  exact List.mem_append_left _ hitem

/-- A branch of a known task is known. -/
theorem Known.branch {item : Nat} (h : Known fresh history id) (hk : ⟨k, id, item⟩ ∈ history) :
    Known fresh history k := by
  rcases h with hlt | ⟨p, hp, item', hitem, hworks⟩
  · exact .inr ⟨id, hlt, item, (WorksFor.branch hk).mem_itemsBegun, .branch hk⟩
  · exact .inr ⟨p, hp, item', hitem, .inner hk hworks⟩

theorem Move.known (hm : Proper P m) (hmove : Move adapter m m')
    (hknown : ∀ k t, m.tasks.lookup k = some t → Known fresh history k)
    {t' : Task} (ht' : m'.tasks.lookup k = some t') : Known fresh (history ++ begun m m') k := by
  cases hmove with
  | @turn m₀ id htakes =>
    revert ht'
    refine hm.turn_cases (Q := fun m' => m'.tasks.lookup k = some t' →
      Known fresh (history ++ begun m m') k) htakes (fun _ ht' => ?_)
      (fun t _ _ hsound ht' => ?_) fun t h m₁ ha ht' => ?_
    · exact (hknown k t' (htakes.tasks ▸ ht')).mono
    · obtain ⟨-, t₀, ht₀, -⟩ := of_lookup_drop hsound.keys_nodup ht'
      exact (hknown k t₀ (htakes.tasks ▸ ht₀)).mono
    · have hlookup : m.tasks.lookup id = some t := htakes.tasks ▸ ha.lookup
      rcases ha.after ht' with @⟨t₀, -, ht₀, -⟩ | ⟨rfl, -⟩ | @⟨f, item, hfresh, -, -, rfl⟩
      · exact (hknown k t₀ (htakes.tasks ▸ ht₀)).mono
      · exact (hknown k t hlookup).mono
      · have hmem := mem_begun ht' (htakes.fresh ▸ hfresh) rfl
        exact (hknown id t hlookup).mono.branch (List.mem_append_right history hmem)
  | wakeAt hle => exact (hknown k t' (wakeAt_tasks ▸ ht')).mono
  | cut hending =>
    obtain ⟨-, t₀, ht₀, -⟩ := of_lookup_drop hm.sound.keys_nodup ht'
    exact (hknown k t₀ ht₀).mono

/-- Every task is known of which it is known who has begun it. -/
theorem Moves.known (hm : Proper P m) (hmoves : Moves adapter m history m')
    (ht : m'.tasks.lookup k = some t) : Known m.fresh history k := by
  refine hmoves.preserves (I := fun history m' =>
    ∀ k t, m'.tasks.lookup k = some t → Known m.fresh history k) hm ?_ ?_ k t ht
  · exact fun history m₁ m₂ hm₁ hmove hknown k t ht => hmove.known hm₁ hknown ht
  · exact fun k t ht => .inl (hm.sound.lt_fresh k t ht)

/-- Every task that has a turn is known. -/
theorem Moves.known_of_takes (hm : Proper P m) (hmoves : Moves adapter m history m')
    (htakes : Takes m' k m₀) : Known m.fresh history k := by
  have hm' := (hmoves.proper hm).sound
  by_cases hk : k = root
  · exact .inl (hk ▸ hm.sound.root_lt_fresh)
  · obtain ⟨t, ht⟩ := Option.isSome_iff_exists.mp
      ((hm'.awake k (hm'.awake_of_takes_self htakes)).2 hk)
    exact hmoves.known hm ht

/-! ### What holds of a map -/

/-- What holds of a map while its task `k` waits, with the state `f` of its fork. -/
structure Waiting (head : MapHead) (items : List Json) (k : Nat) (history : List Begun)
    (m : Machine σ) (f : Fork) : Prop where
  count : f.count = items.length
  limit : f.limit = head.limit items.length
  /-- The first items are admitted, in order and each of them once. -/
  begun : itemsBegun k history = List.range f.admitted
  /-- These are as many as the limit allows besides those of which there are outputs. -/
  admitted : f.admitted = min items.length (f.collected.length + head.limit items.length)
  /-- Each of them is in work, or its branch has just ended, or there is its output. -/
  accounts : (m.itemsOf k ++ f.ended.map Prod.fst ++ f.collected.map Prod.fst).Perm
    (List.range f.admitted)
  inFlight_le : (m.itemsOf k).length + f.ended.length ≤ head.limit items.length
  /-- Each permit is free, or a branch in work has it. -/
  permits : f.permits + (m.itemsOf k).length = head.limit items.length
  /-- No permit stays free while an item is pending. -/
  taken : f.ended = [] → f.permits = 0 ∨ f.admitted = items.length
  /-- The map does not wait for nothing. -/
  inFlight_ne_nil : f.ended = [] → m.itemsOf k ≠ []

/-- What holds once a map has met a branch that has failed or panicked, with `n` items admitted by
then: from `m` to `m'` its task `k` has had its turn. -/
structure Collapsed (adapter : Adapter σ) (k fresh : Nat) (history : List Begun)
    (m m' : Machine σ) (n : Nat) : Prop where
  /-- The map has ended. -/
  gone : m'.tasks.lookup k = none
  /-- No item is admitted any more. -/
  closed : ∀ later last, Moves adapter m' later last →
    itemsBegun k (history ++ begun m m' ++ later) = List.range n
  /-- No task has a turn that works for an item that was not admitted. -/
  known : ∀ later last, Moves adapter m' later last → ∀ j last₀, Takes last j last₀ →
    Known fresh (history ++ begun m m' ++ later) j
  /-- The branches that were begun go on until they end. -/
  detached : ∀ j t item, m.tasks.lookup j = some t → t.parent = some (k, item) →
    ∀ later last, Moves adapter m' later last → Detached j last ∨ EndsItself adapter j m' last
  /-- They end if there is time enough after the end of the run. -/
  settled : ∀ later last, Moves adapter m' later last → last.ending ≠ none →
    ∃ enough, ∀ ms, enough ≤ ms → (last.settle adapter ms).tasks = []

/-- What holds of a map of which the task is `k`, as long as it has not ended. -/
structure Admits (adapter : Adapter σ) (head : MapHead) (items : List Json) (k fresh : Nat)
    (history : List Begun) (m : Machine σ) : Prop where
  /-- The items that are admitted are the first ones, in order and each of them once. -/
  begun : ∃ n, n ≤ items.length ∧ itemsBegun k history = List.range n
  /-- No task has a turn that works for an item that is not admitted. -/
  known : ∀ j m₀, Takes m j m₀ → Known fresh history j
  waiting : ∀ t f, m.tasks.lookup k = some t → t.state = .joining f →
    Waiting head items k history m f
  collapsed : ∀ t f c m₀, m.tasks.lookup k = some t → t.cancelled = false →
    t.state = .joining f → f.loop [] = ([], .collapses c) → Takes m k m₀ →
    Collapsed adapter k fresh history m (m₀.turn adapter k) f.admitted

/-- A task of which a branch has failed or panicked ends without beginning any branches. -/
theorem Acting.gone (ha : Acting P adapter m k m₀ t h m₁) (hf : t.state = .joining f) {c : Collapse}
    (hc : f.gather f.ended = .error c) :
    Gone k (m₁.halt k h) ∧ begun m (m₁.halt k h) = [] := by
  obtain ⟨failure, rfl⟩ := ha.fails hf (Fork.of_gather_eq_error hc)
  have hlt : k < m.fresh := (ha.sound.lt_fresh k t ha.lookup).trans_eq ha.takes.fresh
  refine ⟨⟨?_, hlt.trans_le ha.fresh_le⟩, ha.begun_eq⟩
  exact (lookup_finish ha.lookup_acted fun hid =>
    (ha.sound_acted.root t (hid ▸ ha.lookup_acted)).1).trans (if_pos rfl)

/-- The branches of a task that ends go on for themselves. -/
theorem Acting.detached {j item : Nat} {t₀ : Task} (ha : Acting P adapter m k m₀ t h m₁)
    (hgone : (m₁.halt k h).tasks.lookup k = none) (ht₀ : m.tasks.lookup j = some t₀)
    (hp : t₀.parent = some (k, item)) : j ≠ root ∧ Detached j (m₁.halt k h) := by
  have hj : m₀.tasks.lookup j = some t₀ := ha.takes.tasks ▸ ht₀
  have hlt := ha.sound.parent_lt j t₀ k item hj hp
  have hactive : t₀.cancelled = false := by
    refine Bool.eq_false_iff.mpr fun hc => ?_
    have hnone := (ha.sound.cancelled j t₀ hj hc).2 k item hp
    rw [ha.lookup] at hnone
    cases hnone
  obtain ⟨t', ht', hkept⟩ := ha.exists_kept hlt.ne' hj
  have hactive' : t'.cancelled = false := hkept.cancelled.trans hactive
  have hparent : t'.parent = none := by
    refine hkept.parent.elim (fun hsame => ?_) And.left
    have hpk := ha.proper.sound.parent j t' k item ht' hactive' (hsame.trans hp)
    rcases hpk with hrun | ⟨tk, -, htk, -⟩
    · cases hrun
    · simp [hgone] at htk
  exact ⟨Nat.ne_zero_of_lt hlt, t', ht', hparent, hactive'⟩

/-- A map that meets a branch that has failed or panicked. -/
private theorem collapsed {m' : Machine σ} (hm : Proper P m) (hmoves : Moves adapter m history m')
    (hadmitting : Admitting k f₀ history m') (ht : m'.tasks.lookup k = some t)
    (hactive : t.cancelled = false) (hf : t.state = .joining f) {c : Collapse}
    (hc : f.gather f.ended = .error c) (htakes : Takes m' k m₀) :
    Collapsed adapter k m.fresh history m' (m₀.turn adapter k) f.admitted := by
  have hm' := hmoves.proper hm
  obtain ⟨h, m₁, ha, hturn⟩ := hm'.exists_acting adapter htakes ht hactive
  obtain ⟨hgone, hnil⟩ := ha.gone hf hc
  have hmove : Move adapter m' (m₁.halt k h) := hturn ▸ .turn htakes
  have hafter := hmove.proper hm'
  rw [hturn]
  refine ⟨hgone.1, fun later last hlater => ?_, fun later last hlater j last₀ hj => ?_,
    fun j t₀ item ht₀ hp later last hlater => ?_, fun later last hlater hending => ?_⟩
  · rw [itemsBegun_append, (hlater.gone hafter hgone).2, hnil, List.append_nil, List.append_nil]
    exact (hadmitting.of_joining ht hf).2
  · exact ((hmoves.tail hmove).trans hlater).known_of_takes hm hj
  · obtain ⟨hroot, hdetached⟩ := ha.detached hgone.1 ht₀ hp
    exact hlater.detached hafter hroot hdetached
  · exact (hlater.proper hafter).exists_settle adapter hending

end Machine

end Conveyor
