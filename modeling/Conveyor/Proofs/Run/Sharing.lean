import Conveyor.Proofs.Run.Evaluation
import Conveyor.Proofs.Run.Frames

/-!
# Branches that share a state

The branches of a map act on one state. Suppose that each of them succeeds by itself, and that the
state has a part for each of them on which the calls of the others do nothing, while what its own
calls do depends on that part alone (`Plan.Apart`). Then whatever the order of the calls is, a
branch sees on its part what it would see by itself: so the map ends with the outputs that the
branches have by themselves, in the order of the items, and leaves on each part what its branch
leaves there (`Plan.Apart.run_map`). The same holds if the pipeline of the map runs for one item
after another (`Plan.Apart.inTurn`).

The argument compares the state that is shared with one state for each item, the one in which the
branch would be by itself by now; a turn of a branch changes the state of its item alone.
-/

namespace Conveyor

/-- What is done with the items of a map by itself, with each of them from the same state. -/
structure Plan (σ : Type) where
  /-- The number of items. -/
  count : Nat
  first : σ
  calls : Nat → List (String × Json)
  output : Nat → Json
  last : Nat → σ
  /-- Two states are alike on the part of an item. What is no item may stand for the rest. -/
  Alike : Nat → σ → σ → Prop

namespace Plan

/-- For each item this is an activity that does by itself what the plan says. -/
def Begins {σ : Type} (act : Answering σ) (p : Plan σ) (activity : Nat → Activity) : Prop :=
  ∀ item, item < p.count →
    (activity item).Evaluates act p.first (p.calls item) (.ok (p.output item)) (p.last item)

/-- What is done with the items of a plan does not get into each other's way. -/
structure Apart {σ : Type} (act : Answering σ) (p : Plan σ) : Prop where
  last (item : Nat) (h : p.count ≤ item) : p.last item = p.first
  alike (item : Nat) : p.Alike item p.first p.first
  /-- What the calls of an item are answered with, and what they do to its part, depends on that
  part alone. -/
  own (item : Nat) (h : item < p.count) : Simulates act (p.Alike item) (p.calls item)
  /-- The calls of an item do nothing to other parts. -/
  other (item : Nat) (h : item < p.count) (part : Nat) (hne : part ≠ item) :
    ∀ c ∈ p.calls item, ∀ st st', p.Alike part st st' → p.Alike part (act c.1 c.2 st).2 st'

variable {σ : Type} {act : Answering σ} {p : Plan σ} {own : Nat → σ} {item : Nat}

/-- On the part of each item a state is alike to the state of the item. -/
def Shares (p : Plan σ) (own : Nat → σ) (st : σ) : Prop :=
  ∀ part, p.Alike part st (own part)

theorem Shares.update_self {st : σ} (h : p.Shares own st) (item : Nat) :
    p.Shares (Function.update own item (own item)) st := by
  rwa [Function.update_eq_self]

/-- A call of a branch changes the state of its item alone. -/
theorem Apart.simulates (hp : p.Apart act) (hitem : item < p.count) (own : Nat → σ) :
    Simulates act (fun st st' => p.Shares (Function.update own item st') st) (p.calls item) := by
  intro c hc st st' h
  -- the answer is that on the part of the item, the other parts do not notice the call
  have hown : p.Alike item st st' := by simpa using h item
  obtain ⟨hanswer, hstate⟩ := hp.own item hitem c hc st st' hown
  refine ⟨hanswer, fun part => ?_⟩
  by_cases hpart : part = item
  · subst hpart
    simpa using hstate
  · have hother := h part
    rw [Function.update_of_ne hpart] at hother ⊢
    exact hp.other item hitem part hpart c hc st _ hother

/-! ### The fork -/

/-- The branches of the fork do what the plan says. Those that have ended have succeeded as by
themselves; those that have not begun are in the first state. -/
structure Serves (act : Answering σ) (p : Plan σ)
    (next : Except Collapse (List Json) → Activity) (own : Nat → σ) (f : Fork) : Prop where
  count : f.count = p.count
  begins : p.Begins act f.branch
  next : f.next = next
  ended : ∀ e ∈ f.ended, e.2 = .ok (p.output e.1) ∧ own e.1 = p.last e.1
  collected : ∀ e ∈ f.collected, p.output e.1 = e.2 ∧ own e.1 = p.last e.1
  pending : ∀ item, f.admitted ≤ item → own item = p.first

section Serves

variable {next : Except Collapse (List Json) → Activity} {f f' : Fork} {m : Machine σ} {id : Nat}

theorem Serves.gather (hs : Serves act p next own f) (hf : f.gather f.ended = .ok f') :
    Serves act p next own f' := by
  obtain ⟨outputs, hended, rfl⟩ := Fork.of_gather_eq_ok hf
  refine ⟨hs.count, hs.begins, hs.next, nofun, fun e he => ?_, hs.pending⟩
  rcases List.mem_append.mp he with he | he
  · exact hs.collected e he
  · have hmem : (e.1, Except.ok e.2) ∈ f.ended :=
      hended ▸ List.mem_map_of_mem (f := fun e => (e.1, Except.ok e.2)) he
    exact ⟨(Except.ok.inj (hs.ended _ hmem).1).symm, (hs.ended _ hmem).2⟩

/-- A branch that is begun has all of its item to do. -/
theorem Serves.newcomer {item : Nat} (hs : Serves act p next own f) (hitem : item ∈ f.nextItems) :
    item < p.count ∧ (f.branch item).Evaluates act (own item) (p.calls item)
      (.ok (p.output item)) (p.last item) := by
  obtain ⟨hpending, hfilled⟩ := Fork.mem_nextItems.mp hitem
  have hlt : item < p.count := by
    have hroom := f.room_le
    rw [Fork.filled_admitted] at hfilled
    rw [← hs.count]
    omega
  exact ⟨hlt, hs.pending item hpending ▸ hs.begins item hlt⟩

/-- No branch has failed. -/
theorem Serves.gather_ne_error (hs : Serves act p next own f) {c : Collapse} :
    f.gather f.ended ≠ .error c := by
  intro hf
  have hfailed := (hs.ended _ (Fork.of_gather_eq_error hf)).1
  cases hfailed

/-- A fork that is complete has all outputs, and all items are in their last states. -/
theorem Serves.complete (hp : p.Apart act) (hs : Serves act p next own f) (hacc : m.Accounts id f)
    (hf : f.gather f.ended = .ok f') (hover : f'.Over) :
    f'.outputs = (List.range p.count).map p.output ∧ own = p.last := by
  have hs' := hs.gather hf
  constructor
  · have houtputs : f'.outputs.map (fun output => output) = (List.range f'.count).map p.output :=
      hacc.outputs_of_over hf hover fun e he => (hs'.collected e he).1
    rwa [List.map_id', hs'.count] at houtputs
  · funext item
    by_cases hitem : item < f'.count
    · obtain ⟨output, houtput⟩ := hacc.exists_collected hf hover hitem
      exact (hs'.collected _ (Keyed.mem_of_lookup houtput)).2
    · have hle : f'.count ≤ item := Nat.not_lt.mp hitem
      rw [hs'.pending item (hacc.admitted_of_over hf hover ▸ hle),
        hp.last item (hs'.count ▸ hle)]

end Serves

/-! ### The machine -/

open Machine

/-- The root is about to begin the fork or waits for its branches; each branch has left to do what
it would have by itself, from the state of its item; and the state of the machine is alike to the
states of the items. -/
structure Sharing (act : Answering σ) (p : Plan σ) (start : Activity)
    (next : Except Collapse (List Json) → Activity) (result : Json) (own : Nat → σ)
    (m : Machine σ) : Prop where
  shares : p.Shares own m.world.state
  root : ∀ t, m.tasks.lookup Machine.root = some t →
    (t.state = .paused (.activity start) ∧ own = fun _ => p.first) ∨
      ∃ f, t.state = .joining f ∧ Serves act p next own f
  branch : ∀ k t, m.tasks.lookup k = some t → k ≠ Machine.root →
    ∃ item resumption calls, t.parent = some (Machine.root, item) ∧ item < p.count ∧
      t.state = .paused resumption ∧ calls ⊆ p.calls item ∧
      resumption.Evaluates act (p.calls item) (own item) calls (.ok (p.output item)) (p.last item)
  ending : ∀ e, m.ending = some e → e = .finished (.ok result) ∧ own = p.last

section Sharing

variable {adapter : Adapter σ} {P : Nat → Nat → (Nat → Activity) → Prop} {m m' m₀ m₁ : Machine σ}
  {id : Nat} {t : Task} {h : Halt} {start : Activity} {limit : Nat} {branch : Nat → Activity}
  {next : Except Collapse (List Json) → Activity} {result : Json}

theorem Sharing.of_tasks (hm : Sharing act p start next result own m) (htasks : m'.tasks = m.tasks)
    (hending : m'.ending = m.ending) (hstate : m'.world.state = m.world.state) :
    Sharing act p start next result own m' :=
  ⟨hstate ▸ hm.shares, htasks ▸ hm.root, htasks ▸ hm.branch, hending ▸ hm.ending⟩

theorem Sharing.drop (hm : Sharing act p start next result own m)
    (hn : (m.tasks.map Prod.fst).Nodup) :
    Sharing act p start next result own (m.drop id) := by
  refine ⟨by rw [drop_world]; exact hm.shares, fun t ht => ?_, fun k t ht hk => ?_,
    fun e he => hm.ending e (by rwa [drop_ending] at he)⟩
  · obtain ⟨-, t₀, ht₀, rfl⟩ := of_lookup_drop hn ht
    rw [abandoned_state]
    exact hm.root t₀ ht₀
  · obtain ⟨-, t₀, ht₀, rfl⟩ := of_lookup_drop hn ht
    rw [abandoned_parent, abandoned_state]
    exact hm.branch k t₀ ht₀ hk

/-- What the root has to do: it begins branches that do what the plan says, and ends with `result`
when it has the outputs, both without a call. -/
structure Forks (act : Answering σ) (adapter : Adapter σ) (p : Plan σ) (limit : Nat)
    (branch : Nat → Activity) (start : Activity)
    (next : Except Collapse (List Json) → Activity) (result : Json) : Prop where
  begins : p.Begins act branch
  start : ∀ w, (start.advance adapter true w).1 =
      .forked (.ofBranches p.count limit branch next) ∧
    (start.advance adapter true w).2.state = w.state
  next : ∀ w, ((next (.ok ((List.range p.count).map p.output))).advance adapter true w).1 =
      .done (.ok result) ∧
    ((next (.ok ((List.range p.count).map p.output))).advance adapter true w).2.state = w.state

/-- A turn of the root begins the fork, takes in items, or ends with the result. -/
theorem Sharing.halt_root (hp : p.Apart act) (hm : Sharing act p start next result own m₀)
    (hforks : Forks act adapter p limit branch start next result)
    (ha : Acting P adapter m Machine.root m₀ t h m₁) :
    m₁.world.state = m₀.world.state ∧ ((∃ f, h = .forked f ∧ Serves act p next own f) ∨
      h = .done (.ok result) ∧ own = p.last) := by
  have hacts := ha.acts
  have hjoining := ha.joining
  rcases hm.root t ha.lookup with ⟨hs, rfl⟩ | ⟨f, hs, hserves⟩
  · rw [hs] at hacts
    cases hacts with
    | advance hr =>
      cases hr
      obtain ⟨hhalt, hstate⟩ := hforks.start m₀.world
      exact ⟨hstate, .inl ⟨_, hhalt, rfl, hforks.begins, rfl, nofun, nofun, fun _ _ => rfl⟩⟩
  · rw [hs] at hacts
    have hacc := hjoining f hs
    cases hacts with
    | refill hf hover => exact ⟨rfl, .inl ⟨_, rfl, hserves.gather hf⟩⟩
    | advance hr =>
      cases hr with
      | collapse hf => exact absurd hf hserves.gather_ne_error
      | complete hf hover =>
        obtain ⟨houtputs, hlast⟩ := hserves.complete hp hacc hf hover
        rw [hserves.next, houtputs]
        obtain ⟨hhalt, hstate⟩ := hforks.next m₀.world
        exact ⟨hstate, .inr ⟨hhalt, hlast⟩⟩

theorem Sharing.turn_root (hp : p.Apart act) (hm : Sharing act p start next result own m₀)
    (hforks : Forks act adapter p limit branch start next result)
    (hending : m₀.ending = m.ending) (ha : Acting P adapter m Machine.root m₀ t h m₁) :
    Sharing act p start next result own (m₁.halt Machine.root h) := by
  obtain ⟨hstate, hhalt⟩ := hm.halt_root hp hforks ha
  have hnever : ∀ fault, h ≠ .done (.error fault) := by
    rcases hhalt with ⟨f, rfl, -⟩ | ⟨rfl, -⟩ <;> exact nofun
  constructor
  case shares =>
    rw [ha.halt_world, hstate]
    exact hm.shares
  case root =>
    intro t' ht'
    cases ha.after ht' with
    | other hne => exact absurd rfl hne
    | new hk => exact absurd ha.sound.root_lt_fresh (Nat.not_lt.mpr hk)
    | self _ _ _ state =>
      rcases hhalt with ⟨f, rfl, hserves⟩ | ⟨rfl, -⟩
      · refine .inr ⟨f.filled, (Option.some.inj state).symm, hserves.count, hserves.begins,
          hserves.next, hserves.ended, hserves.collected, fun item hitem => ?_⟩
        exact hserves.pending item ((Nat.le_add_right _ _).trans hitem)
      · cases state
  case branch =>
    intro k t' ht' hk
    cases ha.after ht' with
    | self hroot => exact absurd hroot hk
    | other _ ht₀ kept =>
      obtain ⟨item, resumption, calls, hparent, hitem, hpaused, hrest⟩ := hm.branch k _ ht₀ hk
      refine ⟨item, resumption, calls, ?_, hitem, kept.paused _ hpaused, hrest⟩
      exact (kept.parent_of_not_failed hnever).trans hparent
    | @new f item _ hforked hitem ht' =>
      rcases hhalt with ⟨g, rfl, hserves⟩ | ⟨rfl, -⟩
      · obtain rfl := Halt.forked.inj hforked
        obtain ⟨hlt, hbegins⟩ := hserves.newcomer hitem
        exact ⟨item, .activity (g.branch item), p.calls item, ht' ▸ rfl, hlt, ht' ▸ rfl,
          List.Subset.refl _, hbegins⟩
      · cases hforked
  case ending =>
    intro e he
    rcases hhalt with ⟨f, rfl, -⟩ | ⟨rfl, hlast⟩
    · rcases ha.ending with ⟨_, hdone, -⟩ | ⟨hsame, -⟩
      · cases hdone
      · exact hm.ending e (hending.trans (hsame.symm.trans he))
    · rcases ha.ending with ⟨_, hdone, -, hfinished⟩ | ⟨-, hnot⟩
      · obtain rfl := Halt.done.inj hdone
        exact ⟨Option.some.inj (he.symm.trans hfinished), hlast⟩
      · exact absurd rfl (hnot _ rfl)

/-- When a branch has had its turn, the fork that it belongs to serves the plan as before. -/
theorem Serves.turn_branch {f : Fork} {st : σ} (hs : Serves act p next own f)
    (hacc : m.Accounts Machine.root f) (ht : m.tasks.lookup id = some t)
    (hparent : t.parent = some (Machine.root, item)) {calls : List (String × Json)}
    (hh : h.Evaluates act (p.calls item) st calls (.ok (p.output item)) (p.last item))
    (permits : Nat) :
    Serves act p next (Function.update own item st)
      { f with permits, ended := f.ended ++ h.results id (itemIn Machine.root t) } := by
  obtain ⟨hadmitted, hended, hcollected⟩ := hacc.of_branch ht hparent
  refine ⟨hs.count, hs.begins, hs.next, fun e he => ?_, fun e he => ?_, fun other hother => ?_⟩
  · rcases List.mem_append.mp he with he | he
    · have hne : e.1 ≠ item := fun heq => hended (heq ▸ List.mem_map_of_mem he)
      rw [Function.update_of_ne hne]
      exact hs.ended e he
    · cases h with
      | done result =>
        obtain ⟨rfl, -, rfl⟩ := hh
        rw [itemIn_eq_some_iff.mpr hparent] at he
        obtain rfl := List.mem_singleton.mp he
        exact ⟨rfl, Function.update_self ..⟩
      | asleep ms resumption => cases he
      | forked g => cases he
  · have hne : e.1 ≠ item := fun heq => hcollected (heq ▸ List.mem_map_of_mem he)
    rw [Function.update_of_ne hne]
    exact hs.collected e he
  · have hne : other ≠ item := by
      rintro rfl
      exact absurd hadmitted (Nat.not_lt.mpr hother)
    rw [Function.update_of_ne hne]
    exact hs.pending other hother

/-- The root waits for a branch that acts. -/
theorem Sharing.exists_serves (hm : Sharing act p start next result own m₀)
    (hid : id ≠ Machine.root) (ha : Acting P adapter m id m₀ t h m₁)
    (hparent : t.parent = some (Machine.root, item)) :
    ∃ tr f, m₀.tasks.lookup Machine.root = some tr ∧ tr.state = .joining f ∧
      m₀.Accounts Machine.root f ∧ Serves act p next own f := by
  have hrun : some id ≠ some Machine.root := fun heq => hid (Option.some.inj heq)
  obtain ⟨tr, f, htr, hf⟩ :=
    (ha.sound.parent id t Machine.root item ha.lookup ha.active hparent).resolve_left hrun
  refine ⟨tr, f, htr, hf, (ha.sound.joining _ tr f htr hf hrun).toAccounts, ?_⟩
  rcases hm.root tr htr with ⟨hs, -⟩ | ⟨g, hg, hserves⟩
  · rw [hf] at hs
    cases hs
  · rw [hf] at hg
    exact TaskState.joining.inj hg ▸ hserves

/-- A turn of a branch changes the state of its item alone. -/
theorem Sharing.turn_branch (hadapter : adapter.Performs act) (hp : p.Apart act)
    (hm : Sharing act p start next result own m₀) (hid : id ≠ Machine.root)
    (hending : m₀.ending = m.ending) (ha : Acting P adapter m id m₀ t h m₁) :
    ∃ own', Sharing act p start next result own' (m₁.halt id h) := by
  obtain ⟨item, resumption, calls, hparent, hitem, hpaused, hcalls, hr⟩ :=
    hm.branch id t ha.lookup hid
  obtain ⟨tr, f, htr, hf, hacc, hserves⟩ := hm.exists_serves hid ha hparent
  obtain ⟨st', calls', hh, hshares, hcalls', -⟩ := ha.evaluates hadapter hpaused hr hcalls
    (hp.simulates hitem own) (hm.shares.update_self item)
  refine ⟨Function.update own item st', ?_⟩
  constructor
  case shares => exact hshares
  case root =>
    intro t' ht'
    cases ha.after ht' with
    | self hroot => exact absurd hroot.symm hid
    | new hk => exact absurd ha.sound.root_lt_fresh (Nat.not_lt.mpr hk)
    | other _ ht₀ kept =>
      obtain rfl := Option.some.inj (ht₀.symm.trans htr)
      exact .inr ⟨_, kept.joining f hf, hserves.turn_branch hacc ha.lookup hparent hh _⟩
  case branch =>
    intro k t' ht' hk
    cases ha.after ht' with
    | new _ hforked => exact (hforked ▸ hh).elim
    | self _ parent _ state =>
      cases h with
      | done result => cases state
      | forked g => exact hh.elim
      | asleep ms resumption' =>
        refine ⟨item, resumption', calls', parent.trans hparent, hitem,
          (Option.some.inj state).symm, hcalls', ?_⟩
        rw [Function.update_self]
        exact hh
    | other hne ht₀ kept =>
      obtain ⟨item', resumption', calls'', hparent', hitem', hpaused', hcalls'', hr'⟩ :=
        hm.branch k _ ht₀ hk
      -- there is one branch for each item, so this one has another state
      have hitems : item' ≠ item := by
        rintro rfl
        exact hne (hacc.eq_of_parent ht₀ ha.lookup hparent' hparent)
      refine ⟨item', resumption', calls'', kept.parent_of_ne hparent' hid.symm, hitem',
        kept.paused _ hpaused', hcalls'', ?_⟩
      rw [Function.update_of_ne hitems]
      exact hr'
  case ending =>
    intro e he
    have hrunning := ha.sound.ending.mpr (Option.isSome_of_eq_some htr)
    have hsame := (ha.ending.resolve_left fun ⟨_, _, hroot, _⟩ => hid hroot).1
    rw [hsame, ← hending, hrunning] at he
    cases he

theorem Sharing.turn (hadapter : adapter.Performs act) (hp : p.Apart act)
    (hforks : Forks act adapter p limit branch start next result) (hproper : Proper P m)
    (htakes : Takes m id m₀) (hm : Sharing act p start next result own m) :
    ∃ own', Sharing act p start next result own' (m₀.turn adapter id) := by
  have hending := htakes.ending
  have hm₀ := hm.of_tasks htakes.tasks hending (congrArg World.state htakes.world)
  refine hproper.turn_cases (Q := fun m' => ∃ own', Sharing act p start next result own' m') htakes
    (fun _ => ⟨own, hm₀⟩) (fun t _ _ hsound => ⟨own, hm₀.drop hsound.keys_nodup⟩)
    fun t h m₁ ha => ?_
  by_cases hid : id = Machine.root
  · subst hid
    exact ⟨own, hm₀.turn_root hp hforks hending ha⟩
  · exact hm₀.turn_branch hadapter hp hid hending ha

/-- **Branches that share a state end as by themselves**, whatever the order of their calls is. -/
theorem Apart.run_of_fork (hadapter : adapter.Performs act) (hp : p.Apart act)
    (hforks : Forks act adapter p limit branch start next result) {w : World σ}
    (hw : w.state = p.first) {fresh : Nat} (hfresh : Machine.root < fresh)
    (hlawful : start.Lawful P) :
    ((beginning w fresh start).run adapter none).ending = some (.finished (.ok result)) ∧
      p.Shares p.last ((beginning w fresh start).run adapter none).world.state := by
  have hproper : Proper P (beginning w fresh start) := .beginning hfresh hlawful
  have hlookup {k : Nat} {t : Task} (ht : (beginning w fresh start).tasks.lookup k = some t) :
      k = Machine.root ∧ t = ⟨none, .paused (.activity start), false⟩ := by
    rw [lookup_beginning, Option.ite_none_right_eq_some] at ht
    exact ⟨ht.1, (Option.some.inj ht.2).symm⟩
  obtain ⟨own, hm⟩ : ∃ own, Sharing act p start next result own
      ((beginning w fresh start).run adapter none) := by
    refine hproper.run_preserves
      (I := fun m' => ∃ own, Sharing act p start next result own m') (fun m hm _ h => ?_)
      ⟨fun _ => p.first, ?_, fun t ht => .inl ⟨?_, rfl⟩, fun k t ht hk => ?_, nofun⟩
    · refine hm.step_preserves (I := fun m' => ∃ own, Sharing act p start next result own m')
        (fun m id m₀ hm htakes ⟨own, h⟩ => h.turn hadapter hp hforks hm htakes)
        (fun m time _ _ ⟨own, h⟩ => ⟨own, ?_⟩) (fun m _ _ hd => absurd hd (by simp)) h
      exact h.of_tasks wakeAt_tasks wakeAt_ending (by rw [wakeAt_world])
    · intro part
      rw [show (beginning w fresh start).world.state = p.first from hw]
      exact hp.alike part
    · rw [(hlookup ht).2]
    · exact absurd (hlookup ht).1 hk
  obtain ⟨e, he⟩ := Option.ne_none_iff_exists'.mp (hproper.run_ending adapter none)
  obtain ⟨rfl, rfl⟩ := hm.ending e he
  exact ⟨he, hm.shares⟩

end Sharing

end Plan

/-! ### Maps -/

/-- The machine after the run of a pipeline alone, with an item as its whole context. -/
def Pipeline.machine {σ : Type} (adapter : Adapter σ) (state : σ) (steps : Pipeline) (x : Json) :
    Machine σ :=
  (Machine.start state x (steps.activity "" x)).run adapter none

/-- Runs a pipeline for one item after another, as long as it succeeds: its outputs, and the state
that the last run leaves. -/
def Pipeline.inTurn {σ : Type} (adapter : Adapter σ) (steps : Pipeline) :
    List Json → σ → Option (List Json × σ)
  | [], state => some ([], state)
  | x :: items, state =>
    let m := steps.machine adapter state x
    match m.ending with
    | some (.finished (.ok output)) =>
      (inTurn adapter steps items m.world.state).map fun r => (output :: r.1, r.2)
    | _ => none

/-- The machine after the run of a map over a list of items that begins in a world, in which the
numbers of tasks go on from `fresh`. -/
def MapHead.machine {σ : Type} (adapter : Adapter σ) (w : World σ) (fresh : Nat) (head : MapHead)
    (iterator : Pipeline) (id : String) (items : List Json) : Machine σ :=
  (Machine.beginning w fresh (head.fanOut id (iterator.branch id) items fun r =>
    .ended (result r))).run adapter none

/-- Each branch of a map does what was recorded when the pipeline of the map ran alone. -/
theorem Pipeline.evaluates_of_alone {σ : Type} {adapter : Adapter σ} {act : Answering σ}
    (hadapter : adapter.Performs act) {iterator : Pipeline} (hiterator : iterator.MapFree)
    {st : σ} {x : Json} {r : Except (Fault StepFailure) Json}
    (h : iterator.alone adapter st x = some (.finished r)) :
    let w := (iterator.machine adapter st x).world
    (iterator.activity "" x).Evaluates act st w.made r w.state ∧
      ∀ id item, (iterator.branch id item x).Evaluates act st w.made r w.state := by
  obtain ⟨calls, r', final, halone, hbranch⟩ := exists_branch_evaluates act hiterator x st
  obtain ⟨hending, hstate, hmade⟩ := Machine.run_of_evaluates (w := .initial st x) hadapter
    Nat.one_pos (iterator.activity_lawful "" x) halone
  obtain rfl := Ending.finished.inj (Option.some.inj (hending.symm.trans h))
  intro w
  have hcalls : w.made = calls := hmade
  have hfinal : w.state = final := hstate
  rw [hcalls, hfinal]
  exact ⟨halone, hbranch⟩

namespace Plan

variable {σ : Type} {act : Answering σ} {p : Plan σ} {adapter : Adapter σ} {iterator : Pipeline}
  {items : List Json}

/-- A map leaves on each part what its pipeline leaves there for the item alone. -/
theorem Apart.run_map (hp : p.Apart act) (hadapter : adapter.Performs act) (head : MapHead)
    (id : String) (hcount : p.count = items.length)
    (hbegins : p.Begins act fun item => iterator.branch id item (items.getD item .null))
    {w : World σ} (hw : w.state = p.first) {fresh : Nat} (hfresh : Machine.root < fresh) :
    let m := head.machine adapter w fresh iterator id items
    m.ending = some (.finished (.ok (.array ((List.range p.count).map p.output)))) ∧
      p.Shares p.last m.world.state := by
  have hlawful := head.fanOut_anyFork iterator id items
  by_cases hnil : items.length = 0
  · have hdone : (head.fanOut id (iterator.branch id) items fun r =>
        .ended (MapHead.result r)).Evaluates act w.state [] (.ok (.array [])) w.state := by
      simp only [MapHead.fanOut, hnil, if_true]
      exact .note (.done _ _)
    obtain ⟨hending, hstate, -⟩ := Machine.run_of_evaluates hadapter hfresh hlawful hdone
    have hnone : p.count = 0 := hcount.trans hnil
    refine ⟨?_, fun part => ?_⟩
    · rw [hnone]
      exact hending
    · rw [MapHead.machine, hstate, hw, hp.last part (hnone ▸ Nat.zero_le part)]
      exact hp.alike part
  · have hforks : Forks act adapter p (head.limit items.length)
        (fun item => iterator.branch id item (items.getD item .null))
        (head.fanOut id (iterator.branch id) items fun r => .ended (MapHead.result r))
        (MapHead.afterBranches id fun r => .ended (MapHead.result r))
        (.array ((List.range p.count).map p.output)) := by
      refine ⟨hbegins, fun w => ?_, fun w => ⟨rfl, rfl⟩⟩
      rw [MapHead.fanOut_eq hnil, hcount]
      simp only [Activity.say, Activity.advance, if_neg hnil]
      exact ⟨trivial, rfl⟩
    exact hp.run_of_fork hadapter hforks hw hfresh hlawful

/-! ### One item after another -/

/-- The states of the items when the first ones are done. -/
def upTo (p : Plan σ) (done : Nat) : Nat → σ :=
  fun item => if item < done then p.last item else p.first

theorem upTo_self (done : Nat) : p.upTo done done = p.first :=
  if_neg (Nat.lt_irrefl done)

theorem update_upTo (done : Nat) :
    Function.update (p.upTo done) done (p.last done) = p.upTo (done + 1) := by
  funext item
  by_cases hitem : item = done
  · rw [hitem, Function.update_self, upTo, if_pos (Nat.lt_succ_self done)]
  · have hiff : item < done ↔ item < done + 1 := by omega
    rw [Function.update_of_ne hitem]
    simp only [upTo, hiff]

theorem Apart.upTo_count (hp : p.Apart act) : p.upTo p.count = p.last := by
  funext item
  unfold upTo
  split
  · rfl
  · rename_i hitem
    exact (hp.last item (Nat.not_lt.mp hitem)).symm

/-- The run of a pipeline for an item changes the state of its item alone. -/
theorem Apart.machine_shares (hp : p.Apart act) (hadapter : adapter.Performs act) {own : Nat → σ}
    {item : Nat} {x : Json} {st : σ} (hitem : item < p.count) (hown : own item = p.first)
    (hshares : p.Shares own st)
    (hx : (iterator.activity "" x).Evaluates act p.first (p.calls item) (.ok (p.output item))
      (p.last item)) :
    let m := iterator.machine adapter st x
    m.ending = some (.finished (.ok (p.output item))) ∧
      p.Shares (Function.update own item (p.last item)) m.world.state := by
  -- the state that is shared looks to this item like the first one
  obtain ⟨final, hfinal, hshares'⟩ := hx.simulate (List.Subset.refl _) (hp.simulates hitem own)
    (hown ▸ hshares.update_self item)
  obtain ⟨hending, hstate, -⟩ := Machine.run_of_evaluates (w := .initial st x) hadapter Nat.one_pos
    (iterator.activity_lawful "" x) hfinal
  exact ⟨hending, hstate ▸ hshares'⟩

/-- The items that are left when the first ones are done. -/
theorem Apart.inTurn_upTo (hp : p.Apart act) (hadapter : adapter.Performs act) {done : Nat} {st : σ}
    (hcount : done + items.length = p.count)
    (hitems : ∀ i x, items[i]? = some x →
      (iterator.activity "" x).Evaluates act p.first (p.calls (done + i))
        (.ok (p.output (done + i))) (p.last (done + i)))
    (hshares : p.Shares (p.upTo done) st) :
    ∃ final, iterator.inTurn adapter items st =
        some ((List.range' done items.length).map p.output, final) ∧ p.Shares p.last final := by
  induction items generalizing done st with
  | nil =>
    obtain rfl : done = p.count := hcount
    exact ⟨st, rfl, hp.upTo_count ▸ hshares⟩
  | cons x items ih =>
    rw [List.length_cons] at hcount
    have hdone : done < p.count := by omega
    obtain ⟨hending, hshares'⟩ :=
      hp.machine_shares hadapter hdone (upTo_self done) hshares (hitems 0 x rfl)
    rw [update_upTo] at hshares'
    have hlater : ∀ i y, items[i]? = some y →
        (iterator.activity "" y).Evaluates act p.first (p.calls (done + 1 + i))
          (.ok (p.output (done + 1 + i))) (p.last (done + 1 + i)) := by
      intro i y hy
      rw [Nat.add_assoc, Nat.add_comm 1]
      exact hitems (i + 1) y hy
    obtain ⟨final, hrest, hfinal⟩ := ih (by omega) hlater hshares'
    refine ⟨final, ?_, hfinal⟩
    simp only [Pipeline.inTurn, hending, hrest]
    rfl

/-- A pipeline does for one item after another what it does for each item alone. -/
theorem Apart.inTurn (hp : p.Apart act) (hadapter : adapter.Performs act) (iterator : Pipeline)
    (items : List Json) (hcount : p.count = items.length)
    (hitems : p.Begins act fun item => iterator.activity "" (items.getD item .null)) :
    ∃ final, iterator.inTurn adapter items p.first =
        some ((List.range p.count).map p.output, final) ∧ p.Shares p.last final := by
  rw [List.range_eq_range', hcount]
  refine hp.inTurn_upTo hadapter ((Nat.zero_add _).trans hcount.symm) (fun i x hx => ?_) hp.alike
  have h := hitems i (hcount ▸ (List.getElem?_eq_some_iff.mp hx).choose)
  dsimp only at h
  rw [List.getD_eq_getElem?_getD, hx] at h
  rwa [Nat.zero_add]

end Plan

end Conveyor
