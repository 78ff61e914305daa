import Conveyor.Proofs.Run.Frames
import Conveyor.Proofs.Run.Traces

/-!
# What is still to be recorded

Looking back from the end of a run that is completed, each task of a machine still owes marks to the
timeline, its own and those of its branches (`Machine.Owes`). When a task has its turn, what it has
recorded is owed before by the task and by those that wait for it (`Machine.Owes.turn`). So what a
run of an activity records that ends well is what the activity yields.
-/

namespace Conveyor

/-! ### Parts of tasks -/

/-- What is left to do after a pause can end well, and then it has recorded these marks. -/
def Resumption.Yields : Resumption → List Mark → Prop
  | .activity a, marks => a.Yields marks
  | .answer _ _ _ next, marks => ∃ answer, (next answer).Yields marks

/-- A fork that goes on well still records these marks; `parts` are those of its items. -/
structure Fork.Owes (f : Fork) (parts : Nat → List Mark) (marks : List Mark) : Prop where
  split : ∃ inner rest outputs, marks = inner ++ rest ∧ Interleaves f.count parts inner ∧
    (f.next (.ok outputs)).Yields rest
  pending (item : Nat) (hitem : f.admitted ≤ item) (hcount : item < f.count) :
    (f.branch item).Yields (parts item)
  ended (item : Nat) (result : Except (Fault StepFailure) Json) (he : (item, result) ∈ f.ended) :
    (∃ output, result = .ok output) ∧ parts item = []
  collected (item : Nat) (output : Json) (he : (item, output) ∈ f.collected) : parts item = []

/-- What is left to do of a task records these marks if it goes on well, with those of its
branches. -/
def TaskState.Owes (parts : Nat → List Mark) : TaskState → List Mark → Prop
  | .paused r, marks => r.Yields marks
  | .joining f, marks => f.Owes parts marks

/-- What is left to do after a turn records these marks if it goes on well, with those of the
branches. -/
def Halt.Owes (parts : Nat → List Mark) : Halt → List Mark → Prop
  | .done result, marks => (∃ context, result = .ok context) ∧ marks = []
  | .asleep _ r, marks => r.Yields marks
  | .forked f, marks => f.Owes parts marks

section Parts

variable {σ : Type} {adapter : Adapter σ} {top : Bool} {parts : Nat → List Mark}
  {marks : List Mark} {f f' : Fork}

/-- A fork of which no branch has begun. -/
theorem Fork.Owes.yields (h : f.Owes parts marks) (hnone : f.admitted = 0) :
    (Activity.fork f.count f.limit f.branch f.next).Yields marks := by
  obtain ⟨inner, rest, outputs, hmarks, hinner, hrest⟩ := h.split
  exact ⟨inner, rest, parts, outputs, hmarks, hinner,
    fun item hitem => h.pending item (hnone ▸ Nat.zero_le item) hitem, hrest⟩

/-- Before its branches were looked at, a fork owed the same. -/
theorem Fork.Owes.of_gather (h : f'.Owes parts marks) (hgather : f.gather f.ended = .ok f') :
    f.Owes parts marks := by
  obtain ⟨outputs, hended, rfl⟩ := Fork.of_gather_eq_ok hgather
  refine ⟨h.split, h.pending, fun item result he => ?_, fun item output he => ?_⟩
  · rw [hended] at he
    obtain ⟨e, hmem, heq⟩ := List.mem_map.mp he
    obtain ⟨rfl, rfl⟩ := Prod.mk.inj heq
    exact ⟨⟨e.2, rfl⟩, h.collected e.1 e.2 (List.mem_append_right _ hmem)⟩
  · exact h.collected item output (List.mem_append_left _ he)

/-- Before a branch ended, a fork owed the same. -/
theorem Fork.Owes.of_ended {permits : Nat} {more : List (Nat × Except (Fault StepFailure) Json)}
    (h : Fork.Owes { f with permits, ended := f.ended ++ more } parts marks) :
    f.Owes parts marks :=
  ⟨h.split, h.pending, fun item result he => h.ended item result (List.mem_append_left _ he),
    h.collected⟩

/-- What an activity does in a turn, it has yielded before what it still owes then. -/
theorem Activity.exists_yields_advance (adapter : Adapter σ) (top : Bool) (a : Activity)
    (w : World σ) : ∃ first,
      (a.advance adapter top w).2.timeline.marks = w.timeline.marks ++ first ∧
      ∀ parts marks, (a.advance adapter top w).1.Owes parts marks → a.Yields (first ++ marks) := by
  induction a generalizing w with
  | done result => exact ⟨[], (List.append_nil _).symm, fun _ _ h => h⟩
  | note n next ih =>
    obtain ⟨first, hfirst, howes⟩ := ih (w.note top n)
    have hnote : (w.note top n).timeline.marks = w.timeline.marks ++ n.marks := by
      cases n with
      | event id kind => exact List.map_append
      | line line => exact (List.append_nil _).symm
      | reached index context =>
        refine Eq.trans ?_ (List.append_nil _).symm
        unfold World.note
        dsimp only
        split <;> rfl
    refine ⟨n.marks ++ first, ?_, fun parts marks h => ⟨first ++ marks, ?_, howes parts marks h⟩⟩
    · exact hfirst.trans (by rw [hnote, List.append_assoc])
    · exact List.append_assoc ..
  | pause ms next ih =>
    unfold advance
    split
    · exact ih w
    · exact ⟨[], (List.append_nil _).symm, fun _ _ h => h⟩
  | call operation input next ih =>
    unfold advance
    dsimp only
    split
    · obtain ⟨first, hfirst, howes⟩ := ih _ ((w.beginCall operation input).answer adapter
        (w.callCount operation + 1) operation input).2
      exact ⟨first, hfirst, fun parts marks h => ⟨_, howes parts marks h⟩⟩
    · exact ⟨[], (List.append_nil _).symm, fun _ _ h => h⟩
  | fork count limit branch next _ ih =>
    unfold advance
    split
    · subst count
      obtain ⟨first, hfirst, howes⟩ := ih _ w
      exact ⟨first, hfirst, fun parts marks h =>
        ⟨[], first ++ marks, fun _ => [], [], rfl, interleaves_nil fun _ _ => rfl,
          fun item hitem => absurd hitem (Nat.not_lt_zero item), howes parts marks h⟩⟩
    · exact ⟨[], (List.append_nil _).symm, fun _ _ h => Fork.Owes.yields h rfl⟩

end Parts

namespace Machine

variable {P : Nat → Nat → (Nat → Activity) → Prop} {σ : Type} {adapter : Adapter σ}
  {deadline : Option Nat} {m m' m₀ m₁ : Machine σ} {id k k' p item : Nat} {t t' : Task} {h : Halt}
  {parts : Nat → List Mark} {marks : List Mark}

/-! ### What a task owes -/

/-- A task can go on well, and then it records these marks, together with its branches. -/
inductive Owes (m : Machine σ) : Nat → List Mark → Prop
  | intro {k : Nat} {t : Task} {marks : List Mark} (parts : Nat → List Mark)
      (ht : m.tasks.lookup k = some t) (hstate : t.state.Owes parts marks)
      (hbranch : ∀ c t' item, m.tasks.lookup c = some t' → t'.parent = some (k, item) →
        Owes m c (parts item)) : Owes m k marks

theorem Owes.of_tasks (htasks : m'.tasks = m.tasks) (h : Owes m k marks) : Owes m' k marks := by
  induction h with
  | intro parts ht hstate _ ih =>
    exact .intro parts (htasks ▸ ht) hstate fun c t' item hc => ih c t' item (htasks ▸ hc)

/-- A doomed task does not go on well. -/
theorem Doomed.not_owes (h : Doomed m k) : ¬ Owes m k marks := by
  induction h generalizing marks with
  | failed ht hf he =>
    rintro ⟨parts, ht', hstate, -⟩
    obtain rfl := Option.some.inj (ht.symm.trans ht')
    rw [hf] at hstate
    obtain ⟨⟨output, hresult⟩, -⟩ := hstate.ended _ _ he
    cases hresult
  | branch ht hf ht' hp _ ih =>
    rintro ⟨parts, ht'', hstate, hbranch⟩
    exact ih (hbranch _ _ _ ht' hp)

/-- In its turn a task records these marks, which it owed before besides what it owes then. Only if
it takes in further items, it has branches before. -/
def Pays (m : Machine σ) (id : Nat) (t : Task) (h : Halt) (first : List Mark) : Prop :=
  ∀ parts marks, h.Owes parts marks → ∃ parts', t.state.Owes parts' (first ++ marks) ∧
    (m.itemsOf id = [] ∨ parts' = parts ∧ ∃ f, h = .forked f)

theorem Acting.exists_pays (ha : Acting P adapter m id m₀ t h m₁) :
    ∃ first, m₁.world.timeline.marks = m₀.world.timeline.marks ++ first ∧
      Pays m₀ id t h first := by
  unfold Pays
  have hacts := ha.acts
  have hlawful := ha.state_lawful
  have hpaused := ha.paused
  have hjoining := ha.joining
  generalize t.state = s at hacts hlawful hpaused hjoining
  cases hacts with
  | @refill f f' hf hover =>
    refine ⟨[], (List.append_nil _).symm, fun parts marks howes => ⟨parts, ?_, .inr ⟨rfl, f', rfl⟩⟩⟩
    exact Fork.Owes.of_gather howes hf
  | @advance _ a m₂ hr =>
    obtain ⟨first, hfirst, howes⟩ := a.exists_yields_advance adapter (id = root) m₂.world
    have hsame : m₂.world.timeline = m₀.world.timeline := by
      cases hr with
      | pause r => cases r <;> rfl
      | _ => rfl
    refine ⟨first, hfirst.trans (by rw [hsame]), fun parts marks hh => ?_⟩
    have hyields := howes parts marks hh
    cases hr with
    | pause r =>
      refine ⟨parts, ?_, .inl (hpaused r rfl)⟩
      cases r with
      | activity a => exact hyields
      | answer number operation input next => exact ⟨_, hyields⟩
    | @complete f f' hf hover =>
      refine ⟨fun _ => [], ?_, .inl ((hjoining f rfl).itemsOf_of_over hf hover)⟩
      obtain ⟨outputs, hended, rfl⟩ := Fork.of_gather_eq_ok hf
      refine ⟨⟨[], _, _, rfl, interleaves_nil fun _ _ => rfl, hyields⟩, fun item hle hlt => ?_,
        fun item result he => ⟨?_, rfl⟩, fun _ _ _ => rfl⟩
      · exact absurd (hlt.trans_le hover.1) (Nat.not_lt.mpr hle)
      · rw [hended] at he
        obtain ⟨e, -, heq⟩ := List.mem_map.mp he
        obtain ⟨rfl, rfl⟩ := Prod.mk.inj heq
        exact ⟨e.2, rfl⟩
    | @collapse f c hf =>
      obtain ⟨failure, hfails⟩ := (hlawful.2.2.2 c).advance (m₀.detach id).world
      rw [hfails] at hh
      obtain ⟨⟨context, hresult⟩, -⟩ := hh
      cases hresult

/-! ### Tasks above other tasks -/

/-- A task is another one, or waits for it with a branch that is above it. -/
inductive Above (m : Machine σ) (k : Nat) : Nat → Prop
  | refl : Above m k k
  | up {j p item : Nat} {t : Task} (ht : m.tasks.lookup j = some t)
      (hp : t.parent = some (p, item)) (h : Above m k p) : Above m k j

theorem Above.le (hm : Sound (some id) m) (h : Above m k k') : k ≤ k' := by
  induction h with
  | refl => exact le_rfl
  | up ht hp _ ih => exact ih.trans (hm.parent_lt _ _ _ _ ht hp).le

theorem Above.of_branch (ht : m.tasks.lookup k = some t) (hp : t.parent = some (p, item))
    (h : Above m k k') : Above m p k' := by
  induction h with
  | refl => exact .up ht hp .refl
  | up ht' hp' _ ih => exact .up ht' hp' ih

/-- A task above another one has a branch above it. -/
theorem Above.exists_branch (h : Above m k k') (hne : k ≠ k') :
    ∃ c t item, m.tasks.lookup c = some t ∧ t.parent = some (k, item) ∧ Above m c k' := by
  induction h with
  | refl => exact absurd rfl hne
  | @up j p item t ht hp h ih =>
    by_cases hk : k = p
    · exact ⟨j, t, item, ht, hk ▸ hp, .refl⟩
    · obtain ⟨c, t', item', ht', hp', h'⟩ := ih hk
      exact ⟨c, t', item', ht', hp', .up ht hp h'⟩

theorem Above.total {j : Nat} (h : Above m k j) (h' : Above m k' j) :
    Above m k k' ∨ Above m k' k := by
  induction h with
  | refl => exact .inr h'
  | up ht hp h ih =>
    cases h' with
    | refl => exact .inl (.up ht hp h)
    | up ht' hp' h' =>
      obtain rfl := Option.some.inj (ht.symm.trans ht')
      obtain ⟨rfl, -⟩ := Prod.mk.inj (Option.some.inj (hp.symm.trans hp'))
      exact ih h'

/-- Only one branch of a task is above another one. -/
theorem Above.branch_unique {j item' : Nat} (hm : Sound (some id) m)
    (ht : m.tasks.lookup k = some t) (ht' : m.tasks.lookup k' = some t')
    (hp : t.parent = some (p, item)) (hp' : t'.parent = some (p, item'))
    (h : Above m k j) (h' : Above m k' j) : k = k' := by
  have hnot {k k' item item' : Nat} {t t' : Task} (ht : m.tasks.lookup k = some t)
      (ht' : m.tasks.lookup k' = some t') (hp : t.parent = some (p, item))
      (hp' : t'.parent = some (p, item')) (h : Above m k k') : k = k' := by
    cases h with
    | refl => rfl
    | up ht₁ hp₁ h =>
      obtain rfl := Option.some.inj (ht₁.symm.trans ht')
      obtain ⟨rfl, -⟩ := Prod.mk.inj (Option.some.inj (hp₁.symm.trans hp'))
      exact absurd (h.le hm) (Nat.not_le.mpr (hm.parent_lt k t _ _ ht hp))
  exact (h.total h').elim (hnot ht ht' hp hp') fun h => (hnot ht' ht hp' hp h).symm

/-! ### Turns -/

/-- The fork of a task above the running one owes what the running one records first. -/
theorem Accounts.owes_first {f : Fork} {c : Nat} {tc : Task} (hacc : m₀.Accounts k f)
    (htc : m₀.tasks.lookup c = some tc) (hp : tc.parent = some (k, item))
    (howes : f.Owes parts marks) (first : List Mark) :
    f.Owes (Function.update parts item (first ++ parts item)) (first ++ marks) := by
  have hmem := mem_itemsOf_of_lookup htc hp
  have hall := hacc.accounts.nodup_iff.mpr List.nodup_range
  have hadmitted : item < f.admitted := List.mem_range.mp (hacc.accounts.mem_iff.mp
    (List.mem_append_left _ (List.mem_append_left _ hmem)))
  have hcount : item < f.count :=
    hadmitted.trans_le hacc.admitted_le
  obtain ⟨inner, rest, outputs, rfl, hinner, hrest⟩ := howes.split
  refine ⟨⟨first ++ inner, rest, outputs, (List.append_assoc ..).symm,
    hinner.append_left hcount first, hrest⟩, fun item' hle hlt => ?_, fun item' result he => ?_,
    fun item' output he => ?_⟩
  · rw [Function.update_of_ne (hadmitted.trans_le hle).ne']
    exact howes.pending item' hle hlt
  · -- the item is still in work
    have hne : item' ≠ item := by
      rintro rfl
      exact (List.nodup_append.mp (List.nodup_append.mp hall).1).2.2 item' hmem item'
        (List.mem_map_of_mem he) rfl
    rw [Function.update_of_ne hne]
    exact howes.ended item' result he
  · have hne : item' ≠ item := by
      rintro rfl
      exact (List.nodup_append.mp hall).2.2 _ (List.mem_append_left _ hmem) _
        (List.mem_map_of_mem he) rfl
    rw [Function.update_of_ne hne]
    exact howes.collected item' output he

section Turn

variable (ha : Acting P adapter m id m₀ t h m₁)

include ha

/-- Each item that is admitted has a branch then. -/
theorem Acting.exists_branch {f : Fork} (hh : h = .forked f) (hitem : item ∈ f.nextItems) :
    ∃ c, (m₁.halt id h).tasks.lookup c =
      some ⟨some (id, item), .paused (.activity (f.branch item)), false⟩ := by
  subst hh
  obtain ⟨c, hmem⟩ := exists_mem_branchTasks id f.branch m₁.fresh hitem
  refine ⟨c, Keyed.lookup_of_mem ha.proper.sound.keys_nodup ?_⟩
  rw [halt, takeIn_tasks]
  exact List.mem_append_right _ hmem

/-- When the running task has left a fork, that fork owes what it owes with its new branches. -/
theorem Acting.halt_owes {s : TaskState} (hstate : h.state? = some s) (howes : s.Owes parts marks)
    (hbranch : ∀ c t' item, (m₁.halt id h).tasks.lookup c = some t' →
      t'.parent = some (id, item) → Owes (m₁.halt id h) c (parts item)) : h.Owes parts marks := by
  cases h with
  | done result => cases hstate
  | asleep ms r =>
    obtain rfl := Option.some.inj hstate
    exact howes
  | forked f =>
    obtain rfl := Option.some.inj hstate
    refine ⟨howes.split, fun item hle hlt => ?_, howes.ended, howes.collected⟩
    by_cases hnext : item ∈ f.nextItems
    · obtain ⟨c, hc⟩ := ha.exists_branch rfl hnext
      obtain ⟨_, ht', hyields, -⟩ := hbranch c _ item hc rfl
      obtain rfl := Option.some.inj (hc.symm.trans ht')
      exact hyields
    · refine howes.pending item ?_ hlt
      rw [Fork.mem_nextItems] at hnext
      exact Nat.le_of_not_lt fun hlt' => hnext ⟨hle, hlt'⟩

/-- What the running task owes before its turn. -/
theorem Pays.owes {first : List Mark} (hfirst : Pays m₀ id t h first) (hh : h.Owes parts marks)
    (hbranch : ∀ c t' item, m₀.tasks.lookup c = some t' → t'.parent = some (id, item) →
      (∃ f, h = .forked f) → Owes m₀ c (parts item)) : Owes m₀ id (first ++ marks) := by
  obtain ⟨parts', hstate, hnone⟩ := hfirst parts marks hh
  refine .intro parts' ha.lookup hstate fun c t' item ht' hp => ?_
  rcases hnone with hnil | ⟨rfl, hforked⟩
  · exact absurd hp ((itemsOf_eq_nil_iff ha.sound.keys_nodup).mp hnil c t' item ht')
  · exact hbranch c t' item ht' hp hforked

/-- A branch of another task is still there after the turn, if it has not ended. -/
theorem Acting.branch_kept {c : Nat} {tc : Task} (htc : m₀.tasks.lookup c = some tc)
    (hp : tc.parent = some (k, item)) (hne : k ≠ id)
    (hgoes : c = id → ∀ result, h ≠ .done result) :
    ∃ t', (m₁.halt id h).tasks.lookup c = some t' ∧ t'.parent = some (k, item) := by
  by_cases hid : c = id
  · subst hid
    obtain rfl := Option.some.inj (ha.lookup.symm.trans htc)
    obtain ⟨s, hs⟩ : ∃ s, h.state? = some s := by
      cases h with
      | done result => exact absurd rfl (hgoes rfl result)
      | asleep ms r => exact ⟨_, rfl⟩
      | forked f => exact ⟨_, rfl⟩
    exact ⟨_, lookup_halt_self ha.lookup_acted hs, hp⟩
  · obtain ⟨t', ht', kept⟩ := ha.exists_kept hid htc
    exact ⟨t', ht', kept.parent_of_ne hp hne⟩

end Turn

/-- A task that ends well in its turn owed before what it records in it. -/
theorem Pays.owes_of_done {output : Json} {first : List Mark}
    (ha : Acting P adapter m id m₀ t (.done (.ok output)) m₁)
    (hfirst : Pays m₀ id t (.done (.ok output)) first) : Owes m₀ id (first ++ []) := by
  have hdone : (Halt.done (.ok output)).Owes (fun _ => []) [] := ⟨⟨output, rfl⟩, rfl⟩
  exact hfirst.owes ha hdone fun _ _ _ _ _ hforked => nomatch hforked

/-- What a task above the running one owes before the turn, when its other branches owe the same and
the one above the running task owes what is recorded too. -/
theorem Pays.owes_above {t₀ t₁ : Task} {first : List Mark} (hpays : Pays m₀ id t h first)
    (ha : Acting P adapter m id m₀ t h m₁) (hne : k ≠ id) (ht₀ : m₀.tasks.lookup k = some t₀)
    (kept : Kept id (itemIn k t) h t₀ t₁) (hstate : t₁.state.Owes parts marks)
    (habove : Above m₀ k id)
    (hbranch : ∀ c tc item, m₀.tasks.lookup c = some tc → tc.parent = some (k, item) →
      (c = id → ∀ result, h ≠ .done result) →
      (Above m₀ c id → Owes m₀ c (first ++ parts item)) ∧
        (¬ Above m₀ c id → Owes m₀ c (parts item))) : Owes m₀ k (first ++ marks) := by
  have hrun : some id ≠ some k := fun heq => hne (Option.some.inj heq).symm
  obtain ⟨c₀, t₁, item₀, ht₁, hp₁, habove₁⟩ := habove.exists_branch hne
  cases hs : t₀.state with
  | paused r =>
    have hnil := (ha.sound.paused k t₀ r ht₀ hs hrun).2
    exact absurd (mem_itemsOf_of_lookup ht₁ hp₁) (hnil ▸ List.not_mem_nil)
  | joining f =>
    have hacc := (ha.sound.joining k t₀ f ht₀ hs hrun).toAccounts
    rw [kept.joining f hs] at hstate
    have howes : f.Owes parts marks := Fork.Owes.of_ended hstate
    have hstate₀ := hacc.owes_first ht₁ hp₁ howes first
    refine .intro _ ht₀ (by rw [hs]; exact hstate₀) fun c tc item htc hp => ?_
    by_cases hc : c = c₀
    · subst hc
      obtain rfl := Option.some.inj (ht₁.symm.trans htc)
      obtain ⟨-, rfl⟩ := Prod.mk.inj (Option.some.inj (hp.symm.trans hp₁))
      rw [Function.update_self]
      by_cases hgone : c = id ∧ ∃ result, h = .done result
      · -- it is the running task itself, and has ended
        obtain ⟨rfl, result, rfl⟩ := hgone
        obtain rfl := Option.some.inj (ha.lookup.symm.trans ht₁)
        obtain ⟨⟨output, houtput⟩, hnil⟩ :=
          hstate.ended item _ (List.mem_append_right _ (mem_results hp))
        obtain rfl := Except.mapError_eq_ok.mp houtput
        rw [hnil]
        exact hpays.owes_of_done ha
      · exact (hbranch c _ item ht₁ hp fun hid result hh => hgone ⟨hid, result, hh⟩).1 habove₁
    · have hitem : item ≠ item₀ := by
        rintro rfl
        exact hc (hacc.eq_of_parent htc ht₁ hp hp₁)
      have hnot : ¬ Above m₀ c id := fun h' =>
        hc (h'.branch_unique ha.sound htc ht₁ hp hp₁ habove₁)
      rw [Function.update_of_ne hitem]
      exact (hbranch c tc item htc hp fun hid => absurd (hid ▸ .refl) hnot).2 hnot

/-- **What is owed before a turn**: what is recorded in it, by the task itself and by those above
it, and what is owed afterwards. -/
theorem Owes.turn (ha : Acting P adapter m id m₀ t h m₁) {first : List Mark}
    (hpays : Pays m₀ id t h first) (hk : Owes (m₁.halt id h) k marks)
    (hold : (m₀.tasks.lookup k).isSome) :
    (Above m₀ k id → Owes m₀ k (first ++ marks)) ∧ (¬ Above m₀ k id → Owes m₀ k marks) := by
  induction hk with
  | @intro k t' marks parts ht' hstate hbranch ih =>
    cases ha.after ht' with
    | new hk =>
      obtain ⟨t₀, ht₀⟩ := Option.isSome_iff_exists.mp hold
      exact absurd (ha.sound.lt_fresh k t₀ ht₀) (Nat.not_lt.mpr hk)
    | self hk _ _ state =>
      subst hk
      refine ⟨fun _ => ?_, fun hnot => absurd .refl hnot⟩
      refine hpays.owes ha (ha.halt_owes state hstate hbranch) fun c tc item htc hp hforked => ?_
      have hlt := ha.sound.parent_lt c tc k item htc hp
      obtain ⟨t₂, ht₂, kept⟩ := ha.exists_kept hlt.ne' htc
      have hp₂ := (kept.parent_of_not_failed fun failure => by
        obtain ⟨f, rfl⟩ := hforked
        exact nofun).trans hp
      exact (ih c t₂ item ht₂ hp₂ (Option.isSome_of_eq_some htc)).2 fun habove =>
        absurd (habove.le ha.sound) (Nat.not_le.mpr hlt)
    | @other t₀ hne ht₀ kept =>
      have hbranches (c : Nat) (tc : Task) (item : Nat) (htc : m₀.tasks.lookup c = some tc)
          (hp : tc.parent = some (k, item)) (hgoes : c = id → ∀ result, h ≠ .done result) :=
        have ⟨t₂, ht₂, hp₂⟩ := ha.branch_kept htc hp hne hgoes
        ih c t₂ item ht₂ hp₂ (Option.isSome_of_eq_some htc)
      refine ⟨fun habove => hpays.owes_above ha hne ht₀ kept hstate habove hbranches,
        fun hnot => .intro parts ht₀ ?_ fun c tc item htc hp => ?_⟩
      · cases hs : t₀.state with
        | paused r => rw [kept.paused r hs] at hstate; exact hstate
        | joining f => rw [kept.joining f hs] at hstate; exact Fork.Owes.of_ended hstate
      · have hnot' : ¬ Above m₀ c id := fun h' => hnot (h'.of_branch htc hp)
        exact (hbranches c tc item htc hp fun hid => absurd (hid ▸ .refl) hnot').2 hnot'

/-! ### Runs that are completed -/

/-- The run is completed if it records these marks yet, those that the root owes. -/
inductive Concludes (m : Machine σ) : List Mark → Prop
  | running {marks : List Mark} (hending : m.ending = none) (h : Owes m root marks) :
    Concludes m marks
  | ended {context : Json} (hending : m.ending = some (.finished (.ok context))) : Concludes m []

/-- If no task is without its task, the root is above all of them. -/
theorem above_of_parents (hm : Sound (some id) m) (hroot : (m.tasks.lookup root).isSome)
    (hparents : ∀ k t, m.tasks.lookup k = some t → k ≠ root → t.parent ≠ none) {k : Nat} :
    (m.tasks.lookup k).isSome → Above m root k := by
  induction k using Nat.strong_induction_on with
  | _ k ih =>
    intro hk
    by_cases heq : k = root
    · exact heq ▸ .refl
    obtain ⟨tr, htr⟩ := Option.isSome_iff_exists.mp hroot
    obtain ⟨t, ht⟩ := Option.isSome_iff_exists.mp hk
    obtain ⟨⟨p, item⟩, hp⟩ := Option.ne_none_iff_exists'.mp (hparents k t ht heq)
    refine .up ht hp (ih p (hm.parent_lt k t p item ht hp) ?_)
    rcases hm.parent k t p item ht ((hm.root tr htr).2 k t ht) hp with hrun | ⟨tp, f, htp, -⟩
    · exact hm.running_isSome p hrun
    · exact Option.isSome_of_eq_some htp

/-- While the root goes on well, no task is without its task. -/
theorem Owes.root_above (ha : Acting P adapter m id m₀ t h m₁) (hintact : Intact m₀)
    (hroot : (m₀.tasks.lookup root).isSome) (howes : Owes (m₁.halt id h) root marks) :
    Above m₀ root id := by
  refine above_of_parents ha.sound hroot (hintact.resolve_left fun hdoomed => ?_)
    (Option.isSome_of_eq_some ha.lookup)
  by_cases hid : root = id
  · rcases (hdoomed.turn ha).2 hid with hdoomed | ⟨failure, rfl⟩
    · exact hdoomed.not_owes howes
    · obtain ⟨-, ht', -, -⟩ := howes
      rcases ha.old_or_new ht' with ⟨-, -, hgoes⟩ | hnew
      · exact hgoes hid _ rfl
      · exact absurd ha.sound.root_lt_fresh (Nat.not_lt.mpr hnew)
  · exact ((hdoomed.turn ha).1 hid).not_owes howes

/-- What is left to record before a turn of a run that is completed. -/
theorem Concludes.turn (hm : Proper P m) (hending : m.ending = none) (hintact : Intact m)
    (htakes : Takes m id m₀) (h : Concludes (m₀.turn adapter id) marks) :
    ∃ first, (m₀.turn adapter id).world.timeline.marks = m.world.timeline.marks ++ first ∧
      Concludes m (first ++ marks) := by
  have hroot : (m₀.tasks.lookup root).isSome := htakes.tasks ▸ hm.sound.ending.mp hending
  have hback {marks : List Mark} (howes : Owes m₀ root marks) : Concludes m marks :=
    .running hending (howes.of_tasks htakes.tasks.symm)
  refine hm.turn_cases (Q := fun m' => Concludes m' marks → ∃ first,
    m'.world.timeline.marks = m.world.timeline.marks ++ first ∧ Concludes m (first ++ marks))
    htakes (fun _ h => ?_) (fun t ht hc hsound _ => ?_) (fun t halt m₁ ha h => ?_) h
  · have hsame := htakes.ending
    refine ⟨[], by rw [htakes.world, List.append_nil], ?_⟩
    cases h with
    | running _ howes => exact hback howes
    | ended hended =>
      rw [hsame, hending] at hended
      cases hended
  · obtain ⟨tr, htr⟩ := Option.isSome_iff_exists.mp hroot
    exact absurd (((hsound.root tr htr).2 id t ht).symm.trans hc) Bool.false_ne_true
  · obtain ⟨first, hmarks, hpays⟩ := ha.exists_pays
    refine ⟨first, ?_, ?_⟩
    · rw [ha.halt_world, hmarks, htakes.world]
    · cases h with
      | running _ howes =>
        have habove := howes.root_above ha (hintact.of_tasks htakes.tasks) hroot
        exact hback ((howes.turn ha hpays hroot).1 habove)
      | @ended context hended =>
        rcases ha.ending with ⟨result, rfl, rfl, hresult⟩ | ⟨hsame, -⟩
        · obtain rfl := Ending.finished.inj (Option.some.inj (hresult.symm.trans hended))
          exact hback (hpays.owes_of_done ha)
        · rw [hsame, hending] at hended
          cases hended

theorem Concludes.wakeAt {time : Nat} (h : Concludes (m.wakeAt time) marks) :
    Concludes m marks := by
  cases h with
  | running hending howes =>
    exact .running (wakeAt_ending ▸ hending) (howes.of_tasks wakeAt_tasks.symm)
  | ended hended => exact .ended (wakeAt_ending ▸ hended)

theorem Concludes.rootTurn (hm : Proper P m) (hending : m.ending = none) (hintact : Intact m)
    (h : Concludes (m.rootTurn adapter deadline) marks) :
    ∃ first, (m.rootTurn adapter deadline).world.timeline.marks =
      m.world.timeline.marks ++ first ∧ Concludes m (first ++ marks) := by
  rw [rootTurn_eq] at h ⊢
  split at h
  · -- a run that is cut off is not completed
    cases h with
    | running hending => cases hending
    | ended hended => cases hended
  · rename_i hcut
    rw [if_neg hcut]
    unfold rootPart at h ⊢
    split at h
    · rename_i hready
      rw [if_pos hready]
      exact h.turn hm hending hintact (.root hready)
    · rename_i hready
      rw [if_neg hready]
      exact ⟨[], (List.append_nil _).symm, h⟩

theorem Concludes.step (hm : Proper P m) (hending : m.ending = none) (hintact : Intact m)
    (h : Concludes (m.step adapter deadline) marks) :
    ∃ first, (m.step adapter deadline).world.timeline.marks = m.world.timeline.marks ++ first ∧
      Concludes m (first ++ marks) := by
  refine step_cases (Q := fun m' => Concludes m' marks → ∃ first,
    m'.world.timeline.marks = m.world.timeline.marks ++ first ∧ Concludes m (first ++ marks))
    (fun id ready hready h => h.turn hm hending hintact (.branch hready))
    (fun _ _ h => h.rootTurn hm hending hintact)
    (fun _ _ _ h => ⟨[], (List.append_nil _).symm, h⟩) (fun time _ _ htime h => ?_) h
  obtain ⟨first, hmarks, hconcludes⟩ := h.rootTurn (hm.wakeAt (of_nextTime_eq_some htime).1)
    (wakeAt_ending.trans hending) (hintact.of_tasks wakeAt_tasks)
  rw [wakeAt_world] at hmarks
  exact ⟨first, hmarks, hconcludes.wakeAt⟩

/-- **What a run records that is completed**: what the root owes at the beginning. -/
theorem Proper.run_concludes (hm : Proper P m) (hintact : Intact m)
    {context : Json} (h : (m.run adapter deadline).ending = some (.finished (.ok context))) :
    ∃ marks, (m.run adapter deadline).world.timeline.marks = m.world.timeline.marks ++ marks ∧
      Concludes m marks := by
  refine hm.run_induction adapter deadline (Q := fun m => (m.ending = none → Intact m) →
    (m.run adapter deadline).ending = some (.finished (.ok context)) → ∃ marks,
      (m.run adapter deadline).world.timeline.marks = m.world.timeline.marks ++ marks ∧
        Concludes m marks)
    (fun m hm he hintact h => ?_) (fun m hm he ih hintact h => ?_) (fun _ => hintact) h
  · rw [run_of_ending he] at h ⊢
    exact ⟨[], (List.append_nil _).symm, .ended h⟩
  · rw [run_of_step he] at h ⊢
    obtain ⟨marks, hmarks, hconcludes⟩ := ih (Intact.step hm hintact) h
    obtain ⟨first, hfirst, hconcludes⟩ := hconcludes.step hm he (hintact he)
    exact ⟨first ++ marks, by rw [hmarks, hfirst, List.append_assoc], hconcludes⟩

/-- When a step is completed, it has recorded what it records then. -/
theorem marks_runStep {context context' : Json} (hrest : AtRest context m) {index : Nat} {s : Step}
    (hend : (m.runStep adapter deadline index s).ending = some (.finished (.ok context'))) :
    ∃ marks, (m.runStep adapter deadline index s).world.timeline.marks =
      m.world.timeline.marks ++ marks ∧ Pipeline.Completed "" [s] marks := by
  have hproper : Proper anyFork (beginning m.world m.fresh (s.alone index context)) :=
    .beginning hrest.2 (s.alone_lawful index context)
  unfold runStep at hend ⊢
  rw [thenRun_of_ok hrest.ending] at hend ⊢
  obtain ⟨marks, hmarks, hconcludes⟩ := hproper.run_concludes intact_beginning hend
  refine ⟨marks, hmarks, ?_⟩
  cases hconcludes with
  | ended hended => cases hended
  | running _ howes =>
    obtain ⟨parts, ht, hstate, -⟩ := howes
    rw [lookup_beginning, if_pos rfl] at ht
    obtain rfl := Option.some.inj ht
    exact Step.alone_yields hstate

theorem Pipeline.Completed.append {scope : String} {steps more : List Step}
    {marks later : List Mark} (h : Pipeline.Completed scope steps marks)
    (hmore : Pipeline.Completed scope more later) :
    Pipeline.Completed scope (steps ++ more) (marks ++ later) := by
  induction steps generalizing marks with
  | nil =>
    obtain rfl : marks = [] := h
    exact hmore
  | cons s steps ih =>
    obtain ⟨inner, rest, hs, hsteps, rfl⟩ := h
    exact ⟨inner, rest ++ later, hs, ih hsteps, by simp⟩

/-- Steps that have been executed have recorded what a completed pipeline records. -/
theorem Executed.exists_marks {context : Json} {index : Nat} {steps : List Step}
    (hsteps : Executed adapter deadline index steps m m') (hrest : AtRest context m) :
    ∃ marks, m'.world.timeline.marks = m.world.timeline.marks ++ marks ∧
      Pipeline.Completed "" steps marks := by
  induction hsteps generalizing context with
  | nil index m => exact ⟨[], (List.append_nil _).symm, rfl⟩
  | @cons index s steps m m' context' hs hsteps ih =>
    obtain ⟨first, hfirst, hstep⟩ := marks_runStep hrest hs
    obtain ⟨later, hlater, hpipeline⟩ := ih (atRest_runStep hrest hs)
    refine ⟨first ++ later, by rw [hlater, hfirst, List.append_assoc], ?_⟩
    exact Pipeline.Completed.append hstep hpipeline

end Machine

end Conveyor
