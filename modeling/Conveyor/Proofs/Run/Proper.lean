import Conveyor.Proofs.Run.Lawful

/-!
# Proper machines

A machine is proper if it is sound and what is left to do of its tasks is lawful. Every machine of a
run of a lawful activity is proper, also after the end of the root; `Machine.Proper.turn_cases` says
what the turn of a task of a proper machine can be.
-/

namespace Conveyor

/-- What a task is about that has halted and goes on. -/
def Halt.state? : Halt → Option TaskState
  | .done _ => none
  | .asleep _ r => some (.paused r)
  | .forked f => some (.joining f.filled)

/-- The result that a fork receives from the task `id`, which has halted, if it is the branch of an
item. -/
def Halt.results (id : Nat) (item : Option Nat) :
    Halt → List (Nat × Except (Fault StepFailure) Json)
  | .done result => item.toList.map (·, result.mapError (Machine.told id))
  | _ => []

namespace Machine

variable {P : Nat → Nat → (Nat → Activity) → Prop} {σ : Type} {adapter : Adapter σ}
  {deadline : Option Nat} {m m₀ m₁ : Machine σ} {id : Nat} {t : Task}

/-! ### Halting -/

/-- A task with this number can halt so: it has no branches, or they are those of its fork. -/
def Fits (m : Machine σ) (id : Nat) : Halt → Prop
  | .done _ => m.itemsOf id = []
  | .asleep ms _ => m.itemsOf id = [] ∧ 0 < ms
  | .forked f => f.Reckons (m.itemsOf id)

theorem Sound.halt {h : Halt} (hm : Sound (some id) m) (hfits : m.Fits id h)
    (ht : m.tasks.lookup id = some t) (hc : t.cancelled = false) : Sound none (m.halt id h) := by
  cases h with
  | done result => exact hm.finish hfits ht hc
  | asleep ms r => exact hm.sleep hfits.1 ht hc hfits.2
  | forked f => exact hm.takeIn ht hc hfits

/-- A task without branches can halt in any lawful way with a new fork. -/
theorem fits_advance {a : Activity} {top : Bool} (ha : a.Lawful P) (hnil : m.itemsOf id = [])
    (w : World σ) : m.Fits id (a.advance adapter top w).1 := by
  induction a generalizing w with
  | done result => exact hnil
  | note n next ih => exact ih ha _
  | pause ms next ih =>
    unfold Activity.advance
    split
    · exact ih ha w
    · exact ⟨hnil, Nat.pos_of_ne_zero ‹_›⟩
  | call operation input next ih =>
    unfold Activity.advance
    dsimp only
    split
    · exact ih _ (ha _) _
    · exact ⟨hnil, Nat.pos_of_ne_zero ‹_›⟩
  | fork count limit branch next =>
    obtain ⟨hcount, hlimit, -⟩ := ha.1
    unfold Activity.advance
    rw [if_neg hcount.ne']
    refine ⟨rfl, ?_, rfl, ?_, Nat.zero_le _, hcount, hlimit⟩
    · simp only [Fork.ofBranches, hnil, List.map_nil, List.append_nil, List.range_zero]
      exact List.Perm.refl _
    · rw [hnil]
      rfl

/-! ### Forks that look at their branches -/

section Gather

variable {f f' : Fork} (hw : m.Accounts id f) (hf : f.gather f.ended = .ok f')

include hw hf

/-- The results of branches are only looked at in addition. -/
theorem Accounts.accounts_gather :
    (m.itemsOf id ++ f'.collected.map Prod.fst).Perm (List.range f'.admitted) := by
  obtain ⟨outputs, hended, rfl⟩ := Fork.of_gather_eq_ok hf
  have hitems : f.ended.map Prod.fst = outputs.map Prod.fst := by
    rw [hended, List.map_map]; rfl
  have hacc := hw.accounts
  rw [hitems, List.append_assoc] at hacc
  rw [List.map_append]
  exact List.Perm.trans (List.perm_append_comm.append_left _) hacc

theorem Accounts.length_gather :
    (m.itemsOf id).length + f'.collected.length = f'.admitted ∧
      f'.branches + f'.collected.length = f'.admitted ∧ f'.admitted ≤ f'.count := by
  have hlength := (hw.accounts_gather hf).length_eq
  have hended := hw.accounts.length_eq
  have hbranches := hw.branches
  have hle := hw.admitted_le
  obtain ⟨outputs, houtputs, rfl⟩ := Fork.of_gather_eq_ok hf
  simp only [List.length_append, List.length_map, List.length_range] at hlength hended ⊢
  rw [houtputs, List.length_map] at hended
  omega

/-- A fork is over when it has the results of all branches. -/
theorem Accounts.over_iff : f'.Over ↔ f'.collected.length = f'.count := by
  have hlength := hw.length_gather hf
  unfold Fork.Over
  omega

/-- A fork that is over has no branches left. -/
theorem Accounts.itemsOf_of_over (hover : f'.Over) : m.itemsOf id = [] := by
  have hlength := hw.length_gather hf
  have hall := (hw.over_iff hf).mp hover
  exact List.length_eq_zero_iff.mp (by omega)

/-- A fork that is not over can go on waiting. -/
theorem Accounts.fits_refill (hover : ¬ f'.Over) : m.Fits id (.forked f') := by
  obtain ⟨hlength, hbranches, hle⟩ := hw.length_gather hf
  rw [hw.over_iff hf] at hover
  have haccounts := hw.accounts_gather hf
  obtain ⟨outputs, -, rfl⟩ := Fork.of_gather_eq_ok hf
  exact ⟨rfl, haccounts, hbranches, hw.permits, hle, by omega, hw.limit⟩

end Gather

/-! ### Proper machines -/

/-- A sound machine in which what is left to do is lawful. -/
structure Proper (P : Nat → Nat → (Nat → Activity) → Prop) (m : Machine σ) : Prop where
  sound : Sound none m
  lawful : m.Lawful P

/-- A task of a proper machine `m` is taken, which leaves `m₀`, and acts, up to `m₁`. -/
structure Acting (P : Nat → Nat → (Nat → Activity) → Prop) (adapter : Adapter σ) (m : Machine σ)
    (id : Nat) (m₀ : Machine σ) (t : Task) (h : Halt) (m₁ : Machine σ) : Prop where
  takes : Takes m id m₀
  lookup : m₀.tasks.lookup id = some t
  active : t.cancelled = false
  acts : Acts adapter id m₀ t.state h m₁
  sound : Sound (some id) m₀
  lawful : m₀.Lawful P
  paused : ∀ r, t.state = .paused r → m₀.itemsOf id = []
  joining : ∀ f, t.state = .joining f → m₀.Accounts id f

theorem Proper.acting {halt : Halt} (hm : Proper P m) (h : Takes m id m₀)
    (ht₀ : m₀.tasks.lookup id = some t) (hc : t.cancelled = false)
    (hacts : Acts adapter id m₀ t.state halt m₁) : Acting P adapter m id m₀ t halt m₁ := by
  have ht : m.tasks.lookup id = some t := h.tasks ▸ ht₀
  refine ⟨h, ht₀, hc, hacts, hm.sound.take h ht, ?_, fun r hr => ?_, fun f hf => ?_⟩
  · exact fun k t ht => hm.lawful k t (h.tasks ▸ ht)
  · exact (h.itemsOf id).trans (hm.sound.paused id t r ht hr nofun).2
  · exact (hm.sound.joining id t f ht hf nofun).toAccounts.of_itemsOf (h.itemsOf id)

theorem Proper.exists_acting (adapter : Adapter σ) (hm : Proper P m) (h : Takes m id m₀)
    (ht : m.tasks.lookup id = some t) (hc : t.cancelled = false) :
    ∃ h m₁, Acting P adapter m id m₀ t h m₁ ∧ m₀.turn adapter id = m₁.halt id h := by
  have ht₀ : m₀.tasks.lookup id = some t := h.tasks ▸ ht
  obtain ⟨halt, m₁, hacts⟩ := exists_acts adapter id m₀ t.state
  exact ⟨halt, m₁, hm.acting h ht₀ hc hacts, turn_of_acts ht₀ hc hacts⟩

/-- The turn of a task: there is none, or it is cancelled and dropped, or it acts and halts. -/
theorem Proper.turn_cases {Q : Machine σ → Prop} (hm : Proper P m) (h : Takes m id m₀)
    (gone : m.tasks.lookup id = none → Q m₀)
    (dropped : ∀ t, m₀.tasks.lookup id = some t → t.cancelled = true → Sound (some id) m₀ →
      Q (m₀.drop id))
    (acted : ∀ t h m₁, Acting P adapter m id m₀ t h m₁ → Q (m₁.halt id h)) :
    Q (m₀.turn adapter id) := by
  cases ht : m.tasks.lookup id with
  | none => rw [turn_of_none (h.tasks ▸ ht)]; exact gone ht
  | some t =>
    have ht₀ : m₀.tasks.lookup id = some t := h.tasks ▸ ht
    cases hc : t.cancelled with
    | true => rw [turn_of_cancelled ht₀ hc]; exact dropped t ht₀ hc (hm.sound.take h ht)
    | false =>
      obtain ⟨halt, m₁, ha, hturn⟩ := hm.exists_acting adapter h ht hc
      rw [hturn]
      exact acted t halt m₁ ha

/-! ### Tasks that act -/

namespace Resumes

variable {s : TaskState} {a : Activity}

theorem now (hr : Resumes adapter id m s a m₁) : m₁.world.now = m.world.now := by
  cases hr with
  | pause r => exact r.now_start adapter m.world
  | _ => rfl

theorem sound (hr : Resumes adapter id m s a m₁) (hm : Sound (some id) m) :
    Sound (some id) m₁ := by
  cases hr with
  | pause r => exact hm.withWorld (r.now_start adapter m.world)
  | collapse hf => exact hm.detach
  | complete hf hover => exact hm

theorem machine_lawful (hr : Resumes adapter id m s a m₁) (hm : m.Lawful P) : m₁.Lawful P := by
  cases hr with
  | collapse hf => exact hm.detach
  | _ => exact hm

theorem lawful (hr : Resumes adapter id m s a m₁) (hs : s.Lawful P) : a.Lawful P := by
  cases hr with
  | pause r => exact Resumption.Lawful.start hs m.world
  | collapse hf => exact Fork.Lawful.next hs _
  | complete hf hover => exact Fork.Lawful.next hs _

/-- A task that takes in no further items has no branches. -/
theorem itemsOf_eq_nil (hr : Resumes adapter id m s a m₁)
    (hpaused : ∀ r, s = .paused r → m.itemsOf id = [])
    (hjoining : ∀ f, s = .joining f → m.Accounts id f) : m₁.itemsOf id = [] := by
  cases hr with
  | pause r => exact hpaused r rfl
  | collapse hf => exact itemsOf_detach.trans (if_pos rfl)
  | complete hf hover => exact (hjoining _ rfl).itemsOf_of_over hf hover

end Resumes

theorem Acts.halt_lawful {s : TaskState} {h : Halt} (hacts : Acts adapter id m s h m₁)
    (hs : s.Lawful P) : h.Lawful P := by
  cases hacts with
  | advance hr => exact (hr.lawful hs).advance _
  | refill hf hover => exact Fork.Lawful.gather hs hf

namespace Acting

variable {h : Halt} (ha : Acting P adapter m id m₀ t h m₁)

include ha

theorem state_lawful : t.state.Lawful P :=
  ha.lawful id t ha.lookup

/-- The world of the turn is as old as before. -/
theorem now : m₁.world.now = m₀.world.now := by
  have hacts := ha.acts
  generalize t.state = s at hacts
  cases hacts with
  | advance hr => exact (Activity.now_advance adapter _ _ _).trans hr.now
  | refill hf hover => rfl

/-- The task does not change what it is about before it halts. -/
theorem lookup_acted : m₁.tasks.lookup id = some t := by
  have hacts := ha.acts
  generalize t.state = s at hacts
  cases hacts with
  | refill hf hover => exact ha.lookup
  | advance hr =>
    cases hr with
    | collapse hf =>
      refine lookup_detach.trans ?_
      rw [ha.lookup, Option.map_some, detached_of_parent_ne]
      exact fun item hp => (ha.sound.parent_lt id t id item ha.lookup hp).false
    | _ => exact ha.lookup

theorem sound_acted : Sound (some id) m₁ := by
  have hacts := ha.acts
  generalize t.state = s at hacts
  cases hacts with
  | advance hr => exact (hr.sound ha.sound).withWorld (Activity.now_advance adapter _ _ _)
  | refill hf hover => exact ha.sound

theorem lawful_acted : m₁.Lawful P := by
  have hacts := ha.acts
  generalize t.state = s at hacts
  cases hacts with
  | advance hr => exact hr.machine_lawful ha.lawful
  | refill hf hover => exact ha.lawful

theorem halt_lawful : h.Lawful P :=
  ha.acts.halt_lawful ha.state_lawful

theorem fits : m₁.Fits id h := by
  have hacts := ha.acts
  have hs := ha.state_lawful
  have hpaused := ha.paused
  have hjoining := ha.joining
  generalize t.state = s at hacts hs hpaused hjoining
  cases hacts with
  | advance hr => exact fits_advance (hr.lawful hs) (hr.itemsOf_eq_nil hpaused hjoining) _
  | refill hf hover => exact (hjoining _ rfl).fits_refill hf hover

/-- The task has halted. -/
theorem proper : Proper P (m₁.halt id h) :=
  ⟨ha.sound_acted.halt ha.fits ha.lookup_acted ha.active,
    ha.lawful_acted.halt ha.halt_lawful ha.lookup_acted fun hid =>
      (ha.sound_acted.root t (hid ▸ ha.lookup_acted)).1⟩

end Acting

/-- A turn in which the root ends is the end of the run. -/
theorem Acting.ending {h : Halt} (ha : Acting P adapter m id m₀ t h m₁) :
    (∃ result, h = .done result ∧ id = root ∧
      (m₁.halt id h).ending = some (.finished result)) ∨
      (m₁.halt id h).ending = m.ending ∧ ∀ result, h = .done result → id ≠ root := by
  have hending : m₁.ending = m.ending := by
    have hacts := ha.acts
    generalize t.state = s at hacts
    have htakes := ha.takes
    cases hacts with
    | refill hf hover => cases htakes <;> rfl
    | advance hr => cases hr <;> cases htakes <;> rfl
  cases h with
  | done result =>
    rw [halt, finish_ending ha.lookup_acted fun hid =>
      (ha.sound_acted.root t (hid ▸ ha.lookup_acted)).1]
    by_cases hid : id = root
    · exact .inl ⟨result, rfl, hid, if_pos hid⟩
    · exact .inr ⟨(if_neg hid).trans hending, fun _ _ => hid⟩
  | asleep ms r => exact .inr ⟨hending, fun _ => Halt.noConfusion⟩
  | forked f => exact .inr ⟨takeIn_ending.trans hending, fun _ => Halt.noConfusion⟩

/-! ### The tasks after a turn -/

/-- What becomes of a task at the turn of another one, `id`, that halts; `item` is the item that
`id` does for the task. -/
structure Kept (id : Nat) (item : Option Nat) (h : Halt) (t t' : Task) : Prop where
  cancelled : t'.cancelled = t.cancelled
  /-- A branch of `id` loses its task if `id` fails or panics. -/
  parent : t'.parent = t.parent ∨ t'.parent = none ∧ (∃ item, t.parent = some (id, item)) ∧
    ∃ fault, h = .done (.error fault)
  paused : ∀ r, t.state = .paused r → t'.state = .paused r
  /-- A fork may receive a permit and a result. -/
  joining : ∀ f, t.state = .joining f → t'.state = .joining { f with
    permits := f.permits + (h.results id item).length, ended := f.ended ++ h.results id item }

namespace Kept

variable {o : Option Nat} {h : Halt} {t' : Task} {p item : Nat}

/-- A branch of another task than the one that has halted keeps its task. -/
theorem parent_of_ne (kept : Kept id o h t t') (hp : t.parent = some (p, item)) (hne : p ≠ id) :
    t'.parent = some (p, item) := by
  refine kept.parent.elim (fun heq => heq.trans hp) fun ⟨_, ⟨item', hp'⟩, _⟩ => ?_
  exact absurd (Prod.mk.inj (Option.some.inj (hp.symm.trans hp'))).1 hne

/-- Every branch keeps its task unless the one that has halted has failed or panicked. -/
theorem parent_of_not_failed (kept : Kept id o h t t')
    (hnot : ∀ fault, h ≠ .done (.error fault)) : t'.parent = t.parent :=
  kept.parent.resolve_right fun ⟨_, _, fault, hfails⟩ => hnot fault hfails

/-- No task becomes a branch. -/
theorem parent_of_some (kept : Kept id o h t t') (hp : t'.parent = some (p, item)) :
    t.parent = some (p, item) :=
  kept.parent.elim (fun heq => heq.symm.trans hp) fun ⟨hnone, _⟩ => by simp [hnone] at hp

/-- A task that is no branch stays so. -/
theorem parent_of_none (kept : Kept id o h t t') (hp : t.parent = none) : t'.parent = none :=
  kept.parent.elim (fun heq => heq.trans hp) And.left

end Kept

/-- What the task `k` is after a turn in which the task `id`, which was `t`, halted. -/
inductive After (m : Machine σ) (id : Nat) (t : Task) (h : Halt) (k : Nat) (t' : Task) : Prop
  /-- It is another task. -/
  | other {t₀} (hne : k ≠ id) (ht₀ : m.tasks.lookup k = some t₀)
    (kept : Kept id (itemIn k t) h t₀ t')
  /-- It is the task that has halted. -/
  | self (hk : k = id) (parent : t'.parent = t.parent) (cancelled : t'.cancelled = t.cancelled)
      (state : h.state? = some t'.state)
  /-- It is a branch that was begun. -/
  | new {f item} (hk : m.fresh ≤ k) (hh : h = .forked f) (hitem : item ∈ f.nextItems)
      (ht' : t' = ⟨some (id, item), .paused (.activity (f.branch item)), false⟩)

/-- A task after another one has halted. -/
theorem after_halt {h : Halt} {k : Nat} {t' : Task} (hm : Sound (some id) m)
    (ht : m.tasks.lookup id = some t) (h' : (m.halt id h).tasks.lookup k = some t') :
    After m id t h k t' := by
  have hset : ∀ {state : TaskState}, h.state? = some state → h.results id (itemIn k t) = [] →
      (m.setState id state).tasks.lookup k = some t' → After m id t h k t' := by
    intro state hstate hresults hlookup
    rw [lookup_setState] at hlookup
    split at hlookup
    · rename_i hk
      rw [hk, ht] at hlookup
      obtain rfl := Option.some.inj hlookup
      exact .self hk rfl rfl hstate
    · refine .other ‹_› hlookup ⟨rfl, .inl rfl, fun _ h => h, fun f hf => ?_⟩
      rw [hresults, List.append_nil, hf]
      rfl
  cases h with
  | done result =>
    have hroot : id = root → t.parent = none := fun hid => (hm.root t (hid ▸ ht)).1
    obtain ⟨hne, t₀, ht₀, rfl⟩ := of_lookup_finish ht hroot h'
    refine .other hne ht₀ ⟨informed_cancelled, .inl informed_parent,
      fun r hr => informed_state_of_paused hr, fun f hf => ?_⟩
    rw [informed_state_of_joining hf, Halt.results, List.length_map]
  | asleep ms r => exact hset rfl rfl h'
  | forked f =>
    rcases of_lookup_takeIn h' with h' | ⟨⟨hk, -⟩, item, hitem, rfl⟩
    · exact hset rfl rfl h'
    · exact .new hk rfl hitem rfl

/-- Each task after a turn was there before, or is a branch that was begun. -/
theorem Acting.after {h : Halt} {k : Nat} {t' : Task} (ha : Acting P adapter m id m₀ t h m₁)
    (h' : (m₁.halt id h).tasks.lookup k = some t') : After m₀ id t h k t' := by
  have hafter := after_halt ha.sound_acted ha.lookup_acted h'
  have hacts := ha.acts
  have hlawful := ha.state_lawful
  generalize t.state = s at hacts hlawful
  cases hacts with
  | refill hf hover => exact hafter
  | @advance _ a m₂ hr =>
    have hparent : ∀ {t₁}, m₂.tasks.lookup k = some t₁ → ∃ t₀, m₀.tasks.lookup k = some t₀ ∧
        t₁.cancelled = t₀.cancelled ∧ t₁.state = t₀.state ∧ (t₁.parent = t₀.parent ∨
          t₁.parent = none ∧ (∃ item, t₀.parent = some (id, item)) ∧
            ∃ failure, (a.advance adapter (id = root) m₂.world).1 = .done (.error failure)) := by
      intro t₁ ht₁
      cases hr with
      | collapse hf =>
        rw [lookup_detach, Option.map_eq_some_iff] at ht₁
        obtain ⟨t₀, ht₀, rfl⟩ := ht₁
        refine ⟨t₀, ht₀, detached_cancelled, detached_state, ?_⟩
        by_cases hp : ∃ item, t₀.parent = some (id, item)
        · obtain ⟨item, hp⟩ := hp
          exact .inr ⟨by simp [detached, hp], ⟨item, hp⟩, (hlawful.2.2.2 _).advance _⟩
        · exact .inl (congrArg Task.parent (detached_of_parent_ne (not_exists.mp hp)))
      | _ => exact ⟨t₁, ht₁, rfl, rfl, .inl rfl⟩
    have hfresh : m₂.fresh = m₀.fresh := by cases hr <;> rfl
    cases hafter with
    | self hk parent cancelled state => exact .self hk parent cancelled state
    | new hk hh hitem ht' => exact .new (hfresh.symm.trans_le hk) hh hitem ht'
    | other hne ht₁ kept =>
      obtain ⟨t₀, ht₀, hc, hs, hp⟩ := hparent ht₁
      refine .other hne ht₀ ⟨kept.cancelled.trans hc, ?_, fun r hr => kept.paused r (hs.trans hr),
        fun f hf => kept.joining f (hs.trans hf)⟩
      rcases kept.parent with parent | ⟨hnone, ⟨item, hitem⟩, hfails⟩
      · exact hp.imp (parent.trans ·) (And.imp_left (parent.trans ·))
      · refine .inr ⟨hnone, ⟨item, ?_⟩, hfails⟩
        exact hp.elim (fun h => h.symm.trans hitem) fun h => by simp [h.1] at hitem

theorem lookup_halt_self {h : Halt} {s : TaskState} (ht : m.tasks.lookup id = some t)
    (hs : h.state? = some s) : (m.halt id h).tasks.lookup id = some { t with state := s } := by
  have hset : (m.setState id s).tasks.lookup id = some { t with state := s } := by
    rw [lookup_setState, if_pos rfl, ht, Option.map_some]
  cases h with
  | done result => cases hs
  | asleep ms r => obtain rfl := Option.some.inj hs; exact hset
  | forked f => obtain rfl := Option.some.inj hs; exact lookup_takeIn_of_some hset

/-- Another task is not lost when a task halts. -/
theorem isSome_lookup_halt {h : Halt} {k : Nat} (hm : Sound (some id) m)
    (ht : m.tasks.lookup id = some t) (hne : k ≠ id) (hk : (m.tasks.lookup k).isSome) :
    ((m.halt id h).tasks.lookup k).isSome := by
  have hset : ∀ s, (m.setState id s).tasks.lookup k = m.tasks.lookup k := fun s => by
    rw [lookup_setState, if_neg hne]
  cases h with
  | done result =>
    have hroot : id = root → t.parent = none := fun hid => (hm.root t (hid ▸ ht)).1
    rwa [halt, lookup_finish ht hroot, if_neg hne, Option.isSome_map]
  | asleep ms r => exact (hset _).symm ▸ hk
  | forked f =>
    obtain ⟨t₀, ht₀⟩ := Option.isSome_iff_exists.mp hk
    exact Option.isSome_of_eq_some (lookup_takeIn_of_some ((hset _).trans ht₀))

/-- What becomes of another task at a turn. -/
theorem Acting.exists_kept {h : Halt} {k : Nat} {t₀ : Task} (ha : Acting P adapter m id m₀ t h m₁)
    (hne : k ≠ id) (ht₀ : m₀.tasks.lookup k = some t₀) :
    ∃ t', (m₁.halt id h).tasks.lookup k = some t' ∧ Kept id (itemIn k t) h t₀ t' := by
  have hsome : (m₁.tasks.lookup k).isSome := by
    have hacts := ha.acts
    generalize t.state = s at hacts
    cases hacts with
    | refill hf hover => exact Option.isSome_of_eq_some ht₀
    | advance hr =>
      cases hr with
      | collapse hf =>
        refine (?_ : ((m₀.detach id).tasks.lookup k).isSome)
        rw [lookup_detach, Option.isSome_map]
        exact Option.isSome_of_eq_some ht₀
      | _ => exact Option.isSome_of_eq_some ht₀
  obtain ⟨t', ht'⟩ := Option.isSome_iff_exists.mp
    (isSome_lookup_halt (h := h) ha.sound_acted ha.lookup_acted hne hsome)
  refine ⟨t', ht', ?_⟩
  cases ha.after ht' with
  | self hk => exact absurd hk hne
  | new hk => exact absurd (ha.sound.lt_fresh k t₀ ht₀) (Nat.not_lt.mpr hk)
  | other hne ht₁ kept => exact Option.some.inj (ht₁.symm.trans ht₀) ▸ kept

/-! ### Machines of a run -/

/-- A machine at the beginning of an activity; the numbers of tasks go on from `fresh`. -/
def beginning (w : World σ) (fresh : Nat) (a : Activity) : Machine σ where
  world := w
  tasks := [(root, ⟨none, .paused (.activity a), false⟩)]
  fresh
  ready := []
  rootReady := true
  sleepers := []
  ending := none

theorem lookup_beginning {w : World σ} {fresh : Nat} {a : Activity} {k : Nat} :
    (beginning w fresh a).tasks.lookup k =
      if k = root then some ⟨none, .paused (.activity a), false⟩ else none := by
  by_cases hk : k = root
  · simp [beginning, hk]
  · simp only [beginning, List.lookup_cons, beq_false_of_ne hk, List.lookup_nil, if_neg hk]

namespace Proper

theorem beginning {w : World σ} {fresh : Nat} {a : Activity} (hfresh : root < fresh)
    (ha : a.Lawful P) : Proper P (beginning w fresh a) := by
  have hlookup : ∀ {k t}, (Machine.beginning w fresh a).tasks.lookup k = some t →
      k = root ∧ t = ⟨none, .paused (.activity a), false⟩ := by
    intro k t ht
    rw [lookup_beginning, Option.ite_none_right_eq_some] at ht
    exact ⟨ht.1, (Option.some.inj ht.2).symm⟩
  have hroot : ∀ {k}, (Machine.beginning w fresh a).Awake k ↔ k = root := by
    intro k
    unfold Awake
    split <;> simp [Machine.beginning, *]
  refine ⟨?_, fun k t ht => (hlookup ht).2 ▸ ha⟩
  constructor
  case keys_nodup => exact List.nodup_singleton _
  case lt_fresh => exact fun k t ht => (hlookup ht).1 ▸ hfresh
  case root_lt_fresh => exact hfresh
  case ready_nodup => exact List.nodup_nil
  case root_notMem_ready => exact List.not_mem_nil
  case awake => exact fun k hk => ⟨nofun, fun hne => absurd (hroot.mp hk) hne⟩
  case sleepers_nodup => exact List.nodup_nil
  case sleepers => exact nofun
  case running_isSome => exact nofun
  case ending => rw [lookup_beginning, if_pos rfl]; simp [Machine.beginning]
  case root => exact fun t ht => (hlookup ht).2 ▸ ⟨rfl, fun k t ht => (hlookup ht).2 ▸ rfl⟩
  case parent_lt => exact fun k t p item ht hp => by simp [(hlookup ht).2] at hp
  case parent => exact fun k t p item ht hc hp => by simp [(hlookup ht).2] at hp
  case cancelled => exact fun k t ht hc => by simp [(hlookup ht).2] at hc
  case paused => exact fun k t r ht hr _ => ⟨.inl (hroot.mpr (hlookup ht).1), rfl⟩
  case joining => exact fun k t f ht hf _ => by simp [(hlookup ht).2] at hf

theorem turn (hm : Proper P m) (h : Takes m id m₀) : Proper P (m₀.turn adapter id) := by
  refine hm.turn_cases h (fun hnone => ?_) (fun t ht hc hsound => ?_) fun t h m₁ ha => ha.proper
  · exact ⟨hm.sound.skip h hnone, fun k t ht => hm.lawful k t (h.tasks ▸ ht)⟩
  · exact ⟨hsound.drop ht hc, Lawful.drop (fun k t ht => hm.lawful k t (h.tasks ▸ ht))
      hsound.keys_nodup⟩

/-- Only the root ends a run at its turn. -/
theorem ending_turn (hm : Proper P m) (h : Takes m id m₀) (hid : id ≠ root) :
    (m₀.turn adapter id).ending = m.ending := by
  have hending : m₀.ending = m.ending := by cases h <;> rfl
  refine hm.turn_cases (Q := (·.ending = m.ending)) h (fun _ => hending) (fun t _ _ _ => ?_)
    fun t halt m₁ ha => ?_
  · exact drop_ending.trans hending
  · exact (ha.ending.resolve_left fun ⟨_, _, hroot, _⟩ => hid hroot).1

theorem lookup_root_eq_none (hm : Proper P m) (hending : m.ending ≠ none) :
    m.tasks.lookup root = none :=
  Option.not_isSome_iff_eq_none.mp (mt hm.sound.ending.mpr hending)

theorem wakeAt {time : Nat} (hm : Proper P m) (hle : ∀ s ∈ m.sleepers, time ≤ s.1) :
    Proper P (m.wakeAt time) :=
  ⟨hm.sound.wakeAt hle, fun k t ht => hm.lawful k t (wakeAt_tasks ▸ ht)⟩

theorem cut (hm : Proper P m) (hending : m.ending = none) : Proper P m.cut :=
  ⟨hm.sound.cut hending, hm.lawful.drop hm.sound.keys_nodup⟩

theorem step (hm : Proper P m) : Proper P (m.step adapter deadline) :=
  step_induction (fun _ _ _ hm => hm.turn) (fun _ _ hm _ hle _ => hm.wakeAt hle)
    (fun _ hm he _ => hm.cut he) hm

theorem settleStep {time : Nat} (hm : Proper P m) (h : m.settleStep adapter time = some m₁) :
    Proper P m₁ :=
  settleStep_induction (fun _ _ _ hm => hm.turn) (fun _ _ hm _ hle _ => hm.wakeAt hle) hm h

/-- What turns, moves of the clock and the cut preserve of proper machines, a step preserves. -/
theorem step_preserves {I : Machine σ → Prop} (hm : Proper P m)
    (turn : ∀ m id m₀, Proper P m → Takes m id m₀ → I m → I (m₀.turn adapter id))
    (wake : ∀ m time, Proper P m → (∀ s ∈ m.sleepers, time ≤ s.1) → I m → I (m.wakeAt time))
    (cut : ∀ m, Proper P m → m.ending = none → deadline.any (· ≤ m.world.now) → I m → I m.cut)
    (h : I m) :
    I (m.step adapter deadline) := by
  refine (step_induction (P := fun m => Proper P m ∧ I m) ?_ ?_ ?_ ⟨hm, h⟩).2
  · exact fun m id m₀ h ht => ⟨h.1.turn ht, turn m id m₀ h.1 ht h.2⟩
  · exact fun m time h _ hle _ => ⟨h.1.wakeAt hle, wake m time h.1 hle h.2⟩
  · exact fun m h he hd => ⟨h.1.cut he, cut m h.1 he hd h.2⟩

/-- What turns and moves of the clock preserve of proper machines, a step after the end of the root
preserves. -/
theorem settleStep_preserves {I : Machine σ → Prop} {time : Nat} (hm : Proper P m)
    (turn : ∀ m id m₀, Proper P m → Takes m id m₀ → I m → I (m₀.turn adapter id))
    (wake : ∀ m time, Proper P m → (∀ s ∈ m.sleepers, time ≤ s.1) → I m → I (m.wakeAt time))
    (hs : m.settleStep adapter time = some m₁) (h : I m) : I m₁ := by
  refine (settleStep_induction (P := fun m => Proper P m ∧ I m) ?_ ?_ ⟨hm, h⟩ hs).2
  · exact fun m id m₀ h ht => ⟨h.1.turn ht, turn m id m₀ h.1 ht h.2⟩
  · exact fun m time h _ hle _ => ⟨h.1.wakeAt hle, wake m time h.1 hle h.2⟩

end Proper

end Machine

end Conveyor
