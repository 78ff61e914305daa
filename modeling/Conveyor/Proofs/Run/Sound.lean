import Conveyor.Proofs.Run.Tasks

/-!
# Sound machines

`Machine.Sound` says how the tasks, the ready ones, the sleepers and the forks of a machine fit
together: every task waits for something that will happen, every branch is known to the fork that it
belongs to, and every admitted item is in exactly one place. A machine at the beginning of a run is
sound, and every step keeps it so.

During a turn the task whose turn it is, the running one, is not yet back in its place; `Sound`
takes its number and asks nothing about its own state.
-/

namespace Conveyor

/-- How a fork accounts for its items and permits when it has looked at all branches that have
ended, and is about to take in further items; `items` are those of the branches in work. -/
structure Fork.Reckons (f : Fork) (items : List Nat) : Prop where
  ended : f.ended = []
  accounts : (items ++ f.collected.map Prod.fst).Perm (List.range f.admitted)
  branches : f.branches + f.collected.length = f.admitted
  permits : f.permits + items.length = f.limit
  admitted_le : f.admitted ≤ f.count
  unfinished : f.collected.length < f.count
  limit : 0 < f.limit

/-- **The law of admission.** When a fork has taken the permits that are free, as many items have
been admitted as there are results and permits in all, or all items. -/
theorem Fork.Reckons.admitted_filled {f : Fork} {items : List Nat} (h : f.Reckons items) :
    f.filled.admitted = min f.count (f.collected.length + f.limit) := by
  have hlength := h.accounts.length_eq
  have hpermits := h.permits
  have hle := h.admitted_le
  rw [List.length_append, List.length_map, List.length_range] at hlength
  rw [Fork.filled_admitted, Fork.room]
  omega

namespace Machine

variable {σ : Type} {adapter : Adapter σ} {deadline : Option Nat} {m m' : Machine σ}
  {running : Option Nat} {id k p item : Nat} {t : Task}

/-- How the fork of a task accounts for its items and permits. -/
structure Accounts (m : Machine σ) (k : Nat) (f : Fork) : Prop where
  /-- Each admitted item is in work, has ended, or has been looked at; it is so once. -/
  accounts : (m.itemsOf k ++ f.ended.map Prod.fst ++ f.collected.map Prod.fst).Perm
    (List.range f.admitted)
  /-- Each admitted item has a branch that has not been looked at, or a result. -/
  branches : f.branches + f.collected.length = f.admitted
  /-- Each permit is free, or a branch in work has it. -/
  permits : f.permits + (m.itemsOf k).length = f.limit
  /-- No place stays free while an item is pending. -/
  admitted : f.admitted = min f.count (f.collected.length + f.limit)
  unfinished : f.collected.length < f.count
  limit : 0 < f.limit

/-- The fork of a task that waits for branches. -/
structure Waits (m : Machine σ) (k : Nat) (f : Fork) : Prop extends Accounts m k f where
  /-- The task has its turn once a branch has ended. -/
  woken : f.ended ≠ [] → m.Awake k

theorem Accounts.of_itemsOf {f : Fork} (h : m.Accounts k f) (hitems : m'.itemsOf k = m.itemsOf k) :
    m'.Accounts k f :=
  ⟨by rw [hitems]; exact h.accounts, h.branches, by rw [hitems]; exact h.permits, h.admitted,
    h.unfinished, h.limit⟩

theorem Accounts.admitted_le {f : Fork} (h : m.Accounts k f) : f.admitted ≤ f.count := by
  rw [h.admitted]
  exact Nat.min_le_left _ _

/-- There is no permit for a pending item as long as no branch has ended. -/
theorem Accounts.room_eq_zero {f : Fork} (h : m.Accounts k f) (hended : f.ended = []) :
    f.room = 0 := by
  have hlength := h.accounts.length_eq
  have hpermits := h.permits
  have hadmitted := h.admitted
  simp only [hended, List.map_nil, List.append_nil, List.length_append, List.length_map,
    List.length_range] at hlength
  rw [Fork.room]
  omega

/-- What a fork has received comes from its items. -/
theorem Accounts.item_lt {f : Fork} {e : Nat × Except (Fault StepFailure) Json} (h : m.Accounts k f)
    (he : e ∈ f.ended) : e.1 < f.count := by
  have hmem : e.1 ∈ List.range f.admitted :=
    h.accounts.subset (List.mem_append_left _ (List.mem_append_right _ (List.mem_map_of_mem he)))
  exact (List.mem_range.mp hmem).trans_le h.admitted_le

/-- An item in work is admitted, and has not ended. -/
theorem Accounts.of_branch {f : Fork} (h : m.Accounts k f) (ht : m.tasks.lookup id = some t)
    (hparent : t.parent = some (k, item)) :
    item < f.admitted ∧ item ∉ f.ended.map Prod.fst ∧ item ∉ f.collected.map Prod.fst := by
  have hmem : item ∈ m.itemsOf k := mem_itemsOf_of_lookup ht hparent
  have hnodup := h.accounts.nodup_iff.mpr List.nodup_range
  rw [List.append_assoc, List.nodup_append] at hnodup
  refine ⟨List.mem_range.mp (h.accounts.subset
    (List.mem_append_left _ (List.mem_append_left _ hmem))), fun hended => ?_, fun hcollected => ?_⟩
  · exact hnodup.2.2 item hmem item (List.mem_append_left _ hended) rfl
  · exact hnodup.2.2 item hmem item (List.mem_append_right _ hcollected) rfl

theorem Waits.of_itemsOf {f : Fork} (h : m.Waits k f) (hitems : m'.itemsOf k = m.itemsOf k)
    (hawake : m.Awake k → m'.Awake k) : m'.Waits k f :=
  ⟨h.toAccounts.of_itemsOf hitems, fun hne => hawake (h.woken hne)⟩

/-- When a task ends, its item joins those that have ended at its fork, and its permit is free. -/
theorem Waits.finish {result : Except (Fault StepFailure) Json} {f : Fork} (hw : m.Waits k f)
    (hn : (m.tasks.map Prod.fst).Nodup) (ht : m.tasks.lookup id = some t)
    (hroot : id = root → t.parent = none) :
    (m.finish id result).Waits k { f with
      permits := f.permits + (itemIn k t).toList.length,
      ended := f.ended ++ (itemIn k t).toList.map (·, result.mapError (told id)) } := by
  have hperm := itemsOf_finish (p := k) (r := result) ht hroot hn
  refine ⟨⟨?_, hw.branches, ?_, hw.admitted, hw.unfinished, hw.limit⟩, fun hne => ?_⟩
  · -- the item that leaves the branches in work joins those that have ended
    refine List.Perm.trans ?_ hw.accounts
    simp only [List.map_append, List.map_map, Function.comp_def, List.map_id']
    refine List.Perm.append_right _ (List.Perm.trans ?_ (hperm.symm.append_right _))
    refine List.Perm.trans (List.perm_append_comm.append_left _) ?_
    rw [← List.append_assoc]
    exact List.perm_append_comm.append_right _
  · have hlength := hperm.length_eq
    have hpermits := hw.permits
    rw [List.length_append] at hlength
    dsimp only
    omega
  · rw [awake_finish ht hroot]
    by_cases hended : f.ended = []
    · refine .inr ?_
      simp only [hended, List.nil_append, ne_eq, List.map_eq_nil_iff, Option.toList_eq_nil_iff]
        at hne
      obtain ⟨item, hitem⟩ := Option.ne_none_iff_exists'.mp hne
      exact ⟨item, itemIn_eq_some_iff.mp hitem⟩
    · exact .inl (hw.woken hended)

/-- The fork of a task that takes in items accounts for them. -/
theorem waits_takeIn {f : Fork} (h : f.Reckons (m.itemsOf id)) :
    (m.takeIn id f).Waits id f.filled := by
  have hnil : f.filled.ended = [] := h.ended
  have hitems : (m.takeIn id f).itemsOf id = m.itemsOf id ++ f.nextItems := by
    rw [itemsOf_takeIn, if_pos rfl]
  refine ⟨⟨?_, ?_, ?_, h.admitted_filled, h.unfinished, h.limit⟩, fun hne => absurd hnil hne⟩
  · rw [hitems, ← Fork.range_append_nextItems, hnil, List.map_nil, List.append_nil]
    refine List.Perm.trans ?_ (h.accounts.append_right f.nextItems)
    rw [List.append_assoc, List.append_assoc]
    exact List.perm_append_comm.append_left _
  · have hbranches := h.branches
    dsimp only [Fork.filled]
    omega
  · have hpermits := h.permits
    have hroom : f.room ≤ f.permits := Nat.min_le_left _ _
    rw [hitems, List.length_append, Fork.length_nextItems]
    dsimp only [Fork.filled]
    omega

/-- A fork of which no branch is dropped waits as before. -/
theorem Waits.drop {f : Fork} (hw : m.Waits k f) (hn : (m.tasks.map Prod.fst).Nodup)
    (ht : m.tasks.lookup id = some t) (hnone : itemIn k t = none) : (m.drop id).Waits k f := by
  have hperm := itemsOf_drop (p := k) hn ht
  rw [hnone] at hperm
  have hlength : (m.itemsOf k).length = ((m.drop id).itemsOf k).length := hperm.length_eq
  refine ⟨⟨?_, hw.branches, hlength ▸ hw.permits, hw.admitted, hw.unfinished, hw.limit⟩,
    fun hne => ?_⟩
  · exact List.Perm.trans ((hperm.symm.append_right _).append_right _) hw.accounts
  · exact awake_drop.mpr (.inl (hw.woken hne))

/-- How the parts of a machine fit together; `running` is the task whose turn it is. -/
structure Sound (running : Option Nat) (m : Machine σ) : Prop where
  keys_nodup : (m.tasks.map Prod.fst).Nodup
  lt_fresh : ∀ k t, m.tasks.lookup k = some t → k < m.fresh
  root_lt_fresh : root < m.fresh
  ready_nodup : m.ready.Nodup
  root_notMem_ready : root ∉ m.ready
  awake : ∀ k, m.Awake k → running ≠ some k ∧ (k ≠ root → (m.tasks.lookup k).isSome)
  sleepers_nodup : (m.sleepers.map Prod.snd).Nodup
  sleepers : ∀ s ∈ m.sleepers, m.world.now < s.1 ∧ running ≠ some s.2 ∧ ¬ m.Awake s.2 ∧
    ∃ t r, m.tasks.lookup s.2 = some t ∧ t.state = .paused r ∧ t.cancelled = false
  running_isSome : ∀ k, running = some k → (m.tasks.lookup k).isSome
  ending : m.ending = none ↔ (m.tasks.lookup root).isSome
  /-- As long as there is a root, nothing is cancelled. -/
  root : ∀ t, m.tasks.lookup root = some t →
    t.parent = none ∧ ∀ k t, m.tasks.lookup k = some t → t.cancelled = false
  parent_lt : ∀ k t p item, m.tasks.lookup k = some t → t.parent = some (p, item) → p < k
  /-- A branch that is not cancelled belongs to a task that waits for it. -/
  parent : ∀ k t p item, m.tasks.lookup k = some t → t.cancelled = false →
    t.parent = some (p, item) →
    running = some p ∨ ∃ t' f, m.tasks.lookup p = some t' ∧ t'.state = .joining f
  cancelled : ∀ k t, m.tasks.lookup k = some t → t.cancelled = true →
    (running = some k ∨ m.Awake k) ∧
      ∀ p item, t.parent = some (p, item) → m.tasks.lookup p = none
  paused : ∀ k t r, m.tasks.lookup k = some t → t.state = .paused r → running ≠ some k →
    (m.Awake k ∨ k ∈ m.sleepers.map Prod.snd) ∧ m.itemsOf k = []
  joining : ∀ k t f, m.tasks.lookup k = some t → t.state = .joining f → running ≠ some k →
    m.Waits k f

namespace Sound

/-! ### Taking a task -/

theorem awake_of_takes (hm : Sound none m) (h : Takes m id m') (k : Nat) :
    m'.Awake k ↔ m.Awake k ∧ k ≠ id := by
  cases h with
  | branch h =>
    have hnot := hm.root_notMem_ready
    have hn := hm.ready_nodup
    rw [h] at hnot hn
    have hid : Machine.root ≠ id := fun heq => hnot (heq ▸ List.mem_cons_self)
    unfold Awake
    by_cases hk : k = Machine.root
    · simp [hk, hid]
    · simp only [if_neg hk, h, List.mem_cons]
      refine ⟨fun hmem => ⟨.inr hmem, ?_⟩, fun ⟨hmem, hne⟩ => hmem.resolve_left hne⟩
      rintro rfl
      exact (List.nodup_cons.mp hn).1 hmem
  | root h =>
    unfold Awake
    by_cases hk : k = Machine.root <;> simp [hk]

theorem awake_of_takes_self (hm : Sound none m) (h : Takes m id m') : m.Awake id := by
  cases h with
  | branch h =>
    have hmem : id ∈ m.ready := h ▸ List.mem_cons_self
    have hid : id ≠ Machine.root := fun heq => hm.root_notMem_ready (heq ▸ hmem)
    simpa only [Awake, if_neg hid] using hmem
  | root h => simpa only [Awake, if_pos] using h

/-- The task that is taken is the running one. -/
theorem take (hm : Sound none m) (h : Takes m id m') (ht : m.tasks.lookup id = some t) :
    Sound (some id) m' := by
  have hawake := hm.awake_of_takes h
  have hne : ∀ {k}, some id ≠ some k → k ≠ id := fun hk heq => hk (congrArg some heq.symm)
  constructor
  case keys_nodup => rw [h.tasks]; exact hm.keys_nodup
  case lt_fresh => rw [h.tasks, h.fresh]; exact hm.lt_fresh
  case root_lt_fresh => rw [h.fresh]; exact hm.root_lt_fresh
  case ready_nodup => exact hm.ready_nodup.sublist h.ready_sublist
  case root_notMem_ready => exact fun hroot => hm.root_notMem_ready (h.ready_sublist.subset hroot)
  case awake =>
    intro k hk
    obtain ⟨hk, hkid⟩ := (hawake k).mp hk
    exact ⟨fun heq => hkid (Option.some.inj heq).symm, h.tasks ▸ (hm.awake k hk).2⟩
  case sleepers_nodup => rw [h.sleepers]; exact hm.sleepers_nodup
  case sleepers =>
    rw [h.sleepers, h.world, h.tasks]
    intro s hs
    obtain ⟨hlt, -, hasleep, htask⟩ := hm.sleepers s hs
    refine ⟨hlt, fun heq => ?_, fun hs => hasleep ((hawake _).mp hs).1, htask⟩
    exact hasleep (Option.some.inj heq ▸ hm.awake_of_takes_self h)
  case running_isSome =>
    intro k hk
    rw [h.tasks, ← Option.some.inj hk, ht]
    rfl
  case ending => rw [h.ending, h.tasks]; exact hm.ending
  case root => rw [h.tasks]; exact hm.root
  case parent_lt => rw [h.tasks]; exact hm.parent_lt
  case parent =>
    rw [h.tasks]
    exact fun k t p item ht hc hp => .inr ((hm.parent k t p item ht hc hp).resolve_left nofun)
  case cancelled =>
    rw [h.tasks]
    intro k t ht hc
    obtain ⟨hready, hparent⟩ := hm.cancelled k t ht hc
    refine ⟨?_, hparent⟩
    by_cases hk : some id = some k
    · exact .inl hk
    · exact .inr ((hawake k).mpr ⟨hready.resolve_left nofun, hne hk⟩)
  case paused =>
    rw [h.tasks, h.sleepers]
    intro k t r ht hr hk
    obtain ⟨hready, hnil⟩ := hm.paused k t r ht hr nofun
    exact ⟨hready.imp_left fun hk' => (hawake k).mpr ⟨hk', hne hk⟩, (h.itemsOf k).trans hnil⟩
  case joining =>
    rw [h.tasks]
    intro k t f ht hf hk
    exact (hm.joining k t f ht hf nofun).of_itemsOf (h.itemsOf k) fun hk' =>
      (hawake k).mpr ⟨hk', hne hk⟩

/-- Only the root can be ready after its end; then its turn changes nothing. -/
theorem skip (hm : Sound none m) (h : Takes m id m') (hnone : m.tasks.lookup id = none) :
    Sound none m' := by
  cases h with
  | branch h =>
    have hmem : id ∈ m.ready := h ▸ List.mem_cons_self
    have hid : id ≠ Machine.root := fun heq => hm.root_notMem_ready (heq ▸ hmem)
    have hsome := (hm.awake id (by rwa [Awake, if_neg hid])).2 hid
    simp [hnone] at hsome
  | root h =>
    have hne : ∀ {k t}, m.tasks.lookup k = some t → k ≠ Machine.root := by
      rintro k t ht rfl
      simp [hnone] at ht
    have hawake : ∀ k, k ≠ Machine.root →
        (({ m with rootReady := false } : Machine σ).Awake k ↔ m.Awake k) := by
      intro k hk
      simp only [Awake, if_neg hk]
    refine { hm with awake := ?_, sleepers := ?_, cancelled := ?_, paused := ?_, joining := ?_ }
    · refine fun k hk => ⟨(Option.some_ne_none k).symm, fun hne => ?_⟩
      exact (hm.awake k ((hawake k hne).mp hk)).2 hne
    · intro s hs
      obtain ⟨hlt, hrun, hasleep, t, r, ht, htask⟩ := hm.sleepers s hs
      exact ⟨hlt, hrun, fun h => hasleep ((hawake _ (hne ht)).mp h), t, r, ht, htask⟩
    · intro k t ht hc
      exact (hm.cancelled k t ht hc).imp_left (Or.imp_right (hawake k (hne ht)).mpr)
    · intro k t r ht hr hk
      exact (hm.paused k t r ht hr hk).imp_left (Or.imp_left (hawake k (hne ht)).mpr)
    · intro k t f ht hf hk
      exact (hm.joining k t f ht hf hk).of_itemsOf rfl (hawake k (hne ht)).mpr

/-! ### The running task -/

theorem withWorld {w : World σ} (hm : Sound running m) (hw : w.now = m.world.now) :
    Sound running { m with world := w } := by
  refine { hm with sleepers := fun s hs => ?_, joining := fun k t f ht hf hk => ?_ }
  · rw [hw]; exact hm.sleepers s hs
  · exact (hm.joining k t f ht hf hk).of_itemsOf rfl fun h => h

/-- Nothing is asked about the state of the running task, and its branches may be without it. -/
private theorem map_tasks (hm : Sound (some id) m) (change : Nat → Task → Task)
    (hm' : m' = { m with tasks := m.tasks.map fun e => (e.1, change e.1 e.2) })
    (hstate : ∀ k t, k ≠ id → (change k t).state = t.state)
    (hcancelled : ∀ k t, (change k t).cancelled = t.cancelled)
    (hparent : ∀ k t p item, (change k t).parent = some (p, item) → t.parent = some (p, item))
    (hkept : ∀ k t p item, p ≠ id → t.parent = some (p, item) →
      (change k t).parent = some (p, item)) : Sound (some id) m' := by
  subst hm'
  have hne : ∀ {k}, some id ≠ some k → k ≠ id := fun hk heq => hk (congrArg some heq.symm)
  have hof : ∀ {k t'}, (m.tasks.map fun e => (e.1, change e.1 e.2)).lookup k = some t' →
      ∃ t, m.tasks.lookup k = some t ∧ change k t = t' := by
    intro k t' ht'
    rwa [Keyed.lookup_map change, Option.map_eq_some_iff] at ht'
  have hlookup : ∀ {k t}, m.tasks.lookup k = some t →
      (m.tasks.map fun e => (e.1, change e.1 e.2)).lookup k = some (change k t) := by
    intro k t ht
    rw [Keyed.lookup_map change, ht, Option.map_some]
  have hsome : ∀ k, ((m.tasks.map fun e => (e.1, change e.1 e.2)).lookup k).isSome =
      (m.tasks.lookup k).isSome := by
    intro k
    rw [Keyed.lookup_map change, Option.isSome_map]
  have hitems : ∀ {k}, k ≠ id →
      ({ m with tasks := m.tasks.map fun e => (e.1, change e.1 e.2) } : Machine σ).itemsOf k =
        m.itemsOf k :=
    fun hk => itemsOf_map change fun j t item => ⟨hparent j t _ item, hkept j t _ item hk⟩
  refine { hm with
    keys_nodup := ?keys_nodup
    lt_fresh := ?lt_fresh
    awake := fun k hk => ⟨(hm.awake k hk).1, fun hr => (hsome k).trans ((hm.awake k hk).2 hr)⟩
    sleepers := ?sleepers
    running_isSome := fun k hk => (hsome k).trans (hm.running_isSome k hk)
    ending := hm.ending.trans (Bool.eq_iff_iff.mp (hsome Machine.root).symm)
    root := ?root
    parent_lt := ?parent_lt
    parent := ?parent
    cancelled := ?cancelled
    paused := ?paused
    joining := ?joining }
  case keys_nodup =>
    rw [List.map_map]
    exact hm.keys_nodup
  case lt_fresh =>
    intro k t' ht'
    obtain ⟨t, ht, rfl⟩ := hof ht'
    exact hm.lt_fresh k t ht
  case sleepers =>
    intro s hs
    obtain ⟨hlt, hrun, hawake, t, r, ht, hr, hc⟩ := hm.sleepers s hs
    exact ⟨hlt, hrun, hawake, _, r, hlookup ht, (hstate s.2 t (hne hrun)).trans hr,
      (hcancelled s.2 t).trans hc⟩
  case root =>
    intro t' ht'
    obtain ⟨t, ht, rfl⟩ := hof ht'
    obtain ⟨hnone, hall⟩ := hm.root t ht
    refine ⟨Option.eq_none_iff_forall_ne_some.mpr fun parent hp => ?_, fun k t' ht' => ?_⟩
    · cases hnone.symm.trans (hparent _ t parent.1 parent.2 hp)
    · obtain ⟨t, ht, rfl⟩ := hof ht'
      exact (hcancelled k t).trans (hall k t ht)
  case parent_lt =>
    intro k t' p item ht' hp
    obtain ⟨t, ht, rfl⟩ := hof ht'
    exact hm.parent_lt k t p item ht (hparent k t p item hp)
  case parent =>
    intro k t' p item ht' hc hp
    obtain ⟨t, ht, rfl⟩ := hof ht'
    by_cases hrun : some id = some p
    · exact .inl hrun
    · obtain ⟨tp, f, htp, hf⟩ := (hm.parent k t p item ht ((hcancelled k t).symm.trans hc)
        (hparent k t p item hp)).resolve_left hrun
      exact .inr ⟨_, f, hlookup htp, (hstate p tp (hne hrun)).trans hf⟩
  case cancelled =>
    intro k t' ht' hc
    obtain ⟨t, ht, rfl⟩ := hof ht'
    obtain ⟨hready, hgone⟩ := hm.cancelled k t ht ((hcancelled k t).symm.trans hc)
    refine ⟨hready, fun p item hp => ?_⟩
    rw [Keyed.lookup_map change, hgone p item (hparent k t p item hp), Option.map_none]
  case paused =>
    intro k t' r ht' hr hk
    obtain ⟨t, ht, rfl⟩ := hof ht'
    rw [hitems (hne hk)]
    exact hm.paused k t r ht ((hstate k t (hne hk)).symm.trans hr) hk
  case joining =>
    intro k t' f ht' hf hk
    obtain ⟨t, ht, rfl⟩ := hof ht'
    have hw := hm.joining k t f ht ((hstate k t (hne hk)).symm.trans hf) hk
    exact hw.of_itemsOf (hitems (hne hk)) fun h => h

/-- The branches of the running task go on without it. -/
theorem detach (hm : Sound (some id) m) : Sound (some id) (m.detach id) :=
  hm.map_tasks (fun _ t => detached id t) (congrArg (fun tasks => { m with tasks }) detach_tasks)
    (fun _ _ _ => detached_state) (fun _ _ => detached_cancelled)
    (fun _ _ _ _ hp => (detached_parent_eq_some_iff.mp hp).1)
    fun _ _ _ _ hne hp => detached_parent_eq_some_iff.mpr ⟨hp, hne⟩

/-- Nothing is asked about the state of the running task. -/
theorem setState (hm : Sound (some id) m) (state : TaskState) :
    Sound (some id) (m.setState id state) := by
  have htasks : (m.setState id state).tasks =
      m.tasks.map fun e => (e.1, if e.1 = id then { e.2 with state } else e.2) :=
    modifyTask_tasks _
  have hparent (k : Nat) (t : Task) :
      (if k = id then { t with state } else t).parent = t.parent := by
    split <;> rfl
  exact hm.map_tasks (fun k t => if k = id then { t with state } else t)
    (congrArg (fun tasks => { m with tasks }) htasks) (fun k t hk => by rw [if_neg hk])
    (fun k t => by split <;> rfl) (fun k t p item hp => (hparent k t).symm.trans hp)
    fun k t p item _ hp => (hparent k t).trans hp

/-- The running task falls asleep. -/
theorem sleep {ms : Nat} {r : Resumption} (hm : Sound (some id) m) (hnil : m.itemsOf id = [])
    (ht : m.tasks.lookup id = some t) (hc : t.cancelled = false) (hms : 0 < ms) :
    Sound none (m.sleep id ms r) := by
  have hset := hm.setState (.paused r)
  have ht' : (m.setState id (.paused r)).tasks.lookup id = some { t with state := .paused r } := by
    rw [lookup_setState, if_pos rfl, ht, Option.map_some]
  have hnil' : (m.setState id (.paused r)).itemsOf id = [] := (itemsOf_setState _).trans hnil
  have hsnoc : (m.sleep id ms r).sleepers.map Prod.snd = m.sleepers.map Prod.snd ++ [id] := by
    simp only [Machine.sleep, List.map_append, List.map_cons, List.map_nil]
  refine { hset with
    awake := fun k hk => ⟨nofun, (hset.awake k hk).2⟩
    sleepers_nodup := ?sleepers_nodup
    sleepers := ?sleepers
    running_isSome := nofun
    parent := ?parent
    cancelled := ?cancelled
    paused := ?paused
    joining := ?joining }
  case sleepers_nodup =>
    rw [hsnoc]
    refine hm.sleepers_nodup.append (List.nodup_singleton id) fun k hk hid => ?_
    obtain ⟨s, hs, rfl⟩ := List.mem_map.mp hk
    exact (hm.sleepers s hs).2.1 (congrArg some (List.mem_singleton.mp hid).symm)
  case sleepers =>
    intro s hs
    rcases List.mem_append.mp hs with hs | hs
    · obtain ⟨hlt, -, hrest⟩ := hset.sleepers s hs
      exact ⟨hlt, nofun, hrest⟩
    · obtain rfl := List.mem_singleton.mp hs
      exact ⟨Nat.lt_add_of_pos_right hms, nofun, fun h => (hset.awake id h).1 rfl, _, r, ht', rfl,
        hc⟩
  case parent =>
    intro k t' p item ht' hc' hp'
    refine .inr ((hset.parent k t' p item ht' hc' hp').resolve_left fun hrun => ?_)
    obtain rfl := Option.some.inj hrun
    exact (itemsOf_eq_nil_iff hset.keys_nodup).mp hnil' k t' item ht' hp'
  case cancelled =>
    intro k t₀ ht₀ hc₀
    obtain ⟨hready, hparent⟩ := hset.cancelled k t₀ ht₀ hc₀
    refine ⟨.inr (hready.resolve_left fun hrun => ?_), hparent⟩
    obtain rfl := Option.some.inj hrun
    obtain rfl := Option.some.inj (ht'.symm.trans ht₀)
    exact Bool.false_ne_true (hc.symm.trans hc₀)
  case paused =>
    intro k t₀ r₀ ht₀ hr₀ _
    rw [hsnoc, List.mem_append, List.mem_singleton]
    by_cases hk : some id = some k
    · obtain rfl := Option.some.inj hk
      exact ⟨.inr (.inr rfl), hnil'⟩
    · obtain ⟨hready, hnil₀⟩ := hset.paused k t₀ r₀ ht₀ hr₀ hk
      exact ⟨hready.imp_right .inl, hnil₀⟩
  case joining =>
    intro k t₀ f ht₀ hf _
    refine (hset.joining k t₀ f ht₀ hf fun hk => ?_).of_itemsOf rfl fun h => h
    obtain rfl := Option.some.inj hk
    obtain rfl := Option.some.inj (ht'.symm.trans ht₀)
    exact TaskState.noConfusion hf

theorem lt_fresh_of_awake (hm : Sound running m) (hk : m.Awake k) : k < m.fresh := by
  by_cases hne : k = Machine.root
  · exact hne ▸ hm.root_lt_fresh
  · obtain ⟨t, ht⟩ := Option.isSome_iff_exists.mp ((hm.awake k hk).2 hne)
    exact hm.lt_fresh k t ht

theorem awake_of_mem_ready (hm : Sound running m) (hk : k ∈ m.ready) : m.Awake k := by
  have hne : k ≠ Machine.root := fun h => hm.root_notMem_ready (h ▸ hk)
  simpa only [Awake, if_neg hne] using hk

/-- The running task ends. -/
theorem finish {result : Except (Fault StepFailure) Json} (hm : Sound (some id) m)
    (hnil : m.itemsOf id = []) (ht : m.tasks.lookup id = some t) (hc : t.cancelled = false) :
    Sound none (m.finish id result) := by
  have hroot : id = Machine.root → t.parent = none := fun hid => (hm.root t (hid ▸ ht)).1
  have hnotrun : ∀ {k}, k ≠ id → some id ≠ some k := fun hk heq => hk (Option.some.inj heq).symm
  constructor
  case keys_nodup => rw [map_fst_finish ht hroot]; exact nodup_removeTask hm.keys_nodup
  case lt_fresh =>
    intro k t' ht'
    obtain ⟨-, t₀, ht₀, -⟩ := of_lookup_finish ht hroot ht'
    rw [finish_fresh ht hroot]
    exact hm.lt_fresh k t₀ ht₀
  case root_lt_fresh => rw [finish_fresh ht hroot]; exact hm.root_lt_fresh
  case ready_nodup => exact nodup_ready_finish ht hroot hm.ready_nodup
  case root_notMem_ready => exact root_notMem_ready_finish ht hroot hm.root_notMem_ready
  case awake =>
    intro k hk
    refine ⟨nofun, fun hne => ?_⟩
    rcases (awake_finish ht hroot).mp hk with hk | ⟨item, hp⟩
    · have hkid : k ≠ id := fun heq => (hm.awake k hk).1 (congrArg some heq.symm)
      obtain ⟨t₀, ht₀⟩ := Option.isSome_iff_exists.mp ((hm.awake k hk).2 hne)
      exact Option.isSome_of_eq_some (lookup_finish_of_ne ht hroot hkid ht₀)
    · have hkid : k ≠ id := (hm.parent_lt id t k item ht hp).ne
      obtain ⟨tp, f, htp, -⟩ := (hm.parent id t k item ht hc hp).resolve_left (hnotrun hkid)
      exact Option.isSome_of_eq_some (lookup_finish_of_ne ht hroot hkid htp)
  case sleepers_nodup =>
    rw [finish_sleepers ht hroot]
    exact hm.sleepers_nodup.sublist (List.filter_sublist.map _)
  case sleepers =>
    rw [finish_sleepers ht hroot, finish_world ht hroot]
    intro s hs
    obtain ⟨hs, hne⟩ := List.mem_filter.mp hs
    obtain ⟨hlt, -, hasleep, t₀, r, ht₀, hr, hc₀⟩ := hm.sleepers s hs
    refine ⟨hlt, nofun, fun h => ?_, _, r, lookup_finish_of_ne ht hroot (by simpa using hne) ht₀,
      informed_state_of_paused hr, informed_cancelled.trans hc₀⟩
    rcases (awake_finish ht hroot).mp h with h | ⟨item, hp⟩
    · exact hasleep h
    · have hkid : s.2 ≠ id := by simpa using hne
      obtain ⟨tp, f, htp, hf⟩ := (hm.parent id t s.2 item ht hc hp).resolve_left (hnotrun hkid)
      obtain rfl := Option.some.inj (ht₀.symm.trans htp)
      exact TaskState.noConfusion (hr.symm.trans hf)
  case running_isSome => exact nofun
  case ending =>
    rw [finish_ending ht hroot, lookup_finish ht hroot]
    by_cases hid : id = Machine.root
    · simp only [if_pos hid, if_pos hid.symm, reduceCtorEq, Option.isSome_none,
        Bool.false_eq_true]
    · rw [if_neg hid, if_neg fun h => hid h.symm, Option.isSome_map]
      exact hm.ending
  case root =>
    intro t' ht'
    obtain ⟨-, t₀, ht₀, rfl⟩ := of_lookup_finish ht hroot ht'
    obtain ⟨hnone, hall⟩ := hm.root t₀ ht₀
    refine ⟨informed_parent.trans hnone, fun k t' ht' => ?_⟩
    obtain ⟨-, t₀, ht₀, rfl⟩ := of_lookup_finish ht hroot ht'
    exact informed_cancelled.trans (hall k t₀ ht₀)
  case parent_lt =>
    intro k t' p item ht' hp
    obtain ⟨-, t₀, ht₀, rfl⟩ := of_lookup_finish ht hroot ht'
    exact hm.parent_lt k t₀ p item ht₀ (informed_parent ▸ hp)
  case parent =>
    intro k t' p item ht' hc' hp
    obtain ⟨-, t₀, ht₀, rfl⟩ := of_lookup_finish ht hroot ht'
    rw [informed_parent] at hp
    have hne : p ≠ id := fun heq =>
      (itemsOf_eq_nil_iff hm.keys_nodup).mp hnil k t₀ item ht₀ (heq ▸ hp)
    obtain ⟨tp, f, htp, hf⟩ :=
      (hm.parent k t₀ p item ht₀ (informed_cancelled ▸ hc') hp).resolve_left (hnotrun hne)
    exact .inr ⟨_, _, lookup_finish_of_ne ht hroot hne htp, informed_state_of_joining hf⟩
  case cancelled =>
    intro k t' ht' hc'
    obtain ⟨hk, t₀, ht₀, rfl⟩ := of_lookup_finish ht hroot ht'
    obtain ⟨hready, hparent⟩ := hm.cancelled k t₀ ht₀ (informed_cancelled ▸ hc')
    refine ⟨.inr ((awake_finish ht hroot).mpr (.inl (hready.resolve_left (hnotrun hk)))),
      fun p item hp => ?_⟩
    exact lookup_finish_of_none ht hroot (hparent p item (informed_parent ▸ hp))
  case paused =>
    intro k t' r ht' hr _
    obtain ⟨hk, t₀, ht₀, rfl⟩ := of_lookup_finish ht hroot ht'
    cases hs : t₀.state with
    | joining f => exact TaskState.noConfusion ((informed_state_of_joining hs).symm.trans hr)
    | paused r₀ =>
      obtain ⟨hready, hnil₀⟩ := hm.paused k t₀ r₀ ht₀ hs (hnotrun hk)
      have hperm := itemsOf_finish (p := k) (r := result) ht hroot hm.keys_nodup
      rw [hnil₀] at hperm
      refine ⟨?_, (List.append_eq_nil_iff.mp hperm.nil_eq.symm).2⟩
      rw [awake_finish ht hroot, finish_sleepers ht hroot]
      refine hready.imp .inl fun h => ?_
      obtain ⟨s, hs, rfl⟩ := List.mem_map.mp h
      exact List.mem_map_of_mem (List.mem_filter.mpr ⟨hs, by simpa using hk⟩)
  case joining =>
    intro k t' f' ht' hf' _
    obtain ⟨hk, t₀, ht₀, rfl⟩ := of_lookup_finish ht hroot ht'
    cases hs : t₀.state with
    | paused r => exact TaskState.noConfusion ((informed_state_of_paused hs).symm.trans hf')
    | joining f =>
      obtain rfl := TaskState.joining.inj ((informed_state_of_joining hs).symm.trans hf')
      exact (hm.joining k t₀ f ht₀ hs (hnotrun hk)).finish hm.keys_nodup ht hroot

/-- The running task begins a branch. -/
theorem spawn {branch : Nat → Activity} (hm : Sound (some id) m) :
    Sound (some id) (m.spawn id branch item) := by
  obtain ⟨tid, htid⟩ := Option.isSome_iff_exists.mp (hm.running_isSome id rfl)
  have hidlt : id < m.fresh := hm.lt_fresh id tid htid
  have hawake : ∀ k, (m.spawn id branch item).Awake k ↔ m.Awake k ∨ k = m.fresh :=
    fun k => awake_spawn hm.root_lt_fresh
  have hsome : ∀ {k}, (m.tasks.lookup k).isSome →
      ((m.spawn id branch item).tasks.lookup k).isSome := by
    intro k hk
    obtain ⟨t, ht⟩ := Option.isSome_iff_exists.mp hk
    exact Option.isSome_of_eq_some (lookup_spawn_of_some ht)
  refine { hm with
    keys_nodup := ?keys_nodup
    lt_fresh := ?lt_fresh
    root_lt_fresh := Nat.lt_succ_of_lt hm.root_lt_fresh
    ready_nodup := ?ready_nodup
    root_notMem_ready := ?root_notMem_ready
    awake := ?awake
    sleepers := ?sleepers
    running_isSome := fun k hk => hsome (hm.running_isSome k hk)
    ending := ?ending
    root := ?root
    parent_lt := ?parent_lt
    parent := ?parent
    cancelled := ?cancelled
    paused := ?paused
    joining := ?joining }
  case keys_nodup =>
    rw [Machine.spawn, List.map_append]
    refine hm.keys_nodup.append (List.nodup_singleton _) fun k hk hnew => ?_
    obtain ⟨t, ht⟩ := Option.isSome_iff_exists.mp (Keyed.isSome_lookup_iff.mpr hk)
    exact (hm.lt_fresh k t ht).ne (List.mem_singleton.mp hnew)
  case lt_fresh =>
    intro k t ht
    rcases of_lookup_spawn ht with ht | ⟨rfl, -⟩
    · exact Nat.lt_succ_of_lt (hm.lt_fresh k t ht)
    · exact Nat.lt_succ_self _
  case ready_nodup =>
    refine hm.ready_nodup.append (List.nodup_singleton _) fun k hk hnew => ?_
    exact (hm.lt_fresh_of_awake (hm.awake_of_mem_ready hk)).ne (List.mem_singleton.mp hnew)
  case root_notMem_ready =>
    refine fun h => (List.mem_append.mp h).elim hm.root_notMem_ready fun hnew => ?_
    exact hm.root_lt_fresh.ne (List.mem_singleton.mp hnew)
  case awake =>
    intro k hk
    rcases (hawake k).mp hk with hk | rfl
    · exact ⟨(hm.awake k hk).1, fun hne => hsome ((hm.awake k hk).2 hne)⟩
    · refine ⟨fun heq => hidlt.ne (Option.some.inj heq), fun _ => ?_⟩
      rw [Keyed.isSome_lookup_iff, Machine.spawn, List.map_append]
      exact List.mem_append_right _ (List.mem_singleton_self _)
  case sleepers =>
    intro s hs
    obtain ⟨hlt, hrun, hasleep, t, r, ht, hr⟩ := hm.sleepers s hs
    refine ⟨hlt, hrun, fun h => ?_, t, r, lookup_spawn_of_some ht, hr⟩
    exact ((hawake s.2).mp h).elim hasleep (hm.lt_fresh s.2 t ht).ne
  case ending =>
    refine hm.ending.trans ⟨hsome, fun h => ?_⟩
    rcases of_lookup_spawn (Option.some_get h).symm with ht | ⟨heq, -⟩
    · exact Option.isSome_of_eq_some ht
    · exact absurd heq hm.root_lt_fresh.ne
  case root =>
    intro t ht
    rcases of_lookup_spawn ht with ht | ⟨heq, -⟩
    · refine ⟨(hm.root t ht).1, fun k t' ht' => ?_⟩
      rcases of_lookup_spawn ht' with ht' | ⟨-, rfl⟩
      · exact (hm.root t ht).2 k t' ht'
      · rfl
    · exact absurd heq hm.root_lt_fresh.ne
  case parent_lt =>
    intro k t p item' ht hp
    rcases of_lookup_spawn ht with ht | ⟨rfl, rfl⟩
    · exact hm.parent_lt k t p item' ht hp
    · exact (Prod.mk.inj (Option.some.inj hp)).1 ▸ hidlt
  case parent =>
    intro k t p item' ht hc hp
    rcases of_lookup_spawn ht with ht | ⟨rfl, rfl⟩
    · obtain hrun | ⟨tp, f, htp, hf⟩ := hm.parent k t p item' ht hc hp
      · exact .inl hrun
      · exact .inr ⟨tp, f, lookup_spawn_of_some htp, hf⟩
    · exact .inl (congrArg some (Prod.mk.inj (Option.some.inj hp)).1)
  case cancelled =>
    intro k t ht hc
    rcases of_lookup_spawn ht with ht | ⟨-, rfl⟩
    · obtain ⟨hready, hparent⟩ := hm.cancelled k t ht hc
      refine ⟨hready.imp_right fun h => (hawake k).mpr (.inl h), fun p item' hp => ?_⟩
      -- the number of a task that is gone is not given again
      have hlt := (hm.parent_lt k t p item' ht hp).trans (hm.lt_fresh k t ht)
      refine Option.eq_none_iff_forall_ne_some.mpr fun t' ht' => ?_
      rcases of_lookup_spawn ht' with ht' | ⟨heq, -⟩
      · simp [hparent p item' hp] at ht'
      · exact hlt.ne heq
    · exact absurd hc Bool.false_ne_true
  case paused =>
    intro k t r ht hr hk
    have hkid : k ≠ id := fun heq => hk (congrArg some heq.symm)
    rw [itemsOf_spawn, if_neg hkid, List.append_nil]
    rcases of_lookup_spawn ht with ht | ⟨rfl, -⟩
    · obtain ⟨hready, hnil⟩ := hm.paused k t r ht hr hk
      exact ⟨hready.imp_left fun h => (hawake k).mpr (.inl h), hnil⟩
    · refine ⟨.inl ((hawake _).mpr (.inr rfl)), ?_⟩
      rw [itemsOf_eq_nil_iff hm.keys_nodup]
      intro j t' item' ht' hp
      exact ((hm.parent_lt j t' _ item' ht' hp).trans (hm.lt_fresh j t' ht')).false
  case joining =>
    intro k t f ht hf hk
    have hkid : k ≠ id := fun heq => hk (congrArg some heq.symm)
    rcases of_lookup_spawn ht with ht | ⟨-, rfl⟩
    · refine (hm.joining k t f ht hf hk).of_itemsOf ?_ fun h => (hawake k).mpr (.inl h)
      rw [itemsOf_spawn, if_neg hkid, List.append_nil]
    · exact TaskState.noConfusion hf

/-- The running task begins branches one after another. -/
theorem foldl_spawn {branch : Nat → Activity} (hm : Sound (some id) m) (items : List Nat) :
    Sound (some id) (items.foldl (Machine.spawn id branch) m) := by
  induction items generalizing m with
  | nil => exact hm
  | cons item items ih => exact ih hm.spawn

/-- The running task waits for branches. -/
theorem wait {f : Fork} (hm : Sound (some id) m) (ht : m.tasks.lookup id = some t)
    (hc : t.cancelled = false) (hf : t.state = .joining f) (hw : m.Waits id f) : Sound none m := by
  have hself : ∀ {k t'}, some id = some k → m.tasks.lookup k = some t' → k = id ∧ t' = t := by
    rintro k t' hk ht'
    obtain rfl := Option.some.inj hk
    exact ⟨rfl, Option.some.inj (ht'.symm.trans ht)⟩
  refine { hm with
    awake := fun k hk => ⟨nofun, (hm.awake k hk).2⟩
    sleepers := ?sleepers
    running_isSome := nofun
    parent := ?parent
    cancelled := ?cancelled
    paused := ?paused
    joining := ?joining }
  case sleepers =>
    intro s hs
    obtain ⟨hlt, -, hrest⟩ := hm.sleepers s hs
    exact ⟨hlt, nofun, hrest⟩
  case parent =>
    intro k t' p item ht' hc' hp'
    rcases hm.parent k t' p item ht' hc' hp' with hrun | hjoins
    · exact .inr ⟨t, f, Option.some.inj hrun ▸ ht, hf⟩
    · exact .inr hjoins
  case cancelled =>
    intro k t' ht' hc'
    refine (hm.cancelled k t' ht' hc').imp_left (Or.imp_left fun hrun => ?_)
    obtain ⟨-, rfl⟩ := hself hrun ht'
    exact absurd (hc.symm.trans hc') Bool.false_ne_true
  case paused =>
    intro k t' r ht' hr _
    refine hm.paused k t' r ht' hr fun hrun => ?_
    obtain ⟨-, rfl⟩ := hself hrun ht'
    exact TaskState.noConfusion (hf.symm.trans hr)
  case joining =>
    intro k t' f' ht' hf' _
    by_cases hrun : some id = some k
    · obtain ⟨rfl, rfl⟩ := hself hrun ht'
      exact TaskState.joining.inj (hf.symm.trans hf') ▸ hw
    · exact hm.joining k t' f' ht' hf' hrun

/-- The running task takes in items and waits. -/
theorem takeIn {f : Fork} (hm : Sound (some id) m)
    (ht : m.tasks.lookup id = some t) (hc : t.cancelled = false) (h : f.Reckons (m.itemsOf id)) :
    Sound none (m.takeIn id f) := by
  have hself : (m.setState id (.joining f.filled)).tasks.lookup id =
      some { t with state := .joining f.filled } := by
    rw [lookup_setState, if_pos rfl, ht, Option.map_some]
  have hfilled : Sound (some id) (m.takeIn id f) :=
    (hm.setState (.joining f.filled)).foldl_spawn f.nextItems
  exact hfilled.wait (lookup_takeIn_of_some hself) hc rfl (waits_takeIn h)

/-! ### The end of a task with branches -/

/-- A task whose task is gone, or the root, is dropped: its branches are cancelled. -/
private theorem drop_aux {e : Option Ending} (hm : Sound running m)
    (ht : m.tasks.lookup id = some t) (hrun : ∀ k, running = some k → k = id)
    (hasleep : id ≠ Machine.root → ¬ m.Awake id)
    (hp : ∀ p item, t.parent = some (p, item) → m.tasks.lookup p = none)
    (hroot : (m.drop id).tasks.lookup Machine.root = none) (he : e ≠ none) :
    Sound none { m.drop id with ending := e } := by
  have hnotrun : ∀ {k}, k ≠ id → running ≠ some k := fun hk heq => hk (hrun _ heq)
  have hawake : ∀ k, (m.drop id).Awake k ↔ m.Awake k ∨
      ∃ t item, m.tasks.lookup k = some t ∧ t.parent = some (id, item) := by
    intro k
    rw [awake_drop, mem_branchesOf hm.keys_nodup]
  constructor
  case keys_nodup =>
    refine (?_ : ((m.drop id).tasks.map Prod.fst).Nodup)
    rw [map_fst_drop]
    exact nodup_removeTask hm.keys_nodup
  case lt_fresh =>
    intro k t' ht'
    obtain ⟨-, t₀, ht₀, -⟩ := of_lookup_drop hm.keys_nodup ht'
    exact (hm.lt_fresh k t₀ ht₀).trans_eq drop_fresh.symm
  case root_lt_fresh => exact hm.root_lt_fresh.trans_eq drop_fresh.symm
  case ready_nodup => exact nodup_ready_drop hm.ready_nodup
  case root_notMem_ready => exact root_notMem_ready_drop hm.root_notMem_ready
  case awake =>
    intro k hk
    refine ⟨nofun, fun hne => ?_⟩
    have hsome : ∃ t₀, m.tasks.lookup k = some t₀ := by
      rcases (hawake k).mp hk with hk | ⟨t₀, item, ht₀, -⟩
      · exact Option.isSome_iff_exists.mp ((hm.awake k hk).2 hne)
      · exact ⟨t₀, ht₀⟩
    have hkid : k ≠ id := by
      rintro rfl
      rcases (hawake k).mp hk with hk | ⟨t₀, item, ht₀, hp₀⟩
      · exact hasleep hne hk
      · exact (hm.parent_lt k t₀ k item ht₀ hp₀).false
    obtain ⟨t₀, ht₀⟩ := hsome
    exact Option.isSome_of_eq_some (lookup_drop_of_ne hm.keys_nodup hkid ht₀)
  case sleepers_nodup =>
    refine (?_ : ((m.drop id).sleepers.map Prod.snd).Nodup)
    rw [drop_sleepers]
    exact hm.sleepers_nodup.sublist (List.filter_sublist.map _)
  case sleepers =>
    refine fun s (hs : s ∈ (m.drop id).sleepers) => ?_
    rw [drop_sleepers, List.mem_filter] at hs
    obtain ⟨hs, hne⟩ := hs
    simp only [mem_branchesOf hm.keys_nodup, not_exists, not_and, decide_eq_true_eq] at hne
    obtain ⟨hlt, -, hsleep, t₀, r, ht₀, hr, hc₀⟩ := hm.sleepers s hs
    have hab : abandoned id t₀ = t₀ := abandoned_of_parent_ne fun item => hne.2 t₀ item ht₀
    have hlookup := (lookup_drop_of_ne hm.keys_nodup hne.1 ht₀).trans (congrArg some hab)
    refine ⟨?_, nofun, fun h => ?_, t₀, r, hlookup, hr, hc₀⟩
    · exact (congrArg World.now (drop_world : (m.drop id).world = m.world)).trans_lt hlt
    · rcases (hawake s.2).mp h with h | ⟨t₁, item, ht₁, hp₁⟩
      · exact hsleep h
      · exact hne.2 t₁ item ht₁ hp₁
  case running_isSome => exact nofun
  case ending =>
    refine ⟨fun h => absurd h he, fun h => ?_⟩
    simp only [hroot, Option.isSome_none, Bool.false_eq_true] at h
  case root => exact fun t' ht' => by simp [hroot] at ht'
  case parent_lt =>
    intro k t' p item ht' hp'
    obtain ⟨-, t₀, ht₀, rfl⟩ := of_lookup_drop hm.keys_nodup ht'
    exact hm.parent_lt k t₀ p item ht₀ (abandoned_parent ▸ hp')
  case parent =>
    intro k t' p item ht' hc' hp'
    obtain ⟨-, t₀, ht₀, rfl⟩ := of_lookup_drop hm.keys_nodup ht'
    rw [abandoned_parent] at hp'
    have hnot := mt abandoned_cancelled_iff.mpr (Bool.eq_false_iff.mp hc')
    rw [not_or, not_exists] at hnot
    have hne : p ≠ id := fun heq => hnot.2 item (heq ▸ hp')
    obtain ⟨tp, f, htp, hf⟩ := (hm.parent k t₀ p item ht₀ (Bool.eq_false_iff.mpr hnot.1)
      hp').resolve_left (hnotrun hne)
    exact .inr ⟨_, f, lookup_drop_of_ne hm.keys_nodup hne htp, abandoned_state.trans hf⟩
  case cancelled =>
    intro k t' ht' hc'
    obtain ⟨hk, t₀, ht₀, rfl⟩ := of_lookup_drop hm.keys_nodup ht'
    rcases abandoned_cancelled_iff.mp hc' with hc₀ | ⟨item, hp₀⟩
    · obtain ⟨hready, hparent⟩ := hm.cancelled k t₀ ht₀ hc₀
      refine ⟨.inr ((hawake k).mpr (.inl (hready.resolve_left (hnotrun hk)))),
        fun p item hp' => ?_⟩
      exact lookup_drop_of_none hm.keys_nodup (hparent p item (abandoned_parent ▸ hp'))
    · refine ⟨.inr ((hawake k).mpr (.inr ⟨t₀, item, ht₀, hp₀⟩)), fun p item' hp' => ?_⟩
      rw [abandoned_parent, hp₀] at hp'
      obtain ⟨rfl, -⟩ := Prod.mk.inj (Option.some.inj hp')
      exact lookup_drop_self hm.keys_nodup
  case paused =>
    intro k t' r ht' hr _
    obtain ⟨hk, t₀, ht₀, rfl⟩ := of_lookup_drop hm.keys_nodup ht'
    obtain ⟨hready, hnil⟩ := hm.paused k t₀ r ht₀ (abandoned_state ▸ hr) (hnotrun hk)
    have hperm := itemsOf_drop (p := k) hm.keys_nodup ht
    rw [hnil] at hperm
    refine ⟨?_, (List.append_eq_nil_iff.mp hperm.nil_eq.symm).2⟩
    by_cases hmem : k ∈ m.branchesOf id
    · exact .inl (awake_drop.mpr (.inr hmem))
    · refine hready.imp (fun h => awake_drop.mpr (.inl h)) fun h => ?_
      refine (?_ : k ∈ (m.drop id).sleepers.map Prod.snd)
      rw [drop_sleepers]
      obtain ⟨s, hs, rfl⟩ := List.mem_map.mp h
      exact List.mem_map_of_mem (List.mem_filter.mpr ⟨hs, by simp [hk, hmem]⟩)
  case joining =>
    intro k t' f ht' hf _
    obtain ⟨hk, t₀, ht₀, rfl⟩ := of_lookup_drop hm.keys_nodup ht'
    have hw := hm.joining k t₀ f ht₀ (abandoned_state ▸ hf) (hnotrun hk)
    have hnone : itemIn k t = none := by
      refine Option.eq_none_iff_forall_ne_some.mpr fun item hitem => ?_
      have := hp k item (itemIn_eq_some_iff.mp hitem)
      simp [ht₀] at this
    exact (hw.drop hm.keys_nodup ht hnone).of_itemsOf rfl fun h => h

/-- A cancelled task has its turn. -/
theorem drop (hm : Sound (some id) m) (ht : m.tasks.lookup id = some t) (hc : t.cancelled = true) :
    Sound none (m.drop id) := by
  have hdead : m.tasks.lookup Machine.root = none := by
    refine Option.eq_none_iff_forall_ne_some.mpr fun t' ht' => ?_
    exact Bool.false_ne_true (((hm.root t' ht').2 id t ht).symm.trans hc)
  have hended : m.ending ≠ none := fun h => by
    have := hm.ending.mp h
    simp [hdead] at this
  have := hm.drop_aux (e := m.ending) ht (fun k hk => (Option.some.inj hk).symm)
    (fun _ h => (hm.awake id h).1 rfl) (hm.cancelled id t ht hc).2
    (lookup_drop_of_none hm.keys_nodup hdead) hended
  rwa [show m.ending = (m.drop id).ending from drop_ending.symm] at this

/-- The run is cut off. -/
theorem cut (hm : Sound none m) (hending : m.ending = none) : Sound none m.cut := by
  obtain ⟨t, ht⟩ := Option.isSome_iff_exists.mp (hm.ending.mp hending)
  refine hm.drop_aux ht nofun (fun h => absurd rfl h) (fun p item hp => ?_)
    (lookup_drop_self hm.keys_nodup) nofun
  simp [(hm.root t ht).1] at hp

/-! ### The clock -/

/-- The clock moves to the time at which the next task wakes, or to an earlier one. -/
theorem wakeAt {time : Nat} (hm : Sound none m) (hle : ∀ s ∈ m.sleepers, time ≤ s.1) :
    Sound none (m.wakeAt time) := by
  have hmem : ∀ {k}, k ∈ m.sleepers.map Prod.snd →
      (time, k) ∈ m.sleepers ∨ k ∈ (m.wakeAt time).sleepers.map Prod.snd := by
    intro k hk
    obtain ⟨s, hs, rfl⟩ := List.mem_map.mp hk
    by_cases hst : s.1 = time
    · exact .inl (hst ▸ hs)
    · rw [wakeAt_sleepers]
      exact .inr (List.mem_map_of_mem (List.mem_filter.mpr ⟨hs, by simpa using hst⟩))
  constructor
  case keys_nodup => rw [wakeAt_tasks]; exact hm.keys_nodup
  case lt_fresh => rw [wakeAt_tasks, wakeAt_fresh]; exact hm.lt_fresh
  case root_lt_fresh => rw [wakeAt_fresh]; exact hm.root_lt_fresh
  case ready_nodup => exact nodup_ready_wakeAt hm.ready_nodup
  case root_notMem_ready => exact root_notMem_ready_wakeAt hm.root_notMem_ready
  case awake =>
    intro k hk
    refine ⟨nofun, fun hne => ?_⟩
    rw [wakeAt_tasks]
    rcases awake_wakeAt.mp hk with hk | hk
    · exact (hm.awake k hk).2 hne
    · obtain ⟨-, -, -, t, r, ht, -⟩ := hm.sleepers _ hk
      exact Option.isSome_of_eq_some ht
  case sleepers_nodup =>
    rw [wakeAt_sleepers]
    exact hm.sleepers_nodup.sublist (List.filter_sublist.map _)
  case sleepers =>
    rw [wakeAt_sleepers, wakeAt_world, wakeAt_tasks]
    intro s hs
    obtain ⟨hs, hne⟩ := List.mem_filter.mp hs
    obtain ⟨-, -, hasleep, htask⟩ := hm.sleepers s hs
    have hne : s.1 ≠ time := by simpa using hne
    refine ⟨lt_of_le_of_ne (hle s hs) hne.symm, nofun, fun h => ?_, htask⟩
    rcases awake_wakeAt.mp h with h | h
    · exact hasleep h
    · -- no task is asleep twice
      exact hne (congrArg Prod.fst (List.inj_on_of_nodup_map hm.sleepers_nodup hs h rfl))
  case running_isSome => exact nofun
  case ending => rw [wakeAt_ending, wakeAt_tasks]; exact hm.ending
  case root => rw [wakeAt_tasks]; exact hm.root
  case parent_lt => rw [wakeAt_tasks]; exact hm.parent_lt
  case parent => rw [wakeAt_tasks]; exact hm.parent
  case cancelled =>
    rw [wakeAt_tasks]
    intro k t ht hc
    obtain ⟨hready, hparent⟩ := hm.cancelled k t ht hc
    exact ⟨hready.imp_right fun h => awake_wakeAt.mpr (.inl h), hparent⟩
  case paused =>
    rw [wakeAt_tasks]
    intro k t r ht hr hk
    obtain ⟨hready, hnil⟩ := hm.paused k t r ht hr hk
    refine ⟨?_, by rw [itemsOf, wakeAt_tasks]; exact hnil⟩
    rcases hready with h | h
    · exact .inl (awake_wakeAt.mpr (.inl h))
    · exact (hmem h).imp_left fun h => awake_wakeAt.mpr (.inr h)
  case joining =>
    rw [wakeAt_tasks]
    intro k t f ht hf hk
    refine (hm.joining k t f ht hf hk).of_itemsOf ?_ fun h => awake_wakeAt.mpr (.inl h)
    rw [itemsOf, itemsOf, wakeAt_tasks]

end Sound

end Machine

end Conveyor
