import Conveyor.Proofs.Run.Aftermath
import Conveyor.Proofs.Run.Cancellation
import Conveyor.Proofs.Run.Frames
import Mathlib.Data.List.Nodup

/-!
# The open steps of a run

When a task of a framed machine has its turn, the machine is framed again (`Machine.Framed.acted`):
what is open in the other tasks stays so, and the branches that are begun have scopes of their own.
So in a run of a step of the pipeline at the top, the steps that are open are those of the tasks
(`Machine.charted_runStep`), also when it has failed and branches go on without it, and those of the
tasks that have panicked.
-/

namespace Conveyor

/-! ### Panics -/

/-- The task `id` if it has panicked in its turn. -/
def Halt.dead (id : Nat) : Halt → List Nat
  | .done (.error (.panic _)) => [id]
  | _ => []

theorem Halt.of_mem_dead {h : Halt} {id k : Nat} (hk : k ∈ h.dead id) :
    k = id ∧ ∃ p, h = .done (.error (.panic p)) := by
  unfold dead at hk
  split at hk
  · exact ⟨List.mem_singleton.mp hk, _, rfl⟩
  · cases hk

/-- A task that halts so goes on or panics. -/
def Halt.Stays (h : Halt) : Prop :=
  ∀ result, h = .done result → ∃ p, result = .error (.panic p)

namespace Machine

variable {P : Nat → Nat → (Nat → Activity) → Prop} {σ : Type} {adapter : Adapter σ}
  {deadline : Option Nat} {m m' m₀ m₁ : Machine σ} {id k k' : Nat} {t t' : Task} {h : Halt}
  {stuck : List String → Prop}

/-! ### The frames after a turn -/

namespace Frames

variable {F F' : Frames} {opened : List String}

/-- The frames after the turn of a task that halts so and leaves these steps open. The branches that
are begun have their scopes from the step that it has opened last. -/
structure Next (F F' : Frames) (m m' : Machine σ) (id : Nat) (h : Halt) (opened : List String) :
    Prop where
  scope {k : Nat} (hk : k < m.fresh) : F'.scope k = F.scope k
  self : F'.opened id = opened
  others {k : Nat} (hne : k ≠ id) (hk : k < m.fresh) : F'.opened k = F.opened k
  begun {k : Nat} (hk : m.fresh ≤ k) : F'.opened k = []
  scope_begun {k p item : Nat} {t : Task} {name : String} {rest : List String} (hk : m.fresh ≤ k)
    (ht : m'.tasks.lookup k = some t) (hp : t.parent = some (p, item))
    (hopened : opened = name :: rest) : F'.scope k = branchId name item
  dead : F'.dead = h.dead id ++ F.dead

theorem exists_next (F : Frames) (m m' : Machine σ) (h : Halt) (opened : List String)
    (hid : id < m.fresh) : ∃ F', F.Next F' m m' id h opened := by
  refine ⟨⟨fun k => if k < m.fresh then F.scope k else
      branchId (opened.headD "") (((m'.tasks.lookup k).bind Task.parent).elim 0 Prod.snd),
    fun k => if k = id then opened else if k < m.fresh then F.opened k else [],
    h.dead id ++ F.dead⟩, ?_⟩
  constructor
  case dead => rfl
  case scope => exact fun hk => if_pos hk
  case self => exact if_pos rfl
  case others => exact fun hne hk => (if_neg hne).trans (if_pos hk)
  case begun =>
    exact fun hk => (if_neg (hid.trans_le hk).ne').trans (if_neg (Nat.not_lt.mpr hk))
  case scope_begun =>
    intro k p item t name rest hk ht hp hopened
    refine (if_neg (Nat.not_lt.mpr hk)).trans ?_
    rw [ht, Option.bind_some, hp, hopened]
    rfl

theorem Next.may (hF' : F.Next F' m m' id h opened) (hk : k < m.fresh) : F'.may k = F.may k := by
  unfold Frames.may
  rw [hF'.scope hk]

end Frames

/-- The numbers of the tasks after a turn: that of the task itself is missing if it has ended, and
those of the branches that are begun are new. -/
theorem Acting.exists_keys (ha : Acting P adapter m id m₀ t h m₁) :
    (∃ new, (∀ k ∈ new, m₀.fresh ≤ k) ∧ new.Nodup ∧ (∀ result, h ≠ .done result) ∧
        (m₁.halt id h).tasks.map Prod.fst = m₀.tasks.map Prod.fst ++ new) ∨
      (∃ result, h = .done result) ∧
        (m₁.halt id h).tasks.map Prod.fst = (m₀.tasks.map Prod.fst).erase id := by
  have hkeys : m₁.tasks.map Prod.fst = m₀.tasks.map Prod.fst ∧ m₁.fresh = m₀.fresh := by
    refine ⟨?_, ha.acts.fresh⟩
    have hacts := ha.acts
    generalize t.state = s at hacts
    cases hacts with
    | refill hf hover => rfl
    | advance hr =>
      cases hr with
      | collapse hf => exact map_fst_detach
      | _ => rfl
  cases h with
  | done result =>
    refine .inr ⟨⟨result, rfl⟩, ?_⟩
    rw [halt, map_fst_finish ha.lookup_acted fun hid =>
      (ha.sound_acted.root t (hid ▸ ha.lookup_acted)).1, ← hkeys.1,
      ha.sound_acted.keys_nodup.erase_eq_filter]
    rw [List.filter_map]
    exact congrArg (List.map Prod.fst) (List.filter_congr fun e _ => decide_not)
  | asleep ms r =>
    refine .inl ⟨[], fun k hk => absurd hk List.not_mem_nil, .nil, fun _ heq => (by cases heq), ?_⟩
    rw [List.append_nil, ← hkeys.1]
    exact map_fst_modifyTask fun t => { t with state := .paused r }
  | forked f =>
    refine .inl ⟨List.range' m₁.fresh f.nextItems.length, fun k hk => ?_, List.nodup_range',
      fun _ heq => (by cases heq), ?_⟩
    · exact hkeys.2 ▸ (List.mem_range'_1.mp hk).1
    · rw [halt, map_fst_takeIn, hkeys.1]

/-! ### What a turn leaves of the tasks -/

/-- When a task has ended, no branches of it are left. -/
theorem Acting.parent_ne_of_done {result : Except (Fault StepFailure) Json} {item : Nat}
    (ha : Acting P adapter m id m₀ t (.done result) m₁)
    (ht' : (m₁.halt id (.done result)).tasks.lookup k = some t') : t'.parent ≠ some (id, item) := by
  intro hp
  have hnil : m₁.itemsOf id = [] := ha.fits
  have hperm := itemsOf_finish (p := id) (r := result) ha.lookup_acted
    (fun hid => (ha.sound_acted.root t (hid ▸ ha.lookup_acted)).1) ha.sound_acted.keys_nodup
  rw [hnil] at hperm
  have hitems : (m₁.finish id result).itemsOf id = [] :=
    (List.append_eq_nil_iff.mp hperm.nil_eq.symm).2
  exact List.not_mem_nil (hitems ▸ mem_itemsOf_of_lookup ht' hp)

section Acted

variable {F F' : Frames} {opened : List String}

/-- Who is there after a turn: nobody new has the number of another one, and the task itself is
missing if it has ended and has not panicked. -/
theorem Frames.Next.members_perm (hF' : F.Next F' m₀ (m₁.halt id h) id h opened)
    (ha : Acting P adapter m id m₀ t h m₁) (hh : h.Balanced stuck (F.may id) opened) :
    (∃ new, (∀ k ∈ new, m₀.fresh ≤ k) ∧ new.Nodup ∧
        (F'.members (m₁.halt id h)).Perm (F.members m₀ ++ new)) ∨
      opened = [] ∧ F'.members (m₁.halt id h) = (F.members m₀).erase id := by
  have hmem : id ∈ m₀.tasks.map Prod.fst :=
    Keyed.isSome_lookup_iff.mp (Option.isSome_of_eq_some ha.lookup)
  unfold members
  rw [hF'.dead]
  rcases ha.exists_keys with ⟨new, hnew, hnodup, hgoes, hkeys⟩ | ⟨⟨result, rfl⟩, hkeys⟩
  · have hdead : h.dead id = [] := by
      cases h with
      | done result => exact absurd rfl (hgoes result)
      | _ => rfl
    refine .inl ⟨new, hnew, hnodup, ?_⟩
    rw [hkeys, hdead, List.nil_append, List.append_assoc, List.append_assoc]
    exact List.perm_append_comm.append_left _
  · rw [hkeys]
    rcases result with (failure | p) | context
    · exact .inr ⟨hh, (List.erase_append_left _ hmem).symm⟩
    · refine .inl ⟨[], nofun, .nil, ?_⟩
      rw [List.append_nil, Halt.dead, List.singleton_append]
      exact List.perm_middle.trans ((List.perm_cons_erase hmem).symm.append_right _)
    · exact .inr ⟨hh, (List.erase_append_left _ hmem).symm⟩

/-- The steps that are open after a turn. -/
theorem Frames.Next.all_perm (hF : Framed stuck F m₀)
    (hF' : F.Next F' m₀ (m₁.halt id h) id h opened) (ha : Acting P adapter m id m₀ t h m₁)
    (hh : h.Balanced stuck (F.may id) opened) :
    (opened ++ F.others m₀ id).Perm (F'.all (m₁.halt id h)) := by
  have hothers : ((F.members m₀).erase id).flatMap F'.opened = F.others m₀ id := by
    refine List.flatMap_congr fun k hk => ?_
    obtain ⟨hne, hk⟩ := hF.nodup.mem_erase_iff.mp hk
    exact hF'.others hne (hF.lt_fresh ha.sound hk)
  unfold all
  rcases hF'.members_perm ha hh with ⟨new, hnew, -, hperm⟩ | ⟨rfl, hsame⟩
  · have hnil : new.flatMap F'.opened = [] :=
      List.flatMap_eq_nil_iff.mpr fun k hk => hF'.begun (hnew k hk)
    have hsplit := (List.perm_cons_erase
      (mem_members_of_lookup (F := F) ha.lookup)).flatMap_right F'.opened
    rw [List.flatMap_cons, hF'.self, hothers] at hsplit
    have hall := hperm.flatMap_right F'.opened
    rw [List.flatMap_append, hnil, List.append_nil] at hall
    exact hsplit.symm.trans hall.symm
  · rw [hsame, hothers]
    exact List.Perm.refl _

/-- Who is there after a turn was there before, and has not ended in it unless by a panic; or it is
a branch that was begun. -/
theorem Frames.Next.old_or_new (hF : Framed stuck F m₀)
    (hF' : F.Next F' m₀ (m₁.halt id h) id h opened) (ha : Acting P adapter m id m₀ t h m₁)
    (hk : k ∈ F'.members (m₁.halt id h)) :
    (k ∈ F.members m₀ ∧ (k = id → h.Stays)) ∨
      m₀.fresh ≤ k ∧ ∃ t', (m₁.halt id h).tasks.lookup k = some t' := by
  rcases List.mem_append.mp hk with hk | hk
  · obtain ⟨t', ht'⟩ := Option.isSome_iff_exists.mp (Keyed.isSome_lookup_iff.mpr hk)
    rcases ha.old_or_new ht' with ⟨t₀, ht₀, hgoes⟩ | hnew
    · exact .inl ⟨mem_members_of_lookup ht₀, fun hid result hh => absurd hh (hgoes hid result)⟩
    · exact .inr ⟨hnew, t', ht'⟩
  · rw [hF'.dead] at hk
    rcases List.mem_append.mp hk with hk | hk
    · obtain ⟨rfl, p, rfl⟩ := Halt.of_mem_dead hk
      exact .inl ⟨mem_members_of_lookup ha.lookup,
        fun _ result hh => ⟨p, (Halt.done.inj hh).symm⟩⟩
    · refine .inl ⟨List.mem_append_right _ hk, fun hid => ?_⟩
      exact absurd (hid ▸ hk) (hF.notMem_dead ha.lookup)

/-- A branch that is begun in a turn: its task, and what it is about. -/
theorem Frames.Next.exists_newcomer (hF' : F.Next F' m₀ (m₁.halt id h) id h opened)
    (ha : Acting P adapter m id m₀ t h m₁)
    (hh : h.Balanced stuck (F.may id) opened) (hk : m₀.fresh ≤ k)
    (ht' : (m₁.halt id h).tasks.lookup k = some t') :
    ∃ f name rest item, h = .forked f ∧ opened = name :: rest ∧ item ∈ f.nextItems ∧
      t' = ⟨some (id, item), .paused (.activity (f.branch item)), false⟩ ∧
      F'.scope k = branchId name item ∧
      (f.branch item).Starts (branchId name item) ∧
      (f.branch item).Balanced stuck (OpensInside (branchId name item)) [] := by
  cases ha.after ht' with
  | other hne ht₀ => exact absurd (ha.sound.lt_fresh k _ ht₀) (Nat.not_lt.mpr hk)
  | self hid => exact absurd (ha.sound.lt_fresh k t (hid ▸ ha.lookup)) (Nat.not_lt.mpr hk)
  | @new f item _ hforked hitem heq =>
    subst hforked heq
    obtain ⟨name, rest, rfl, hbranch⟩ := hh.1
    exact ⟨f, name, rest, item, rfl, rfl, hitem, rfl, hF'.scope_begun hk ht' rfl rfl, hbranch item⟩

/-- A branch that ends well has the scope of no other task inside of it. -/
theorem Framed.not_covers_of_done {output : Json} {p item : Nat} {name : String}
    {rest : List String} (hF : Framed stuck F m₀)
    (ha : Acting P adapter m id m₀ t (.done (.ok output)) m₁)
    (hturned : Turned F m₀ id t (.done (.ok output)) opened) (hp : t.parent = some (p, item))
    (hopened : F.opened p = name :: rest) (hk' : k' ∈ F.members m₀) (hne : id ≠ k') :
    ¬ Covers (branchId name item) (F.scope k') := by
  intro hcovers
  obtain ⟨name', rest', hopened', hbranch⟩ := hF.branch id t p item ha.lookup hp
  obtain ⟨rfl, -⟩ := List.cons.inj (hopened.symm.trans hopened')
  rw [← hbranch] at hcovers
  rcases hF.separate id k' (Frames.mem_members_of_lookup ha.lookup) hk' hne with
    hapart | hinside | hinside
  · exact hapart.1 hcovers
  · cases hturned with
    | alone hnil hwithin => exact hwithin k' hinside
  · exact hF.not_within hk' hcovers hinside

/-- A task that takes in further items keeps the others inside of it. -/
theorem Within.acted_self (hF' : F.Next F' m₀ (m₁.halt id h) id h opened)
    (ha : Acting P adapter m id m₀ t h m₁) (hturned : Turned F m₀ id t h opened)
    (hw : Within F m₀ id k') (hstays : h.Stays) (hscope : F'.scope k' = F.scope k') :
    Within F' (m₁.halt id h) id k' := by
  cases hturned with
  | @refill f f' hf' hgather =>
    obtain ⟨ht₀, hf, hopened, hcovers, hitem⟩ := hw
    obtain rfl := Option.some.inj (ha.lookup.symm.trans ht₀)
    obtain rfl := TaskState.joining.inj (hf.symm.trans hf')
    refine ⟨lookup_halt_self ha.lookup_acted rfl, rfl, hF'.self.trans hopened,
      hscope ▸ hcovers, .inl ?_⟩
    rcases hitem with ⟨c, tc, htc, hp⟩ | ⟨fault, hfailed⟩
    · obtain ⟨tc', htc', hkept⟩ := ha.exists_kept (ha.sound.parent_lt c tc id _ htc hp).ne' htc
      exact ⟨c, tc', htc', (hkept.parent_of_not_failed nofun).trans hp⟩
    · exact absurd hfailed (Fork.notMem_error_of_gather hgather)
  | failed =>
    obtain ⟨p, hp⟩ := hstays _ rfl
    cases hp
  | alone hnil hwithin => exact absurd hw (hwithin k')

/-- A task stays inside of another one while both of them go on. -/
theorem Within.acted (hF : Framed stuck F m₀) (hF' : F.Next F' m₀ (m₁.halt id h) id h opened)
    (ha : Acting P adapter m id m₀ t h m₁) (hturned : Turned F m₀ id t h opened)
    (hw : Within F m₀ k k') (hstays : k = id → h.Stays) (hk' : k' ∈ F.members m₀)
    (hstays' : k' = id → h.Stays) : Within F' (m₁.halt id h) k k' := by
  have hscope : F'.scope k' = F.scope k' := hF'.scope (hF.lt_fresh ha.sound hk')
  by_cases hk : k = id
  · subst hk
    exact hw.acted_self hF' ha hturned (hstays rfl) hscope
  obtain ⟨ht₀, hf, hopened, hcovers, hitem⟩ := hw
  obtain ⟨t₁', ht₁', hkept⟩ := ha.exists_kept hk ht₀
  refine ⟨ht₁', hkept.joining _ hf, (hF'.others hk (ha.sound.lt_fresh k _ ht₀)).trans hopened,
    hscope ▸ hcovers, ?_⟩
  rcases hitem with ⟨c, tc, htc, hp⟩ | ⟨fault, hfailed⟩
  · by_cases hc : c = id
    · subst hc
      obtain rfl := Option.some.inj (ha.lookup.symm.trans htc)
      cases h with
      | asleep ms r => exact .inl ⟨c, _, lookup_halt_self ha.lookup_acted rfl, hp⟩
      | forked f' => exact .inl ⟨c, _, lookup_halt_self ha.lookup_acted rfl, hp⟩
      | done result =>
        cases result with
        | error fault => exact .inr ⟨_, List.mem_append_right _ (mem_results hp)⟩
        | ok output =>
          have hne : c ≠ k' := fun heq => nomatch hstays' heq.symm _ rfl
          exact absurd hcovers (hF.not_covers_of_done ha hturned hp hopened hk' hne)
    · obtain ⟨tc', htc', hkept'⟩ := ha.exists_kept hc htc
      exact .inl ⟨c, tc', htc', hkept'.parent_of_ne hp hk⟩
  · exact .inr ⟨fault, List.mem_append_left _ hfailed⟩

section Preserved

variable (hF : Framed stuck F m₀) (hF' : F.Next F' m₀ (m₁.halt id h) id h opened)
  (ha : Acting P adapter m id m₀ t h m₁) (hgrown : Grown (F.may id) opened)
  (hh : h.Balanced stuck (F.may id) opened) (hturned : Turned F m₀ id t h opened)

include hF hF' ha hgrown hh hturned

/-- The scope of a branch that is begun does not get into the way of those that there are. -/
theorem Framed.separate_newcomer {t₁ : Task} (hk : m₀.fresh ≤ k)
    (ht₁ : (m₁.halt id h).tasks.lookup k = some t₁) (hk' : k' ∈ F.members m₀) :
    Separate F' (m₁.halt id h) k k' := by
  obtain ⟨f, name, rest, item, rfl, hopened, hitem, rfl, hscope, -, -⟩ :=
    hF'.exists_newcomer ha hh hk ht₁
  have hid : id ∈ F.members m₀ := Frames.mem_members_of_lookup ha.lookup
  have hold {k : Nat} (hk : k ∈ F.members m₀) : F'.scope k = F.scope k :=
    hF'.scope (hF.lt_fresh ha.sound hk)
  by_cases heq : k' = id
  · subst heq
    exact .inr (.inr ⟨lookup_halt_self ha.lookup_acted rfl, rfl,
      hF'.self.trans hopened, hscope ▸ Covers.refl, .inl ⟨k, _, ht₁, rfl⟩⟩)
  have hcovers : Covers (F.scope id) (branchId name item) := by
    have hinside := hgrown.mono fun _ _ => F.may_inside
    rw [hopened] at hinside
    exact (hinside.covers List.mem_cons_self).1.trans covers_branchId
  rcases hF.separate id k' hid hk' (Ne.symm heq) with hapart | hinside | hinside
  · refine .inl ?_
    rw [hscope, hold hk']
    exact hapart.of_covers hcovers .refl
  · cases hturned with
    | alone hnil hwithin => exact absurd hinside (hwithin k')
    | @refill f₀ _ hf hgather =>
      -- the branch in the way is that of an item that was admitted before
      obtain ⟨outputs, -, rfl⟩ := Fork.of_gather_eq_ok hgather
      obtain ⟨ht, hf', hopened', hcovers', hitem'⟩ := hinside
      obtain rfl := Option.some.inj (ha.lookup.symm.trans ht)
      obtain rfl := TaskState.joining.inj (hf.symm.trans hf')
      obtain ⟨rfl, -⟩ := List.cons.inj (hopened'.symm.trans hopened)
      rcases hitem' with ⟨c, tc, htc, hp⟩ | ⟨fault, hfailed⟩
      · have hadmitted := ((ha.joining _ hf).of_branch htc hp).1
        have hne := (hadmitted.trans_le (Fork.mem_nextItems.mp hitem).1).ne'
        refine .inl ?_
        rw [hscope, hold hk']
        exact (apart_branchId hne).of_covers .refl hcovers'
      · exact absurd hfailed (Fork.notMem_error_of_gather hgather)
  · obtain ⟨ht, hf, hopened', hcovers', hitem'⟩ :=
      hinside.acted hF hF' ha hturned (fun _ => nofun) hid fun _ => nofun
    rw [hold hid] at hcovers'
    exact .inr (.inr ⟨ht, hf, hopened', hscope ▸ hcovers'.trans hcovers, hitem'⟩)

/-- The scopes do not get into each other's way after a turn. -/
theorem Framed.separate_acted (hk : k ∈ F'.members (m₁.halt id h))
    (hk' : k' ∈ F'.members (m₁.halt id h)) (hne : k ≠ k') :
    Separate F' (m₁.halt id h) k k' := by
  rcases hF'.old_or_new hF ha hk with ⟨hk₀, hstays⟩ | ⟨hnew, t₁, ht₁⟩
  · rcases hF'.old_or_new hF ha hk' with ⟨hk₀', hstays'⟩ | ⟨hnew', t₂, ht₂⟩
    · have hscope := hF'.scope (hF.lt_fresh ha.sound hk₀)
      have hscope' := hF'.scope (hF.lt_fresh ha.sound hk₀')
      rcases hF.separate k k' hk₀ hk₀' hne with hapart | hinside | hinside
      · exact .inl (hscope ▸ hscope' ▸ hapart)
      · exact .inr (.inl (hinside.acted hF hF' ha hturned hstays hk₀' hstays'))
      · exact .inr (.inr (hinside.acted hF hF' ha hturned hstays' hk₀ hstays))
    · exact (hF.separate_newcomer hF' ha hgrown hh hturned hnew' ht₂ hk₀).symm
  · rcases hF'.old_or_new hF ha hk' with ⟨hk₀', -⟩ | ⟨hnew', t₂, ht₂⟩
    · exact hF.separate_newcomer hF' ha hgrown hh hturned hnew ht₁ hk₀'
    · -- both are branches of the same fork, for different items
      obtain ⟨f, name, rest, item, rfl, hopened, -, rfl, hscope, -, -⟩ :=
        hF'.exists_newcomer ha hh hnew ht₁
      obtain ⟨f', name', rest', item', -, hopened', -, rfl, hscope', -, -⟩ :=
        hF'.exists_newcomer ha hh hnew' ht₂
      obtain ⟨rfl, -⟩ := List.cons.inj (hopened.symm.trans hopened')
      refine .inl ?_
      rw [hscope, hscope']
      refine apart_branchId fun heq => hne ?_
      subst heq
      exact ha.proper.sound.eq_of_parent ht₁ ht₂ rfl rfl rfl

/-- The scope of a branch comes from its task also after a turn. -/
theorem Framed.branch_acted {t₁ : Task} {p item : Nat}
    (ht₁ : (m₁.halt id h).tasks.lookup k = some t₁) (hp : t₁.parent = some (p, item)) :
    ∃ name rest, F'.opened p = name :: rest ∧ F'.scope k = branchId name item := by
  have hold {t₀ : Task} (ht₀ : m₀.tasks.lookup k = some t₀) (hp₀ : t₀.parent = some (p, item))
      (hopened : p = id → opened = F.opened id) :
      ∃ name rest, F'.opened p = name :: rest ∧ F'.scope k = branchId name item := by
    have hlt := ha.sound.lt_fresh k t₀ ht₀
    have hsame : F'.opened p = F.opened p := by
      by_cases hid : p = id
      · subst hid
        exact hF'.self.trans (hopened rfl)
      · exact hF'.others hid ((ha.sound.parent_lt k t₀ p item ht₀ hp₀).trans hlt)
    rw [hsame, hF'.scope hlt]
    exact hF.branch k t₀ p item ht₀ hp₀
  cases ha.after ht₁ with
  | @other t₀ hne ht₀ kept =>
    have hp₀ : t₀.parent = some (p, item) := kept.parent_of_some hp
    refine hold ht₀ hp₀ fun hid => ?_
    subst hid
    cases hturned with
    | refill => rfl
    | failed => exact absurd hp (ha.parent_ne_of_done ht₁)
    | alone hnil => exact absurd hp₀ (hnil k t₀ item ht₀)
  | self hk parent =>
    subst hk
    have hp₀ := parent.symm.trans hp
    have hlt := ha.sound.parent_lt k t p item ha.lookup hp₀
    exact hold ha.lookup hp₀ fun hid => absurd hid hlt.ne
  | new hk =>
    obtain ⟨f, name, rest, item', rfl, rfl, -, rfl, hscope, -, -⟩ :=
      hF'.exists_newcomer ha hh hk ht₁
    obtain ⟨rfl, rfl⟩ := Prod.mk.inj (Option.some.inj hp)
    exact ⟨name, rest, hF'.self, hscope⟩

/-- A branch is below the step of the pipeline at the top also after a turn. -/
theorem Framed.below_acted (hk : k ∈ F'.members (m₁.halt id h)) (hroot : k ≠ root) :
    ∃ item, Covers (branchId (F.scope root) item) (F'.scope k) := by
  rcases hF'.old_or_new hF ha hk with ⟨hk₀, -⟩ | ⟨hnew, t₁, ht₁⟩
  · rw [hF'.scope (hF.lt_fresh ha.sound hk₀)]
    exact hF.below k hk₀ hroot
  · obtain ⟨f, name, rest, item, rfl, rfl, -, -, hscope, -, -⟩ :=
      hF'.exists_newcomer ha hh hnew ht₁
    rw [hscope]
    by_cases hid : id = root
    · subst hid
      refine ⟨item, ?_⟩
      have halone : Grown (OpensAlone (F.scope root)) (name :: rest) := hgrown
      rw [halone.alone_eq]
      exact .refl
    · obtain ⟨item', hcovers⟩ := hF.below id (Frames.mem_members_of_lookup ha.lookup) hid
      have hinside := hgrown.mono fun _ _ => F.may_inside
      exact ⟨item', (hcovers.trans (hinside.covers List.mem_cons_self).1).trans covers_branchId⟩

end Preserved

/-- What is left to do of a task is balanced also after a turn. -/
theorem Framed.balanced_acted (hF : Framed stuck F m₀)
    (hF' : F.Next F' m₀ (m₁.halt id h) id h opened) (ha : Acting P adapter m id m₀ t h m₁)
    (hh : h.Balanced stuck (F.may id) opened) (ht' : (m₁.halt id h).tasks.lookup k = some t') :
    t'.state.Balanced stuck (F'.may k) (F'.opened k) := by
  cases ha.after ht' with
  | @other t₀ hne ht₀ kept =>
    have hlt := ha.sound.lt_fresh k t₀ ht₀
    have hbalanced := hF.balanced k t₀ ht₀
    rw [hF'.may hlt, hF'.others hne hlt]
    cases hs : t₀.state with
    | paused r => rw [kept.paused r hs]; exact hs ▸ hbalanced
    | joining f => rw [hs] at hbalanced; rw [kept.joining f hs]; exact hbalanced
  | self hk _ _ state =>
    subst hk
    rw [hF'.may (ha.sound.lt_fresh k t ha.lookup), hF'.self]
    exact (hh.of_state? state).2
  | new hk =>
    obtain ⟨f, name, rest, item, -, -, -, rfl, hscope, -, hbalanced⟩ :=
      hF'.exists_newcomer ha hh hk ht'
    rw [hF'.begun hk, Frames.may, if_neg (ha.sound.root_lt_fresh.trans_le hk).ne', hscope]
    exact hbalanced

/-- What is open in a task has grown as it may also after a turn. -/
theorem Framed.grown_acted (hF : Framed stuck F m₀)
    (hF' : F.Next F' m₀ (m₁.halt id h) id h opened) (ha : Acting P adapter m id m₀ t h m₁)
    (hgrown : Grown (F.may id) opened) (hk : k ∈ F'.members (m₁.halt id h)) :
    Grown (F'.may k) (F'.opened k) := by
  rcases hF'.old_or_new hF ha hk with ⟨hk₀, -⟩ | ⟨hnew, -⟩
  · have hlt := hF.lt_fresh ha.sound hk₀
    rw [hF'.may hlt]
    by_cases hid : k = id
    · subst hid
      rw [hF'.self]
      exact hgrown
    · rw [hF'.others hid hlt]
      exact hF.grown k hk₀
  · rw [hF'.begun hnew]
    exact .nil

/-- A branch that has opened nothing has not begun, also after a turn. -/
theorem Framed.begun_acted (hF : Framed stuck F m₀) (hF' : F.Next F' m₀ (m₁.halt id h) id h opened)
    (ha : Acting P adapter m id m₀ t h m₁) (hh : h.Balanced stuck (F.may id) opened)
    (ht' : (m₁.halt id h).tasks.lookup k = some t') (hk : k ≠ root) (hnil : F'.opened k = []) :
    ∃ a : Activity, t'.state = .paused (.activity a) ∧ a.Starts (F'.scope k) := by
  cases ha.after ht' with
  | @other t₀ hne ht₀ kept =>
    have hlt := ha.sound.lt_fresh k t₀ ht₀
    rw [hF'.others hne hlt] at hnil
    obtain ⟨a, ha', hstarts⟩ := hF.begun k t₀ ht₀ hk hnil
    rw [hF'.scope hlt]
    exact ⟨a, kept.paused _ ha', hstarts⟩
  | self hk' _ _ state =>
    subst hk'
    exact absurd (hF'.self.symm.trans hnil) (hh.of_state? state).1
  | new hk' =>
    obtain ⟨f, name, rest, item, -, -, -, rfl, hscope, hstarts, -⟩ :=
      hF'.exists_newcomer ha hh hk' ht'
    exact ⟨f.branch item, rfl, hscope ▸ hstarts⟩

/-- Nobody has the number of another one after a turn. -/
theorem Framed.nodup_acted (hF : Framed stuck F m₀) (hF' : F.Next F' m₀ (m₁.halt id h) id h opened)
    (ha : Acting P adapter m id m₀ t h m₁) (hh : h.Balanced stuck (F.may id) opened) :
    (F'.members (m₁.halt id h)).Nodup := by
  rcases hF'.members_perm ha hh with ⟨new, hnew, hnodup, hperm⟩ | ⟨-, hsame⟩
  · refine hperm.nodup_iff.mpr (List.nodup_append.mpr ⟨hF.nodup, hnodup, fun k hk k' hk' heq => ?_⟩)
    exact absurd (hF.lt_fresh ha.sound hk) (Nat.not_lt.mpr (heq ▸ hnew k' hk'))
  · exact hsame ▸ hF.nodup.erase id

/-- Those that have panicked have left open what they may, also after a turn. -/
theorem Framed.wreck_acted (hF : Framed stuck F m₀) (hF' : F.Next F' m₀ (m₁.halt id h) id h opened)
    (ha : Acting P adapter m id m₀ t h m₁) (hh : h.Balanced stuck (F.may id) opened)
    (hk : k ∈ F'.dead) : k < (m₁.halt id h).fresh ∧ stuck (F'.opened k) := by
  have hfresh : m₀.fresh ≤ (m₁.halt id h).fresh := ha.takes.fresh ▸ ha.fresh_le
  rw [hF'.dead] at hk
  rcases List.mem_append.mp hk with hk | hk
  · obtain ⟨rfl, p, rfl⟩ := Halt.of_mem_dead hk
    exact ⟨(ha.sound.lt_fresh k t ha.lookup).trans_le hfresh, hF'.self ▸ hh⟩
  · obtain ⟨hlt, hwreck⟩ := hF.wreck k hk
    have hne : k ≠ id := fun hid => hF.notMem_dead ha.lookup (hid ▸ hk)
    exact ⟨hlt.trans_le hfresh, hF'.others hne hlt ▸ hwreck⟩

/-- The run ends in the turn in which its root panics. -/
theorem Framed.root_dead_acted (hF : Framed stuck F m₀)
    (hF' : F.Next F' m₀ (m₁.halt id h) id h opened) (ha : Acting P adapter m id m₀ t h m₁)
    (hnone : m₀.ending = none) (hroot : root ∈ F'.dead) :
    ∃ p, (m₁.halt id h).ending = some (.finished (.error (.panic p))) := by
  rw [hF'.dead] at hroot
  rcases List.mem_append.mp hroot with hk | hk
  · obtain ⟨hid, p, rfl⟩ := Halt.of_mem_dead hk
    rcases ha.ending with ⟨result, hresult, -, hending⟩ | ⟨-, hnot⟩
    · obtain rfl := Halt.done.inj hresult
      exact ⟨p, hending⟩
    · exact absurd hid.symm (hnot _ rfl)
  · obtain ⟨p, hended⟩ := hF.root_dead hk
    cases hnone.symm.trans hended

/-- When the root ends well, there is nobody else: the scope of another one would be inside of its
fork, which is over. -/
theorem Framed.eq_root_of_done {output : Json} (hF : Framed stuck F m₀)
    (ha : Acting P adapter m root m₀ t (.done (.ok output)) m₁)
    (hturned : Turned F m₀ root t (.done (.ok output)) opened) (hk : k ∈ F.members m₀) :
    k = root := by
  by_contra hne
  obtain ⟨item, hcovers⟩ := hF.below k hk hne
  have hscope : Covers (F.scope root) (F.scope k) := covers_branchId.trans hcovers
  rcases hF.separate root k (Frames.mem_members_of_lookup ha.lookup) hk (Ne.symm hne) with
    hapart | hinside | hinside
  · exact hapart.1 hscope
  · cases hturned with
    | alone hnil hwithin => exact hwithin k hinside
  · exact hF.not_within hk hscope hinside

/-- Nobody has panicked when the run ends well. -/
theorem Framed.completed_acted {context : Json} (hF : Framed stuck F m₀)
    (hF' : F.Next F' m₀ (m₁.halt id h) id h opened) (ha : Acting P adapter m id m₀ t h m₁)
    (hturned : Turned F m₀ id t h opened) (hnone : m₀.ending = none)
    (hending : (m₁.halt id h).ending = some (.finished (.ok context))) : F'.dead = [] := by
  rcases ha.ending with ⟨result, rfl, rfl, hresult⟩ | ⟨hsame, -⟩
  · obtain rfl := Ending.finished.inj (Option.some.inj (hresult.symm.trans hending))
    rw [hF'.dead]
    refine List.eq_nil_iff_forall_not_mem.mpr fun k hk => ?_
    obtain rfl := hF.eq_root_of_done ha hturned (List.mem_append_right _ hk)
    exact hF.notMem_dead ha.lookup hk
  · rw [hsame, ← ha.takes.ending, hnone] at hending
    cases hending

/-- **A turn of a framed machine**: afterwards it is framed again. -/
theorem Framed.acted (hF : Framed stuck F m₀) (ha : Acting P adapter m id m₀ t h m₁)
    (hnone : m₀.ending = none) :
    ∃ F', F'.scope root = F.scope root ∧ Framed stuck F' (m₁.halt id h) := by
  obtain ⟨opened, hgrown, hh, hlogs, hturned⟩ := hF.exists_turned ha
  have hid := ha.sound.lt_fresh id t ha.lookup
  obtain ⟨F', hF'⟩ := F.exists_next m₀ (m₁.halt id h) h opened hid
  have hroot : F'.scope root = F.scope root := hF'.scope ha.sound.root_lt_fresh
  refine ⟨F', hroot, ?_⟩
  constructor
  case logs => exact ha.halt_world ▸ hlogs.of_perm (hF'.all_perm hF ha hh)
  case nodup => exact hF.nodup_acted hF' ha hh
  case wreck => exact fun k hk => hF.wreck_acted hF' ha hh hk
  case balanced => exact fun k _ ht' => hF.balanced_acted hF' ha hh ht'
  case grown => exact fun k hk => hF.grown_acted hF' ha hgrown hk
  case separate =>
    exact fun k k' hk hk' hne => hF.separate_acted hF' ha hgrown hh hturned hk hk' hne
  case begun => exact fun k _ ht' hk hnil => hF.begun_acted hF' ha hh ht' hk hnil
  case branch => exact fun k _ p item ht₁ hp => hF.branch_acted hF' ha hgrown hh hturned ht₁ hp
  case below => exact fun k hk hne => hroot ▸ hF.below_acted hF' ha hgrown hh hturned hk hne
  case root_dead => exact hF.root_dead_acted hF' ha hnone
  case completed => exact fun _ hending => hF.completed_acted hF' ha hturned hnone hending

end Acted

/-! ### Runs of a step -/

/-- The timeline of a run of the step `s` is in order, and if the run has not been cut off, the
machine is framed. -/
structure Charted (s : Step) (m : Machine σ) : Prop where
  logs : ∃ opened, m.world.Logs opened
  framed : m.ending ≠ some .timedOut → ∃ F, F.scope root = s.name ∧ Framed s.Stuck F m

variable {s : Step} {F : Frames}

theorem Framed.of_tasks (hF : Framed stuck F m) (htasks : m'.tasks = m.tasks)
    (htimeline : m'.world.timeline = m.world.timeline) (hfresh : m'.fresh = m.fresh)
    (hending : m'.ending = m.ending) : Framed stuck F m' := by
  have hwithin {k k' : Nat} (hw : Within F m k k') : Within F m' k k' := by
    obtain ⟨ht, hf, hopened, hcovers, hitem⟩ := hw
    exact ⟨htasks ▸ ht, hf, hopened, hcovers, htasks ▸ hitem⟩
  have hmembers : F.members m' = F.members m := by rw [Frames.members, htasks]; rfl
  constructor
  case logs =>
    have hall : F.all m' = F.all m := by rw [Frames.all, hmembers]; rfl
    exact hall ▸ hF.logs.of_timeline htimeline
  case nodup => exact hmembers ▸ hF.nodup
  case wreck => exact hfresh ▸ hF.wreck
  case separate =>
    rw [hmembers]
    exact fun k k' hk hk' hne => (hF.separate k k' hk hk' hne).imp_right (Or.imp hwithin hwithin)
  case balanced => exact htasks ▸ hF.balanced
  case grown => exact hmembers ▸ hF.grown
  case begun => exact htasks ▸ hF.begun
  case branch => exact htasks ▸ hF.branch
  case below => exact hmembers ▸ hF.below
  case root_dead => exact hending ▸ hF.root_dead
  case completed => exact hending ▸ hF.completed

theorem Framed.charted (hF : Framed s.Stuck F m) (hroot : F.scope root = s.name) : Charted s m :=
  ⟨⟨_, hF.logs⟩, fun _ => ⟨F, hroot, hF⟩⟩

/-- At the beginning of a step nothing is open. -/
theorem charted_beginning {w : World σ} {fresh : Nat} {a : Activity} (hw : w.Logs [])
    (ha : a.Balanced s.Stuck (OpensAlone s.name) []) : Charted s (beginning w fresh a) := by
  have hlookup {k : Nat} {t : Task} (ht : (beginning w fresh a).tasks.lookup k = some t) :
      k = root ∧ t = ⟨none, .paused (.activity a), false⟩ := by
    rw [lookup_beginning, Option.ite_none_right_eq_some] at ht
    exact ⟨ht.1, (Option.some.inj ht.2).symm⟩
  have hroot {k : Nat} (hk : k ∈ [root]) : k = root := List.mem_singleton.mp hk
  refine Framed.charted (F := ⟨fun _ => s.name, fun _ => [], []⟩) ?_ rfl
  constructor
  case logs => exact hw
  case nodup => exact List.nodup_singleton root
  case wreck => exact nofun
  case balanced =>
    intro k t ht
    obtain ⟨rfl, rfl⟩ := hlookup ht
    exact ha
  case grown => exact fun _ _ => .nil
  case separate => exact fun k k' hk hk' hne => absurd ((hroot hk).trans (hroot hk').symm) hne
  case begun => exact fun k t ht hk => absurd (hlookup ht).1 hk
  case branch =>
    intro k t p item ht hp
    rw [(hlookup ht).2] at hp
    cases hp
  case below => exact fun k hk hne => absurd (hroot hk) hne
  case root_dead => exact nofun
  case completed => exact nofun

theorem Framed.turn (hF : Framed stuck F m) (hm : Proper P m) (hending : m.ending = none)
    (htakes : Takes m id m₀) :
    ∃ F', F'.scope root = F.scope root ∧ Framed stuck F' (m₀.turn adapter id) := by
  have hF₀ : Framed stuck F m₀ :=
    hF.of_tasks htakes.tasks (congrArg World.timeline htakes.world) htakes.fresh htakes.ending
  refine hm.turn_cases (Q := fun m' => ∃ F', F'.scope root = F.scope root ∧ Framed stuck F' m')
    htakes (fun _ => ⟨F, rfl, hF₀⟩) (fun t ht hc _ => ?_) fun t h m₁ ha =>
      hF₀.acted ha (htakes.ending.trans hending)
  -- as long as there is a root, nothing is cancelled
  obtain ⟨tr, htr⟩ := Option.isSome_iff_exists.mp (hm.sound.ending.mp hending)
  have hactive := (hm.sound.root tr htr).2 id t (htakes.tasks ▸ ht)
  exact absurd (hactive.symm.trans hc) Bool.false_ne_true

theorem Charted.turn (hm : Proper P m) (hending : m.ending = none) (htakes : Takes m id m₀)
    (h : Charted s m) : Charted s (m₀.turn adapter id) := by
  obtain ⟨F, hroot, hF⟩ := h.framed (by simp [hending])
  have ⟨F', hroot', hF'⟩ : ∃ F', F'.scope root = F.scope root ∧
      Framed s.Stuck F' (m₀.turn adapter id) := hF.turn hm hending htakes
  exact hF'.charted (hroot'.trans hroot)

theorem Charted.wakeAt {time : Nat} (h : Charted s m) : Charted s (m.wakeAt time) := by
  have htimeline : (m.wakeAt time).world.timeline = m.world.timeline := by rw [wakeAt_world]
  obtain ⟨opened, hlogs⟩ := h.logs
  refine ⟨⟨opened, hlogs.of_timeline htimeline⟩, fun he => ?_⟩
  obtain ⟨F, hroot, hF⟩ := h.framed (wakeAt_ending ▸ he)
  exact ⟨F, hroot, hF.of_tasks wakeAt_tasks htimeline wakeAt_fresh wakeAt_ending⟩

theorem Charted.rootTurn (hm : Proper P m) (hending : m.ending = none) (h : Charted s m) :
    Charted s (m.rootTurn adapter deadline) := by
  have hpart : Charted s (m.rootPart adapter) := by
    unfold rootPart
    split
    · exact h.turn hm hending (.root ‹_›)
    · exact h
  rw [rootTurn_eq]
  split
  · refine ⟨hpart.logs.imp fun _ hlogs => ?_, fun he => absurd rfl he⟩
    exact hlogs.of_timeline (congrArg World.timeline cut_world)
  · exact hpart

theorem Charted.step (hm : Proper P m) (hending : m.ending = none) (h : Charted s m) :
    Charted s (m.step adapter deadline) :=
  step_cases (fun _ _ hready => h.turn hm hending (.branch hready))
    (fun _ _ => h.rootTurn hm hending) (fun _ _ _ => h) fun _ _ _ htime =>
      h.wakeAt.rootTurn (hm.wakeAt (of_nextTime_eq_some htime).1) (wakeAt_ending.trans hending)

/-- **The open steps of a run of a step**: those of the tasks, if it has not been cut off. -/
theorem charted_runStep {context : Json} (hrest : AtRest context m) (hw : m.world.Logs [])
    (index : Nat) (s : Step) : Charted s (m.runStep adapter deadline index s) := by
  have hproper : Proper anyFork (beginning m.world m.fresh (s.alone index context)) :=
    .beginning hrest.2 (s.alone_lawful index context)
  unfold runStep
  rw [thenRun_of_ok hrest.ending]
  exact hproper.run_preserves (fun _ hm he h => h.step hm he)
    (charted_beginning hw (s.alone_balanced index context))

/-! ### Steps without forks -/

/-- There is no other task than the root. -/
def RootOnly (m : Machine σ) : Prop :=
  ∀ k t, m.tasks.lookup k = some t → k = root

theorem RootOnly.turn (hm : Proper noFork m) (htakes : Takes m id m₀) (h : RootOnly m) :
    RootOnly (m₀.turn adapter id) := by
  have h₀ : RootOnly m₀ := fun k t ht => h k t (htakes.tasks ▸ ht)
  refine hm.turn_cases htakes (fun _ => h₀) (fun t ht hc hsound k t' ht' => ?_)
    fun t halt m₁ ha k t' ht' => ?_
  · obtain ⟨-, t₀, ht₀, -⟩ := of_lookup_drop hsound.keys_nodup ht'
    exact h₀ k t₀ ht₀
  · cases ha.after ht' with
    | other _ ht₀ => exact h₀ k _ ht₀
    | self hk => exact h₀ k t (hk ▸ ha.lookup)
    | new _ hforked =>
      have hlawful := ha.halt_lawful
      rw [hforked] at hlawful
      exact hlawful.1.2.2.elim

theorem RootOnly.step (hm : Proper noFork m) (h : RootOnly m) :
    RootOnly (m.step adapter deadline) := by
  refine hm.step_preserves (I := RootOnly) (fun m id m₀ hm htakes h => h.turn hm htakes)
    (fun m time _ _ h k t ht => h k t (wakeAt_tasks ▸ ht)) (fun m hm he _ h k t ht => ?_) h
  obtain ⟨-, t₀, ht₀, -⟩ := of_lookup_drop hm.sound.keys_nodup ht
  exact h k t₀ ht₀

/-- A step that is not a map leaves no tasks. -/
theorem tasks_runStep_eq_nil {context : Json} (hrest : AtRest context m) (index : Nat) {s : Step}
    (hs : ∀ head iterator, s ≠ .map head iterator) :
    (m.runStep adapter deadline index s).tasks = [] := by
  have hmaps : Pipeline.Maps (fun _ _ => False) [s] := by
    refine ⟨?_, trivial⟩
    cases s with
    | map head iterator => exact absurd rfl (hs head iterator)
    | _ => trivial
  have hlawful : (s.alone index context).Lawful noFork :=
    pipelineActivity_lawful (fun _ _ h => h.elim) [s] hmaps "" index context continues_ended
  have hproper : Proper noFork (beginning m.world m.fresh (s.alone index context)) :=
    .beginning hrest.2 hlawful
  unfold runStep
  rw [thenRun_of_ok hrest.ending]
  have hend := hproper.run_ending adapter deadline
  have honly : RootOnly ((beginning m.world m.fresh (s.alone index context)).run adapter
      deadline) := by
    refine hproper.run_preserves (fun _ hm _ h => h.step hm) fun k t ht => ?_
    rw [lookup_beginning, Option.ite_none_right_eq_some] at ht
    exact ht.1
  have hlast : Proper noFork ((beginning m.world m.fresh (s.alone index context)).run adapter
      deadline) := hproper.run
  refine List.eq_nil_iff_forall_not_mem.mpr fun ⟨k, t⟩ hmem => ?_
  have ht := Keyed.lookup_of_mem hlast.sound.keys_nodup hmem
  obtain rfl := honly k t ht
  rw [hlast.lookup_root_eq_none hend] at ht
  cases ht

end Machine

end Conveyor
