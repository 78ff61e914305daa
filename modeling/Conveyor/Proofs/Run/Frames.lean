import Conveyor.Proofs.Run.Balanced
import Mathlib.Data.List.Pairwise

/-!
# The open steps of all tasks

In a run of a step of the pipeline at the top, what is open in the timeline is what is open in the
tasks, each of which has a scope for the names that it uses (`Machine.Frames`). The scopes of two
tasks are apart, or one of them is inside a branch of the other one, which waits for its branches
(`Machine.Framed`). This holds of abandoned branches too, whose tasks are gone: a fork whose branch
has failed opens nothing any more. So what a task opens is not open anywhere else. A task that has
panicked keeps its scope, since what was open in it stays so.
-/

namespace Conveyor

namespace Machine

variable {P : Nat → Nat → (Nat → Activity) → Prop} {σ : Type} {adapter : Adapter σ}
  {deadline : Option Nat} {m m' m₀ m₁ : Machine σ} {id k k' : Nat} {t t' : Task} {h : Halt}

/-! ### Branches and their items -/

/-- An item has one branch. -/
theorem Accounts.eq_of_parent {p item : Nat} {f : Fork} (hf : m.Accounts p f)
    (ht : m.tasks.lookup k = some t) (ht' : m.tasks.lookup k' = some t')
    (hp : t.parent = some (p, item)) (hp' : t'.parent = some (p, item)) : k = k' := by
  have hnodup : (m.itemsOf p).Nodup := by
    have hall := hf.accounts.nodup_iff.mpr List.nodup_range
    exact (List.nodup_append.mp (List.nodup_append.mp hall).1).1
  by_contra hne
  have hpairs : m.tasks.Pairwise fun e e' => ∀ i, itemIn p e.2 = some i →
      ∀ i', itemIn p e'.2 = some i' → i ≠ i' := List.pairwise_filterMap.mp hnodup
  have : Std.Symm fun e e' : Nat × Task => ∀ i, itemIn p e.2 = some i →
      ∀ i', itemIn p e'.2 = some i' → i ≠ i' :=
    ⟨fun _ _ hpair i hi i' hi' => (hpair i' hi' i hi).symm⟩
  have hentries : (k, t) ≠ (k', t') := fun heq => hne (congrArg Prod.fst heq)
  exact hpairs.forall (Keyed.mem_of_lookup ht) (Keyed.mem_of_lookup ht') hentries item
    (itemIn_eq_some_iff.mpr hp) item (itemIn_eq_some_iff.mpr hp') rfl

theorem Sound.eq_of_parent {p item : Nat} (hm : Sound none m) (ht : m.tasks.lookup k = some t)
    (ht' : m.tasks.lookup k' = some t') (hc : t.cancelled = false)
    (hp : t.parent = some (p, item)) (hp' : t'.parent = some (p, item)) : k = k' := by
  obtain ⟨tp, f, htp, hf⟩ := (hm.parent k t p item ht hc hp).resolve_left nofun
  exact (hm.joining p tp f htp hf nofun).toAccounts.eq_of_parent ht ht' hp hp'

/-- A task after a turn was there before, and if it is the one that had its turn, it goes on; or it
is new. -/
theorem Acting.old_or_new (ha : Acting P adapter m id m₀ t h m₁)
    (ht' : (m₁.halt id h).tasks.lookup k = some t') :
    (∃ t₀, m₀.tasks.lookup k = some t₀ ∧ (k = id → ∀ result, h ≠ .done result)) ∨
      m₀.fresh ≤ k := by
  cases ha.after ht' with
  | other hne ht₀ => exact .inl ⟨_, ht₀, fun hk => absurd hk hne⟩
  | self hk parent cancelled state =>
    refine .inl ⟨t, hk ▸ ha.lookup, fun _ result hh => ?_⟩
    subst hh
    cases state
  | new hk => exact .inr hk

/-! ### Frames -/

/-- The scopes of tasks, and the steps that are open in them, the last one first. -/
structure Frames where
  scope : Nat → String
  opened : Nat → List String
  /-- The tasks that have panicked. -/
  dead : List Nat

namespace Frames

variable {F : Frames}

/-- What a task may open: the root a step of the pipeline at the top, and another task its branch
and the steps of its pipeline. -/
def may (F : Frames) (k : Nat) : List String → String → Prop :=
  if k = root then OpensAlone (F.scope k) else OpensInside (F.scope k)

theorem may_inside {opened : List String} {name : String} (h : F.may k opened name) :
    OpensInside (F.scope k) opened name := by
  unfold may at h
  split at h
  · exact h.inside
  · exact h

/-- The tasks that there are, and those that have panicked. -/
def members (F : Frames) (m : Machine σ) : List Nat :=
  m.tasks.map Prod.fst ++ F.dead

/-- The steps that are open in all tasks. -/
def all (F : Frames) (m : Machine σ) : List String :=
  (F.members m).flatMap F.opened

/-- The steps that are open in all other tasks. -/
def others (F : Frames) (m : Machine σ) (id : Nat) : List String :=
  ((F.members m).erase id).flatMap F.opened

theorem mem_members_of_lookup (ht : m.tasks.lookup k = some t) : k ∈ F.members m :=
  List.mem_append_left _ (Keyed.isSome_lookup_iff.mp (Option.isSome_of_eq_some ht))

theorem all_perm (F : Frames) (ht : m.tasks.lookup id = some t) :
    (F.all m).Perm (F.opened id ++ F.others m id) :=
  (List.perm_cons_erase (mem_members_of_lookup ht)).flatMap_right F.opened

end Frames

/-- The scope of `k'` is inside of a branch of the fork of `k`, and this branch is still in work, or
it has failed or panicked. -/
inductive Within (F : Frames) (m : Machine σ) (k k' : Nat) : Prop
  | intro {t : Task} {f : Fork} {name : String} {rest : List String} {item : Nat}
      (ht : m.tasks.lookup k = some t) (hf : t.state = .joining f)
      (hopened : F.opened k = name :: rest) (hcovers : Covers (branchId name item) (F.scope k'))
      (hitem : (∃ c t', m.tasks.lookup c = some t' ∧ t'.parent = some (k, item)) ∨
        ∃ fault, (item, .error fault) ∈ f.ended)

/-- The scopes of two tasks do not get into each other's way. -/
def Separate (F : Frames) (m : Machine σ) (k k' : Nat) : Prop :=
  Apart (F.scope k) (F.scope k') ∨ Within F m k k' ∨ Within F m k' k

theorem Separate.symm {F : Frames} (h : Separate F m k k') : Separate F m k' k :=
  h.imp Apart.symm Or.symm

/-- The timeline of a machine is in order, and the steps that are open in it are those of its tasks,
whose scopes do not get into each other's way. Those that have panicked have left open what `stuck`
allows. -/
structure Framed (stuck : List String → Prop) (F : Frames) (m : Machine σ) : Prop where
  logs : m.world.Logs (F.all m)
  nodup : (F.members m).Nodup
  wreck (k : Nat) (hk : k ∈ F.dead) : k < m.fresh ∧ stuck (F.opened k)
  balanced (k : Nat) (t : Task) (ht : m.tasks.lookup k = some t) :
    t.state.Balanced stuck (F.may k) (F.opened k)
  grown (k : Nat) (hk : k ∈ F.members m) : Grown (F.may k) (F.opened k)
  separate (k k' : Nat) (hk : k ∈ F.members m) (hk' : k' ∈ F.members m) (hne : k ≠ k') :
    Separate F m k k'
  /-- A branch that has opened nothing has not begun. -/
  begun (k : Nat) (t : Task) (ht : m.tasks.lookup k = some t) (hk : k ≠ root)
    (hnil : F.opened k = []) :
    ∃ a : Activity, t.state = .paused (.activity a) ∧ a.Starts (F.scope k)
  /-- A branch has its scope from the step that its task has opened last. -/
  branch (k : Nat) (t : Task) (p item : Nat) (ht : m.tasks.lookup k = some t)
    (hp : t.parent = some (p, item)) :
    ∃ name rest, F.opened p = name :: rest ∧ F.scope k = branchId name item
  /-- All branches are below the step of the pipeline at the top. -/
  below (k : Nat) (hk : k ∈ F.members m) (hroot : k ≠ root) :
    ∃ item, Covers (branchId (F.scope root) item) (F.scope k)
  /-- The run ends when its root panics. -/
  root_dead (hroot : root ∈ F.dead) : ∃ p, m.ending = some (.finished (.error (.panic p)))
  /-- A run in which a task has panicked does not end well. -/
  completed (context : Json) (h : m.ending = some (.finished (.ok context))) : F.dead = []

namespace Framed

variable {stuck : List String → Prop} {F : Frames}

theorem inside (hF : Framed stuck F m) (hk : k ∈ F.members m) :
    Grown (OpensInside (F.scope k)) (F.opened k) :=
  (hF.grown k hk).mono fun _ _ => F.may_inside

/-- A task whose scope goes on from another one's is not outside of it. -/
theorem not_within (hF : Framed stuck F m) (hk : k ∈ F.members m)
    (hcovers : Covers (F.scope k') (F.scope k)) : ¬ Within F m k k' := by
  rintro ⟨-, -, hopened, hbranch, -⟩
  have hgrown := hF.inside hk
  rw [hopened] at hgrown
  have hname := (hgrown.covers List.mem_cons_self).1
  exact absurd ((hbranch.trans hcovers).trans hname).length_le (Nat.not_le.mpr length_branchId)

/-- What a task may open is not open in another task if none is inside of it. -/
theorem notMem_others (hF : Framed stuck F m) (hid : id ∈ F.members m)
    (hwithin : ∀ k, ¬ Within F m id k) {name : String} (hname : Covers (F.scope id) name) :
    name ∉ F.others m id := by
  intro hmem
  obtain ⟨k, hk, hopen⟩ := List.mem_flatMap.mp hmem
  obtain ⟨hne, hk⟩ := hF.nodup.mem_erase_iff.mp hk
  have hgrown := hF.inside hk
  obtain ⟨last, rest, hopened⟩ := List.exists_cons_of_ne_nil (List.ne_nil_of_mem hopen)
  rw [hopened] at hgrown hopen
  obtain ⟨hscope, hlast⟩ := hgrown.covers hopen
  rcases hF.separate id k hid hk hne.symm with hapart | hinside | ⟨-, -, hopened', hbranch, -⟩
  · exact hapart.not_covers hname hscope
  · exact hwithin k hinside
  · obtain ⟨rfl, -⟩ := List.cons.inj (hopened.symm.trans hopened')
    exact absurd ((hbranch.trans hname).trans hlast).length_le (Nat.not_le.mpr length_branchId)

theorem lt_fresh {running : Option Nat} (hF : Framed stuck F m) (hm : Sound running m)
    (hk : k ∈ F.members m) : k < m.fresh := by
  rcases List.mem_append.mp hk with hk | hk
  · obtain ⟨t, ht⟩ := Option.isSome_iff_exists.mp (Keyed.isSome_lookup_iff.mpr hk)
    exact hm.lt_fresh k t ht
  · exact (hF.wreck k hk).1

/-- A task that there is has not panicked. -/
theorem notMem_dead (hF : Framed stuck F m) (ht : m.tasks.lookup k = some t) : k ∉ F.dead := by
  have hkey : k ∈ m.tasks.map Prod.fst := Keyed.isSome_lookup_iff.mp (Option.isSome_of_eq_some ht)
  exact List.disjoint_of_nodup_append hF.nodup hkey

end Framed

/-! ### The turn of a task -/

/-- How a task halts: it takes in further items, and has opened nothing; or it fails; or there is no
other task inside of it, as when it panics. -/
inductive Turned (F : Frames) (m : Machine σ) (id : Nat) (t : Task) : Halt → List String → Prop
  | refill {f f' : Fork} (hf : t.state = .joining f) (hgather : f.gather f.ended = .ok f') :
    Turned F m id t (.forked f') (F.opened id)
  | failed {failure : StepFailure} {opened : List String} :
    Turned F m id t (.done (.error (.error failure))) opened
  | alone {h : Halt} {opened : List String}
      (hnil : ∀ k t' item, m.tasks.lookup k = some t' → t'.parent ≠ some (id, item))
      (hwithin : ∀ k, ¬ Within F m id k) : Turned F m id t h opened

section Turn

variable {stuck : List String → Prop} {F : Frames}

/-- No task is inside of one that waits for no branches. -/
theorem not_within_of_paused {r : Resumption} (ht : m.tasks.lookup id = some t)
    (hs : t.state = .paused r) (k : Nat) : ¬ Within F m id k := by
  rintro ⟨ht', hf, -, -, -⟩
  obtain rfl := Option.some.inj (ht.symm.trans ht')
  exact TaskState.noConfusion (hs.symm.trans hf)

/-- No task is inside of one all of whose branches have ended well. -/
theorem not_within_of_gather {f f' : Fork} (ht : m.tasks.lookup id = some t)
    (hs : t.state = .joining f) (hf : f.gather f.ended = .ok f')
    (hnil : ∀ k t' item, m.tasks.lookup k = some t' → t'.parent ≠ some (id, item)) (k : Nat) :
    ¬ Within F m id k := by
  rintro ⟨ht', hf', -, -, hitem⟩
  obtain rfl := Option.some.inj (ht.symm.trans ht')
  obtain rfl := TaskState.joining.inj (hs.symm.trans hf')
  rcases hitem with ⟨c, t', ht', hp⟩ | ⟨fault, hfailed⟩
  · exact hnil c t' _ ht' hp
  · exact Fork.notMem_error_of_gather hf hfailed

/-- A task that has no other one inside of it may open steps in its turn. -/
theorem Framed.exists_opened (hF : Framed stuck F m) (hid : id ∈ F.members m)
    (hwithin : ∀ k, ¬ Within F m id k) {a : Activity}
    (hbalanced : a.Balanced stuck (F.may id) (F.opened id)) {w : World σ}
    (hw : w.Logs (F.opened id ++ F.others m id)) :
    ∃ opened, Grown (F.may id) opened ∧
      (a.advance adapter (id = root) w).1.Balanced stuck (F.may id) opened ∧
      (a.advance adapter (id = root) w).2.Logs (opened ++ F.others m id) := by
  obtain ⟨opened, hopened, hh, hw'⟩ := hbalanced.advance adapter (id = root) hw
    fun opened name hname => ⟨(F.may_inside hname).notMem,
      hF.notMem_others hid hwithin (F.may_inside hname).covers⟩
  exact ⟨opened, hopened _ (fun _ _ h => h) (hF.grown id hid), hh, hw'⟩

/-- In its turn a task keeps the timeline in order. -/
theorem Framed.exists_turned (hF : Framed stuck F m₀) (ha : Acting P adapter m id m₀ t h m₁) :
    ∃ opened, Grown (F.may id) opened ∧ h.Balanced stuck (F.may id) opened ∧
      m₁.world.Logs (opened ++ F.others m₀ id) ∧ Turned F m₀ id t h opened := by
  have hlogs : m₀.world.Logs (F.opened id ++ F.others m₀ id) :=
    hF.logs.of_perm (F.all_perm ha.lookup)
  have hid : id ∈ F.members m₀ := Frames.mem_members_of_lookup ha.lookup
  have hgrown := hF.grown id hid
  have hstate := hF.balanced id t ha.lookup
  have hlawful := ha.state_lawful
  have hacts := ha.acts
  have hn := ha.sound.keys_nodup
  generalize hs : t.state = s at hacts hstate hlawful
  cases hacts with
  | @refill f f' hf hover =>
    refine ⟨F.opened id, hgrown, ?_, hlogs, .refill hs hf⟩
    obtain ⟨outputs, -, rfl⟩ := Fork.of_gather_eq_ok hf
    exact hstate
  | advance hr =>
    cases hr with
    | pause r =>
      have hnil := (itemsOf_eq_nil_iff hn).mp (ha.paused r hs)
      have hwithin := not_within_of_paused (F := F) ha.lookup hs
      have hbalanced : (r.start adapter m₀.world).1.Balanced stuck (F.may id) (F.opened id) := by
        cases r with
        | activity a => exact hstate
        | answer number operation input next => exact hstate _
      have hw : (r.start adapter m₀.world).2.Logs (F.opened id ++ F.others m₀ id) :=
        hlogs.of_timeline (by cases r <;> rfl)
      obtain ⟨opened, hopened, hh, hw'⟩ := hF.exists_opened hid hwithin hbalanced hw
      exact ⟨opened, hopened, hh, hw', .alone hnil hwithin⟩
    | @complete f f' hf hover =>
      have hnil := (itemsOf_eq_nil_iff hn).mp ((ha.joining f hs).itemsOf_of_over hf hover)
      have hwithin := not_within_of_gather (F := F) ha.lookup hs hf hnil
      have hbalanced : (f.next (.ok f'.outputs)).Balanced stuck (F.may id) (F.opened id) :=
        hstate.2.1 _
      obtain ⟨outputs, -, rfl⟩ := Fork.of_gather_eq_ok hf
      obtain ⟨opened, hopened, hh, hw'⟩ := hF.exists_opened hid hwithin hbalanced hlogs
      exact ⟨opened, hopened, hh, hw', .alone hnil hwithin⟩
    | @collapse f c hf =>
      obtain ⟨opened, hopened, hh, hw⟩ := (hstate.2.2 c).advance adapter (id = root) hlogs
        fun _ _ hname => hname.elim
      have ⟨failure, hfails⟩ : ∃ failure, ((f.next (.error c)).advance adapter (id = root)
          (m₀.detach id).world).1 = .done (.error (.error failure)) := (hlawful.2.2.2 c).fails _
      have hnil : opened = [] := by
        have hfailed : (Halt.done (.error (.error failure))).Balanced stuck OpensNothing opened :=
          hfails ▸ hh
        exact hfailed
      refine ⟨opened, hopened _ (fun _ _ hname => hname.elim) hgrown, ?_, hw, ?_⟩
      · rw [hfails]
        exact hnil
      · rw [hfails]
        exact .failed

end Turn

end Machine

end Conveyor
