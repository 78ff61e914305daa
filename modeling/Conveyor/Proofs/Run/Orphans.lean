import Conveyor.Proofs.Run.Termination

/-!
# Branches without their tasks

When a fork collapses, its other branches go on without it. As long as the root goes on, this can
only happen on the way to its failure: then the fork is doomed to pass its failure on, and so are
the forks that it is inside of, up to the root. So when the root ends well, no other task is left.
-/

namespace Conveyor

namespace Machine

variable {P : Nat → Nat → (Nat → Activity) → Prop} {σ : Type} {adapter : Adapter σ}
  {deadline : Option Nat} {m m' m₀ m₁ : Machine σ} {id k : Nat} {t : Task} {h : Halt}

/-- A task that waits for a branch that has failed or panicked, or for one that is doomed. -/
inductive Doomed (m : Machine σ) : Nat → Prop
  | failed {k t f item fault} (ht : m.tasks.lookup k = some t) (hf : t.state = .joining f)
      (he : (item, .error fault) ∈ f.ended) : Doomed m k
  | branch {k t f k' t' item} (ht : m.tasks.lookup k = some t) (hf : t.state = .joining f)
      (ht' : m.tasks.lookup k' = some t') (hp : t'.parent = some (k, item))
      (hdoomed : Doomed m k') : Doomed m k

theorem Doomed.of_tasks (htasks : m'.tasks = m.tasks) (hk : Doomed m k) : Doomed m' k := by
  induction hk with
  | failed ht hf he => exact .failed (htasks ▸ ht) hf he
  | branch ht hf ht' hp _ ih => exact .branch (htasks ▸ ht) hf (htasks ▸ ht') hp ih

theorem Doomed.isSome (hk : Doomed m k) : (m.tasks.lookup k).isSome := by
  cases hk with
  | failed ht => exact Option.isSome_of_eq_some ht
  | branch ht => exact Option.isSome_of_eq_some ht

/-- The fork of a branch receives its result. -/
theorem mem_results {item : Nat} {result : Except (Fault StepFailure) Json}
    (hp : t.parent = some (k, item)) :
    (item, result.mapError (told id)) ∈ (Halt.done result).results id (itemIn k t) := by
  rw [itemIn_eq_some_iff.mpr hp]
  exact List.mem_singleton.mpr rfl

/-- A fork of which a branch has failed or panicked fails at the turn of its task. -/
theorem Acting.fails {f : Fork} {item : Nat} {fault : Fault StepFailure}
    (ha : Acting P adapter m id m₀ t h m₁) (hf : t.state = .joining f)
    (he : (item, .error fault) ∈ f.ended) : ∃ fault, h = .done (.error fault) := by
  have hacts := ha.acts
  have hlawful := ha.state_lawful
  rw [hf] at hacts hlawful
  have hnot (f' : Fork) (hf' : f.gather f.ended = .ok f') : False :=
    Fork.notMem_error_of_gather hf' he
  cases hacts with
  | refill hf' => exact (hnot _ hf').elim
  | advance hr =>
    cases hr with
    | complete hf' => exact (hnot _ hf').elim
    | collapse hf' => exact (hlawful.2.2.2 _).advance _

/-- A doomed task stays doomed at the turns of others, and at its own turn until it fails. -/
theorem Doomed.turn (ha : Acting P adapter m id m₀ t h m₁) (hk : Doomed m₀ k) :
    (k ≠ id → Doomed (m₁.halt id h) k) ∧
      (k = id → Doomed (m₁.halt id h) k ∨ ∃ fault, h = .done (.error fault)) := by
  induction hk with
  | @failed k t₀ f item fault ht₀ hf he =>
    refine ⟨fun hne => ?_, fun hid => .inr ?_⟩
    · obtain ⟨t', ht', hkept⟩ := ha.exists_kept hne ht₀
      exact .failed ht' (hkept.joining f hf) (List.mem_append_left _ he)
    · subst hid
      obtain rfl := Option.some.inj (ha.lookup.symm.trans ht₀)
      exact ha.fails hf he
  | @branch k t₀ f k' t₁ item ht₀ hf ht₁ hp _ ih =>
    have hlt := ha.sound.parent_lt k' t₁ k item ht₁ hp
    refine ⟨fun hne => ?_, fun hid => ?_⟩
    · obtain ⟨t', ht', hkept⟩ := ha.exists_kept hne ht₀
      by_cases hid : k' = id
      · subst hid
        obtain rfl := Option.some.inj (ha.lookup.symm.trans ht₁)
        rcases ih.2 rfl with hdoomed | ⟨fault, rfl⟩
        · obtain ⟨t₂, ht₂⟩ := Option.isSome_iff_exists.mp hdoomed.isSome
          have hp₂ : t₂.parent = some (k, item) := by
            rcases ha.after ht₂ with ⟨hne, -⟩ | ⟨-, parent, -⟩ | ⟨hk, -⟩
            · exact absurd rfl hne
            · exact parent.trans hp
            · exact absurd (ha.sound.lt_fresh _ _ ha.lookup) (Nat.not_lt.mpr hk)
          exact .branch ht' (hkept.joining f hf) ht₂ hp₂ hdoomed
        · -- the fork receives the fault of its doomed branch
          exact .failed ht' (hkept.joining f hf) (List.mem_append_right _ (mem_results hp))
      · obtain ⟨t₂, ht₂, hkept'⟩ := ha.exists_kept hid ht₁
        exact .branch ht' (hkept.joining f hf) ht₂ (hkept'.parent_of_ne hp hne) (ih.1 hid)
    · subst hid
      obtain rfl := Option.some.inj (ha.lookup.symm.trans ht₀)
      have hacts := ha.acts
      have hacc := ha.joining f hf
      have hlawful := ha.state_lawful
      rw [hf] at hacts hlawful
      cases hacts with
      | @refill _ f' hf' hover =>
        have hself := lookup_halt_self (h := .forked f') ha.lookup_acted rfl
        obtain ⟨t₂, ht₂, hkept⟩ := ha.exists_kept hlt.ne' ht₁
        have hp₂ : t₂.parent = some (k, item) := (hkept.parent_of_not_failed nofun).trans hp
        exact .inl (.branch hself rfl ht₂ hp₂ (ih.1 hlt.ne'))
      | advance hr =>
        cases hr with
        | complete hf' hover =>
          have hmem := mem_itemsOf_of_lookup ht₁ hp
          rw [hacc.itemsOf_of_over hf' hover] at hmem
          exact absurd hmem List.not_mem_nil
        | collapse hf' => exact .inr ((hlawful.2.2.2 _).advance _)

/-- Every other task than the root is a branch of a task, or the root is doomed. -/
def Intact (m : Machine σ) : Prop :=
  Doomed m root ∨ ∀ k t, m.tasks.lookup k = some t → k ≠ root → t.parent ≠ none

theorem Intact.of_tasks (htasks : m'.tasks = m.tasks) (hm : Intact m) : Intact m' := by
  unfold Intact
  rw [htasks]
  exact hm.imp_left (·.of_tasks htasks)

/-- A doomed task whose number is smaller than that of the task that has halted dooms the root. -/
private theorem doomed_root (ha : Acting P adapter m id m₀ t h m₁) (hroot : m₀.ending = none)
    (hparents : ∀ k t, m₀.tasks.lookup k = some t → k ≠ root → t.parent ≠ none) :
    ∀ n k, k ≤ n → k < id → (m₀.tasks.lookup k).isSome → Doomed (m₁.halt id h) k →
      Doomed (m₁.halt id h) root := by
  intro n
  induction n with
  | zero =>
    intro k hn _ _ hk
    obtain rfl := Nat.le_zero.mp hn
    exact hk
  | succ n ih =>
    intro k hn hlt hsome hk
    by_cases hkroot : k = root
    · exact hkroot ▸ hk
    obtain ⟨t₀, ht₀⟩ := Option.isSome_iff_exists.mp hsome
    obtain ⟨⟨p, item⟩, hp⟩ := Option.ne_none_iff_exists'.mp (hparents k t₀ ht₀ hkroot)
    have hpk := ha.sound.parent_lt k t₀ p item ht₀ hp
    obtain ⟨tr, htr⟩ := Option.isSome_iff_exists.mp (ha.sound.ending.mp hroot)
    obtain ⟨tp, f, htp, hf⟩ := (ha.sound.parent k t₀ p item ht₀ ((ha.sound.root tr htr).2 k t₀ ht₀)
      hp).resolve_left fun hrun => by have := Option.some.inj hrun; omega
    obtain ⟨tp', htp', hkept⟩ := ha.exists_kept (by omega) htp
    obtain ⟨t', ht', hkept'⟩ := ha.exists_kept (by omega) ht₀
    exact ih p (by omega) (by omega) (Option.isSome_of_eq_some htp)
      (.branch htp' (hkept.joining f hf) ht' (hkept'.parent_of_ne hp (by omega)) hk)

theorem Intact.turn (hm : Proper P m) (htakes : Takes m id m₀) (h : m.ending = none → Intact m) :
    (m₀.turn adapter id).ending = none → Intact (m₀.turn adapter id) := by
  have hending := htakes.ending
  refine hm.turn_cases (Q := fun m' => m'.ending = none → Intact m') htakes (fun _ he => ?_)
    (fun t ht hc hsound he => ?_) fun t halt m₁ ha he => ?_
  · exact (h (hending ▸ he)).of_tasks htakes.tasks
  · obtain ⟨tr, htr⟩ := Option.isSome_iff_exists.mp (hsound.ending.mp (drop_ending.symm.trans he))
    exact absurd ((hsound.root tr htr).2 id t ht) (by simp [hc])
  · obtain ⟨hsame, hnot⟩ : (m₁.halt id halt).ending = m.ending ∧ _ :=
      ha.ending.resolve_left fun ⟨result, _, _, hfinished⟩ => by simp [he] at hfinished
    have hroot : m.ending = none := hsame.symm.trans he
    rcases (h hroot).of_tasks htakes.tasks with hdoomed | hparents
    · by_cases hid : root = id
      · refine .inl ((hdoomed.turn ha).2 hid |>.resolve_right fun ⟨fault, hfails⟩ => ?_)
        exact hnot _ hfails hid.symm
      · exact .inl ((hdoomed.turn ha).1 hid)
    · by_cases hall : ∀ k t, (m₁.halt id halt).tasks.lookup k = some t → k ≠ root → t.parent ≠ none
      · exact .inr hall
      · -- the task that has halted has failed or panicked, and its branches go on without it
        simp only [not_forall, not_not] at hall
        obtain ⟨k, t', ht', hk, hnone⟩ := hall
        obtain ⟨fault, rfl⟩ : ∃ fault, halt = .done (.error fault) := by
          rcases ha.after ht' with @⟨t₀, -, ht₀, hkept⟩ | ⟨hid, parent, -⟩ | ⟨-, -, -, rfl⟩
          · exact hkept.parent.elim (fun h => absurd (h.symm.trans hnone) (hparents k t₀ ht₀ hk))
              fun h => h.2.2
          · exact absurd (parent.symm.trans hnone) (hparents id t ha.lookup (hid ▸ hk))
          · cases hnone
        have hid : id ≠ root := hnot _ rfl
        obtain ⟨⟨p, item⟩, hp⟩ := Option.ne_none_iff_exists'.mp (hparents id t ha.lookup hid)
        have hlt := ha.sound.parent_lt id t p item ha.lookup hp
        obtain ⟨tp, f, htp, hf⟩ := (ha.sound.parent id t p item ha.lookup ha.active hp).resolve_left
          fun hrun => hlt.ne (Option.some.inj hrun).symm
        obtain ⟨tp', htp', hkept'⟩ := ha.exists_kept hlt.ne htp
        refine .inl (doomed_root ha (hending.trans hroot) hparents p p le_rfl hlt
          (Option.isSome_of_eq_some htp) ?_)
        exact .failed htp' (hkept'.joining f hf) (List.mem_append_right _ (mem_results hp))

/-! ### When the root ends well -/

/-- A machine of which the root has ended well, and in which nothing is left to do. -/
def resting (w : World σ) (fresh : Nat) (context : Json) : Machine σ where
  world := w
  tasks := []
  fresh
  ready := []
  rootReady := false
  sleepers := []
  ending := some (.finished (.ok context))

/-- When the root ends well, it has been the only task. -/
theorem Acting.eq_root {context : Json} (ha : Acting P adapter m root m₀ t h m₁)
    (hm : Intact m) (hh : h = .done (.ok context)) {t₀ : Task}
    (ht₀ : m₁.tasks.lookup k = some t₀) : k = root := by
  have hsucceeds : ∀ fault, h ≠ .done (.error fault) := fun fault => by simp [hh]
  have htasks : m₁.tasks = m₀.tasks := by
    have hacts := ha.acts
    generalize hs : t.state = s at hacts
    cases hacts with
    | refill hf hover => rfl
    | advance hr =>
      cases hr with
      | collapse hf =>
        obtain ⟨fault, hfails⟩ := ha.fails hs (Fork.of_gather_eq_error hf)
        exact absurd hfails (hsucceeds fault)
      | _ => rfl
  have hparents : ∀ k t, m₁.tasks.lookup k = some t → k ≠ root → t.parent ≠ none := by
    rw [htasks]
    refine (hm.of_tasks ha.takes.tasks).resolve_left fun hdoomed => ?_
    rcases (hdoomed.turn ha).2 rfl with hdoomed | ⟨fault, hfails⟩
    · have hsome := hdoomed.isSome
      rw [hh, halt, lookup_finish ha.lookup_acted fun _ =>
        (ha.sound_acted.root t ha.lookup_acted).1, if_pos rfl] at hsome
      cases hsome
    · exact absurd hfails (hsucceeds fault)
  have hnil : m₁.itemsOf root = [] := by
    have hfits := ha.fits
    rwa [hh] at hfits
  -- so a task has a task with a smaller number, which is not the root
  induction k using Nat.strong_induction_on generalizing t₀ with
  | _ k ih =>
    by_contra hk
    obtain ⟨⟨p, item⟩, hp⟩ := Option.ne_none_iff_exists'.mp (hparents k t₀ ht₀ hk)
    have hc := (ha.sound_acted.root t ha.lookup_acted).2 k t₀ ht₀
    have hroot : p ≠ root := by
      rintro rfl
      exact (itemsOf_eq_nil_iff ha.sound_acted.keys_nodup).mp hnil k t₀ item ht₀ hp
    obtain ⟨tp, f, htp, -⟩ := (ha.sound_acted.parent k t₀ p item ht₀ hc hp).resolve_left
      fun hrun => hroot (Option.some.inj hrun).symm
    exact hroot (ih p (ha.sound_acted.parent_lt k t₀ p item ht₀ hp) htp)

/-- A machine of which the running root is the only task. -/
theorem eq_of_only_root (hm : Sound (some root) m) (ht : m.tasks.lookup root = some t)
    (hroot : ∀ k t, m.tasks.lookup k = some t → k = root) :
    m = { m with tasks := [(root, t)], ready := [], rootReady := false, sleepers := [] } := by
  have htasks : m.tasks = [(root, t)] := by
    have hall : ∀ e ∈ m.tasks, e = (root, t) := by
      rintro ⟨k, t'⟩ he
      have hlookup := Keyed.lookup_of_mem hm.keys_nodup he
      obtain rfl := hroot k t' hlookup
      rw [Option.some.inj (ht.symm.trans hlookup)]
    have hlength : m.tasks.length ≤ 1 := by
      have hnodup := hm.keys_nodup.of_map Prod.fst
      rw [List.eq_replicate_of_mem hall] at hnodup
      exact List.nodup_replicate.mp hnodup
    obtain ⟨e, he⟩ := List.length_eq_one_iff.mp (le_antisymm hlength
      (List.length_pos_of_mem (Keyed.mem_of_lookup ht)))
    rw [he, hall e (he ▸ List.mem_singleton.mpr rfl)]
  have hready : m.ready = [] := by
    refine List.eq_nil_iff_forall_not_mem.mpr fun k hk => ?_
    have hne : k ≠ root := fun h => hm.root_notMem_ready (h ▸ hk)
    obtain ⟨t', ht'⟩ := Option.isSome_iff_exists.mp ((hm.awake k (hm.awake_of_mem_ready hk)).2 hne)
    exact hne (hroot k t' ht')
  have hrootReady : m.rootReady = false := by
    refine Bool.eq_false_iff.mpr fun h => (hm.awake root ?_).1 rfl
    rwa [Awake, if_pos rfl]
  have hsleepers : m.sleepers = [] := by
    refine List.eq_nil_iff_forall_not_mem.mpr fun s hs => ?_
    obtain ⟨-, hrun, -, t', r, ht', -⟩ := hm.sleepers s hs
    exact hrun (congrArg some (hroot _ t' ht').symm)
  rw [← htasks, ← hready, ← hrootReady, ← hsleepers]

end Machine

end Conveyor
