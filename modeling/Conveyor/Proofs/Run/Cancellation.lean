import Conveyor.Proofs.Run.Deadlines
import Conveyor.Proofs.Run.Orphans
import Conveyor.Proofs.Run.Pipelines

/-!
# What is left of a run that was cut off

If no branch forks, then all tasks that are left when a run is cut off are branches of the root, so
they are cancelled: at their next turns they end, and nothing is called any more.
-/

namespace Conveyor

/-! ### Branches that do not fork -/

/-- No fork is allowed. -/
abbrev noFork : Nat → Nat → (Nat → Activity) → Prop := fun _ _ _ => False

/-- A fork of which the branches do not fork. -/
abbrev flatFork : Nat → Nat → (Nat → Activity) → Prop := fun _ _ branch =>
  ∀ item, (branch item).Lawful noFork

theorem gives_flatFork : Gives (fun _ iterator => iterator.MapFree) flatFork := by
  intro head iterator hfree _ id items _ item
  exact pipelineActivity_lawful (Q := fun _ _ => False) (fun _ _ h => h.elim) iterator hfree _ 0 _
    ⟨fun _ => trivial, fun _ => trivial⟩

namespace Machine

variable {σ : Type} {adapter : Adapter σ} {deadline : Option Nat} {id : Nat} {m m' m₀ : Machine σ}

/-- No other task than the root forks. -/
def Flat (m : Machine σ) : Prop :=
  ∀ k t, k ≠ root → m.tasks.lookup k = some t → t.state.Lawful noFork

theorem Flat.not_joining {k : Nat} {t : Task} {f : Fork} (h : Flat m) (hk : k ≠ root)
    (ht : m.tasks.lookup k = some t) : t.state ≠ .joining f := by
  intro hf
  have hlawful := h k t hk ht
  rw [hf] at hlawful
  exact hlawful.1.2.2

theorem Flat.of_tasks (htasks : m'.tasks = m.tasks) (h : Flat m) : Flat m' := by
  unfold Flat
  rwa [htasks]

theorem flat_beginning {w : World σ} {fresh : Nat} {a : Activity} : Flat (beginning w fresh a) := by
  intro k t hk ht
  rw [lookup_beginning, if_neg hk] at ht
  cases ht

theorem Flat.drop (hn : (m.tasks.map Prod.fst).Nodup) (h : Flat m) : Flat (m.drop id) := by
  intro k t hk ht
  obtain ⟨-, t₀, ht₀, rfl⟩ := of_lookup_drop hn ht
  rw [abandoned_state]
  exact h k t₀ hk ht₀

theorem Flat.turn (hm : Proper flatFork m) (htakes : Takes m id m₀) (h : Flat m) :
    Flat (m₀.turn adapter id) := by
  have h₀ := h.of_tasks htakes.tasks
  refine hm.turn_cases htakes (fun _ => h₀) (fun t _ _ hsound => h₀.drop hsound.keys_nodup)
    fun t halt m₁ ha k t' hk ht' => ?_
  rcases ha.after ht' with @⟨t₀, -, ht₀, hkept⟩ | ⟨rfl, -, -, hstate⟩ |
    @⟨f, item, -, rfl, -, rfl⟩
  · cases hs : t₀.state with
    | paused r =>
      rw [hkept.paused r hs, ← hs]
      exact h₀ k t₀ hk ht₀
    | joining f => exact absurd hs (h₀.not_joining hk ht₀)
  · have hlawful := ha.acts.halt_lawful (h₀ k t hk ha.lookup)
    cases halt with
    | done result => cases hstate
    | asleep ms r => exact Option.some.inj hstate ▸ hlawful.2
    | forked f => exact hlawful.1.2.2.elim
  · exact ha.halt_lawful.1.2.2 item

/-! ### The cut -/

/-- Every task ends at its next turn. -/
def AllCancelled (m : Machine σ) : Prop :=
  ∀ k t, m.tasks.lookup k = some t → t.cancelled = true

/-- Only a root that is ready can be doomed. -/
theorem Flat.not_doomed (hm : Proper flatFork m) (h : Flat m) (hending : m.ending = none)
    (hroot : m.rootReady = false) : ¬ Doomed m root := by
  obtain ⟨tr, htr⟩ := Option.isSome_iff_exists.mp (hm.sound.ending.mp hending)
  intro hdoomed
  cases hdoomed with
  | failed ht hf he =>
    have hawake := (hm.sound.joining _ _ _ ht hf nofun).woken (List.ne_nil_of_mem he)
    rw [Awake, if_pos rfl, hroot] at hawake
    cases hawake
  | @branch _ _ _ k' t' item ht hf ht' hp hdoomed =>
    have hk : k' ≠ root := by
      rintro rfl
      obtain rfl := Option.some.inj (htr.symm.trans ht')
      rw [(hm.sound.root tr htr).1] at hp
      cases hp
    cases hdoomed with
    | failed ht hf => exact h.not_joining hk ht hf
    | branch ht hf => exact h.not_joining hk ht hf

/-- When a run is cut off, all tasks that are left are cancelled. -/
theorem allCancelled_cut (hm : Proper flatFork m) (h : Flat m) (hintact : Intact m)
    (hending : m.ending = none) (hroot : m.rootReady = false) : AllCancelled m.cut := by
  intro k t ht
  obtain ⟨tr, htr⟩ := Option.isSome_iff_exists.mp (hm.sound.ending.mp hending)
  have ht := (lookup_drop hm.sound.keys_nodup).symm.trans ht
  rw [Option.ite_none_left_eq_some, Option.map_eq_some_iff] at ht
  obtain ⟨hk, t₀, ht₀, rfl⟩ := ht
  obtain ⟨⟨p, item⟩, hp⟩ := Option.ne_none_iff_exists'.mp
    (hintact.resolve_left (h.not_doomed hm hending hroot) k t₀ ht₀ hk)
  obtain ⟨tp, f, htp, hf⟩ := (hm.sound.parent k t₀ p item ht₀ ((hm.sound.root tr htr).2 k t₀ ht₀)
    hp).resolve_left nofun
  obtain rfl : p = root := by
    by_contra hne
    exact h.not_joining hne htp hf
  exact abandoned_cancelled_iff.mpr (.inr ⟨item, hp⟩)

section RootPart

variable {P : Nat → Nat → (Nat → Activity) → Prop} (hm : Proper P m) (hending : m.ending = none)

include hm hending

/-- The root is not ready after its turn, and it has not been cut off in it. -/
theorem Proper.after_rootPart : (m.rootPart adapter).rootReady = false ∧
    (m.rootPart adapter).ending ≠ some .timedOut := by
  cases hready : m.rootReady with
  | false =>
    rw [rootPart_of_not_ready hready, hending]
    exact ⟨hready, nofun⟩
  | true =>
    obtain ⟨t, ht⟩ := Option.isSome_iff_exists.mp (hm.sound.ending.mp hending)
    obtain ⟨h, m₁, ha, hturn⟩ :=
      hm.exists_acting adapter (.root hready) ht ((hm.sound.root t ht).2 root t ht)
    have hm₁ : m₁.rootReady = false := ha.acts.rootReady
    rw [rootPart_of_ready hready, hturn]
    refine ⟨?_, ?_⟩
    · cases h with
      | done result => exact hm₁
      | asleep ms r => exact hm₁
      | forked f => exact takeIn_rootReady.trans hm₁
    · rcases ha.ending with ⟨result, -, -, hresult⟩ | ⟨hsame, -⟩
      · rw [hresult]
        exact nofun
      · rw [hsame, hending]
        exact nofun

end RootPart

/-- A machine of a run that can be cut off, or was. -/
structure Tidy (m : Machine σ) : Prop where
  running : m.ending = none → Intact m ∧ Flat m
  cut : m.ending = some .timedOut → AllCancelled m

theorem Tidy.of_tasks (htasks : m'.tasks = m.tasks) (hending : m'.ending = m.ending)
    (h : Tidy m) : Tidy m' := by
  refine ⟨fun he => ?_, fun he => ?_⟩
  · exact (h.running (hending ▸ he)).imp (·.of_tasks htasks) (·.of_tasks htasks)
  · unfold AllCancelled
    rw [htasks]
    exact h.cut (hending ▸ he)

theorem Tidy.rootTurn (hm : Proper flatFork m) (hending : m.ending = none) (h : Tidy m) :
    Tidy (m.rootTurn adapter deadline) := by
  obtain ⟨hintact, hflat⟩ := h.running hending
  have ⟨hready, hnot⟩ : (m.rootPart adapter).rootReady = false ∧ _ :=
    hm.after_rootPart hending
  have hnext : (m.rootPart adapter).ending = none →
      Intact (m.rootPart adapter) ∧ Flat (m.rootPart adapter) := by
    unfold rootPart
    split
    · exact fun he => ⟨Intact.turn hm (.root ‹_›) (fun _ => hintact) he, hflat.turn hm (.root ‹_›)⟩
    · exact fun _ => ⟨hintact, hflat⟩
  rw [rootTurn_eq]
  split
  · rename_i hcut
    obtain ⟨hintact', hflat'⟩ := hnext hcut.1
    exact ⟨nofun, fun _ => allCancelled_cut hm.rootPart hflat' hintact' hcut.1 hready⟩
  · exact ⟨hnext, fun he => absurd he hnot⟩

theorem Tidy.step (hm : Proper flatFork m) (hending : m.ending = none) (h : Tidy m) :
    Tidy (m.step adapter deadline) := by
  obtain ⟨hintact, hflat⟩ := h.running hending
  refine step_cases (fun id ready hready => ?_) (fun _ _ => h.rootTurn hm hending)
    (fun _ _ _ => h) fun time _ _ htime => ?_
  · have hid : id ≠ root := fun h => hm.sound.root_notMem_ready (by simp [hready, h])
    have hturn : ({ m with ready }.turn adapter id).ending = m.ending :=
      hm.ending_turn (.branch hready) hid
    refine ⟨fun he => ⟨Intact.turn hm (.branch hready) (fun _ => hintact) he,
      hflat.turn hm (.branch hready)⟩, fun he => ?_⟩
    rw [hturn, hending] at he
    cases he
  · exact (h.of_tasks wakeAt_tasks wakeAt_ending).rootTurn
      (hm.wakeAt (of_nextTime_eq_some htime).1) (wakeAt_ending.trans hending)

/-- What is left of a run that was cut off ends at its next turn. -/
theorem Proper.run_tidy (hm : Proper flatFork m) (h : Tidy m) : Tidy (m.run adapter deadline) :=
  hm.run_preserves (fun _ hm he h => h.step hm he) h

/-! ### After the end of the root -/

theorem AllCancelled.turn {P : Nat → Nat → (Nat → Activity) → Prop} (hm : Proper P m)
    (htakes : Takes m id m₀) (h : AllCancelled m) :
    AllCancelled (m₀.turn adapter id) ∧ (m₀.turn adapter id).world = m.world := by
  have h₀ : AllCancelled m₀ := fun k t ht => h k t (htakes.tasks ▸ ht)
  refine hm.turn_cases (Q := fun m' => AllCancelled m' ∧ m'.world = m.world) htakes
    (fun _ => ⟨h₀, htakes.world⟩) (fun t _ _ hsound => ⟨fun k t ht => ?_, ?_⟩)
    fun t halt m₁ ha => ?_
  · obtain ⟨-, t₀, ht₀, rfl⟩ := of_lookup_drop hsound.keys_nodup ht
    exact abandoned_cancelled_iff.mpr (.inl (h₀ k t₀ ht₀))
  · rw [drop_world, htakes.world]
  · exact absurd (h₀ id t ha.lookup) (by simp [ha.active])

/-- Nothing is called any more when all tasks are cancelled. -/
theorem Proper.settle_calls {P : Nat → Nat → (Nat → Activity) → Prop} (hm : Proper P m)
    (h : AllCancelled m) (ms : Nat) : (m.settle adapter ms).world.calls = m.world.calls := by
  refine (hm.settle_preserves (Q := fun m' => AllCancelled m' ∧ m'.world.calls = m.world.calls)
    (fun m₁ m₂ time hm₁ hstep hQ => ?_) ⟨h, rfl⟩ ms).2
  refine hm₁.settleStep_preserves
    (I := fun m' => AllCancelled m' ∧ m'.world.calls = m.world.calls) ?_ ?_ hstep hQ
  · intro m₃ id m₀ hm₃ htakes hQ
    have ⟨hcancelled, hworld⟩ : AllCancelled (m₀.turn adapter id) ∧ _ := hQ.1.turn hm₃ htakes
    exact ⟨hcancelled, (congrArg World.calls hworld).trans hQ.2⟩
  · intro m₃ time hm₃ _ hQ
    refine ⟨fun k t ht => hQ.1 k t (wakeAt_tasks ▸ ht), ?_⟩
    rw [wakeAt_world]
    exact hQ.2

end Machine

end Conveyor
