import Conveyor.Proofs.Run.Termination

/-!
# Runs with a deadline

What is recorded stays recorded, and calls are recorded at the time at which they begin
(`World.Later`). A run with a deadline does what the run without one does until it is cut off, at
the deadline: a step with a deadline either is the step without, or it is the cut
(`Machine.Proper.step_deadline`). So a run that is not cut off is the run without a deadline, and
one that is cut off has made the same calls before the deadline.
-/

namespace Conveyor

/-! ### Calls -/

/-- A world that may follow a world: only calls are added, and each at its time. -/
structure World.Later {σ : Type} (w w' : World σ) : Prop where
  now_le : w.now ≤ w'.now
  calls : ∃ later, w'.calls = w.calls ++ later ∧ ∀ r ∈ later, w.now ≤ r.time ∧ r.time ≤ w'.now

namespace World.Later

variable {σ : Type} {adapter : Adapter σ} {w w' w'' : World σ}

theorem of_eq (hnow : w'.now = w.now) (hcalls : w'.calls = w.calls) : Later w w' :=
  ⟨hnow.ge, [], by rw [hcalls, List.append_nil], nofun⟩

theorem refl (w : World σ) : Later w w :=
  of_eq rfl rfl

theorem trans (h : Later w w') (h' : Later w' w'') : Later w w'' := by
  obtain ⟨later, hcalls, htimes⟩ := h.calls
  obtain ⟨later', hcalls', htimes'⟩ := h'.calls
  refine ⟨h.now_le.trans h'.now_le, later ++ later', ?_, fun r hr => ?_⟩
  · rw [hcalls', hcalls, List.append_assoc]
  · rcases List.mem_append.mp hr with hr | hr
    · exact ⟨(htimes r hr).1, (htimes r hr).2.trans h'.now_le⟩
    · exact ⟨h.now_le.trans (htimes' r hr).1, (htimes' r hr).2⟩

theorem calls_initial (h : Later w w') : w.calls <+: w'.calls := by
  obtain ⟨later, hcalls, -⟩ := h.calls
  exact ⟨later, hcalls.symm⟩

/-- The calls before a time that has come stay the same. -/
theorem filter_calls {time : Nat} (h : Later w w') (htime : time ≤ w.now) :
    w'.calls.filter (·.time < time) = w.calls.filter (·.time < time) := by
  obtain ⟨later, hcalls, htimes⟩ := h.calls
  have hnil : later.filter (·.time < time) = [] := by
    refine List.filter_eq_nil_iff.mpr fun r hr => ?_
    have hle := (htimes r hr).1
    simp only [decide_eq_true_eq]
    omega
  rw [hcalls, List.filter_append, hnil, List.append_nil]

theorem note (top : Bool) (n : Note) (w : World σ) : Later w (w.note top n) := by
  cases n with
  | reached index context => cases top <;> exact of_eq rfl rfl
  | _ => exact of_eq rfl rfl

theorem beginCall (operation : String) (input : Json) (w : World σ) :
    Later w (w.beginCall operation input) :=
  ⟨le_rfl, [⟨w.now, operation, input⟩], rfl, fun _ hr => by
    obtain rfl := List.mem_singleton.mp hr
    exact ⟨le_rfl, le_rfl⟩⟩

theorem answer (number : Nat) (operation : String) (input : Json) (w : World σ) :
    Later w (w.answer adapter number operation input).2 :=
  of_eq rfl rfl

theorem advance (top : Bool) (a : Activity) (w : World σ) :
    Later w (a.advance adapter top w).2 := by
  induction a generalizing w with
  | done result => exact refl w
  | note n next ih => exact (note top n w).trans (ih _)
  | pause ms next ih =>
    unfold Activity.advance
    split
    · exact ih w
    · exact refl w
  | call operation input next ih =>
    have hcall := beginCall operation input w
    unfold Activity.advance
    dsimp only
    split
    · exact hcall.trans ((answer _ _ _ _).trans (ih _ _))
    · exact hcall
  | fork count limit branch next _ ih =>
    unfold Activity.advance
    split
    · exact ih _ w
    · exact refl w

theorem start (r : Resumption) (w : World σ) : Later w (r.start adapter w).2 := by
  cases r with
  | activity a => exact refl w
  | answer number operation input next => exact answer number operation input w

end World.Later

namespace Machine

variable {P : Nat → Nat → (Nat → Activity) → Prop} {σ : Type} {adapter : Adapter σ}
  {deadline : Option Nat} {id : Nat} {m m₀ m₁ : Machine σ}

theorem Acts.later {s : TaskState} {h : Halt} (hacts : Acts adapter id m s h m₁) :
    m.world.Later m₁.world := by
  cases hacts with
  | refill hf hover => exact .refl _
  | advance hr =>
    cases hr with
    | pause r => exact (World.Later.start r m.world).trans (.advance _ _ _)
    | _ => exact .advance _ _ _

theorem Acting.halt_world {t : Task} {h : Halt} (ha : Acting P adapter m id m₀ t h m₁) :
    (m₁.halt id h).world = m₁.world := by
  cases h with
  | done result =>
    exact finish_world ha.lookup_acted fun hid => (ha.sound_acted.root t (hid ▸ ha.lookup_acted)).1
  | asleep ms r => rfl
  | forked f => exact takeIn_world

theorem Proper.later_turn (hm : Proper P m) (h : Takes m id m₀) :
    m.world.Later (m₀.turn adapter id).world := by
  rw [← h.world]
  refine hm.turn_cases (Q := fun m' => m₀.world.Later m'.world) h (fun _ => .refl _)
    (fun t _ _ _ => ?_) fun t halt m₁ ha => ?_
  · rw [drop_world]
    exact .refl _
  · rw [ha.halt_world]
    exact ha.acts.later

theorem Proper.later_rootPart (hm : Proper P m) : m.world.Later (m.rootPart adapter).world := by
  unfold Machine.rootPart
  split
  · exact hm.later_turn (.root ‹_›)
  · exact .refl _

theorem cut_world : m.cut.world = m.world :=
  drop_world

theorem Proper.later_rootTurn (hm : Proper P m) :
    m.world.Later (m.rootTurn adapter deadline).world := by
  rw [rootTurn_eq]
  split
  · rw [cut_world]
    exact hm.later_rootPart
  · exact hm.later_rootPart

theorem later_wakeAt {time : Nat} (h : m.world.now ≤ time) :
    m.world.Later (m.wakeAt time).world := by
  rw [wakeAt_world]
  exact ⟨h, [], (List.append_nil _).symm, nofun⟩

/-! ### Before the deadline -/

/-- The deadline has not come, or the run has only begun. -/
def InTime (deadline : Option Nat) (m : Machine σ) : Prop :=
  m.ending = none →
    (∀ time ∈ deadline, m.world.now < time) ∨ m.ready = [] ∧ m.rootReady = true

theorem inTime_none : InTime none m :=
  fun _ => .inl nofun

theorem inTime_beginning {w : World σ} {fresh : Nat} {a : Activity} :
    InTime deadline (beginning w fresh a) :=
  fun _ => .inr ⟨rfl, rfl⟩

/-- The clock moves to a time that has not come before. -/
theorem Proper.lt_nextTime (hm : Proper P m) (h : InTime deadline m) (hending : m.ending = none)
    (hroot : m.rootReady = false) {time : Nat} (ht : m.nextTime deadline = some time) :
    m.world.now < time := by
  rcases (of_nextTime_eq_some ht).2 with hmem | hdeadline
  · obtain ⟨s, hs, rfl⟩ := List.mem_map.mp hmem
    exact (hm.sound.sleepers s hs).1
  · exact (h hending).resolve_right (fun h => by simp [hroot] at h) time hdeadline

theorem inTime_rootTurn : InTime deadline (m.rootTurn adapter deadline) := by
  intro hending
  rcases rootTurn_cases adapter deadline m with heq | ⟨heq, hearly⟩ <;> rw [heq] at hending ⊢
  · cases hending
  · exact .inl (hearly hending)

theorem Proper.step_inTime (hm : Proper P m) (hending : m.ending = none)
    (h : InTime deadline m) : InTime deadline (m.step adapter deadline) := by
  refine step_cases (fun id ready hready => ?_) (fun _ _ => inTime_rootTurn) (fun _ _ _ => h)
    fun _ _ _ _ => inTime_rootTurn
  refine fun _ => .inl fun time htime => ?_
  rw [hm.now_turn (.branch hready)]
  exact (h hending).resolve_right (fun h => by simp [hready] at h) time htime

theorem Proper.step_later (hm : Proper P m) (hending : m.ending = none) (h : InTime deadline m) :
    m.world.Later (m.step adapter deadline).world := by
  refine step_cases (Q := fun m' => m.world.Later m'.world)
    (fun id ready hready => hm.later_turn (.branch hready)) (fun _ _ => hm.later_rootTurn)
    (fun _ _ _ => .refl _) fun time _ hroot htime => ?_
  exact (later_wakeAt (hm.lt_nextTime h hending hroot htime).le).trans
    (hm.wakeAt (of_nextTime_eq_some htime).1).later_rootTurn

/-- A run only adds to the calls. -/
theorem Proper.run_later (hm : Proper P m) (h : InTime deadline m) :
    m.world.Later (m.run adapter deadline).world := by
  refine hm.run_induction adapter deadline (Q := fun m => InTime deadline m →
    m.world.Later (m.run adapter deadline).world) (fun m _ he _ => ?_) (fun m hm he ih h => ?_) h
  · rw [run_of_ending he]
    exact .refl _
  · rw [run_of_step he]
    exact (hm.step_later he h).trans (ih (hm.step_inTime he h))

/-! ### The cut -/

/-- What the cut at the deadline leaves, compared with a run without a deadline that is in the world
`w` after the same step. -/
structure CutOff (limit : Nat) (m : Machine σ) (w : World σ) : Prop where
  ending : m.ending = some .timedOut
  now : m.world.now = limit
  /-- What happens without a deadline is added at the deadline or later. -/
  later : ∃ w₀ : World σ, w₀.calls = m.world.calls ∧ limit ≤ w₀.now ∧ w₀.Later w

/-- A turn of the root at the deadline: it ends, or it is cut off. -/
private theorem rootTurn_deadline {limit : Nat} (hm : Proper P m) (hnow : m.world.now = limit) :
    m.rootTurn adapter (some limit) = m.rootPart adapter ∧ (m.rootPart adapter).ending ≠ none ∨
      CutOff limit (m.rootTurn adapter (some limit)) (m.rootPart adapter).world := by
  have hnow' : (m.rootPart adapter).world.now = limit := hm.now_rootPart.trans hnow
  rcases rootTurn_cases adapter (some limit) m with heq | ⟨heq, hearly⟩
  · rw [heq]
    refine .inr ⟨rfl, ?_, (m.rootPart adapter).world, ?_, hnow'.ge, .refl _⟩ <;> rw [cut_world]
    exact hnow'
  · exact .inl ⟨heq, fun hnone => (hearly hnone limit rfl).ne hnow'⟩

theorem rootTurn_none : m.rootTurn adapter none = m.rootPart adapter := by
  rw [rootTurn_eq, if_neg fun h => by simp at h]

/-- A turn of the root before the deadline is like that without one. -/
private theorem rootTurn_of_lt {limit : Nat} (hm : Proper P m) (hnow : m.world.now < limit) :
    m.rootTurn adapter (some limit) = m.rootPart adapter := by
  rw [rootTurn_eq, if_neg fun h => ?_]
  have hle := h.2
  rw [hm.now_rootPart] at hle
  simp only [Option.any_some, decide_eq_true_eq] at hle
  omega

/-- A step with a deadline is the step without, or it is the cut. -/
theorem Proper.step_deadline (adapter : Adapter σ) {limit : Nat} (hm : Proper P m)
    (hending : m.ending = none) (hle : m.world.now ≤ limit) (h : InTime (some limit) m) :
    m.step adapter (some limit) = m.step adapter none ∨
      CutOff limit (m.step adapter (some limit)) (m.step adapter none).world := by
  cases hready : m.ready with
  | cons id ready => exact .inl (by rw [step_of_ready hready, step_of_ready hready])
  | nil =>
    cases hroot : m.rootReady with
    | true =>
      rw [step_of_rootReady hready hroot, step_of_rootReady hready hroot, rootTurn_none]
      rcases hle.lt_or_eq with hlt | heq
      · exact .inl (rootTurn_of_lt hm hlt)
      · exact (rootTurn_deadline hm heq).imp_left And.left
    | false =>
      obtain ⟨wake, hwake⟩ := hm.exists_nextWake hending hready hroot
      have hfirst := (nextWake_eq_some_iff.mp hwake).2
      have htime : m.nextTime none = some wake := by simp only [nextTime, hwake]
      have htime' : m.nextTime (some limit) = some (min wake limit) := by
        simp only [nextTime, hwake]
      rw [step_of_nextTime hready hroot htime, step_of_nextTime hready hroot htime', rootTurn_none]
      have hproper : Proper P (m.wakeAt wake) := hm.wakeAt hfirst
      rcases lt_trichotomy wake limit with hlt | rfl | hlt
      · rw [Nat.min_eq_left hlt.le, rootTurn_of_lt hproper (by rwa [wakeAt_world])]
        exact .inl rfl
      · rw [Nat.min_self]
        exact (rootTurn_deadline hproper (by rw [wakeAt_world])).imp_left And.left
      · -- the clock stops at the deadline, where nobody wakes
        have hnot : (m.wakeAt limit).rootReady = false := by
          refine Bool.eq_false_iff.mpr fun htrue => ?_
          rcases awake_wakeAt.mp (show (m.wakeAt limit).Awake root by rwa [Awake, if_pos rfl])
            with hawake | hmem
          · rw [Awake, if_pos rfl, hroot] at hawake
            cases hawake
          · have := hfirst _ hmem
            omega
        have hcut : (m.wakeAt limit).rootTurn adapter (some limit) = (m.wakeAt limit).cut := by
          rw [rootTurn_eq, rootPart_of_not_ready hnot, if_pos]
          exact ⟨wakeAt_ending.trans hending, by simp [wakeAt_world]⟩
        rw [Nat.min_eq_right hlt.le, hcut]
        refine .inr ⟨rfl, by rw [cut_world, wakeAt_world], (m.wakeAt wake).world, ?_, ?_,
          hproper.later_rootPart⟩
        · rw [cut_world, wakeAt_world, wakeAt_world]
        · rw [wakeAt_world]
          exact hlt.le

/-! ### Runs with and without a deadline -/

/-- The clock does not pass the deadline. -/
theorem Proper.step_now_le {limit : Nat} (hm : Proper P m) (hle : m.world.now ≤ limit) :
    (m.step adapter (some limit)).world.now ≤ limit := by
  have hturn : ∀ m : Machine σ, Proper P m → m.world.now ≤ limit →
      (m.rootTurn adapter (some limit)).world.now ≤ limit := by
    intro m hm hle
    rw [rootTurn_eq]
    split
    · rwa [cut_world, hm.now_rootPart]
    · rwa [hm.now_rootPart]
  refine step_cases (Q := fun m' => m'.world.now ≤ limit) (fun id ready hready => ?_)
    (fun _ _ => hturn m hm hle) (fun _ _ _ => hle) fun time _ _ htime => ?_
  · rwa [hm.now_turn (.branch hready)]
  · exact hturn _ (hm.wakeAt (of_nextTime_eq_some htime).1)
      (by rw [wakeAt_world]; exact nextTime_le htime)

/-- A run with a deadline is the run without, or it is cut off. -/
theorem Proper.run_deadline (adapter : Adapter σ) {limit : Nat} (hm : Proper P m)
    (hle : m.world.now ≤ limit) (h : InTime (some limit) m) :
    m.run adapter (some limit) = m.run adapter none ∧
        (m.run adapter (some limit)).world.now ≤ limit ∨
      CutOff limit (m.run adapter (some limit)) (m.run adapter none).world := by
  refine hm.run_induction adapter (some limit) (Q := fun m => m.world.now ≤ limit →
    InTime (some limit) m →
    m.run adapter (some limit) = m.run adapter none ∧
        (m.run adapter (some limit)).world.now ≤ limit ∨
      CutOff limit (m.run adapter (some limit)) (m.run adapter none).world)
    (fun m hm he hle h => ?_) (fun m hm he ih hle h => ?_) hle h
  · rw [run_of_ending he, run_of_ending he]
    exact .inl ⟨rfl, hle⟩
  · have hstep := ih (hm.step_now_le hle) (hm.step_inTime he h)
    rw [run_of_step he, run_of_step he]
    rcases hm.step_deadline adapter he hle h with heq | hcut
    · rwa [heq] at hstep ⊢
    · have hnext : Proper P (m.step adapter none) := hm.step
      rw [run_of_ending (by rw [hcut.ending]; exact Option.some_ne_none _)]
      obtain ⟨w, hcalls, hw, hwlater⟩ := hcut.later
      exact .inr ⟨hcut.ending, hcut.now, w, hcalls, hw, hwlater.trans (hnext.run_later inTime_none)⟩

end Machine

end Conveyor
