import Conveyor.Proofs.Run.EventLog
import Conveyor.Proofs.Run.Spans
import Conveyor.Proofs.Workflow.WellFormed

/-!
# Ids of steps and branches

The branch of a map at an item and the steps in it go under ids that are put together from names,
numbers and separators. The names may contain the separators, so steps at the top may have the same
ids: with a map `a`, the step `a[0]` goes under the id of a branch. Without such steps
(`Pipeline.IdsApart`) every completed run has one duration for each start
(`Engine.execute_durations`). There are none if no step at the top is named like a branch of a map
or like something in one (`Pipeline.NamesApart.idsApart`).
-/

namespace Conveyor

variable {scope id name name' : String} {item item' : Nat}

/-! ### Ids in scopes -/

/-- The parts of an id between slashes begin with those of a scope. -/
def Inside (scope id : String) : Prop :=
  scope.toList ++ ['/'] <+: id.toList ++ ['/']

theorem Inside.refl : Inside scope scope :=
  List.prefix_rfl

theorem inside_inner : Inside scope (scope ++ "/" ++ name) := by
  unfold Inside
  rw [inner_toList]
  exact ⟨name.toList ++ ['/'], by simp⟩

theorem Inside.covers (h : Inside scope id) : Covers scope id := by
  have hshort : scope.toList <+: id.toList ++ ['/'] := (List.prefix_append _ _).trans h
  have hlength := h.length_le
  rw [List.length_append, List.length_append] at hlength
  exact List.prefix_of_prefix_length_le hshort (List.prefix_append _ _) (by simpa using hlength)

theorem notMem_digits {c : Char} (hc : c.isDigit = false) : c ∉ Decimal.digits item := by
  intro hmem
  rw [Decimal.isDigit_of_mem_digits hmem] at hc
  cases hc

/-- The name of a map is what comes before the last bracket that is opened. -/
theorem eq_of_branchId_eq (h : branchId name item = branchId name' item') : name = name' := by
  have hbefore (name : String) (item : Nat) :
      (branchId name item).toList.reverse.dropWhile (· != '[') = '[' :: name.toList.reverse := by
    have hnumber : '[' ∉ ']' :: (Decimal.digits item).reverse := by
      simpa using notMem_digits (by decide)
    rw [branchId_toList, List.reverse_append, List.reverse_cons, List.reverse_append]
    simpa using Text.dropWhile_ne_append hnumber name.toList.reverse
  have hnames := hbefore name item
  rw [h, hbefore] at hnames
  exact (String.toList_inj.mp (List.reverse_inj.mp (List.cons.inj hnames).2)).symm

/-- Since a number has no slash, what a branch is inside is the branch or what its map is inside. -/
theorem inside_branchId_cases (h : Inside scope (branchId name item)) :
    scope = branchId name item ∨ Inside scope name := by
  have hnumber : '/' ∉ '[' :: (Decimal.digits item ++ [']']) := by
    simpa using notMem_digits (by decide)
  obtain ⟨rest, hrest⟩ := h
  rcases List.eq_nil_or_concat rest with rfl | ⟨rest, c, rfl⟩
  · rw [List.append_nil] at hrest
    exact .inl (String.toList_inj.mp (List.append_inj' hrest rfl).1)
  · rw [List.concat_eq_append, ← List.append_assoc, branchId_toList] at hrest
    have hwhole := (List.append_inj' hrest rfl).1
    rw [List.append_assoc, List.singleton_append] at hwhole
    -- the slash after the scope stands in the name of the map
    rcases List.append_eq_append_iff.mp hwhole with ⟨more, hname, hslash⟩ | ⟨more, hscope, hslash⟩
    · cases more with
      | nil =>
        rw [List.nil_append] at hslash
        exact absurd (hslash ▸ List.mem_cons_self) hnumber
      | cons d more =>
        obtain ⟨rfl, -⟩ := List.cons.inj hslash
        exact .inr ⟨more ++ ['/'], by rw [hname]; simp⟩
    · exact absurd (hslash ▸ List.mem_append_right _ List.mem_cons_self) hnumber

/-- An id that belongs to branches of two maps is only there if one map is named like something in
a branch of the other one. -/
theorem eq_or_inside_of_inside (h : Inside (branchId name item) id)
    (h' : Inside (branchId name' item') id) :
    name = name' ∨ Inside (branchId name item) name' ∨ Inside (branchId name' item') name := by
  rcases List.prefix_or_prefix_of_prefix h h' with hleft | hright
  · exact (inside_branchId_cases hleft).imp eq_of_branchId_eq .inl
  · exact (inside_branchId_cases hright).imp (fun heq => (eq_of_branchId_eq heq).symm) .inr

/-! ### Marks of starts -/

/-- The ids that were started, once for each start. -/
def startedIn (marks : List Mark) : List String :=
  (marks.filter (·.2 = .started)).map Prod.fst

variable {marks : List Mark} {steps iterator : List Step} {head : MapHead} {s s' : Step}

theorem startedIn_append (marks' : List Mark) :
    startedIn (marks ++ marks') = startedIn marks ++ startedIn marks' := by
  rw [startedIn, List.filter_append, List.map_append]
  rfl

theorem startedIn_cons_started : startedIn ((id, .started) :: marks) = id :: startedIn marks :=
  rfl

theorem startedIn_cons_completed : startedIn ((id, .completed) :: marks) = startedIn marks :=
  rfl

theorem mem_startedIn : id ∈ startedIn marks ↔ (id, .started) ∈ marks := by
  simp [startedIn]

theorem nodup_startedIn_iff : (startedIn marks).Nodup ↔
    marks.Pairwise fun a b => a.2 = .started → b.2 = .started → a.1 ≠ b.1 := by
  simp only [startedIn, List.Nodup, List.pairwise_map, List.pairwise_filter, decide_eq_true_eq]

theorem Timeline.startedIds_eq (t : Timeline) : t.startedIds = startedIn t.marks := by
  rw [startedIn, marks, List.filter_map, List.map_map]
  rfl

/-- What holds in every part and between any two of them holds in what is made of them. -/
theorem Interleaves.pairwise {α : Type} {R : α → α → Prop} {count : Nat} {parts : Nat → List α}
    {l : List α} (h : Interleaves count parts l)
    (hparts : ∀ item < count, (parts item).Pairwise R)
    (hacross : ∀ item < count, ∀ item' < count, item ≠ item' →
      ∀ x ∈ parts item, ∀ y ∈ parts item', R x y) : l.Pairwise R := by
  obtain ⟨owned, rfl, howners, howned⟩ := h
  have hmem {e : Nat × α} (he : e ∈ owned) : e.2 ∈ parts e.1 := by
    rw [← howned e.1 (howners e he)]
    exact List.mem_map_of_mem (List.mem_filter.mpr ⟨he, decide_eq_true rfl⟩)
  refine List.pairwise_map.mpr (List.pairwise_iff_forall_sublist.mpr fun {a b} hab => ?_)
  have ha : a ∈ owned := hab.subset (by simp)
  have hb : b ∈ owned := hab.subset (by simp)
  by_cases heq : a.1 = b.1
  · -- what belongs to one item stands in its part, in the same order
    have hpair := (hab.filter (·.1 = b.1)).map Prod.snd
    rw [howned b.1 (howners b hb)] at hpair
    simp only [List.filter_cons, heq, decide_true, if_true, List.filter_nil] at hpair
    simpa using (hparts b.1 (howners b hb)).sublist hpair
  · exact hacross a.1 (howners a ha) b.1 (howners b hb) heq a.2 (hmem ha) b.2 (hmem hb)

/-! ### Starts in completed pipelines -/

/-- A pipeline as it stands inside a map: no two steps have the same name, and none is a map. -/
structure Pipeline.Inner (steps : Pipeline) : Prop where
  names_nodup : (steps.map Step.name).Nodup
  flat : ∀ head iterator, .map head iterator ∉ steps

/-- Without maps there is a start for every step and no other. -/
theorem Pipeline.Completed.startedIn_of_flat (hflat : ∀ head inner, .map head inner ∉ steps)
    (h : Pipeline.Completed scope steps marks) :
    startedIn marks = steps.map fun s => scopedId scope s.name := by
  induction steps generalizing marks with
  | nil =>
    obtain rfl : marks = [] := h
    rfl
  | cons s steps ih =>
    obtain ⟨inner, rest, hs, hrest, rfl⟩ := h
    have hinner : inner = [] := by
      cases s with
      | pass s => exact hs
      | task s => exact hs
      | map head inner => exact absurd List.mem_cons_self (hflat head inner)
    have hrest := ih (fun head inner hmem => hflat head inner (List.mem_cons_of_mem _ hmem)) hrest
    rw [hinner, List.map_cons, ← hrest]
    rfl

/-- The ids of a branch and of the steps in it. -/
def branchIds (scope : String) (iterator : Pipeline) : List String :=
  scope :: iterator.map fun s => scope ++ "/" ++ s.name

theorem inside_of_mem_branchIds (h : id ∈ branchIds scope iterator) : Inside scope id := by
  rcases List.mem_cons.mp h with rfl | hmem
  · exact .refl
  · obtain ⟨s, -, rfl⟩ := List.mem_map.mp hmem
    exact inside_inner

/-- In a branch the branch itself is started and then every step. -/
theorem startedIn_branch {inner : List Mark} (hflat : ∀ head inner, .map head inner ∉ iterator)
    (h : Pipeline.Completed (branchId id item) iterator inner) :
    startedIn ((branchId id item, .started) :: inner ++ [(branchId id item, .completed)]) =
      branchIds (branchId id item) iterator := by
  rw [List.cons_append, startedIn_cons_started, startedIn_append, h.startedIn_of_flat hflat]
  simp only [scopedId_branchId]
  exact congrArg _ (List.append_nil _)

theorem nodup_branchIds (hnames : (iterator.map Step.name).Nodup) :
    (branchIds scope iterator).Nodup := by
  refine List.nodup_cons.mpr ⟨fun hmem => ?_, ?_⟩
  · obtain ⟨s, -, hs⟩ := List.mem_map.mp hmem
    have hlength : scope.toList.length < (scope ++ "/" ++ s.name).toList.length := length_inner
    rw [hs] at hlength
    exact hlength.false
  · have hinj : Function.Injective (scope ++ "/" ++ ·) := fun _ _ => (String.append_right_inj _).mp
    have hmap := hnames.map hinj
    rwa [List.map_map] at hmap

/-- The steps and branches inside a completed map are started once each. -/
theorem Step.Completed.starts (hinner : Pipeline.Inner iterator)
    (h : Step.Completed id (.map head iterator) marks) :
    (startedIn marks).Nodup ∧
      ∀ name ∈ startedIn marks, ∃ item, name ∈ branchIds (branchId id item) iterator := by
  obtain ⟨count, parts, hmarks, hparts⟩ := h
  have hpart {item : Nat} (hitem : item < count) :
      startedIn (parts item) = branchIds (branchId id item) iterator := by
    obtain ⟨inner, hcompleted, heq⟩ := hparts item hitem
    rw [heq, startedIn_branch hinner.flat hcompleted]
  have hmem {item : Nat} (hitem : item < count) {name : String}
      (h : (name, .started) ∈ parts item) : name ∈ branchIds (branchId id item) iterator := by
    rw [← hpart hitem]
    exact mem_startedIn.mpr h
  refine ⟨nodup_startedIn_iff.mpr (hmarks.pairwise (fun item hitem => ?_) ?_), fun name hname => ?_⟩
  · rw [← nodup_startedIn_iff, hpart hitem]
    exact nodup_branchIds hinner.names_nodup
  · -- what two branches start stands in scopes that are apart
    rintro item hitem item' hitem' hne ⟨name, _⟩ hname ⟨name', _⟩ hname' rfl rfl rfl
    exact (apart_branchId hne).not_covers (inside_of_mem_branchIds (hmem hitem hname)).covers
      (inside_of_mem_branchIds (hmem hitem' hname')).covers
  · obtain ⟨item, hitem, hstarted⟩ := hmarks.exists_mem (mem_startedIn.mp hname)
    exact ⟨item, hmem hitem hstarted⟩

/-! ### Steps that own ids -/

/-- The ids that a step of the pipeline at the top and what is below it may have in a run. -/
def Step.Owns (s : Step) (id : String) : Prop :=
  id = s.name ∨ ∃ head iterator item, s = .map head iterator ∧
    id ∈ branchIds (branchId head.name item) iterator

/-- No two steps of the pipeline at the top may have the same id. -/
def Pipeline.IdsApart (steps : Pipeline) : Prop :=
  ∀ s ∈ steps, ∀ s' ∈ steps, ∀ id, s.Owns id → s'.Owns id → s.name = s'.name

/-- No step is named like a branch of a map next to it, or like something in one. -/
def Pipeline.NamesApart (steps : Pipeline) : Prop :=
  ∀ head iterator, .map head iterator ∈ steps → ∀ s ∈ steps, ∀ item,
    ¬ Inside (branchId head.name item) s.name

/-- Ids are apart if names are. -/
theorem Pipeline.NamesApart.idsApart (h : Pipeline.NamesApart steps) :
    Pipeline.IdsApart steps := by
  intro s hs s' hs' id hid hid'
  rcases hid with rfl | ⟨head, iterator, item, rfl, hmem⟩
  · rcases hid' with hname | ⟨head', iterator', item', rfl, hmem'⟩
    · exact hname
    · exact absurd (inside_of_mem_branchIds hmem') (h head' iterator' hs' s hs item')
  · have hinside := inside_of_mem_branchIds hmem
    rcases hid' with rfl | ⟨head', iterator', item', rfl, hmem'⟩
    · exact absurd hinside (h head iterator hs s' hs' item)
    · rcases eq_or_inside_of_inside hinside (inside_of_mem_branchIds hmem') with
        heq | hleft | hright
      · exact heq
      · exact absurd hleft (h head iterator hs _ hs' item)
      · exact absurd hright (h head' iterator' hs' _ hs item')

/-- Names without brackets are none that branches have. -/
theorem Pipeline.namesApart_of_notMem (h : ∀ s ∈ steps, '[' ∉ s.name.toList) :
    Pipeline.NamesApart steps := by
  intro head iterator _ s hs item hinside
  have hbracket : '[' ∈ (branchId head.name item).toList ++ ['/'] := by
    simp [branchId_toList]
  have hname := hinside.subset hbracket
  rw [List.mem_append, List.mem_singleton] at hname
  exact hname.elim (h s hs) (by decide)

/-- A step owns what it starts, and starts it once. -/
theorem Step.Completed.owns {inner : List Mark}
    (hmap : ∀ head iterator, s = .map head iterator → Pipeline.Inner iterator)
    (h : s.Completed s.name inner) :
    (s.name :: startedIn inner).Nodup ∧ ∀ id ∈ s.name :: startedIn inner, s.Owns id := by
  have hplain (hinner : inner = []) :
      (s.name :: startedIn inner).Nodup ∧ ∀ id ∈ s.name :: startedIn inner, s.Owns id := by
    subst hinner
    exact ⟨List.nodup_singleton _, fun id hid => .inl (List.mem_singleton.mp hid)⟩
  cases s with
  | pass s => exact hplain h
  | task s => exact hplain h
  | map head iterator =>
    obtain ⟨hnodup, hids⟩ := Step.Completed.starts (hmap head iterator rfl) h
    refine ⟨List.nodup_cons.mpr ⟨fun hmem => ?_, hnodup⟩, fun id hid => ?_⟩
    · -- a branch has a longer name than the map
      obtain ⟨item, hitem⟩ := hids _ hmem
      exact (length_branchId.trans_le (inside_of_mem_branchIds hitem).covers.length_le).false
    · rcases List.mem_cons.mp hid with rfl | hid
      · exact .inl rfl
      · obtain ⟨item, hitem⟩ := hids id hid
        exact .inr ⟨head, iterator, item, rfl, hitem⟩

/-- In a completed pipeline at the top every id is started once. -/
theorem Pipeline.Completed.starts (hnames : (steps.map Step.name).Nodup)
    (hmaps : ∀ head iterator, .map head iterator ∈ steps → Pipeline.Inner iterator)
    (hapart : Pipeline.IdsApart steps) (h : Pipeline.Completed "" steps marks) :
    (startedIn marks).Nodup ∧ ∀ id ∈ startedIn marks, ∃ s ∈ steps, s.Owns id := by
  induction steps generalizing marks with
  | nil =>
    obtain rfl : marks = [] := h
    exact ⟨List.nodup_nil, nofun⟩
  | cons s steps ih =>
    obtain ⟨inner, rest, hs, hrest, rfl⟩ := h
    obtain ⟨hname, hnames⟩ := List.nodup_cons.mp hnames
    obtain ⟨hnodup, howns⟩ := Step.Completed.owns
      (fun head iterator heq => hmaps head iterator (heq ▸ List.mem_cons_self)) hs
    obtain ⟨ihnodup, ihowns⟩ := ih hnames
      (fun head iterator hmap => hmaps head iterator (List.mem_cons_of_mem _ hmap))
      (fun s hs s' hs' => hapart s (List.mem_cons_of_mem _ hs) s' (List.mem_cons_of_mem _ hs'))
      hrest
    have hsplit : startedIn ((scopedId "" s.name, .started) :: inner ++
        (scopedId "" s.name, .completed) :: rest) =
        (s.name :: startedIn inner) ++ startedIn rest := by
      rw [List.cons_append, startedIn_cons_started, startedIn_append, startedIn_cons_completed]
      rfl
    rw [hsplit]
    refine ⟨hnodup.append ihnodup fun id hid hid' => ?_, fun id hid => ?_⟩
    · obtain ⟨s', hs', hown⟩ := ihowns id hid'
      have heq : s.name = s'.name :=
        hapart s List.mem_cons_self s' (List.mem_cons_of_mem _ hs') id (howns id hid) hown
      exact hname (heq ▸ List.mem_map_of_mem hs')
    · rcases List.mem_append.mp hid with hid | hid
      · exact ⟨s, List.mem_cons_self, howns id hid⟩
      · obtain ⟨s', hs', hown⟩ := ihowns id hid
        exact ⟨s', List.mem_cons_of_mem _ hs', hown⟩

/-! ### Completed runs -/

/-- The durations tell the starts apart: no id was started twice, the ids of the durations are the
ones that were started, and the duration of a step or branch is the time from its only start to its
only end. -/
def Timeline.TellsApart (t : Timeline) : Prop :=
  t.startedIds.Nodup ∧ (t.durations.map Prod.fst).Perm t.startedIds ∧
    ∀ start ∈ t.events, start.kind = .started → ∃ stop, stop.kind = .completed ∧
      t.events.filter (·.id = start.id) = [start, stop] ∧
      (start.id, stop.time - start.time) ∈ t.durations

/-- The context that a pipeline ends with, unless it fails or is cut off. -/
def Ending.output? : Ending → Option Json
  | .finished (.ok output) => some output
  | _ => none

namespace Engine

open Machine

variable {σ : Type} {e : Engine σ} {w : Workflow} {context output : Json} {state : σ}
  {report : Report} {m : Machine σ}

/-- In a completed run all steps have been executed, and the timeline is left as it was then. -/
theorem executed_of_completed (hexec : e.execute w context state = some (.ok report, m))
    (hreport : report.outcome = .completed output) : ∃ m' : Machine σ,
      Executed e.adapter (e.budgetFor w) 0 w.steps (untouched state context) m' ∧
        report.timeline = m'.world.timeline := by
  obtain ⟨ending, log, hending, heq⟩ := e.execute_eq w context state
  have hresult := (Prod.mk.inj (Option.some.inj (hexec.symm.trans heq))).1
  obtain ⟨outcome, houtcome, rfl⟩ := Except.map_eq_ok.mp hresult.symm
  obtain rfl : outcome = .completed output := hreport
  rcases ending with ((failure | p) | result) | _
  · cases houtcome
  · cases houtcome
  · rcases stepsRun_cases e.adapter (e.budgetFor w) w.steps context state with
      ⟨m', -, hsteps, -, hrun⟩ | ⟨before, s, -, m', -, -, -, -, hnot, hrun⟩
    · exact ⟨m', hsteps, congrArg (·.world.timeline) hrun⟩
    · rw [hrun] at hending
      exact absurd hending (hnot result)
  · cases houtcome

/-- The report of a run that ends well. -/
theorem exists_completed
    (h : (stepsRun e.adapter (e.budgetFor w) w.steps context state).ending.bind Ending.output? =
      some output) :
    ∃ report m, e.execute w context state = some (.ok report, m) ∧
      report.outcome = .completed output ∧ report.timeline =
        (stepsRun e.adapter (e.budgetFor w) w.steps context state).world.timeline := by
  obtain ⟨ending, log, hending, hexec⟩ := e.execute_eq w context state
  rw [hending, Option.bind_some] at h
  rcases ending with ((failure | p) | result) | _
  · cases h
  · cases h
  · obtain rfl := Option.some.inj h
    exact ⟨_, _, hexec, rfl, rfl⟩
  · cases h

/-- **In the timeline of a completed run an id is that of one execution**, if no two steps at the
top may have the same id. -/
theorem execute_durations (hw : w.validate = .ok ()) (hids : w.steps.IdsApart)
    (hexec : e.execute w context state = some (.ok report, m))
    (hreport : report.outcome = .completed output) : report.timeline.TellsApart := by
  obtain ⟨m', hsteps, htimeline⟩ := executed_of_completed hexec hreport
  have hrest := atRest_untouched state context
  have hlogs := hsteps.logs hrest logs_untouched
  have hclosed := hlogs.openSteps.eq_nil
  obtain ⟨marks, hmarks, hcompleted⟩ := hsteps.exists_marks hrest
  have hmarks : m'.world.timeline.marks = marks := hmarks
  have hwell := Workflow.validate_eq_ok.mp hw
  have hnodup : m'.world.timeline.startedIds.Nodup := by
    rw [Timeline.startedIds_eq, hmarks]
    refine (hcompleted.starts hwell.steps.names_nodup (fun head iterator hmap => ?_) hids).1
    exact ⟨(hwell.iterators head iterator (.here hmap)).names_nodup,
      hwell.flat head iterator (.here hmap)⟩
  rw [htimeline]
  refine ⟨hnodup, (hlogs.ordered.durations_perm hclosed hnodup).1, fun start hmem hstart => ?_⟩
  obtain ⟨stop, hstop, hfilter, hduration⟩ :=
    hlogs.ordered.mem_durations hclosed hnodup hmem hstart
  refine ⟨stop, ?_, hfilter, hduration⟩
  have hmem : stop ∈ m'.world.timeline.events.filter (·.id = start.id) := by
    rw [hfilter]
    exact List.mem_cons_of_mem _ List.mem_cons_self
  have hkind := Pipeline.Completed.kinds w.steps "" (hmarks ▸ hcompleted) _
    (List.mem_map_of_mem (List.mem_of_mem_filter hmem))
  refine hkind.resolve_left fun heq => ?_
  have heq : stop.kind = .started := heq
  rw [heq] at hstop
  cases hstop

/-- A map over two items and a step after it. -/
theorem execute_durations_apart :
    let e : Engine Unit := ⟨⟨fun _ _ => 0, fun _ _ input state => ((.ok input, []), state)⟩, none⟩
    let w : Workflow := .ofSteps "apart" [.map ⟨"a", none, .root, none, .replace⟩
      [.pass ⟨"b", none, none, .replace⟩], .pass ⟨"b", none, none, .replace⟩]
    let input : Json := .array [.null, .null]
    w.validate = .ok () ∧ w.steps.IdsApart ∧ ∃ report m,
      e.execute w input () = some (.ok report, m) ∧ report.outcome = .completed input ∧
      report.timeline.TellsApart := by
  intro e w input
  have hw : w.validate = .ok () := by decide +kernel
  have hids : w.steps.IdsApart := (Pipeline.namesApart_of_notMem (by decide +kernel)).idsApart
  have hrun : stepsRun e.adapter (e.budgetFor w) w.steps input () = _ :=
    run_eq_iterate 4 (by decide +kernel) (by decide +kernel)
  have hending : (stepsRun e.adapter (e.budgetFor w) w.steps input ()).ending.bind Ending.output? =
      some input := by
    rw [hrun]
    decide +kernel
  obtain ⟨report, m, hexec, hreport, -⟩ := exists_completed hending
  exact ⟨hw, hids, report, m, hexec, hreport, execute_durations hw hids hexec hreport⟩

/-- The branch of the map and the step after it go under one id. -/
theorem execute_durations_collide :
    let e : Engine Unit := ⟨⟨fun _ _ => 0, fun _ _ input state => ((.ok input, []), state)⟩, none⟩
    let w : Workflow := .ofSteps "w" [.map ⟨"a", none, .root, none, .replace⟩
      [.pass ⟨"b", none, none, .replace⟩], .pass ⟨"a[0]", none, none, .replace⟩]
    let input : Json := .array [.number (.integer 1 (by decide))]
    w.validate = .ok () ∧ ∃ report m, e.execute w input () = some (.ok report, m) ∧
      report.outcome = .completed input ∧
      report.timeline.startedIds = ["a", "a[0]", "a[0]/b", "a[0]"] ∧
      report.timeline.durations = [("a", 0), ("a[0]", 0), ("a[0]/b", 0)] := by
  intro e w input
  have hrun : stepsRun e.adapter (e.budgetFor w) w.steps input () = _ :=
    run_eq_iterate 3 (by decide +kernel) (by decide +kernel)
  have hending : (stepsRun e.adapter (e.budgetFor w) w.steps input ()).ending.bind Ending.output? =
      some input := by
    rw [hrun]
    decide +kernel
  obtain ⟨report, m, hexec, hreport, htimeline⟩ := exists_completed hending
  have hevents : report.timeline = ⟨[⟨"a", .started, 0⟩, ⟨"a[0]", .started, 0⟩,
      ⟨"a[0]/b", .started, 0⟩, ⟨"a[0]/b", .completed, 0⟩, ⟨"a[0]", .completed, 0⟩,
      ⟨"a", .completed, 0⟩, ⟨"a[0]", .started, 0⟩, ⟨"a[0]", .completed, 0⟩]⟩ := by
    rw [htimeline, hrun]
    decide +kernel
  refine ⟨by decide +kernel, report, m, hexec, hreport, ?_, ?_⟩
  · rw [hevents]
    decide +kernel
  · -- all starts are at the same time, so that the spans stay in their order
    rw [hevents, Timeline.durations, Timeline.spans, List.mergeSort_of_pairwise (by decide +kernel)]
    decide +kernel

end Engine

end Conveyor
