import Conveyor.Proofs.Run.Spans
import Mathlib.Data.List.DropRight

/-!
# Open steps, interruptions and durations

Here nothing is asked of the events of a timeline: a step may be started again while it is open, and
may end without a start. Then a step is open once for each start since its last end
(`Timeline.count_openSteps`), while only the last of these starts is kept for the spans. Still the
starts that are kept are those of the open steps (`Timeline.mem_starts_iff`), and every step that
was started is open or has ended after a start (`Timeline.started_iff_open_or_finished`). So there
are durations for the steps that have ended after a start (`Timeline.mem_durations_iff`), and once
all open steps are interrupted, for all that were ever started (`Timeline.starts_accounted_for`).
-/

namespace Conveyor

namespace Keyed

variable {κ α β : Type} [DecidableEq κ] [LT κ] [DecidableLT κ] {entries : List (κ × α)} {key : κ}

/-- The keys after several entries are set are the old ones and the new ones. -/
theorem mem_keys_foldl_insert {name : β → κ} {value : β → α} {rows : List β} :
    key ∈ (rows.foldl (fun acc r => insert (name r) (value r) acc) entries).map Prod.fst ↔
      key ∈ rows.map name ∨ key ∈ entries.map Prod.fst := by
  induction rows generalizing entries with
  | nil => simp
  | cons r rows ih =>
    rw [List.foldl_cons, ih, mem_keys_insert, List.map_cons, List.mem_cons]
    tauto

end Keyed

namespace Timeline

variable {t : Timeline} {e : Event} {events ends : List Event} {id : String} {time : Nat}
  {opened : List String} {acc : List (String × Nat) × List Span}

/-! ### Open steps -/

/-- The starts of a step since its last end. -/
def startsSinceEnd (t : Timeline) (id : String) : List Event :=
  (t.events.filter (·.id = id)).rtakeWhile (·.kind = .started)

theorem startsSinceEnd_concat : (⟨events ++ [e]⟩ : Timeline).startsSinceEnd id =
    if e.id = id then
      if e.kind.isEnd then [] else (⟨events⟩ : Timeline).startsSinceEnd id ++ [e]
    else (⟨events⟩ : Timeline).startsSinceEnd id := by
  unfold startsSinceEnd
  rw [List.filter_append]
  by_cases hid : e.id = id
  · have hown : [e].filter (·.id = id) = [e] := by simp [hid]
    rw [if_pos hid, hown, List.rtakeWhile_concat]
    cases hend : e.kind.isEnd with
    | false => simp [isEnd_eq_false_iff.mp hend]
    | true => simp [ne_started_of_isEnd hend]
  · have hother : [e].filter (·.id = id) = [] := by simp [hid]
    rw [if_neg hid, hother, List.append_nil]

theorem count_stepOpen : (stepOpen opened e).count id =
    if e.id = id then if e.kind.isEnd then 0 else opened.count id + 1 else opened.count id := by
  unfold stepOpen
  by_cases hid : e.id = id
  · subst hid
    cases e.kind.isEnd with
    | false => simp
    | true => simp [List.count_eq_zero]
  · have hne : id ≠ e.id := fun h => hid h.symm
    cases e.kind.isEnd with
    | false => simp [hid]
    | true => simp [hid, List.count_filter, hne]

/-- A step is open once for each start since its last end. -/
theorem count_openSteps : t.openSteps.count id = (t.startsSinceEnd id).length := by
  obtain ⟨events⟩ := t
  induction events using List.reverseRecOn with
  | nil => rfl
  | append_singleton events e ih =>
    rw [openSteps_concat, count_stepOpen, startsSinceEnd_concat, ih]
    split
    · split
      · rfl
      · rw [List.length_append, List.length_singleton]
    · rfl

/-- A step is open if its last event is a start. -/
theorem mem_openSteps_iff_getLast? : id ∈ t.openSteps ↔
    ∃ e, (t.events.filter (·.id = id)).getLast? = some e ∧ e.kind = .started := by
  rw [← List.count_pos_iff, count_openSteps, startsSinceEnd]
  generalize t.events.filter (·.id = id) = own
  rcases List.eq_nil_or_concat own with rfl | ⟨before, last, rfl⟩
  · simp
  · rw [List.concat_eq_append, List.rtakeWhile_concat, List.getLast?_concat]
    by_cases hlast : last.kind = .started <;> simp [hlast]

/-! ### Steps that have ended after a start -/

/-- Some end of the step comes after a start of it. -/
def Finished (t : Timeline) (id : String) : Prop :=
  ∃ start stop : Event, [start, stop].Sublist t.events ∧ start.id = id ∧ stop.id = id ∧
    start.kind = .started ∧ stop.kind.isEnd = true

theorem mem_startedIds : id ∈ t.startedIds ↔ ∃ e ∈ t.events, e.id = id ∧ e.kind = .started := by
  simp only [startedIds, List.mem_map, List.mem_filter, decide_eq_true_eq]
  exact exists_congr fun e => by tauto

/-- A pair of events is an older pair, or ends with the last event. -/
theorem pair_sublist_concat {start stop : Event} : [start, stop].Sublist (events ++ [e]) ↔
    [start, stop].Sublist events ∨ stop = e ∧ start ∈ events := by
  have hold : [start, stop].Sublist events ↔ [stop, start].Sublist events.reverse :=
    List.reverse_sublist.symm
  rw [hold, ← List.reverse_sublist]
  simp [List.cons_sublist_cons']

theorem finished_concat : (⟨events ++ [e]⟩ : Timeline).Finished id ↔
    (⟨events⟩ : Timeline).Finished id ∨
      e.id = id ∧ e.kind.isEnd = true ∧ id ∈ (⟨events⟩ : Timeline).startedIds := by
  rw [mem_startedIds]
  constructor
  · rintro ⟨start, stop, hpair, hstartId, hstopId, hstart, hstop⟩
    rcases pair_sublist_concat.mp hpair with hpair | ⟨rfl, hmem⟩
    · exact .inl ⟨start, stop, hpair, hstartId, hstopId, hstart, hstop⟩
    · exact .inr ⟨hstopId, hstop, start, hmem, hstartId, hstart⟩
  · rintro (⟨start, stop, hpair, hrest⟩ | ⟨hstopId, hstop, start, hmem, hstartId, hstart⟩)
    · exact ⟨start, stop, pair_sublist_concat.mpr (.inl hpair), hrest⟩
    · exact ⟨start, e, pair_sublist_concat.mpr (.inr ⟨rfl, hmem⟩), hstartId, hstopId, hstart, hstop⟩

theorem Finished.mem_startedIds (h : t.Finished id) : id ∈ t.startedIds := by
  obtain ⟨start, stop, hpair, hid, -, hstart, -⟩ := h
  exact Timeline.mem_startedIds.mpr ⟨start, hpair.subset List.mem_cons_self, hid, hstart⟩

/-- A step that was started is open or has ended after a start. -/
theorem started_iff_open_or_finished : id ∈ t.startedIds ↔ id ∈ t.openSteps ∨ t.Finished id := by
  obtain ⟨events⟩ := t
  induction events using List.reverseRecOn with
  | nil => simp [startedIds, openSteps, Finished]
  | append_singleton events e ih =>
    rw [startedIds_concat, List.mem_append, openSteps_concat, mem_stepOpen, finished_concat]
    by_cases hid : e.id = id
    · subst hid
      cases hend : e.kind.isEnd with
      | false => simp
      | true =>
        have hstarted : (⟨events⟩ : Timeline).Finished e.id →
            e.id ∈ (⟨events⟩ : Timeline).startedIds := Finished.mem_startedIds
        simpa using hstarted
    · have hother : id ∉ (if e.kind.isEnd then [] else [e.id]) := by
        split <;> simp [Ne.symm hid]
      simp [hid, hother, ih]

/-! ### Spans -/

/-- What an event does to the starts that are kept and to the spans. -/
theorem stepSpans_cases (acc : List (String × Nat) × List Span) (e : Event) :
    (e.kind.isEnd = false ∧
      stepSpans acc e = ((e.id, e.time) :: Keyed.erase e.id acc.1, acc.2)) ∨
    (e.kind.isEnd = true ∧ e.id ∉ acc.1.map Prod.fst ∧ stepSpans acc e = acc) ∨
    ∃ start, e.kind.isEnd = true ∧ (e.id, start) ∈ acc.1 ∧
      stepSpans acc e = (Keyed.erase e.id acc.1, acc.2 ++ [⟨e.id, start, e.time⟩]) := by
  unfold stepSpans
  cases hend : e.kind.isEnd with
  | false => exact .inl ⟨rfl, rfl⟩
  | true =>
    cases hlookup : acc.1.lookup e.id with
    | none =>
      have hmem : e.id ∉ acc.1.map Prod.fst := by simp [← Keyed.isSome_lookup_iff, hlookup]
      exact .inr (.inl ⟨rfl, hmem, rfl⟩)
    | some start => exact .inr (.inr ⟨start, rfl, Keyed.mem_of_lookup hlookup, rfl⟩)

/-- The starts that are kept change as the open steps do. -/
theorem mem_keys_stepSpans : id ∈ (stepSpans acc e).1.map Prod.fst ↔
    if e.id = id then e.kind.isEnd = false else id ∈ acc.1.map Prod.fst := by
  rcases stepSpans_cases acc e with ⟨hend, heq⟩ | ⟨hend, hmem, heq⟩ | ⟨start, hend, -, heq⟩ <;>
    rw [heq, hend]
  · rw [List.map_cons, List.mem_cons, Keyed.mem_keys_erase]
    by_cases hid : e.id = id
    · simp [hid]
    · simp [hid, Ne.symm hid]
  · by_cases hid : e.id = id
    · rw [if_pos hid]
      exact iff_of_false (hid ▸ hmem) nofun
    · rw [if_neg hid]
  · rw [Keyed.mem_keys_erase]
    by_cases hid : e.id = id
    · simp [hid]
    · simp [hid, Ne.symm hid]

/-- An end closes a span if a start of its step is kept. -/
theorem mem_ids_stepSpans : id ∈ (stepSpans acc e).2.map Span.id ↔ id ∈ acc.2.map Span.id ∨
    e.id = id ∧ e.kind.isEnd = true ∧ id ∈ acc.1.map Prod.fst := by
  rcases stepSpans_cases acc e with ⟨hend, heq⟩ | ⟨hend, hmem, heq⟩ | ⟨start, hend, hmem, heq⟩ <;>
    rw [heq]
  · simp [hend]
  · exact (or_iff_left fun ⟨hid, _, hkept⟩ => hmem (hid ▸ hkept)).symm
  · have hkept : e.id ∈ acc.1.map Prod.fst := List.mem_map_of_mem hmem
    rw [List.map_append, List.mem_append, List.map_singleton, List.mem_singleton]
    refine or_congr_right ⟨fun hid => ?_, fun ⟨hid, _⟩ => hid.symm⟩
    exact ⟨hid.symm, hend, hid ▸ hkept⟩

/-- The starts that are kept are those of the open steps. -/
theorem mem_starts_iff : id ∈ (events.foldl stepSpans ([], [])).1.map Prod.fst ↔
    id ∈ (⟨events⟩ : Timeline).openSteps := by
  induction events using List.reverseRecOn with
  | nil => exact Iff.rfl
  | append_singleton events e ih =>
    rw [List.foldl_concat, mem_keys_stepSpans, openSteps_concat, mem_stepOpen, ih]

/-- Spans are closed for the steps that have ended after a start. -/
theorem mem_closed_iff : id ∈ (events.foldl stepSpans ([], [])).2.map Span.id ↔
    (⟨events⟩ : Timeline).Finished id := by
  induction events using List.reverseRecOn with
  | nil => simp [Finished]
  | append_singleton events e ih =>
    -- an end that closes no span now belongs to a step that is not open, so it has ended before
    rw [List.foldl_concat, mem_ids_stepSpans, ih, mem_starts_iff, finished_concat,
      started_iff_open_or_finished]
    tauto

/-- There are durations for the steps that have ended after a start. -/
theorem mem_durations_iff : id ∈ t.durations.map Prod.fst ↔ t.Finished id := by
  have hspans : t.spans.Perm (t.events.foldl stepSpans ([], [])).2 := List.mergeSort_perm _ _
  rw [durations, Keyed.mem_keys_foldl_insert, (hspans.map Span.id).mem_iff, mem_closed_iff]
  simp

/-! ### Interruptions -/

/-- Ends leave open what is not among their steps. -/
theorem foldl_stepOpen_of_isEnd (hends : ∀ e ∈ ends, e.kind.isEnd = true) :
    ends.foldl stepOpen opened = opened.filter (· ∉ ends.map Event.id) := by
  induction ends generalizing opened with
  | nil => simp
  | cons e ends ih =>
    obtain ⟨he, hends⟩ := List.forall_mem_cons.mp hends
    rw [List.foldl_cons, ih hends, stepOpen, if_pos he, List.filter_filter]
    refine List.filter_congr fun id _ => ?_
    rw [Bool.eq_iff_iff]
    simp [and_comm]

/-- The events that interrupt the open steps. -/
theorem exists_interruptions (t : Timeline) (time : Nat) : ∃ interruptions : List Event,
    (t.interruptOpen time).events = t.events ++ interruptions ∧
      interruptions.map Event.id = t.openSteps ∧
      ∀ e ∈ interruptions, e.kind = .interrupted := by
  refine ⟨t.openSteps.map (⟨·, .interrupted, time⟩), rfl, ?_, fun e he => ?_⟩
  · rw [List.map_map]
    exact List.map_id _
  · obtain ⟨id, -, rfl⟩ := List.mem_map.mp he
    rfl

theorem openSteps_interruptOpen (t : Timeline) (time : Nat) :
    (t.interruptOpen time).openSteps = [] := by
  obtain ⟨interruptions, hevents, hids, hkinds⟩ := t.exists_interruptions time
  have hends : ∀ e ∈ interruptions, e.kind.isEnd = true := fun e he => by rw [hkinds e he]; rfl
  have hfold : (t.interruptOpen time).openSteps = interruptions.foldl stepOpen t.openSteps := by
    rw [openSteps, hevents, List.foldl_append]
    rfl
  rw [hfold, foldl_stepOpen_of_isEnd hends, hids]
  exact List.filter_eq_nil_iff.mpr fun id hid => by simpa using hid

/-- Where nothing is open there is nothing to interrupt. -/
theorem interruptOpen_eq_self (h : t.openSteps = []) : t.interruptOpen time = t := by
  rw [interruptOpen, h, List.map_nil, List.append_nil]

/-- Interruptions start nothing. -/
theorem startedIds_interruptOpen (t : Timeline) (time : Nat) :
    (t.interruptOpen time).startedIds = t.startedIds := by
  obtain ⟨interruptions, hevents, -, hkinds⟩ := t.exists_interruptions time
  have hnone : interruptions.filter (·.kind = .started) = [] :=
    List.filter_eq_nil_iff.mpr fun e he => by simp [hkinds e he]
  rw [startedIds, hevents, List.filter_append, hnone, List.append_nil]
  rfl

/-- **Every start is accounted for**, whatever the events are. A step is open if its last event is
a start, once for each start since its last end, and there is a duration for it if some end of it
comes after a start. The interruption of the open steps adds to the events that there are one for
each of them; then nothing is open any more, there is nothing left to interrupt, and there are
durations for all steps that were ever started. -/
theorem starts_accounted_for (t : Timeline) (time later : Nat) :
    (∀ id,
      (id ∈ t.openSteps ↔
        ∃ e, (t.events.filter (·.id = id)).getLast? = some e ∧ e.kind = .started) ∧
      t.openSteps.count id = (t.startsSinceEnd id).length ∧
      (id ∈ t.durations.map Prod.fst ↔ t.Finished id)) ∧
    (∃ interruptions : List Event,
      (t.interruptOpen time).events = t.events ++ interruptions ∧
      interruptions.map Event.id = t.openSteps ∧
      ∀ e ∈ interruptions, e.kind = .interrupted) ∧
    (t.interruptOpen time).openSteps = [] ∧
    (t.interruptOpen time).interruptOpen later = t.interruptOpen time ∧
    ∀ id, id ∈ (t.interruptOpen time).durations.map Prod.fst ↔ id ∈ t.startedIds := by
  have hclosed := t.openSteps_interruptOpen time
  refine ⟨fun id => ⟨mem_openSteps_iff_getLast?, count_openSteps, mem_durations_iff⟩,
    t.exists_interruptions time, hclosed, interruptOpen_eq_self hclosed, fun id => ?_⟩
  -- what was started is open or has ended since, and nothing is open
  rw [mem_durations_iff, ← startedIds_interruptOpen t time, started_iff_open_or_finished, hclosed]
  exact (or_iff_right List.not_mem_nil).symm

/-- A step that was started twice is open twice, and only its first interruption closes a span. -/
example :
    let t : Timeline := ⟨[⟨"b", .failed, 0⟩, ⟨"a", .started, 1⟩, ⟨"a", .started, 2⟩]⟩
    t.openSteps = ["a", "a"] ∧ (t.interruptOpen 5).durations = [("a", 3)] := by
  decide +kernel

end Timeline

end Conveyor
