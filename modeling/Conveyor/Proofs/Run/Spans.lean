import Conveyor.Proofs.Keyed
import Conveyor.Proofs.Run.Alternation

/-!
# Spans and durations

In a timeline that is in order, each start has been turned into a span or is the start of an open
step, and nothing else is (`Timeline.Ordered.tallies`). So where nothing is open and no step was
started twice, there is one duration for each start, and it is the time from this start to the only
end of its step (`Timeline.Ordered.mem_durations`).
-/

namespace Conveyor

namespace Keyed

variable {κ α : Type} [DecidableEq κ] [LT κ] [DecidableLT κ] {entries rows : List (κ × α)}
  {key : κ}

theorem insert_perm (value : α) (h : key ∉ entries.map Prod.fst) :
    (insert key value entries).Perm ((key, value) :: entries) := by
  induction entries with
  | nil => exact .refl _
  | cons e entries ih =>
    obtain ⟨k, v⟩ := e
    rw [List.map_cons, List.mem_cons, not_or] at h
    rw [insert, if_neg (Ne.symm h.1)]
    split
    · exact .refl _
    · exact ((ih h.2).cons _).trans (.swap _ _ _)

/-- Nothing is lost of entries with distinct keys. -/
theorem foldl_insert_perm (h : ((rows ++ entries).map Prod.fst).Nodup) :
    (rows.foldl (fun acc e => insert e.1 e.2 acc) entries).Perm (rows ++ entries) := by
  induction rows generalizing entries with
  | nil => exact .refl _
  | cons e rows ih =>
    rw [List.cons_append, List.map_cons, List.nodup_cons, List.map_append, List.mem_append,
      not_or] at h
    have hinsert := insert_perm e.2 h.1.2
    have hperm : (rows ++ insert e.1 e.2 entries).Perm (e :: (rows ++ entries)) :=
      (hinsert.append_left rows).trans List.perm_middle
    have hnodup : ((rows ++ insert e.1 e.2 entries).map Prod.fst).Nodup := by
      refine (hperm.map Prod.fst).nodup_iff.mpr (List.nodup_cons.mpr ⟨?_, ?_⟩)
      · rw [List.map_append, List.mem_append, not_or]
        exact h.1
      · rw [List.map_append]
        exact h.2
    exact (ih hnodup).trans hperm

end Keyed

namespace Timeline

variable {t : Timeline} {e : Event} {events : List Event} {starts : List (String × Nat)}
  {spans : List Span}

/-! ### Starts -/

theorem isEnd_eq_false_iff {kind : EventKind} : kind.isEnd = false ↔ kind = .started := by
  cases kind <;> simp [EventKind.isEnd]

theorem ne_started_of_isEnd {kind : EventKind} (h : kind.isEnd = true) : kind ≠ .started :=
  fun heq => Bool.false_ne_true ((isEnd_eq_false_iff.mpr heq).symm.trans h)

/-- The ids of the steps and branches that were started, once for each start. -/
def startedIds (t : Timeline) : List String :=
  (t.events.filter (·.kind = .started)).map Event.id

theorem startedIds_concat : (⟨events ++ [e]⟩ : Timeline).startedIds =
    (⟨events⟩ : Timeline).startedIds ++ if e.kind.isEnd then [] else [e.id] := by
  rw [startedIds, List.filter_append, List.map_append]
  cases hend : e.kind.isEnd with
  | true => simp [startedIds, ne_started_of_isEnd hend]
  | false => simp [startedIds, isEnd_eq_false_iff.mp hend]

/-! ### Spans -/

/-- What the starts that are kept and the spans that are closed say about the events so far. -/
structure Tallies (events : List Event) (starts : List (String × Nat)) (spans : List Span) :
    Prop where
  nodup : (starts.map Prod.fst).Nodup
  /-- The starts that are kept are those of open steps. -/
  opened (id : String) : id ∈ starts.map Prod.fst ↔ id ∈ (⟨events⟩ : Timeline).openSteps
  kept (id : String) (time : Nat) (h : (id, time) ∈ starts) : ⟨id, .started, time⟩ ∈ events
  closed (s : Span) (h : s ∈ spans) : ⟨s.id, .started, s.start⟩ ∈ events ∧
    ∃ kind : EventKind, kind.isEnd = true ∧ ⟨s.id, kind, s.stop⟩ ∈ events
  /-- Every start is one or the other. -/
  ids : (starts.map Prod.fst ++ spans.map Span.id).Perm (⟨events⟩ : Timeline).startedIds

theorem Tallies.start (h : Tallies events starts spans) (hstart : e.kind.isEnd = false)
    (hnew : e.id ∉ (⟨events⟩ : Timeline).openSteps) :
    Tallies (events ++ [e]) ((e.id, e.time) :: starts) spans := by
  have hkey : e.id ∉ starts.map Prod.fst := mt (h.opened e.id).mp hnew
  have hevent : (⟨e.id, .started, e.time⟩ : Event) = e := by
    rw [← isEnd_eq_false_iff.mp hstart]
  constructor
  case nodup => exact List.nodup_cons.mpr ⟨hkey, h.nodup⟩
  case opened =>
    intro id
    rw [List.map_cons, List.mem_cons, h.opened, openSteps_concat, mem_stepOpen, hstart]
    by_cases hid : e.id = id
    · simp [hid]
    · simp [hid, Ne.symm hid]
  case kept =>
    intro id time hmem
    rcases List.mem_cons.mp hmem with heq | hmem
    · obtain ⟨rfl, rfl⟩ := Prod.mk.inj heq
      exact List.mem_append_right _ (by rw [hevent]; exact List.mem_singleton_self e)
    · exact List.mem_append_left _ (h.kept id time hmem)
  case closed =>
    intro s hs
    obtain ⟨hstarted, kind, hkind, hended⟩ := h.closed s hs
    exact ⟨List.mem_append_left _ hstarted, kind, hkind, List.mem_append_left _ hended⟩
  case ids =>
    rw [startedIds_concat, hstart]
    exact (h.ids.cons e.id).trans (List.perm_append_singleton _ _).symm

theorem Tallies.stop (h : Tallies events starts spans) (hend : e.kind.isEnd = true) {time : Nat}
    (htime : starts.lookup e.id = some time) :
    Tallies (events ++ [e]) (Keyed.erase e.id starts) (spans ++ [⟨e.id, time, e.time⟩]) := by
  -- the start that was kept moves from the starts to the spans
  obtain ⟨l₁, l₂, hstarts, herase⟩ := Keyed.erase_of_lookup h.nodup htime
  have hmiddle : (starts.map Prod.fst).Perm (e.id :: (Keyed.erase e.id starts).map Prod.fst) := by
    rw [herase, hstarts, List.map_append, List.map_append, List.map_cons]
    exact List.perm_middle
  obtain ⟨hkey, hnodup⟩ := List.nodup_cons.mp (hmiddle.nodup_iff.mp h.nodup)
  constructor
  case nodup => exact hnodup
  case opened =>
    intro id
    rw [openSteps_concat, mem_stepOpen, hend]
    have hopened := h.opened id
    rw [hmiddle.mem_iff, List.mem_cons] at hopened
    by_cases hid : e.id = id
    · subst hid
      simpa using hkey
    · rw [if_neg hid, ← hopened]
      simp [Ne.symm hid]
  case kept =>
    intro id time hmem
    exact List.mem_append_left _ (h.kept id time (Keyed.erase_sublist.subset hmem))
  case closed =>
    intro s hs
    rcases List.mem_append.mp hs with hs | hs
    · obtain ⟨hstarted, kind, hkind, hended⟩ := h.closed s hs
      exact ⟨List.mem_append_left _ hstarted, kind, hkind, List.mem_append_left _ hended⟩
    · obtain rfl := List.mem_singleton.mp hs
      exact ⟨List.mem_append_left _ (h.kept _ _ (Keyed.mem_of_lookup htime)), e.kind, hend,
        List.mem_append_right _ (List.mem_singleton_self e)⟩
  case ids =>
    rw [startedIds_concat, hend, List.map_append]
    have hmove : ((Keyed.erase e.id starts).map Prod.fst ++ (spans.map Span.id ++ [e.id])).Perm
        (e.id :: ((Keyed.erase e.id starts).map Prod.fst ++ spans.map Span.id)) := by
      rw [← List.append_assoc]
      exact List.perm_append_singleton _ _
    have hback : (e.id :: ((Keyed.erase e.id starts).map Prod.fst ++ spans.map Span.id)).Perm
        (starts.map Prod.fst ++ spans.map Span.id) :=
      hmiddle.symm.append_right (spans.map Span.id)
    simpa using (hmove.trans hback).trans h.ids

/-- In a timeline in order each end closes the span of an open step. -/
theorem Ordered.tallies (h : t.Ordered) :
    Tallies t.events (t.events.foldl stepSpans ([], [])).1
      (t.events.foldl stepSpans ([], [])).2 := by
  obtain ⟨events⟩ := t
  induction events using List.reverseRecOn with
  | nil => exact ⟨List.nodup_nil, by simp [openSteps], nofun, nofun, .refl _⟩
  | append_singleton events e ih =>
    obtain ⟨hevents, he⟩ := h.of_concat
    have ih := ih hevents
    rw [List.foldl_append, List.foldl_cons, List.foldl_nil]
    revert ih
    generalize events.foldl stepSpans ([], []) = acc
    obtain ⟨starts, spans⟩ := acc
    intro ih
    cases hkind : e.kind.isEnd with
    | false =>
      have hnew : e.id ∉ (⟨events⟩ : Timeline).openSteps := by
        rw [← he, hkind]
        exact Bool.false_ne_true
      -- there is no earlier start of this step that the new one would replace
      have hothers : starts.filter (·.1 ≠ e.id) = starts := by
        refine List.filter_eq_self.mpr fun entry hentry => decide_eq_true fun heq => ?_
        exact hnew ((ih.opened e.id).mp (heq ▸ List.mem_map_of_mem hentry))
      simp only [stepSpans, hkind, Bool.false_eq_true, if_false, hothers]
      exact ih.start hkind hnew
    | true =>
      have hopen : e.id ∈ starts.map Prod.fst := (ih.opened e.id).mpr (he.mp hkind)
      obtain ⟨time, htime⟩ := Option.isSome_iff_exists.mp (Keyed.isSome_lookup_iff.mpr hopen)
      simp only [stepSpans, hkind, if_true, htime]
      exact ih.stop hkind htime

/-! ### Durations -/

/-- A step that was started once and is not open has two events, its start and its end. -/
theorem Ordered.exists_filter_eq (h : t.Ordered) (hclosed : t.openSteps = [])
    (hnodup : t.startedIds.Nodup) (he : e ∈ t.events) (hstart : e.kind = .started) :
    ∃ stop : Event, stop.kind.isEnd = true ∧ t.events.filter (·.id = e.id) = [e, stop] := by
  have hmem : e ∈ t.events.filter (·.id = e.id) := List.mem_filter.mpr ⟨he, decide_eq_true rfl⟩
  have hkinds := h.alternates e.id
  have heven : (t.events.filter (·.id = e.id)).length % 2 = 0 := by
    have hodd := mt h.mem_openSteps_iff.mpr (hclosed ▸ List.not_mem_nil (a := e.id))
    omega
  have hids {a b : Event} (hab : [a, b].Sublist (t.events.filter (·.id = e.id)))
      (ha : a.kind = .started) (hb : b.kind = .started) : a.id ≠ b.id := by
    have hstarts := (hab.trans List.filter_sublist).filter (·.kind = .started)
    simp only [List.filter_cons, ha, hb, decide_true, if_true, List.filter_nil] at hstarts
    have hpair := hnodup.sublist (hstarts.map Event.id)
    simpa using hpair
  have hid {a : Event} (ha : a ∈ t.events.filter (·.id = e.id)) : a.id = e.id :=
    of_decide_eq_true (List.mem_filter.mp ha).2
  revert hmem hkinds heven hids hid
  generalize t.events.filter (·.id = e.id) = own
  intro hmem hkinds heven hids hid
  rcases own with - | ⟨first, - | ⟨stop, - | ⟨again, rest⟩⟩⟩
  · cases hmem
  · simp at heven
  · have hstop : stop.kind.isEnd = true := (hkinds 1 stop rfl).mpr rfl
    have hne : e ≠ stop := fun heq => ne_started_of_isEnd hstop (heq ▸ hstart)
    obtain rfl : e = first := by simpa [hne] using hmem
    exact ⟨stop, hstop, rfl⟩
  · -- the third event would be another start
    have hfirst : first.kind = .started := isEnd_eq_false_iff.mp
      (Bool.eq_false_iff.mpr fun hend => by simpa using (hkinds 0 _ rfl).mp hend)
    have hagain : again.kind = .started := isEnd_eq_false_iff.mp
      (Bool.eq_false_iff.mpr fun hend => by simpa using (hkinds 2 _ rfl).mp hend)
    have hsub : [first, again].Sublist (first :: stop :: again :: rest) := by simp
    have heq : first.id = again.id := (hid (by simp)).trans (hid (by simp)).symm
    exact absurd heq (hids hsub hfirst hagain)

/-- The entry that a span makes among the durations. -/
def spanEntry (s : Span) : String × Nat :=
  (s.id, s.stop - s.start)

/-- Where nothing is open and nothing was started twice, there is one duration for each start. -/
theorem Ordered.durations_perm (h : t.Ordered) (hclosed : t.openSteps = [])
    (hnodup : t.startedIds.Nodup) :
    (t.durations.map Prod.fst).Perm t.startedIds ∧ t.durations.Perm (t.spans.map spanEntry) := by
  have htallies := h.tallies
  have hspans : t.spans.Perm (t.events.foldl stepSpans ([], [])).2 := List.mergeSort_perm _ _
  -- a start that is kept is that of an open step
  have hstarts : (t.events.foldl stepSpans ([], [])).1 = [] := by
    refine List.eq_nil_iff_forall_not_mem.mpr fun entry hentry => ?_
    have hopen : entry.1 ∈ t.openSteps := (htallies.opened entry.1).mp (List.mem_map_of_mem hentry)
    rw [hclosed] at hopen
    cases hopen
  have hids : (t.spans.map Span.id).Perm t.startedIds := by
    have hall := htallies.ids
    rw [hstarts] at hall
    exact (hspans.map Span.id).trans hall
  have hkeys : ((t.spans.map spanEntry ++ []).map Prod.fst).Perm t.startedIds := by
    rw [List.append_nil, List.map_map]
    exact hids
  have hdurations : t.durations.Perm (t.spans.map spanEntry) := by
    have hfold : t.durations =
        (t.spans.map spanEntry).foldl (fun acc e => Keyed.insert e.1 e.2 acc) [] := by
      rw [List.foldl_map]
      rfl
    have hperm := Keyed.foldl_insert_perm (hkeys.nodup_iff.mpr hnodup)
    rwa [List.append_nil, ← hfold] at hperm
  rw [List.append_nil] at hkeys
  exact ⟨(hdurations.map Prod.fst).trans hkeys, hdurations⟩

/-- The duration of a step is the time from its start to its end. -/
theorem Ordered.mem_durations (h : t.Ordered) (hclosed : t.openSteps = [])
    (hnodup : t.startedIds.Nodup) (he : e ∈ t.events) (hstart : e.kind = .started) :
    ∃ stop : Event, stop.kind.isEnd = true ∧ t.events.filter (·.id = e.id) = [e, stop] ∧
      (e.id, stop.time - e.time) ∈ t.durations := by
  obtain ⟨stop, hstop, hfilter⟩ := h.exists_filter_eq hclosed hnodup he hstart
  obtain ⟨hids, hdurations⟩ := h.durations_perm hclosed hnodup
  have hid : e.id ∈ t.startedIds :=
    List.mem_map_of_mem (List.mem_filter.mpr ⟨he, decide_eq_true hstart⟩)
  obtain ⟨entry, hentry, hentryId⟩ := List.mem_map.mp (hids.mem_iff.mpr hid)
  obtain ⟨s, hs, rfl⟩ := List.mem_map.mp (hdurations.mem_iff.mp hentry)
  have hsid : s.id = e.id := hentryId
  have hs' : s ∈ (t.events.foldl stepSpans ([], [])).2 :=
    (List.mergeSort_perm _ _).mem_iff.mp hs
  -- both events of the span are among those of its step
  obtain ⟨hstarted, kind, hkind, hended⟩ := h.tallies.closed s hs'
  have hown {a : Event} (ha : a ∈ t.events) (haid : a.id = e.id) : a = e ∨ a = stop := by
    have hmem : a ∈ t.events.filter (·.id = e.id) := List.mem_filter.mpr ⟨ha, decide_eq_true haid⟩
    rw [hfilter] at hmem
    simpa using hmem
  have hstartTime : s.start = e.time := by
    rcases hown hstarted hsid with heq | heq
    · exact congrArg Event.time heq
    · rw [← heq] at hstop
      cases hstop
  have hstopTime : s.stop = stop.time := by
    rcases hown hended hsid with heq | heq
    · have hekind : kind = e.kind := congrArg Event.kind heq
      rw [hekind, hstart] at hkind
      cases hkind
    · exact congrArg Event.time heq
  refine ⟨stop, hstop, hfilter, ?_⟩
  rw [← hstartTime, ← hstopTime, ← hsid]
  exact hentry

end Timeline

end Conveyor
