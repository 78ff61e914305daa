import Conveyor.Run.Timeline
import Mathlib.Data.List.Induction
import Mathlib.Data.List.Nodup
import Mathlib.Order.Basic

/-!
# Steps start and end in turn

In a timeline that is in order (`Timeline.Ordered`) an event ends its step if the step is open, and
starts it if it is not. So the events of each step alternate (`Timeline.Ordered.alternates`), no
step is open twice, and the events by which all open steps are interrupted keep the timeline in
order (`Timeline.Ordered.interruptOpen`).
-/

namespace Conveyor

namespace Timeline

variable {t : Timeline} {e : Event} {id : String} {time : Nat} {opened rest : List String}

/-- The events of each step are a start, an end, the next start, and so on. -/
def Alternates (t : Timeline) : Prop :=
  ∀ id i e, (t.events.filter (·.id = id))[i]? = some e → (e.kind.isEnd ↔ i % 2 = 1)

/-- An event ends its step if the step is open, and starts it otherwise. -/
def Ordered (t : Timeline) : Prop :=
  ∀ before e after, t.events = before ++ e :: after →
    (e.kind.isEnd ↔ e.id ∈ (⟨before⟩ : Timeline).openSteps)

/-! ### Open steps -/

theorem openSteps_concat (events : List Event) (e : Event) :
    (⟨events ++ [e]⟩ : Timeline).openSteps = stepOpen (⟨events⟩ : Timeline).openSteps e := by
  rw [openSteps, List.foldl_append]
  rfl

theorem openSteps_record : (t.record e).openSteps = stepOpen t.openSteps e :=
  openSteps_concat t.events e

theorem mem_stepOpen : id ∈ stepOpen opened e ↔
    if e.id = id then e.kind.isEnd = false else id ∈ opened := by
  unfold stepOpen
  by_cases hid : e.id = id
  · subst hid
    cases e.kind.isEnd <;> simp
  · have hne : id ≠ e.id := fun h => hid h.symm
    cases e.kind.isEnd <;> simp [hid, hne]

/-! ### Ordered timelines -/

theorem ordered_empty : empty.Ordered := by
  intro before e after h
  exact absurd h.symm (List.append_ne_nil_of_right_ne_nil _ (List.cons_ne_nil _ _))

theorem Ordered.record (h : t.Ordered) (he : e.kind.isEnd ↔ e.id ∈ t.openSteps) :
    (t.record e).Ordered := by
  intro before e' after hevents
  rcases List.eq_nil_or_concat after with rfl | ⟨after, last, rfl⟩
  · obtain ⟨rfl, hlast⟩ := List.append_inj' hevents rfl
    obtain rfl := List.singleton_inj.mp hlast
    exact he
  · rw [List.concat_eq_append, ← List.cons_append, ← List.append_assoc] at hevents
    exact h before e' after (List.append_inj' hevents rfl).1

theorem Ordered.of_append {events later : List Event}
    (h : (⟨events ++ later⟩ : Timeline).Ordered) : (⟨events⟩ : Timeline).Ordered := by
  intro before e after hevents
  obtain rfl : events = before ++ e :: after := hevents
  exact h before e (after ++ later) (by simp)

theorem Ordered.of_concat {events : List Event} (h : (⟨events ++ [e]⟩ : Timeline).Ordered) :
    (⟨events⟩ : Timeline).Ordered ∧ (e.kind.isEnd ↔ e.id ∈ (⟨events⟩ : Timeline).openSteps) :=
  ⟨h.of_append, h events e [] rfl⟩

/-- No step is open twice. -/
theorem Ordered.nodup_openSteps (h : t.Ordered) : t.openSteps.Nodup := by
  obtain ⟨events⟩ := t
  induction events using List.reverseRecOn with
  | nil => exact List.nodup_nil
  | append_singleton events e ih =>
    obtain ⟨hevents, he⟩ := h.of_concat
    rw [openSteps_concat, stepOpen]
    split
    · exact (ih hevents).filter _
    · rename_i hstart
      refine List.Nodup.append (ih hevents) (List.nodup_singleton _) ?_
      rw [List.disjoint_singleton]
      exact mt he.mpr hstart

/-- A step is open if the number of its events is odd. -/
theorem Ordered.mem_openSteps_iff (h : t.Ordered) :
    id ∈ t.openSteps ↔ (t.events.filter (·.id = id)).length % 2 = 1 := by
  obtain ⟨events⟩ := t
  induction events using List.reverseRecOn with
  | nil => simp [openSteps]
  | append_singleton events e ih =>
    obtain ⟨hevents, he⟩ := h.of_concat
    have ih := ih hevents
    rw [openSteps_concat, mem_stepOpen, List.filter_append, List.length_append]
    by_cases hid : e.id = id
    · subst hid
      have hlength : (List.filter (fun x => decide (x.id = e.id)) [e]).length = 1 := by simp
      rw [if_pos rfl, hlength, ← Bool.not_eq_true, he, ih]
      dsimp only
      omega
    · simp [hid, ih]

/-- The events of each step alternate. -/
theorem Ordered.alternates (h : t.Ordered) : t.Alternates := by
  intro id i e he
  obtain ⟨hi, hget⟩ := List.getElem?_eq_some_iff.mp he
  have hsplit : t.events.filter (·.id = id) = (t.events.filter (·.id = id)).take i ++
      e :: (t.events.filter (·.id = id)).drop (i + 1) := by
    rw [← hget, List.getElem_cons_drop, List.take_append_drop]
  obtain ⟨before, rest, hevents, hbefore, hrest⟩ := List.filter_eq_append_iff.mp hsplit
  obtain ⟨others, after, rfl, hothers, hid, -⟩ := List.filter_eq_cons_iff.mp hrest
  obtain rfl : e.id = id := of_decide_eq_true hid
  rw [← List.append_assoc] at hevents
  -- among the events before it, those of its step are the first ones
  have hfilter : ((before ++ others).filter (·.id = e.id)).length = i := by
    rw [List.filter_append, hbefore, List.filter_eq_nil_iff.mpr hothers, List.append_nil,
      List.length_take, Nat.min_eq_left (Nat.le_of_lt hi)]
  have hordered : (⟨before ++ others⟩ : Timeline).Ordered := by
    obtain ⟨events⟩ := t
    obtain rfl : events = _ := hevents
    exact h.of_append
  rw [h _ e after hevents, hordered.mem_openSteps_iff, hfilter]

/-! ### Starting and ending steps -/

/-- A step that is started is open besides the others. -/
theorem openSteps_start (h : t.openSteps.Perm rest) :
    (t.record ⟨id, .started, time⟩).openSteps.Perm (id :: rest) := by
  rw [openSteps_record]
  exact (List.perm_append_singleton id t.openSteps).trans (h.cons id)

/-- A step that has ended leaves the others open. -/
theorem Ordered.openSteps_end {kind : EventKind} (hkind : kind.isEnd = true) (ht : t.Ordered)
    (h : t.openSteps.Perm (id :: rest)) :
    (t.record ⟨id, kind, time⟩).openSteps.Perm rest := by
  have hnotMem : id ∉ rest := (List.nodup_cons.mp (h.nodup_iff.mp ht.nodup_openSteps)).1
  have hfilter : (id :: rest).filter (· ≠ id) = rest := by
    have hrest : rest.filter (· ≠ id) = rest := List.filter_eq_self.mpr fun other hother =>
      decide_eq_true fun heq => hnotMem (heq ▸ hother)
    simpa using hrest
  rw [openSteps_record, stepOpen, if_pos hkind]
  exact hfilter ▸ h.filter _

/-- Interrupting open steps one after another. -/
private theorem Ordered.interrupt (ids : List String) (ht : t.Ordered)
    (h : t.openSteps.Perm (ids ++ rest)) :
    let t' : Timeline := ⟨t.events ++ ids.map (⟨·, .interrupted, time⟩)⟩
    t'.Ordered ∧ t'.openSteps.Perm rest := by
  induction ids generalizing t with
  | nil => simpa using ⟨ht, h⟩
  | cons id ids ih =>
    have hopen : id ∈ t.openSteps := h.mem_iff.mpr List.mem_cons_self
    have hrecord : (t.record ⟨id, .interrupted, time⟩).Ordered := ht.record (iff_of_true rfl hopen)
    have hnext := ih hrecord (ht.openSteps_end rfl h)
    simpa [Timeline.record] using hnext

/-- When all open steps are interrupted, none is open, and the timeline is still in order. -/
theorem Ordered.interruptOpen (h : t.Ordered) (time : Nat) :
    (t.interruptOpen time).Ordered ∧ (t.interruptOpen time).openSteps = [] := by
  have hperm : t.openSteps.Perm (t.openSteps ++ []) := by rw [List.append_nil]
  have ⟨hordered, hclosed⟩ : (t.interruptOpen time).Ordered ∧
      (t.interruptOpen time).openSteps.Perm [] := h.interrupt t.openSteps hperm
  exact ⟨hordered, hclosed.eq_nil⟩

end Timeline

end Conveyor
