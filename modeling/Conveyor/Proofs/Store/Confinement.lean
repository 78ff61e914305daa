import Conveyor.Proofs.Store.Agreement
import Conveyor.Proofs.Store.Places
import Mathlib.Data.List.Infix

/-!
# A store on files stays in its folder

A reference to an object is refused, and then nothing is touched, or its file lies in the folder of
the objects, at least two names below it, and only this file is written, removed or read; folders
are made on the way to it only (`FileStore.confined`). So whatever is asked of the objects of a
store, the files outside of their folder stay as they are, and have no influence on the answers.

A container and a key are texts. What counts of them are the names between their slashes, without
the empty ones and without `.`; a text is refused that begins with a slash or with `.`, or has `..`
among its names, so that the rest leads down only.
-/

namespace Conveyor

/-! ### The parts of a reference -/

/-- A name that leads one folder down, or to a file. -/
structure Route.Plain (name : String) : Prop where
  ne_empty : name ≠ ""
  slash_notMem : '/' ∉ name.toList
  ne_dot : name ≠ "."
  ne_dots : name ≠ ".."

namespace Route

/-- What is between two cuts is not cut. -/
theorem splitOnP_uncut {cut : Char → Bool} {text piece : List Char}
    (h : piece ∈ text.splitOnP cut) : ∀ c ∈ piece, cut c = false := by
  induction text generalizing piece with
  | nil =>
    obtain rfl : piece = [] := by simpa using h
    exact fun c hc => absurd hc List.not_mem_nil
  | cons first text ih =>
    rw [List.splitOnP_cons_eq_if_modifyHead] at h
    split at h
    · rcases List.mem_cons.mp h with rfl | hrest
      · exact fun c hc => absurd hc List.not_mem_nil
      · exact ih hrest
    · -- the first piece is longer by one character
      rename_i hfirst
      cases hpieces : text.splitOnP cut with
      | nil => exact absurd hpieces (List.splitOnP_ne_nil cut text)
      | cons head pieces =>
        rw [hpieces, List.modifyHead_cons] at h
        rcases List.mem_cons.mp h with rfl | hrest
        · refine List.forall_mem_cons.mpr ⟨Bool.eq_false_iff.mpr hfirst, ?_⟩
          exact ih (hpieces ▸ List.mem_cons_self)
        · exact ih (hpieces ▸ List.mem_cons_of_mem _ hrest)

theorem namesOf_spec {text : List Char} {name : String} (h : name ∈ namesOf text) :
    name ≠ "" ∧ '/' ∉ name.toList := by
  obtain ⟨piece, hpiece, rfl⟩ := List.mem_map.mp h
  obtain ⟨hmem, hne⟩ := List.mem_filter.mp hpiece
  refine ⟨fun hempty => ?_, fun hslash => ?_⟩
  · have hnil : piece = [] := by simpa using congrArg String.toList hempty
    simp [hnil] at hne
  · rw [String.toList_ofList] at hslash
    simpa using splitOnP_uncut hmem '/' hslash

theorem namesOf_eq_singleton {name : String} (hne : name ≠ "") (hslash : '/' ∉ name.toList) :
    namesOf name.toList = [name] := by
  have hpiece : name.toList.splitOnP (· == '/') = [name.toList] :=
    List.splitOnP_eq_singleton fun c hc => beq_false_of_ne fun heq => hslash (heq ▸ hc)
  have hkept : [name.toList].filter (!·.isEmpty) = [name.toList] := by simp [hne]
  rw [namesOf, hpiece, hkept, List.map_singleton, String.ofList_toList]

end Route

namespace FileStore

variable {s : FileStore} {r : ObjectRef} {p : Place} {part : String}

/-- The names that count in a container or a key. -/
def components (part : String) : List String :=
  (Route.namesOf part.toList).filter (· ≠ ".")

/-- A container and a key that both lead down. -/
def Refers (r : ObjectRef) : Prop :=
  leadsDown r.container = true ∧ leadsDown r.key = true

theorem leadsDown_spec (h : leadsDown part = true) :
    part.toList.head? ≠ some '/' ∧ (∃ name ∈ Route.namesOf part.toList, name ≠ ".") ∧
      ".." ∉ Route.namesOf part.toList := by
  simp only [leadsDown, Bool.and_eq_true, bne_iff_ne, Bool.not_eq_true', List.contains_eq_mem,
    decide_eq_false_iff_not] at h
  obtain ⟨⟨⟨hslash, hnames⟩, hdot⟩, hdots⟩ := h
  refine ⟨hslash, ?_, hdots⟩
  cases hfirst : Route.namesOf part.toList with
  | nil => simp [hfirst] at hnames
  | cons name names =>
    exact ⟨name, List.mem_cons_self, fun heq => hdot (by rw [hfirst, heq, List.head?_cons])⟩

/-- What counts of a part that leads down is a way down. -/
theorem components_spec (h : leadsDown part = true) :
    components part ≠ [] ∧ ∀ name ∈ components part, Route.Plain name := by
  obtain ⟨-, ⟨name, hname, hdot⟩, hdots⟩ := leadsDown_spec h
  have hcounts : name ∈ components part := List.mem_filter.mpr ⟨hname, by simpa using hdot⟩
  refine ⟨List.ne_nil_of_mem hcounts, fun name hname => ?_⟩
  obtain ⟨hmem, hdot⟩ := List.mem_filter.mp hname
  obtain ⟨hempty, hslash⟩ := Route.namesOf_spec hmem
  exact ⟨hempty, hslash, by simpa using hdot, fun heq => hdots (heq ▸ hmem)⟩

/-! ### The files of objects -/

/-- The folder of the containers. -/
def root (s : FileStore) : Place :=
  s.objects.leadsTo

/-- The place where an object has its file. -/
def fileOf (s : FileStore) (r : ObjectRef) : Place :=
  s.root ++ (components r.container ++ components r.key)

/-- A folder that is passed on the way to the folder of the containers, or from there to the file of
an object. -/
def Above (s : FileStore) (r : ObjectRef) (p : Place) : Prop :=
  Route.Passed s.objects.start s.objects.names p ∨
    s.root <+: p ∧ p <+: s.fileOf r ∧ p ≠ s.fileOf r

/-- The error for a reference that leads elsewhere. -/
def refusal (r : ObjectRef) : CallError :=
  .invalidInput "storage" ("invalid object reference '" ++ r.text ++ "'")

theorem locate_of_not_refers (h : ¬ Refers r) : s.locate r = .error (refusal r) :=
  if_neg (by simpa [Refers] using h)

/-- The names that are written in a container and a key. -/
def writtenNames (r : ObjectRef) : List String :=
  Route.namesOf r.container.toList ++ Route.namesOf r.key.toList

/-- The route of an object goes on from that of the containers along the names of its parts. -/
theorem locate_of_refers (h : Refers r) : ∃ slash,
    s.locate r = .ok ⟨s.objects.start, s.objects.names ++ writtenNames r, slash⟩ := by
  have hcontainer := (leadsDown_spec h.1).1
  have hkey := (leadsDown_spec h.2).1
  refine ⟨((s.objects.join r.container).join r.key).slash, ?_⟩
  rw [locate, if_pos (by simpa [Refers] using h)]
  simp only [Route.join, if_neg hcontainer, if_neg hkey, Route.ofText, List.append_assoc,
    writtenNames]

theorem fileOf_eq : s.fileOf r = s.root ++ (writtenNames r).filter (· ≠ ".") := by
  rw [fileOf, writtenNames, List.filter_append]
  rfl

section Refers

variable (h : Refers r) {slash : Bool}

include h

theorem names_ne_dots : ".." ∉ writtenNames r := by
  rw [writtenNames, List.mem_append, not_or]
  exact ⟨(leadsDown_spec h.1).2.2, (leadsDown_spec h.2).2.2⟩

theorem leadsTo_eq :
    Route.leadsTo ⟨s.objects.start, s.objects.names ++ writtenNames r, slash⟩ = s.fileOf r := by
  rw [Route.leadsTo, Route.walk_append, Route.walk_eq_append (names_ne_dots h), fileOf_eq]
  rfl

/-- What is passed on the way to a file is above it, or the file itself. -/
theorem passed_cases (hp : Route.Passed s.objects.start (s.objects.names ++ writtenNames r) p) :
    p = s.fileOf r ∨ s.Above r p := by
  rw [or_iff_not_imp_left]
  intro hne
  rcases Route.passed_append (names_ne_dots h) hp with hroot | ⟨first, hfirst, rfl⟩
  · exact .inl hroot
  · refine .inr ⟨List.prefix_append _ _, ?_, hne⟩
    rw [fileOf_eq]
    exact (List.prefix_append_right_inj _).mpr (hfirst.filter _)

theorem passed_parents (hp : Route.Passed s.objects.start
      (Route.parentNames ⟨s.objects.start, s.objects.names ++ writtenNames r, slash⟩) p) :
    s.Above r p := by
  obtain ⟨name, hname, hdot⟩ := (leadsDown_spec h.2).2.1
  have hcounts : ∃ name ∈ writtenNames r, name ≠ "." :=
    ⟨name, List.mem_append_right _ hname, hdot⟩
  obtain ⟨first, last, hparents, hnames, name, hlast, hdot⟩ := Route.exists_parentNames hcounts
  rw [hparents] at hp
  have hfirst : first <+: writtenNames r := ⟨last, hnames.symm⟩
  rcases Route.passed_append (fun hmem => names_ne_dots h (hfirst.subset hmem)) hp with
    hroot | ⟨before, hbefore, rfl⟩
  · exact .inl hroot
  · refine .inr ⟨List.prefix_append _ _, ?_, fun heq => ?_⟩
    · rw [fileOf_eq]
      exact (List.prefix_append_right_inj _).mpr ((hbefore.trans hfirst).filter _)
    · -- a name that counts comes after all folders
      rw [fileOf_eq, hnames, List.filter_append] at heq
      have hshort := (hbefore.filter (· ≠ ".")).length_le
      have hlong : 0 < (last.filter (· ≠ ".")).length :=
        List.length_pos_of_mem (List.mem_filter.mpr ⟨hlast, by simpa using hdot⟩)
      have hlength := congrArg List.length (List.append_cancel_left heq)
      rw [List.length_append] at hlength
      omega

end Refers

/-- A route that leads to the file of an object. -/
structure LeadsTo (s : FileStore) (r : ObjectRef) (route : Route) : Prop where
  refers : Refers r
  place : route.leadsTo = s.fileOf r
  passed (p : Place) (h : Route.Passed route.start route.names p) : p = s.fileOf r ∨ s.Above r p
  parents (p : Place) (h : Route.Passed route.start route.parentNames p) : s.Above r p

theorem leadsTo_of_locate {route : Route} (h : s.locate r = .ok route) : s.LeadsTo r route := by
  by_cases hrefers : Refers r
  · obtain ⟨slash, hlocate⟩ := locate_of_refers (s := s) hrefers
    obtain rfl := Except.ok.inj (hlocate.symm.trans h)
    exact ⟨hrefers, leadsTo_eq hrefers, fun p => passed_cases hrefers,
      fun p => passed_parents hrefers⟩
  · rw [locate_of_not_refers hrefers] at h
    cases h

/-! ### What the operations change -/

/-- The files of the objects in a set that are not refused. -/
def FilesOf (s : FileStore) (K : ObjectRef → Prop) (p : Place) : Prop :=
  ∃ r, K r ∧ Refers r ∧ p = s.fileOf r

/-- The folders above the files of the objects in a set that are not refused. -/
def FoldersOf (s : FileStore) (K : ObjectRef → Prop) (p : Place) : Prop :=
  ∃ r, K r ∧ Refers r ∧ s.Above r p

section Changes

open Conveyor.Tree (Changes)

variable {K : ObjectRef → Prop} {source destination : ObjectRef} {route : Route}

theorem changes_of_leadsTo (hr : K r) (hroute : s.LeadsTo r route) {t t' : Tree}
    (h : t.Changes (· = route.leadsTo) (fun _ => False) t') :
    t.Changes (s.FilesOf K) (s.FoldersOf K) t' :=
  h.mono (fun _ hp => ⟨r, hr, hroute.refers, hp.trans hroute.place⟩) fun _ => False.elim

theorem makeParents_changes (hr : K r) (hroute : s.LeadsTo r route) :
    (makeParents route).Stays (Changes (s.FilesOf K) (s.FoldersOf K)) :=
  fun t => (t.makeParents_changes route).mono (fun _ => False.elim)
    fun p hp => ⟨r, hr, hroute.refers, hroute.parents p hp⟩

theorem copy_changes (hr : K destination) :
    (s.copy source destination).Stays (Changes (s.FilesOf K) (s.FoldersOf K)) :=
  .check .refl fun _ _ => .check .refl fun _ htarget =>
    .bind .trans (makeParents_changes hr (leadsTo_of_locate htarget)) fun _ =>
      .ofUpdate .refl fun _ _ h => changes_of_leadsTo hr (leadsTo_of_locate htarget)
        (Tree.copy_changes (Except.mapError_eq_ok.mp h))

theorem get_changes (object : ObjectRef) :
    (s.get object).Stays (Changes (s.FilesOf K) (s.FoldersOf K)) :=
  .check .refl fun _ _ => fun t => .refl t

theorem has_changes (object : ObjectRef) :
    (s.has object).Stays (Changes (s.FilesOf K) (s.FoldersOf K)) :=
  .check .refl fun _ _ => fun t => .refl t

theorem delete_changes (hr : K r) :
    (s.delete r).Stays (Changes (s.FilesOf K) (s.FoldersOf K)) := by
  refine .check .refl fun route hroute => .ofUpdate .refl fun t (there, t') h => ?_
  split at h
  · rename_i t'' hremove
    obtain ⟨-, rfl⟩ := Prod.mk.inj (Except.ok.inj h)
    exact changes_of_leadsTo hr (leadsTo_of_locate hroute) (Tree.remove_changes hremove)
  · obtain ⟨-, rfl⟩ := Prod.mk.inj (Except.ok.inj h)
    exact .refl t
  · cases h

theorem put_changes (hr : K r) (body : ByteArray) :
    (s.put r body).Stays (Changes (s.FilesOf K) (s.FoldersOf K)) := by
  refine .check .refl fun route hroute =>
    .bind .trans (makeParents_changes hr (leadsTo_of_locate hroute)) fun _ =>
      .ofUpdate .refl fun t (_, t') h => changes_of_leadsTo hr (leadsTo_of_locate hroute) ?_
  obtain ⟨t'', hwrite, heq⟩ := Except.map_eq_ok.mp (Except.mapError_eq_ok.mp h)
  obtain ⟨-, rfl⟩ := Prod.mk.inj heq
  exact Tree.write_changes hwrite

end Changes

/-! ### What the operations see -/

section Alike

open Conveyor.Tree (Alike)

variable {passed seen : Place → Prop} {source destination : ObjectRef} {route : Route}

/-- What is needed to see the file of an object. -/
structure Sees (s : FileStore) (passed seen : Place → Prop) (r : ObjectRef) : Prop where
  file (h : Refers r) : seen (s.fileOf r) ∧ passed (s.fileOf r)
  above (h : Refers r) (p : Place) (hp : s.Above r p) : passed p

theorem Sees.way (h : s.Sees passed seen r) (hroute : s.LeadsTo r route) (p : Place)
    (hp : Route.Passed route.start route.names p) : passed p := by
  rcases hroute.passed p hp with rfl | habove
  · exact (h.file hroute.refers).2
  · exact h.above hroute.refers p habove

theorem makeParents_alike (h : s.Sees passed seen r) (hroute : s.LeadsTo r route) :
    Call.Alike (Alike passed seen) (· = ·) (makeParents route) (makeParents route) := by
  intro t t' ht
  obtain ⟨hresult, hafter⟩ := ht.makeParents fun p hp =>
    h.above hroute.refers p (hroute.parents p hp)
  refine ⟨?_, hafter⟩
  dsimp only [makeParents]
  rw [hresult]
  exact .refl _

theorem get_alike (h : s.Sees passed seen r) :
    Call.Alike (Alike passed seen) (· = ·) (s.get r) (s.get r) := by
  refine .check fun route hroute t t' ht => ?_
  have hlead := leadsTo_of_locate hroute
  have hfind := ht.find_eq (h.way hlead) (hlead.place ▸ (h.file hlead.refers).1)
  refine ⟨?_, ht⟩
  simp only [Call.ofRead, Tree.read, hfind]
  exact .refl _

theorem has_alike (h : s.Sees passed seen r) :
    Call.Alike (Alike passed seen) (· = ·) (s.has r) (s.has r) := by
  refine .check fun route hroute t t' ht => ?_
  have hlead := leadsTo_of_locate hroute
  have hfind := ht.find_eq (h.way hlead) (hlead.place ▸ (h.file hlead.refers).1)
  refine ⟨?_, ht⟩
  simp only [Call.ofRead, Tree.has, hfind]
  exact .refl _

theorem put_alike (h : s.Sees passed seen r) (body : ByteArray) :
    Call.Alike (Alike passed seen) (· = ·) (s.put r body) (s.put r body) := by
  refine .check fun route hroute => ?_
  have hlead := leadsTo_of_locate hroute
  refine .bind (makeParents_alike h hlead) fun _ _ _ t t' ht => ?_
  have htarget := ht.target_eq (h.way hlead)
  simp only [Call.ofUpdate, Tree.write, ← htarget]
  cases hplace : t.target route with
  | error fault => exact ⟨.error _, ht⟩
  | ok place =>
    have hbefore := (Tree.target_place hplace).2
    have hbefore' := (Tree.target_place (htarget ▸ hplace)).2
    exact ⟨.ok trivial, ht.withFile hbefore hbefore'⟩

theorem delete_alike (h : s.Sees passed seen r) :
    Call.Alike (Alike passed seen) (· = ·) (s.delete r) (s.delete r) := by
  refine .check fun route hroute t t' ht => ?_
  have hlead := leadsTo_of_locate hroute
  rcases ht.remove (h.way hlead) with
    ⟨fault, hremove, hremove'⟩ | ⟨after, after', hremove, hremove', hafter⟩
  · simp only [Call.ofUpdate, hremove, hremove']
    cases fault <;> first | exact ⟨.ok rfl, ht⟩ | exact ⟨.error _, ht⟩
  · simp only [Call.ofUpdate, hremove, hremove']
    exact ⟨.ok rfl, hafter⟩

theorem copy_alike (hsource : s.Sees passed seen source)
    (hdestination : s.Sees passed seen destination) :
    Call.Alike (Alike passed seen) (· = ·) (s.copy source destination)
      (s.copy source destination) := by
  refine .check fun origin horigin => .check fun target htarget => ?_
  have hlead := leadsTo_of_locate horigin
  have hlead' := leadsTo_of_locate htarget
  refine .bind (makeParents_alike hdestination hlead') fun _ _ _ t t' ht => ?_
  have hfind := ht.find_eq (hsource.way hlead) (hlead.place ▸ (hsource.file hlead.refers).1)
  have htarget := ht.target_eq (hdestination.way hlead')
  simp only [Call.ofUpdate, Tree.copy, ← hfind, ← htarget]
  rcases t.find origin with fault | ⟨place, - | body⟩
  · exact ⟨.error _, ht⟩
  · exact ⟨.error _, ht⟩
  · cases hplace : t.target target with
    | error fault => exact ⟨.error _, ht⟩
    | ok place =>
      have hbefore := (Tree.target_place hplace).2
      have hbefore' := (Tree.target_place (htarget ▸ hplace)).2
      exact ⟨.ok rfl, ht.withFile hbefore hbefore'⟩

end Alike

end FileStore

/-! ### Requests -/

namespace Request

/-- A request to the store itself, and not to the service in front of it. -/
def Direct : Request → Prop
  | .invoke _ _ => False
  | _ => True

/-- A request that has nothing to do with tables. -/
def AsksObjects : Request → Prop
  | .invoke operation _ => Operation.ofName? operation ≠ some .putItem
  | _ => True

end Request

namespace Service

open FileStore (refusal Refers Sees)

variable {s : FileStore} {policy : AccessPolicy} {q : Request} {K : ObjectRef → Prop}
  {passed seen : Place → Prop}

theorem request_refused (hq : q.Direct) (h : ¬ ∀ r ∈ q.objects, Refers r) :
    ∃ r ∈ q.objects, ∀ t, request ⟨s.backend, policy⟩ q t = (.error (refusal r), t) := by
  -- the first reference that is refused ends the call
  have hfirst {α β : Type} {r : ObjectRef} (hr : ¬ Refers r) (f : Route → Call Tree α)
      (g : α → Call Tree β) (t : Tree) :
      ((Call.ofExcept (s.locate r) >>= f) >>= g) t = (.error (refusal r), t) := by
    rw [Call.ofExcept_bind_of_error (FileStore.locate_of_not_refers hr)]
    rfl
  cases q with
  | put object body | get object | delete object | has object =>
    have hr : ¬ Refers object := fun hr => h fun r hmem => (List.mem_singleton.mp hmem) ▸ hr
    exact ⟨object, List.mem_singleton_self object, hfirst hr _ _⟩
  | copy source destination =>
    by_cases hsource : Refers source
    · have hdestination : ¬ Refers destination := fun hr => h fun r hmem => by
        rcases List.mem_pair.mp hmem with rfl | rfl
        · exact hr
        · exact hsource
      obtain ⟨slash, hlocate⟩ := FileStore.locate_of_refers (s := s) hsource
      refine ⟨destination, by simp [Request.objects], fun t => ?_⟩
      have hcopy : s.copy source destination = _ := Call.ofExcept_bind_of_ok hlocate
      have hrequest : request ⟨s.backend, policy⟩ (.copy source destination) =
          s.copy source destination >>= fun size => pure (.size size) := rfl
      rw [hrequest, hcopy]
      exact hfirst hdestination _ _ t
    · exact ⟨source, by simp [Request.objects], hfirst hsource _ _⟩
  | invoke operation input => exact hq.elim

/-- An operation on objects writes and removes at most the files of those that its input names. -/
theorem apply_changes {input : Json} {operation : Operation} (hne : operation ≠ .putItem)
    (hK : ∀ r ∈ operation.objects input, K r) :
    (Service.apply ⟨s.backend, policy⟩ input operation).Stays
      (Tree.Changes (s.FilesOf K) (s.FoldersOf K)) := by
  cases operation with
  | copyObject =>
    refine .check .refl fun destination hdestination => .check .refl fun source _ =>
      .check .refl fun _ _ => .check .refl fun _ _ =>
        .bind .trans (FileStore.copy_changes (hK _ ?_)) fun _ => .const .refl _
    simp [Operation.objects, hdestination, Except.toOption]
  | getObject =>
    refine .check .refl fun object _ => .check .refl fun _ _ =>
      .bind .trans (FileStore.get_changes object) fun body => ?_
    cases String.fromUTF8? body with
    | some text => exact .const .refl _
    | none => exact .const .refl _
  | deleteObject =>
    refine .check .refl fun object hobject => .check .refl fun _ _ =>
      .bind .trans (FileStore.delete_changes (hK _ ?_)) fun _ => .const .refl _
    simp [Operation.objects, hobject, Except.toOption]
  | putItem => exact absurd rfl hne

theorem request_changes (hq : q.AsksObjects) (hK : ∀ r ∈ q.objects, K r) :
    (request ⟨s.backend, policy⟩ q).Stays (Tree.Changes (s.FilesOf K) (s.FoldersOf K)) := by
  cases q with
  | put object body =>
    exact .bind .trans (FileStore.put_changes (hK _ (List.mem_singleton_self _)) body) fun _ =>
      .const .refl _
  | get object => exact .bind .trans (FileStore.get_changes object) fun _ => .const .refl _
  | delete object =>
    exact .bind .trans (FileStore.delete_changes (hK _ (List.mem_singleton_self _))) fun _ =>
      .const .refl _
  | has object => exact .bind .trans (FileStore.has_changes object) fun _ => .const .refl _
  | copy source destination =>
    exact .bind .trans (FileStore.copy_changes (hK _ (by simp [Request.objects]))) fun _ =>
      .const .refl _
  | invoke operation input =>
    refine .bind .trans (.bind .trans ?_ fun _ => .const .refl _) fun _ => .const .refl _
    unfold perform
    cases hop : Operation.ofName? operation with
    | none => exact .const .refl (.error (.unknownOperation operation))
    | some op =>
      refine apply_changes (fun heq => hq (hop.trans (congrArg some heq))) fun r hr => hK r ?_
      simpa [Request.objects, hop] using hr

/-- An operation on objects sees at most the files of those that its input names. -/
theorem apply_sees {input : Json} {operation : Operation} (hne : operation ≠ .putItem)
    (hsees : ∀ r ∈ operation.objects input, s.Sees passed seen r) :
    Call.Alike (Tree.Alike passed seen) (· = ·) (Service.apply ⟨s.backend, policy⟩ input operation)
      (Service.apply ⟨s.backend, policy⟩ input operation) := by
  cases operation with
  | copyObject =>
    refine .check fun destination hdestination => .check fun source hsource =>
      .check fun _ _ => .check fun _ _ => .bind (FileStore.copy_alike (hsees _ ?_) (hsees _ ?_)) ?_
    · simp [Operation.objects, hsource, Except.toOption]
    · simp [Operation.objects, hdestination, Except.toOption]
    · rintro size _ rfl
      exact .pure rfl
  | getObject =>
    refine .check fun object hobject => .check fun _ _ =>
      .bind (FileStore.get_alike (hsees _ ?_)) ?_
    · simp [Operation.objects, hobject, Except.toOption]
    · rintro body _ rfl
      cases String.fromUTF8? body with
      | some text => exact .pure rfl
      | none => exact .throw _
  | deleteObject =>
    refine .check fun object hobject => .check fun _ _ =>
      .bind (FileStore.delete_alike (hsees _ ?_)) ?_
    · simp [Operation.objects, hobject, Except.toOption]
    · rintro there _ rfl
      exact .pure rfl
  | putItem => exact absurd rfl hne

theorem request_sees (hq : q.AsksObjects) (hsees : ∀ r ∈ q.objects, s.Sees passed seen r) :
    Call.Alike (Tree.Alike passed seen) (· = ·) (request ⟨s.backend, policy⟩ q)
      (request ⟨s.backend, policy⟩ q) := by
  have hreply {α : Type} {c : Call Tree α} (hc : Call.Alike (Tree.Alike passed seen) (· = ·) c c)
      (f : α → Reply) : Call.Alike (Tree.Alike passed seen) (· = ·) (c >>= fun a => pure (f a))
        (c >>= fun a => pure (f a)) :=
    .bind hc fun _ _ heq => .pure (congrArg f heq)
  cases q with
  | put object body =>
    exact hreply (FileStore.put_alike (hsees _ (List.mem_singleton_self _)) body) fun _ => .done
  | get object => exact hreply (FileStore.get_alike (hsees _ (List.mem_singleton_self _))) .body
  | delete object =>
    exact hreply (FileStore.delete_alike (hsees _ (List.mem_singleton_self _))) fun _ => .done
  | has object => exact hreply (FileStore.has_alike (hsees _ (List.mem_singleton_self _))) .flag
  | copy source destination =>
    exact hreply (FileStore.copy_alike (hsees _ (by simp [Request.objects]))
      (hsees _ (by simp [Request.objects]))) .size
  | invoke operation input =>
    refine hreply (.bind ?_ fun _ _ heq => .pure (congrArg Prod.fst heq)) .document
    unfold perform
    cases hop : Operation.ofName? operation with
    | none => exact .throw _
    | some op =>
      refine apply_sees (fun heq => hq (hop.trans (congrArg some heq))) fun r hr => hsees r ?_
      simpa [Request.objects, hop] using hr

variable {requests : List Request}

theorem requestAll_changes (hrequests : ∀ q ∈ requests, q.AsksObjects)
    (hK : ∀ q ∈ requests, ∀ r ∈ q.objects, K r) (t : Tree) :
    t.Changes (s.FilesOf K) (s.FoldersOf K) (requestAll ⟨s.backend, policy⟩ requests t).2 := by
  induction requests generalizing t with
  | nil => exact .refl t
  | cons q requests ih =>
    obtain ⟨hq, hrest⟩ := List.forall_mem_cons.mp hrequests
    obtain ⟨hobjects, hothers⟩ := List.forall_mem_cons.mp hK
    exact (request_changes hq hobjects t).trans (ih hrest hothers _)

theorem requestAll_sees (hrequests : ∀ q ∈ requests, q.AsksObjects)
    (hsees : ∀ q ∈ requests, ∀ r ∈ q.objects, s.Sees passed seen r) {t t' : Tree}
    (h : t.Alike passed seen t') :
    (requestAll ⟨s.backend, policy⟩ requests t).1 =
        (requestAll ⟨s.backend, policy⟩ requests t').1 ∧
      (requestAll ⟨s.backend, policy⟩ requests t).2.Alike passed seen
        (requestAll ⟨s.backend, policy⟩ requests t').2 := by
  induction requests generalizing t t' with
  | nil => exact ⟨rfl, h⟩
  | cons q requests ih =>
    obtain ⟨hq, hrest⟩ := List.forall_mem_cons.mp hrequests
    obtain ⟨hobjects, hothers⟩ := List.forall_mem_cons.mp hsees
    obtain ⟨hanswer, hafter⟩ := request_sees hq hobjects t t' h
    obtain ⟨hanswers, hend⟩ := ih hrest hothers hafter
    exact ⟨congrArg₂ List.cons hanswer.eq hanswers, hend⟩

end Service

/-! ### Confinement -/

namespace FileStore

open Service (request requestAll)

/-- An object whose container and key each have a name that counts, and only such names that lead
down. -/
structure Contained (r : ObjectRef) : Prop where
  container : components r.container ≠ []
  key : components r.key ≠ []
  plain (name : String) (h : name ∈ components r.container ++ components r.key) : Route.Plain name

theorem Refers.contained {r : ObjectRef} (h : Refers r) : Contained r where
  container := (components_spec h.1).1
  key := (components_spec h.2).1
  plain name hname := (List.mem_append.mp hname).elim ((components_spec h.1).2 name)
    ((components_spec h.2).2 name)

/-- A call that touches the files of some objects only: it changes no other file, makes folders
above them only, and is answered alike on trees that differ elsewhere. -/
structure Touches (s : FileStore) (objects : List ObjectRef) (c : Call Tree α) : Prop where
  changes : c.Stays (Tree.Changes (fun p => ∃ r ∈ objects, p = s.fileOf r)
    fun p => ∃ r ∈ objects, s.Above r p)
  sees : Call.Alike (Tree.Alike (fun p => ∃ r ∈ objects, p = s.fileOf r ∨ s.Above r p)
    fun p => ∃ r ∈ objects, p = s.fileOf r) (· = ·) c c

theorem touches_request {s : FileStore} {policy : AccessPolicy} {q : Request} (hq : q.AsksObjects) :
    s.Touches q.objects (request ⟨s.backend, policy⟩ q) where
  changes t := (Service.request_changes hq (fun _ hr => hr) t).mono
    (fun _ ⟨r, hr, _, hp⟩ => ⟨r, hr, hp⟩) fun _ ⟨r, hr, _, hp⟩ => ⟨r, hr, hp⟩
  sees := Service.request_sees hq fun r hr =>
    ⟨fun _ => ⟨⟨r, hr, rfl⟩, r, hr, .inl rfl⟩, fun _ _ hp => ⟨r, hr, .inr hp⟩⟩

variable {s : FileStore}

theorem root_prefix_fileOf (r : ObjectRef) : s.root <+: s.fileOf r :=
  List.prefix_append _ _

/-- Whoever passes the way to the folder of the objects and sees all that is below it sees the file
of each object. -/
theorem sees_root (r : ObjectRef) :
    s.Sees (fun p => Route.Passed s.objects.start s.objects.names p ∨ s.root <+: p) (s.root <+: ·) r
    where
  file _ := ⟨root_prefix_fileOf r, .inr (root_prefix_fileOf r)⟩
  above _ _ hp := hp.imp_right fun habove => habove.1

/-- What is asked of the objects of a store is refused, or touches only files of objects, which lie
in their folder; and whatever is asked, files elsewhere stay as they are and do not count. -/
theorem confined (s : FileStore) (policy : AccessPolicy) :
    (∀ q : Request, q.Direct →
      (∃ r ∈ q.objects, ∀ t, request ⟨s.backend, policy⟩ q t = (.error (refusal r), t)) ∨
        (∀ r ∈ q.objects, Contained r) ∧ s.Touches q.objects (request ⟨s.backend, policy⟩ q)) ∧
      ∀ requests : List Request, (∀ q ∈ requests, q.AsksObjects) →
        (∀ t p, ¬ s.root <+: p →
          (requestAll ⟨s.backend, policy⟩ requests t).2.file? p = t.file? p) ∧
        (∀ t t', t.Alike (Route.Passed s.objects.start s.objects.names) (s.root <+: ·) t' →
          (requestAll ⟨s.backend, policy⟩ requests t).1 =
              (requestAll ⟨s.backend, policy⟩ requests t').1 ∧
            ∀ p, s.root <+: p → Tree.entry? (requestAll ⟨s.backend, policy⟩ requests t).2 p =
              Tree.entry? (requestAll ⟨s.backend, policy⟩ requests t').2 p) ∧
        ∀ store, s.root = store ++ ["objects"] → s.tables.leadsTo = store ++ ["tables"] →
          ∀ t p, s.tables.leadsTo <+: p →
            (requestAll ⟨s.backend, policy⟩ requests t).2.file? p = t.file? p := by
  refine ⟨fun q hq => ?_, fun requests hrequests => ?_⟩
  · by_cases hrefers : ∀ r ∈ q.objects, Refers r
    · have hobjects : q.AsksObjects := by cases q <;> trivial
      exact .inr ⟨fun r hr => (hrefers r hr).contained, touches_request hobjects⟩
    · exact .inl (Service.request_refused hq hrefers)
  · have houtside (t : Tree) (p : Place) (hp : ¬ s.root <+: p) :
        (requestAll ⟨s.backend, policy⟩ requests t).2.file? p = t.file? p := by
      refine (Service.requestAll_changes (K := fun _ => True) hrequests
        (fun _ _ _ _ => trivial) t).files p ?_
      rintro ⟨r, -, -, rfl⟩
      exact hp (root_prefix_fileOf r)
    refine ⟨houtside, fun t t' ht => ?_, fun store hroot htables t p hp => houtside t p ?_⟩
    · obtain ⟨hanswers, hafter⟩ :=
        Service.requestAll_sees hrequests (fun _ _ r _ => sees_root r) ht.also_seen
      exact ⟨hanswers, hafter.entries⟩
    · -- the two folders have different names in the same folder
      rw [hroot]
      rw [htables] at hp
      intro hbelow
      have heq := (List.prefix_of_prefix_length_le hbelow hp (by simp)).eq_of_length (by simp)
      exact absurd (List.append_cancel_left heq) (by decide)

/-- An object is written, while the file of a table is neither read nor written. -/
theorem confined_put :
    let s : FileStore := ⟨⟨[], ["store", "objects"], false⟩, ⟨[], ["store", "tables"], false⟩, []⟩
    let q : Request := .put ⟨"in", "a//./b"⟩ "text".toUTF8
    let escaping : Request := .get ⟨"in", "../../tables/t.json"⟩
    let requests := [q, escaping, .invoke "storage:deleteObject" .null]
    let t : Tree := ⟨[["store"], ["store", "tables"]], []⟩
    let t' := t.withFile ["store", "tables", "t.json"] "{}".toUTF8
    (q.Direct ∧ (∀ r ∈ q.objects, Contained r) ∧
        s.Touches q.objects (request ⟨s.backend, .allowAll⟩ q)) ∧
      (escaping.Direct ∧ ∃ r ∈ escaping.objects, ∀ t,
        request ⟨s.backend, .allowAll⟩ escaping t = (.error (refusal r), t)) ∧
      (∀ q ∈ requests, q.AsksObjects) ∧
      (¬ s.root <+: ["other"] ∧
        (requestAll ⟨s.backend, .allowAll⟩ requests t).2.file? ["other"] = t.file? ["other"]) ∧
      (t.Alike (Route.Passed s.objects.start s.objects.names) (s.root <+: ·) t' ∧
        (requestAll ⟨s.backend, .allowAll⟩ requests t).1 =
            (requestAll ⟨s.backend, .allowAll⟩ requests t').1 ∧
          ∀ p, s.root <+: p → Tree.entry? (requestAll ⟨s.backend, .allowAll⟩ requests t).2 p =
            Tree.entry? (requestAll ⟨s.backend, .allowAll⟩ requests t').2 p) ∧
      s.root = ["store"] ++ ["objects"] ∧ s.tables.leadsTo = ["store"] ++ ["tables"] ∧
        s.tables.leadsTo <+: ["store", "tables", "t.json"] ∧
        (requestAll ⟨s.backend, .allowAll⟩ requests t').2.file? ["store", "tables", "t.json"] =
          t'.file? ["store", "tables", "t.json"] := by
  intro s q escaping requests t t'
  obtain ⟨hone, hall⟩ := confined s .allowAll
  have hrequests : ∀ q ∈ requests, q.AsksObjects := by
    simp only [requests, List.forall_mem_cons, Request.AsksObjects]
    exact ⟨trivial, trivial, by decide, List.forall_mem_nil _⟩
  obtain ⟨houtside, halike, htables⟩ := hall requests hrequests
  have hroot : s.root = ["store", "objects"] := by decide
  have hplace : t.entry? ["store", "tables", "t.json"] ≠ some .folder := by
    rw [ne_eq, Tree.entry?_eq_folder_iff]
    decide
  have hput : (request ⟨s.backend, .allowAll⟩ q t).1 = .ok .done := by rfl
  have hpassed : ¬ Route.Passed s.objects.start s.objects.names ["store", "tables", "t.json"] := by
    rintro ⟨first, hfirst, hwalk⟩
    revert hwalk
    have hall : ∀ first ∈ ["store", "objects"].inits,
        ["store", "tables", "t.json"] ≠ Route.walk [] first := by decide
    exact hall first ((List.mem_inits _ _).mpr hfirst)
  refine ⟨⟨trivial, (hone q trivial).resolve_left ?_⟩, ⟨trivial, ?_⟩, hrequests,
    ⟨by rw [hroot]; decide, houtside t ["other"] (by rw [hroot]; decide)⟩, ?_, by decide, by decide,
    by decide, htables ["store"] (by decide) (by decide) t' _ (by decide)⟩
  · rintro ⟨r, -, hrefused⟩
    rw [hrefused t] at hput
    cases hput
  · refine (hone escaping trivial).resolve_right fun ⟨hcontained, _⟩ => ?_
    -- the key goes up
    have hup := (hcontained _ (List.mem_singleton_self _)).plain ".." (by decide)
    exact hup.ne_dots rfl
  · have ht : t.Alike (Route.Passed s.objects.start s.objects.names) (s.root <+: ·) t' :=
      .of_unseen hplace hpassed (by rw [hroot]; decide)
    exact ⟨ht, halike t t' ht⟩

end FileStore

end Conveyor
