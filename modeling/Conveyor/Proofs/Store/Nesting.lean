import Conveyor.Proofs.Store.Copies
import Conveyor.Proofs.Store.Reach

/-!
# Files stand in folders

A store is founded in a tree if each file and each folder stands in a folder, and the folders are
there from which the ways to its objects and its tables start, or which the way to its tables leaves
again by `..`. Every request keeps this, whether it succeeds or fails: folders are made one in
another, files are written in folders, and no folder is ever removed (`Founded.requestAll`).
-/

namespace Conveyor

namespace Tree

variable {t t' : Tree} {folder place : Place} {names : List String} {r : Route} {body : ByteArray}

theorem Nested.parent (ht : t.Nested) (h : t.entry? folder = some .folder) :
    t.entry? folder.dropLast = some .folder := by
  rcases List.eq_nil_or_concat folder with rfl | ⟨parent, name, rfl⟩
  · exact h
  · rw [List.concat_eq_append] at h ⊢
    rw [List.dropLast_concat]
    exact ht parent name (by simp [h])

/-- A change at a place where no folder stood, of which something new stands in a folder. -/
theorem Nested.of_change (ht : t.Nested) (new : Option Entry)
    (hbefore : t.entry? place ≠ some .folder)
    (hnew : new ≠ none → t.entry? place.dropLast = some .folder)
    (hchange : ∀ p, t'.entry? p = if p = place then new else t.entry? p) : t'.Nested := by
  intro p name hstands
  -- what stands in `p` is either new or has stood there before
  have hfolder : t.entry? p = some .folder := by
    rw [hchange] at hstands
    split at hstands
    · rename_i heq
      have hparent := hnew hstands
      rwa [← heq, List.dropLast_concat] at hparent
    · exact ht p name hstands
  have hne : p ≠ place := fun heq => hbefore (heq ▸ hfolder)
  rw [hchange, if_neg hne, hfolder]

/-- Where names lead to a folder from one that stands, this folder stands. -/
theorem Nested.entry?_of_follow (ht : t.Nested) (hstart : t.entry? folder = some .folder)
    (h : t.follow folder names = .ok (place, .folder)) : t.entry? place = some .folder := by
  fun_induction follow t folder names with
  | case1 folder =>
    obtain ⟨rfl, -⟩ := Prod.mk.inj (Except.ok.inj h)
    exact hstart
  | case2 folder names ih => exact ih hstart h
  | case3 folder names ih => exact ih (ht.parent hstart) h
  | case4 | case5 => cases h
  | case6 folder name names hdot hdots hlong hfolder ih => exact ih hfolder h
  | case7 | case8 => cases h

theorem Nested.makeFolders (ht : t.Nested) (hstart : t.entry? folder = some .folder) :
    (t.makeFolders folder names).2.Nested := by
  fun_induction Tree.makeFolders t folder names with
  | case1 | case4 | case6 => exact ht
  | case2 t folder names ih => exact ih ht hstart
  | case3 t folder names ih => exact ih ht (ht.parent hstart)
  | case5 t folder name names hdot hdots hlong place hfolder ih => exact ih ht hfolder
  | case7 t folder name names hdot hdots hlong place hnone ih =>
    -- the new folder is where the next one is made
    refine ih (ht.of_change (some .folder) (by simp [hnone]) (fun _ => ?_)
      fun p => entry?_addFolder) ?_
    · rw [List.dropLast_concat]
      exact hstart
    · rw [entry?_addFolder, if_pos rfl]

theorem Nested.makeParents (ht : t.Nested) (hstart : t.entry? r.start = some .folder) :
    (t.makeParents r).2.Nested := by
  unfold Tree.makeParents
  split
  · exact ht
  · exact ht.makeFolders hstart

theorem Nested.write (ht : t.Nested) (hstart : t.entry? r.start = some .folder)
    (h : t.write r body = .ok t') : t'.Nested := by
  obtain ⟨place, htarget, hok⟩ := Except.bind_eq_ok.mp h
  obtain rfl := Except.ok.inj hok
  obtain ⟨-, -, names, name, folder, -, -, -, -, hfollow, rfl, hfolder⟩ := target_cases htarget
  refine ht.of_change (some (.file body)) hfolder (fun _ => ?_)
    fun p => entry?_withFile_eq hfolder
  rw [List.dropLast_concat]
  exact ht.entry?_of_follow hstart hfollow

theorem Nested.remove (ht : t.Nested) (h : t.remove r = .ok t') : t'.Nested := by
  obtain ⟨⟨body, hfile⟩, rfl⟩ := remove_cases h
  have hfolder : t.entry? r.leadsTo ≠ some .folder := by simp [hfile]
  exact ht.of_change none hfolder (fun hnew => absurd rfl hnew) fun p => entry?_filter hfolder

end Tree

/-! ### Backends that change states in an allowed way -/

/-- Whatever an operation of a backend does, it changes a state in an allowed way only. -/
structure Backend.Stays {σ : Type} (F : σ → σ → Prop) (b : Backend σ) : Prop where
  copy (source destination : ObjectRef) : (b.copy source destination).Stays F
  get (object : ObjectRef) : (b.get object).Stays F
  delete (object : ObjectRef) : (b.delete object).Stays F
  put (object : ObjectRef) (body : ByteArray) : (b.put object body).Stays F
  has (object : ObjectRef) : (b.has object).Stays F
  putItem (table : String) (item : Item) : (b.putItem table item).Stays F

namespace Backend.Stays

variable {σ : Type} {s : Service σ} {F : σ → σ → Prop} (hrefl : ∀ m, F m m)
  (htrans : ∀ {m₁ m₂ m₃}, F m₁ m₂ → F m₂ m₃ → F m₁ m₃) (hs : s.backend.Stays F)

include hrefl htrans hs

theorem apply (input : Json) (operation : Operation) : (s.apply input operation).Stays F := by
  cases operation with
  | copyObject =>
    exact .check hrefl fun destination _ => .check hrefl fun source _ => .check hrefl fun _ _ =>
      .check hrefl fun _ _ => .bind htrans (hs.copy source destination) fun _ => .const hrefl _
  | getObject =>
    refine .check hrefl fun object _ => .check hrefl fun _ _ =>
      .bind htrans (hs.get object) fun body => ?_
    split
    · exact .const hrefl _
    · exact .const hrefl _
  | deleteObject =>
    exact .check hrefl fun object _ => .check hrefl fun _ _ =>
      .bind htrans (hs.delete object) fun _ => .const hrefl _
  | putItem =>
    exact .check hrefl fun table _ => .check hrefl fun item _ => .check hrefl fun _ _ =>
      .bind htrans (hs.putItem table item) fun _ => .const hrefl _

theorem request (q : Request) : (s.request q).Stays F := by
  cases q with
  | put object body => exact .bind htrans (hs.put object body) fun _ => .const hrefl _
  | get object => exact .bind htrans (hs.get object) fun _ => .const hrefl _
  | delete object => exact .bind htrans (hs.delete object) fun _ => .const hrefl _
  | copy source destination =>
    exact .bind htrans (hs.copy source destination) fun _ => .const hrefl _
  | has object => exact .bind htrans (hs.has object) fun _ => .const hrefl _
  | invoke operation input =>
    refine .bind htrans (.bind htrans ?_ fun _ => .const hrefl _) fun _ => .const hrefl _
    unfold Service.perform
    split
    · exact apply hrefl htrans hs input _
    · exact .const hrefl (.error (.unknownOperation operation))

theorem requestAll (requests : List Request) (m : σ) : F m (s.requestAll requests m).2 := by
  induction requests generalizing m with
  | nil => exact hrefl m
  | cons q requests ih => exact htrans (request hrefl htrans hs q m) (ih _)

end Backend.Stays

namespace FileStore

variable {s : FileStore} {places ways : Place → Prop} {t t' : Tree} {route : Route}
  {object : ObjectRef} {policy : AccessPolicy}

/-- Each file and folder of a tree stands in a folder, and the folders are there from which the ways
of a store start, or which the way to the tables leaves again by `..`. -/
structure Founded (s : FileStore) (t : Tree) : Prop where
  nested : t.Nested
  objects : t.entry? s.objects.start = some .folder
  tables : t.entry? s.tables.start = some .folder
  left (first : List String) (h : first ++ [".."] <+: s.tables.names) :
    t.entry? (Route.walk s.tables.start first) = some .folder

/-- A change of a tree keeps a store founded. -/
def Keeps (s : FileStore) (t t' : Tree) : Prop :=
  s.Founded t → s.Founded t'

theorem Keeps.refl (t : Tree) : s.Keeps t t := id

theorem Keeps.trans {t₁ t₂ t₃ : Tree} (h : s.Keeps t₁ t₂) (h' : s.Keeps t₂ t₃) : s.Keeps t₁ t₃ :=
  h' ∘ h

/-- Since folders stay, all that is to be seen to is what is new. -/
theorem Founded.of_changes (h : s.Founded t) (hchanges : t.Changes places ways t')
    (hnested : t'.Nested) : s.Founded t' where
  nested := hnested
  objects := hchanges.kept _ h.objects
  tables := hchanges.kept _ h.tables
  left first hfirst := hchanges.kept _ (h.left first hfirst)

theorem start_of_locate (h : s.locate object = .ok route) : route.start = s.objects.start := by
  obtain ⟨slash, hlocate⟩ := locate_of_refers (s := s) (leadsTo_of_locate h).refers
  obtain rfl := Except.ok.inj (hlocate.symm.trans h)
  rfl

/-- The way to the file of a table starts where that to the tables does, or at the root. -/
theorem Founded.tableRoute (h : s.Founded t) (table : String) :
    t.entry? (s.tableRoute table).start = some .folder := by
  unfold FileStore.tableRoute Route.join
  dsimp only
  split
  · rename_i hslash
    rw [Route.ofText, if_pos hslash]
    exact Tree.entry?_eq_folder_iff.mpr (.inl rfl)
  · exact h.tables

theorem makeParents_keeps (hroute : s.locate object = .ok route) :
    (makeParents route).Stays s.Keeps := by
  intro t h
  have hstart : t.entry? route.start = some .folder := start_of_locate hroute ▸ h.objects
  exact h.of_changes (t.makeParents_changes route) (h.nested.makeParents hstart)

theorem makeTables_keeps : s.makeTables.Stays s.Keeps := by
  intro t h
  unfold makeTables
  split
  · exact h
  · exact h.of_changes (t.makeFolders_changes s.tables.start s.tables.names)
      (h.nested.makeFolders h.tables)

theorem write_keeps {body : ByteArray} (hstart : t.entry? route.start = some .folder)
    (hwrite : t.write route body = .ok t') : s.Keeps t t' :=
  fun h => h.of_changes (Tree.write_changes hwrite) (h.nested.write hstart hwrite)

theorem backend_keeps (s : FileStore) : s.backend.Stays s.Keeps where
  copy source destination := by
    refine .check .refl fun origin _ => .check .refl fun target htarget =>
      .bind .trans (makeParents_keeps htarget) fun _ =>
        .ofUpdate .refl fun t (size, t') hcopy h => ?_
    obtain ⟨body, held, -, -, -, hwrite⟩ := Tree.copy_cases (Except.mapError_eq_ok.mp hcopy)
    exact write_keeps (start_of_locate htarget ▸ h.objects) hwrite h
  get object := .check .refl fun _ _ => fun t => .refl t
  delete object := by
    refine .check .refl fun route _ => .ofUpdate .refl fun t (there, t') hdelete => ?_
    split at hdelete
    · rename_i t'' hremove
      obtain ⟨-, rfl⟩ := Prod.mk.inj (Except.ok.inj hdelete)
      exact fun h => h.of_changes (Tree.remove_changes hremove) (h.nested.remove hremove)
    · obtain ⟨-, rfl⟩ := Prod.mk.inj (Except.ok.inj hdelete)
      exact .refl t
    · cases hdelete
  put object body := by
    refine .check .refl fun route hroute => .bind .trans (makeParents_keeps hroute) fun _ =>
      .ofUpdate .refl fun t (_, t') hput h => ?_
    obtain ⟨t'', hwrite, heq⟩ := Except.map_eq_ok.mp (Except.mapError_eq_ok.mp hput)
    obtain ⟨-, rfl⟩ := Prod.mk.inj heq
    exact write_keeps (start_of_locate hroute ▸ h.objects) hwrite h
  has object := .check .refl fun _ _ => fun t => .refl t
  putItem table item := by
    refine (?_ : (s.putItem table item).Stays s.Keeps)
    unfold putItem
    split
    · exact .const .refl (.error (.resourceNotFound table))
    · refine .check .refl fun key _ => .bind .trans (fun t => .refl t) fun rows =>
        .bind .trans makeTables_keeps fun _ =>
          .bind .trans (.ofUpdate .refl fun t (_, t') hput h => ?_) fun _ => .const .refl _
      obtain ⟨t'', hwrite, heq⟩ := Except.map_eq_ok.mp (Except.mapError_eq_ok.mp hput)
      obtain ⟨-, rfl⟩ := Prod.mk.inj heq
      exact write_keeps (h.tableRoute table) hwrite h

theorem Founded.requestAll (h : s.Founded t) (requests : List Request) :
    s.Founded (Service.requestAll ⟨s.backend, policy⟩ requests t).2 :=
  Backend.Stays.requestAll (s := ⟨s.backend, policy⟩) .refl .trans (backend_keeps s) requests t h

end FileStore

end Conveyor
