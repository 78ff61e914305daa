import Conveyor.Proofs.Store.Agreement
import Conveyor.Proofs.Store.Places

/-!
# Calls that fail

A call that fails has changed no data: neither an object or an item in memory, nor a file
(`Service.failed_request`). On files it may have made folders, since those in which an object would
be written are made first.

Each operation looks before it acts. All of its checks come first, what follows them and can fail
changes no file, and the one effect is the last thing that can fail (`Call.FailsCleanly`).
-/

namespace Conveyor

/-! ### Calls whose failures are clean -/

namespace Call

variable {σ α β : Type} {F : σ → σ → Prop} {c : Call σ α} {f : α → Call σ β}

/-- If a call fails, it has changed the state in an allowed way only. -/
def FailsCleanly (F : σ → σ → Prop) (c : Call σ α) : Prop :=
  ∀ m m' e, c m = (.error e, m') → F m m'

/-- A call that always gives a result. -/
def Succeeds (c : Call σ α) : Prop :=
  ∀ m, ∃ a m', c m = (.ok a, m')

theorem Succeeds.pure (a : α) : Succeeds (Pure.pure a : Call σ α) :=
  fun m => ⟨a, m, rfl⟩

namespace FailsCleanly

theorem of_stays (h : Stays F c) : FailsCleanly F c := by
  intro m m' e hm
  have hm' := h m
  rwa [hm] at hm'

theorem of_succeeds (h : Succeeds c) : FailsCleanly F c := by
  intro m m' e hm
  obtain ⟨a, m'', hok⟩ := h m
  cases hm.symm.trans hok

/-- An update that fails changes nothing. -/
theorem ofUpdate (hrefl : ∀ m, F m m) (update : σ → Except CallError (α × σ)) :
    FailsCleanly F (ofUpdate update) := by
  intro m m' e hm
  unfold Call.ofUpdate at hm
  split at hm
  · cases hm
  · obtain ⟨-, rfl⟩ := Prod.mk.inj hm
    exact hrefl m

theorem check (hrefl : ∀ m, F m m) {r : Except CallError α}
    (hf : ∀ a, r = .ok a → FailsCleanly F (f a)) : FailsCleanly F (ofExcept r >>= f) := by
  cases r with
  | ok a => exact ofExcept_bind_of_ok rfl ▸ hf a rfl
  | error e => exact ofExcept_bind_of_error rfl ▸ .of_stays (.const hrefl (.error e))

/-- What comes first changes the state in an allowed way, and then something may fail cleanly. -/
theorem bind (htrans : ∀ {m₁ m₂ m₃}, F m₁ m₂ → F m₂ m₃ → F m₁ m₃) (hc : Stays F c)
    (hf : ∀ a, FailsCleanly F (f a)) : FailsCleanly F (c >>= f) := by
  intro m m' e hm
  have hfirst := hc m
  rcases hr : c m with ⟨r, m₁⟩
  rw [hr] at hfirst
  cases r with
  | ok a =>
    rw [bind_of_ok hr] at hm
    exact htrans hfirst (hf a m₁ m' e hm)
  | error e' =>
    rw [bind_of_error hr] at hm
    exact (Prod.mk.inj hm).2 ▸ hfirst

/-- After an effect nothing fails. -/
theorem effect (hc : FailsCleanly F c) (hf : ∀ a, Succeeds (f a)) : FailsCleanly F (c >>= f) := by
  intro m m' e hm
  rcases hr : c m with ⟨r, m₁⟩
  cases r with
  | ok a =>
    obtain ⟨b, m₂, hok⟩ := hf a m₁
    rw [bind_of_ok hr, hok] at hm
    cases hm
  | error e' =>
    rw [bind_of_error hr] at hm
    exact (Prod.mk.inj hm).2 ▸ hc m m₁ e' hr

end FailsCleanly

end Call

open Call (FailsCleanly Succeeds Stays)

/-- The operations of a backend fail cleanly, and getting an object changes nothing but in an
allowed way. -/
structure Backend.FailsCleanly {σ : Type} (F : σ → σ → Prop) (b : Backend σ) : Prop where
  copy : ∀ source destination, (b.copy source destination).FailsCleanly F
  get : ∀ object, (b.get object).Stays F
  delete : ∀ object, (b.delete object).FailsCleanly F
  put : ∀ object body, (b.put object body).FailsCleanly F
  has : ∀ object, (b.has object).FailsCleanly F
  putItem : ∀ table item, (b.putItem table item).FailsCleanly F

/-! ### The two backends -/

/-- In memory a failure leaves the state as it was. -/
theorem Memory.backend_failsCleanly : backend.FailsCleanly Eq where
  copy source destination := by
    intro m m' e hm
    rw [copy_eq] at hm
    split at hm
    · cases hm
    · exact (Prod.mk.inj hm).2
  get object := by
    intro m
    rw [get_eq]
    cases m.object? object <;> rfl
  delete object := .of_succeeds fun m => ⟨_, _, delete_eq object m⟩
  put object body := .of_succeeds fun m => ⟨(), m.setObject object body, rfl⟩
  has object := .of_stays fun m => rfl
  putItem name item := by
    intro m m' e hm
    cases htable : m.tables.lookup name with
    | none =>
      rw [putItem_eq_of_none htable] at hm
      exact (Prod.mk.inj hm).2
    | some table =>
      rw [putItem_eq htable] at hm
      split at hm
      · cases hm
      · exact (Prod.mk.inj hm).2

namespace Tree

/-- Two trees have the same files with the same bodies, whatever folders there are. -/
def SameFiles (t t' : Tree) : Prop :=
  ∀ p, t'.file? p = t.file? p

theorem SameFiles.refl (t : Tree) : t.SameFiles t :=
  fun _ => rfl

theorem SameFiles.trans {t₁ t₂ t₃ : Tree} (h : t₁.SameFiles t₂) (h' : t₂.SameFiles t₃) :
    t₁.SameFiles t₃ :=
  fun p => (h' p).trans (h p)

theorem Changes.sameFiles {ways : Place → Prop} {t t' : Tree}
    (h : t.Changes (fun _ => False) ways t') : t.SameFiles t' :=
  fun p => h.files p not_false

end Tree

namespace FileStore

open Conveyor.Tree (SameFiles)

variable {s : FileStore}

theorem makeParents_stays (r : Route) : (makeParents r).Stays SameFiles :=
  fun t => (t.makeParents_changes r).sameFiles

theorem makeTables_stays : s.makeTables.Stays SameFiles := by
  intro t
  unfold makeTables
  split
  · exact .refl t
  · exact (t.makeFolders_changes s.tables.start s.tables.names).sameFiles

/-- On files a failure leaves each file as it was. -/
theorem backend_failsCleanly (s : FileStore) : s.backend.FailsCleanly SameFiles where
  copy source destination :=
    .check .refl fun origin _ => .check .refl fun target _ =>
      .bind .trans (makeParents_stays target) fun _ => .ofUpdate .refl _
  get object := .check .refl fun r _ => fun t => .refl t
  delete object := .check .refl fun r _ => .ofUpdate .refl _
  put object body :=
    .check .refl fun r _ => .bind .trans (makeParents_stays r) fun _ => .ofUpdate .refl _
  has object := .check .refl fun r _ => .of_stays fun t => .refl t
  putItem table item := by
    refine (?_ : (s.putItem table item).FailsCleanly SameFiles)
    unfold putItem
    split
    · exact .of_stays fun t => .refl t
    · -- the table is read before its folder is made, and written last
      exact .check .refl fun key _ => .bind .trans (fun t => .refl t) fun rows =>
        .bind .trans makeTables_stays fun _ => .effect (.ofUpdate .refl _) fun _ => .pure _

end FileStore

/-! ### Services -/

namespace Service

variable {σ : Type} {s : Service σ} {F : σ → σ → Prop}
  (hrefl : ∀ m, F m m) (htrans : ∀ {m₁ m₂ m₃}, F m₁ m₂ → F m₂ m₃ → F m₁ m₃)
  (hs : s.backend.FailsCleanly F)

include hrefl htrans hs

/-- An operation checks its input and the policy, and then does one thing. -/
theorem apply_failsCleanly (input : Json) (operation : Operation) :
    (s.apply input operation).FailsCleanly F := by
  cases operation with
  | copyObject =>
    exact .check hrefl fun destination _ => .check hrefl fun source _ => .check hrefl fun _ _ =>
      .check hrefl fun _ _ => .effect (hs.copy source destination) fun _ => .pure _
  | getObject =>
    refine .check hrefl fun object _ => .check hrefl fun _ _ =>
      .bind htrans (hs.get object) fun body => ?_
    split
    · exact .of_succeeds (.pure _)
    · exact .of_stays fun m => hrefl m
  | deleteObject =>
    exact .check hrefl fun object _ => .check hrefl fun _ _ =>
      .effect (hs.delete object) fun _ => .pure _
  | putItem =>
    exact .check hrefl fun table _ => .check hrefl fun item _ => .check hrefl fun _ _ =>
      .effect (hs.putItem table item) fun _ => .pure _

theorem request_failsCleanly (q : Request) : (s.request q).FailsCleanly F := by
  cases q with
  | put object body => exact .effect (hs.put object body) fun _ => .pure _
  | get object => exact .effect (.of_stays (hs.get object)) fun _ => .pure _
  | delete object => exact .effect (hs.delete object) fun _ => .pure _
  | copy source destination => exact .effect (hs.copy source destination) fun _ => .pure _
  | has object => exact .effect (hs.has object) fun _ => .pure _
  | invoke operation input =>
    refine .effect (.effect ?_ fun _ => .pure _) fun _ => .pure _
    unfold perform
    split
    · exact apply_failsCleanly hrefl htrans hs input _
    · exact .of_stays fun m => hrefl m

end Service

/-- A request that fails leaves all objects and tables in memory as they were, and all files of a
store on files. -/
theorem Service.failed_request (policy : AccessPolicy) (q : Request) (e : CallError) :
    (∀ m m', request ⟨Memory.backend, policy⟩ q m = (.error e, m') → m' = m) ∧
      ∀ (s : FileStore) (t t' : Tree), request ⟨s.backend, policy⟩ q t = (.error e, t') →
        ∀ p, t'.file? p = t.file? p := by
  constructor
  · intro m m' h
    exact (request_failsCleanly (F := Eq) .refl .trans Memory.backend_failsCleanly q m m' e h).symm
  · intro s t t' h
    exact request_failsCleanly .refl .trans s.backend_failsCleanly q t t' e h

/-- A copy of an object that is not there makes the folder of its destination. -/
theorem Service.failed_copy :
    let s : FileStore := ⟨⟨[], ["objects"], false⟩, ⟨[], ["tables"], false⟩, []⟩
    let q : Request := .copy ⟨"in", "a"⟩ ⟨"out", "a"⟩
    let e : CallError := .objectNotFound "in" "a"
    let m := Memory.empty.setObject ⟨"in", "b"⟩ "text".toUTF8
    let m' := (request ⟨Memory.backend, .allowAll⟩ q m).2
    let t : Tree := ⟨[["objects"], ["objects", "in"]], [(["objects", "in", "b"], "text".toUTF8)]⟩
    let t' := (request ⟨s.backend, .allowAll⟩ q t).2
    (request ⟨Memory.backend, .allowAll⟩ q m = (.error e, m') ∧ m' = m) ∧
      request ⟨s.backend, .allowAll⟩ q t = (.error e, t') ∧
        t'.folders = t.folders ++ [["objects", "out"]] ∧ ∀ p, t'.file? p = t.file? p := by
  intro s q e m m' t t'
  have hmemory : request ⟨Memory.backend, .allowAll⟩ q m = (.error e, m') := by rfl
  have hfiles : request ⟨s.backend, .allowAll⟩ q t = (.error e, t') := by rfl
  obtain ⟨hm, ht⟩ := failed_request .allowAll q e
  exact ⟨⟨hmemory, hm m m' hmemory⟩, hfiles, by rfl, ht s t t' hfiles⟩

end Conveyor
