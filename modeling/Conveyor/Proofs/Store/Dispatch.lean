import Conveyor.Proofs.Result
import Conveyor.Proofs.Store.Calls
import Conveyor.Proofs.Store.Operations
import Conveyor.Store.Files

/-!
# Calls of operations that there are

A service that is called by one of the names of its operations never answers that there is no such
operation (`Service.perform_known`), unless its backend does. Neither the store in memory nor any
store on files does (`Memory.backend_known`, `FileStore.backend_known`). For this it is enough to
look at each place where a call can fail.
-/

namespace Conveyor

/-- The error is another one than that there is no such operation. -/
def CallError.Known (e : CallError) : Prop :=
  ∀ operation, e ≠ .unknownOperation operation

/-! ### Errors of calls -/

namespace Call

variable {σ α β : Type} {R : CallError → Prop} {c : Call σ α}

/-- The errors with which a call fails satisfy `R`. -/
def FailsWith (R : CallError → Prop) (c : Call σ α) : Prop :=
  ∀ s, Except.FailsWith R (c s).1

theorem FailsWith.pure (a : α) : FailsWith R (Pure.pure a : Call σ α) :=
  fun _ => .ok a

theorem FailsWith.throw {e : CallError} (h : R e) :
    FailsWith R (MonadExcept.throw e : Call σ α) :=
  fun _ => .error h

theorem FailsWith.bind {f : α → Call σ β} (hc : FailsWith R c) (hf : ∀ a, FailsWith R (f a)) :
    FailsWith R (c >>= f) := by
  intro s
  rcases hs : c s with ⟨r, s'⟩
  cases r with
  | ok a => exact bind_of_ok hs ▸ hf a s'
  | error e => exact bind_of_error hs ▸ .error (hc s e (by rw [hs]))

theorem FailsWith.ofExcept {r : Except CallError α} (h : Except.FailsWith R r) :
    FailsWith R (ofExcept r : Call σ α) :=
  fun _ => h

theorem FailsWith.ofRead {read : σ → Except CallError α} (h : ∀ s, Except.FailsWith R (read s)) :
    FailsWith R (ofRead read) :=
  h

theorem FailsWith.ofUpdate {update : σ → Except CallError (α × σ)}
    (h : ∀ s, Except.FailsWith R (update s)) : FailsWith R (ofUpdate update) := by
  intro s
  unfold Call.ofUpdate
  cases hs : update s with
  | ok r => exact .ok r.1
  | error e => exact .error (h s e hs)

theorem FailsWith.getThe : FailsWith R (MonadStateOf.get : Call σ σ) :=
  fun s => .ok s

theorem FailsWith.modify (f : σ → σ) : FailsWith R (modify f : Call σ PUnit) :=
  fun _ => .ok PUnit.unit

end Call

/-! ### Backends -/

/-- The errors with which the operations of a backend fail satisfy `R`. -/
structure Backend.FailsWith {σ : Type} (R : CallError → Prop) (b : Backend σ) : Prop where
  copy : ∀ source destination, (b.copy source destination).FailsWith R
  get : ∀ object, (b.get object).FailsWith R
  delete : ∀ object, (b.delete object).FailsWith R
  put : ∀ object body, (b.put object body).FailsWith R
  has : ∀ object, (b.has object).FailsWith R
  putItem : ∀ table item, (b.putItem table item).FailsWith R

open Call (FailsWith)

theorem Item.key_known (partitionKey : String) (item : Item) :
    Except.FailsWith CallError.Known (item.key partitionKey) := by
  have hinvalid (reason : String) :
      Except.FailsWith CallError.Known (.error (.invalidInput putItemName reason)
        : Except CallError String) := .error nofun
  unfold Item.key
  split
  · exact hinvalid _
  · dsimp only
    split
    · split
      · exact hinvalid _
      · exact .ok _
    · exact .ok _
    · exact hinvalid _

namespace Memory

theorem get_known (object : ObjectRef) (m : Memory) :
    Except.FailsWith CallError.Known (m.get object) := by
  unfold Memory.get
  split
  · exact .ok _
  · exact .error nofun

theorem backend_known : backend.FailsWith CallError.Known where
  copy source destination :=
    .bind (.ofRead (get_known source)) fun body => .bind (.modify _) fun _ => .pure _
  get object := .ofRead (get_known object)
  delete object := .bind .getThe fun m => .bind (.modify _) fun _ => .pure _
  put object body := .modify _
  has object := .ofRead fun m => .ok _
  putItem name item := by
    refine .bind .getThe fun m => ?_
    split
    · exact .throw nofun
    · exact .bind (.ofExcept (item.key_known _)) fun key => .bind (.modify _) fun _ => .pure _

end Memory

namespace FileStore

variable {s : FileStore}

theorem objectFault_known (object : ObjectRef) (fault : FileFault) :
    (objectFault object fault).Known := by
  cases fault <;> exact nofun

theorem locate_known (object : ObjectRef) : Except.FailsWith CallError.Known (s.locate object) := by
  unfold locate
  split
  · exact .ok _
  · exact .error nofun

theorem makeParents_known (r : Route) : (makeParents r).FailsWith CallError.Known :=
  fun _ => .mapError fun _ => nofun

theorem load_known (table : String) (t : Tree) :
    Except.FailsWith CallError.Known (s.load table t) := by
  unfold load
  split
  · split
    · exact .ok _
    · exact .error nofun
  · exact .ok _
  · exact .error nofun

theorem makeTables_known : s.makeTables.FailsWith CallError.Known := by
  intro t
  unfold makeTables
  split
  · exact .error nofun
  · exact .mapError fun _ => nofun

theorem backend_known (s : FileStore) : s.backend.FailsWith CallError.Known where
  copy source destination :=
    .bind (.ofExcept (locate_known source)) fun origin =>
      .bind (.ofExcept (locate_known destination)) fun target =>
        .bind (makeParents_known target) fun _ =>
          .ofUpdate fun _ => .mapError (objectFault_known source)
  get object := .bind (.ofExcept (locate_known object)) fun r =>
    .ofRead fun _ => .mapError (objectFault_known object)
  delete object := by
    refine .bind (.ofExcept (locate_known object)) fun r => .ofUpdate fun t => ?_
    split
    · exact .ok _
    · exact .ok _
    · exact .error nofun
  put object body := .bind (.ofExcept (locate_known object)) fun r =>
    .bind (makeParents_known r) fun _ => .ofUpdate fun _ => .mapError fun _ => nofun
  has object := .bind (.ofExcept (locate_known object)) fun r =>
    .ofRead fun _ => .mapError fun _ => nofun
  putItem table item := by
    refine (?_ : (s.putItem table item).FailsWith CallError.Known)
    unfold putItem
    split
    · exact .throw nofun
    · exact .bind (.ofExcept (item.key_known _)) fun key => .bind (.ofRead (load_known table))
        fun rows => .bind makeTables_known fun _ =>
          .bind (.ofUpdate fun _ => .mapError fun _ => nofun) fun _ => .pure _

end FileStore

/-! ### Services -/

namespace Service

variable {σ : Type} {s : Service σ}

theorem requiredText_known (operation : Operation) (input : Json) (field : String) :
    Except.FailsWith CallError.Known (requiredText operation input field) := by
  unfold requiredText
  split
  · split
    · exact .error nofun
    · exact .ok _
  · exact .error nofun

theorem namedObject_known (operation : Operation) (input : Json) :
    Except.FailsWith CallError.Known (namedObject operation input) :=
  .bind (requiredText_known _ _ _) fun _ => .bind (requiredText_known _ _ _) fun _ => .ok _

theorem sourceObject_known (input : Json) :
    Except.FailsWith CallError.Known (sourceObject input) := by
  refine .bind (requiredText_known _ _ _) fun text => ?_
  split
  · exact .ok _
  · exact .error nofun

theorem namedItem_known (input : Json) : Except.FailsWith CallError.Known (namedItem input) := by
  unfold namedItem
  split
  · exact .ok _
  · exact .error nofun

theorem check_known (p : AccessPolicy) (g : Grant) (operation resource : String) :
    Except.FailsWith CallError.Known (p.check g operation resource) := by
  unfold AccessPolicy.check
  split
  · exact .ok _
  · exact .error nofun

variable (hs : s.backend.FailsWith CallError.Known)

include hs

/-- An operation may fail in many ways, but is there. -/
theorem apply_known (input : Json) (operation : Operation) :
    (s.apply input operation).FailsWith CallError.Known := by
  cases operation with
  | copyObject =>
    exact .bind (.ofExcept (namedObject_known _ _)) fun destination =>
      .bind (.ofExcept (sourceObject_known input)) fun source =>
        .bind (.ofExcept (check_known _ _ _ _)) fun _ =>
          .bind (.ofExcept (check_known _ _ _ _)) fun _ =>
            .bind (hs.copy source destination) fun size => .pure _
  | getObject =>
    refine .bind (.ofExcept (namedObject_known _ _)) fun object =>
      .bind (.ofExcept (check_known _ _ _ _)) fun _ => .bind (hs.get object) fun body => ?_
    split
    · exact .pure _
    · exact .throw nofun
  | deleteObject =>
    exact .bind (.ofExcept (namedObject_known _ _)) fun object =>
      .bind (.ofExcept (check_known _ _ _ _)) fun _ => .bind (hs.delete object) fun there => .pure _
  | putItem =>
    exact .bind (.ofExcept (requiredText_known _ _ _)) fun table =>
      .bind (.ofExcept (namedItem_known input)) fun item => .bind (.ofExcept (check_known _ _ _ _))
        fun _ => .bind (hs.putItem table item) fun stored => .pure _

/-- A call by one of the names is a call of an operation that is there. -/
theorem perform_known {operation : String} (h : operation ∈ Operation.names) (input : Json) :
    (s.perform operation input).FailsWith CallError.Known := by
  obtain ⟨op, -, rfl⟩ := List.mem_map.mp h
  unfold perform
  rw [Operation.ofName?_name]
  exact apply_known hs input op

/-- The answers of a service as an adapter are those of its operations. -/
theorem adapter_known {operation : String} (h : operation ∈ Operation.names)
    (describe : Deed → String) (number : Nat) (input : Json) (state : σ) :
    Except.FailsWith CallError.Known
      ((s.adapter describe).answer number operation input state).1.1 := by
  have hperform := perform_known hs h input state
  simp only [adapter]
  rcases hr : s.perform operation input state with ⟨r, state'⟩
  rw [hr] at hperform
  cases r with
  | ok r => exact .ok _
  | error e => exact .error (hperform e rfl)

end Service

end Conveyor
