import Conveyor.Proofs.Store.Cells

/-!
# What grants keep apart

A service in memory cannot be made to tell, or to store where it can be read, anything about an
object in a container without a read grant: on two states that differ in such objects only, every
sequence of calls is answered alike (`noninterference`). And it leaves what it may not write to.

A copy moves data between containers with different grants. It is harmless because it is checked
before it looks at the source, so that what it writes is the same in both states. What a call reads
is therefore seen in both of them, and that is all its answer depends on (`Service.invoke_alike`).
-/

namespace Conveyor

namespace AccessPolicy

/-- The policy that allows what is granted. -/
def ofGrants (grants : List Grant) : AccessPolicy :=
  grants.foldl grant denyAll

variable {policy : AccessPolicy} {g : Grant}

/-- A grant of one direction leaves the other one, and the other containers. -/
theorem access_grant_read (c container : String) :
    (policy.grant (.read container)).access c =
      if c = container then { policy.access c with read := true } else policy.access c := by
  simp only [access, grant, Keyed.lookup_insert]
  split
  · rename_i h
    rw [h, Option.getD_some]
  · rfl

theorem access_grant_write (c container : String) :
    (policy.grant (.write container)).access c =
      if c = container then { policy.access c with write := true } else policy.access c := by
  simp only [access, grant, Keyed.lookup_insert]
  split
  · rename_i h
    rw [h, Option.getD_some]
  · rfl

@[simp]
theorem unrestricted_grant : (policy.grant g).unrestricted = policy.unrestricted := by
  cases g <;> rfl

theorem allows_grant {g' : Grant} :
    (policy.grant g').allows g = true ↔ g = g' ∨ policy.allows g = true := by
  cases g' with
  | read container =>
    cases g with
    | read c =>
      simp only [allows, access_grant_read, unrestricted_grant, Grant.read.injEq]
      split <;> simp [*]
    | write c =>
      simp only [allows, access_grant_read, unrestricted_grant, reduceCtorEq, false_or]
      split <;> simp [*]
    | table t => simp [allows, grant]
  | write container =>
    cases g with
    | read c =>
      simp only [allows, access_grant_write, unrestricted_grant, reduceCtorEq, false_or]
      split <;> simp [*]
    | write c =>
      simp only [allows, access_grant_write, unrestricted_grant, Grant.write.injEq]
      split <;> simp [*]
    | table t => simp [allows, grant]
  | table name =>
    cases g with
    | read c => simp [allows, grant, access]
    | write c => simp [allows, grant, access]
    | table t =>
      simp only [allows, grant, Bool.or_eq_true, List.contains_iff_mem, List.mem_insert_iff,
        Grant.table.injEq]
      exact or_left_comm

theorem denyAll_allows : denyAll.allows g = false := by
  cases g <;> rfl

theorem allows_foldl_grant (grants : List Grant) (policy : AccessPolicy) :
    (grants.foldl grant policy).allows g = true ↔ g ∈ grants ∨ policy.allows g = true := by
  induction grants generalizing policy with
  | nil => simp
  | cons g' grants ih =>
    rw [List.foldl_cons, ih, allows_grant, List.mem_cons]
    exact or_left_comm.trans or_assoc.symm

theorem allows_ofGrants {grants : List Grant} : (ofGrants grants).allows g = true ↔ g ∈ grants :=
  (allows_foldl_grant grants denyAll).trans (or_iff_left (Bool.eq_false_iff.mp denyAll_allows))

end AccessPolicy

namespace Memory

/-! ### States that look alike -/

/-- Two states have the same tables, and the same objects in the containers that are readable. -/
structure Agrees (readable : String → Prop) (m n : Memory) : Prop where
  objects (object : ObjectRef) (h : readable object.container) :
    m.object? object = n.object? object
  partitionKeys (table : String) : m.partitionKey? table = n.partitionKey? table
  items (table key : String) : m.item? table key = n.item? table key

section Agrees

variable {readable : String → Prop} {m n : Memory} {object : ObjectRef}

/-- What is stored where it cannot be read is not seen. -/
theorem Agrees.of_unreadable (h : ¬readable object.container) (body : ByteArray) :
    m.Agrees readable (m.setObject object body) where
  objects other hother := by
    rw [object?_setObject, if_neg]
    rintro rfl
    exact h hother
  partitionKeys _ := rfl
  items _ _ := rfl

/-- What two states have the same that look alike. -/
def Seen (readable : String → Prop) : Cell → Prop
  | .object r => readable r.container
  | .row _ _ => True

theorem Agrees.matches (h : m.Agrees readable n) :
    m.Matches n.schema (Seen readable) n where
  left := h.partitionKeys
  right _ := rfl
  same c hc := by
    cases c with
    | object r => exact h.objects r hc
    | row table key => exact h.items table key

theorem Matches.agrees {schema : String → Option String}
    (h : m.Matches schema (Seen readable) n) : m.Agrees readable n where
  objects object hobject := h.same (.object object) hobject
  partitionKeys table := (h.left table).trans (h.right table).symm
  items table key := h.same (.row table key) trivial

end Agrees

/-! ### What is left as it was -/

/-- From one state to another, objects change in the writable containers only, and tables change
only if items may be put into them. -/
structure Spares (writable fillable : String → Prop) (m m' : Memory) : Prop where
  objects (object : ObjectRef) (h : ¬writable object.container) :
    m'.object? object = m.object? object
  tables (name : String) (h : ¬fillable name) : m'.tables.lookup name = m.tables.lookup name

section Spares

variable {writable fillable : String → Prop} {m m₁ m₂ m₃ : Memory}
  {object source destination : ObjectRef} {name : String} {item : Item}

theorem Spares.refl (m : Memory) : m.Spares writable fillable m :=
  ⟨fun _ _ => rfl, fun _ _ => rfl⟩

theorem Spares.trans (h : m₁.Spares writable fillable m₂) (h' : m₂.Spares writable fillable m₃) :
    m₁.Spares writable fillable m₃ where
  objects object hobject := (h'.objects object hobject).trans (h.objects object hobject)
  tables name hname := (h'.tables name hname).trans (h.tables name hname)

theorem spares_setObject (hwritable : writable object.container) (body : ByteArray) :
    m.Spares writable fillable (m.setObject object body) where
  objects other hother := by
    rw [object?_setObject, if_neg]
    rintro rfl
    exact hother hwritable
  tables _ _ := rfl

theorem spares_eraseObject (hwritable : writable object.container) :
    m.Spares writable fillable (m.eraseObject object) where
  objects other hother := by
    rw [object?_eraseObject, if_neg]
    rintro rfl
    exact hother hwritable
  tables _ _ := rfl

theorem spares_setItem (hfillable : fillable name) (table : Table) (key : String) :
    m.Spares writable fillable (m.setItem name table key item) where
  objects _ _ := rfl
  tables other hother := by
    rw [lookup_setItem, if_neg]
    rintro rfl
    exact hother hfillable

theorem get_stays : (backend.get object).Stays (Spares writable fillable) := by
  intro m
  rw [get_eq]
  cases m.object? object <;> exact Spares.refl m

theorem copy_stays (hwritable : writable destination.container) :
    (backend.copy source destination).Stays (Spares writable fillable) := by
  intro m
  rw [copy_eq]
  cases m.object? source with
  | some body => exact spares_setObject hwritable body
  | none => exact Spares.refl m

theorem delete_stays (hwritable : writable object.container) :
    (backend.delete object).Stays (Spares writable fillable) :=
  fun _ => spares_eraseObject hwritable

theorem putItem_stays (hfillable : fillable name) :
    (backend.putItem name item).Stays (Spares writable fillable) := by
  intro m
  cases hm : m.tables.lookup name with
  | none =>
    rw [putItem_eq_of_none hm]
    exact Spares.refl m
  | some table =>
    rw [putItem_eq hm]
    cases item.key table.partitionKey with
    | ok key => exact spares_setItem hfillable table key
    | error e => exact Spares.refl m

end Spares

end Memory

namespace Service

/-! ### Calls of a service in memory -/

variable {policy : AccessPolicy}

/-- The containers that a policy lets operations read from. -/
abbrev Readable (policy : AccessPolicy) (container : String) : Prop :=
  policy.allows (.read container) = true

/-- The containers that a policy lets operations write to. -/
abbrev Writable (policy : AccessPolicy) (container : String) : Prop :=
  policy.allows (.write container) = true

/-- The tables that a policy lets operations put items into. -/
abbrev Fillable (policy : AccessPolicy) (table : String) : Prop :=
  policy.allows (.table table) = true

theorem apply_stays (input : Json) (operation : Operation) :
    ((Memory.service policy).apply input operation).Stays
      (Memory.Spares (Writable policy) (Fillable policy)) := by
  cases operation with
  | copyObject =>
    exact .check .refl fun destination _ => .check .refl fun source _ => .check .refl fun _ _ =>
      .check .refl fun _ hwrite =>
        .bind .trans (Memory.copy_stays (AccessPolicy.allows_of_check hwrite)) fun _ =>
          .const .refl _
  | getObject =>
    refine .check .refl fun object _ => .check .refl fun _ _ => .bind .trans Memory.get_stays ?_
    intro body
    cases String.fromUTF8? body with
    | some text => exact .const .refl _
    | none => exact .const .refl _
  | deleteObject =>
    exact .check .refl fun object _ => .check .refl fun _ hwrite =>
      .bind .trans (Memory.delete_stays (AccessPolicy.allows_of_check hwrite)) fun _ =>
        .const .refl _
  | putItem =>
    exact .check .refl fun table _ => .check .refl fun item _ => .check .refl fun _ htable =>
      .bind .trans (Memory.putItem_stays (AccessPolicy.allows_of_check htable)) fun _ =>
        .const .refl _

/-- On states that look alike under the policy, a call gets the same answer: a call that gets past
the checks reads from containers with a read grant. -/
theorem invoke_agrees (operation : String) (input : Json) :
    Call.Alike (Memory.Agrees (Readable policy)) (· = ·)
      ((Memory.service policy).invoke operation input)
      ((Memory.service policy).invoke operation input) := by
  intro m n h
  have hseen : ∀ c, Reads policy n.schema (operation, input) c →
      Memory.Seen (Readable policy) c := by
    rintro c ⟨op, -, hreads⟩
    cases hreads with
    | copyObject _ hread => exact hread
    | getObject _ hread => exact hread
    | putItem => trivial
  obtain ⟨hanswer, hstates⟩ := invoke_alike hseen m n h.matches
  exact ⟨hanswer, hstates.agrees⟩

theorem invoke_stays (operation : String) (input : Json) :
    ((Memory.service policy).invoke operation input).Stays
      (Memory.Spares (Writable policy) (Fillable policy)) := by
  have hperform : ((Memory.service policy).perform operation input).Stays
      (Memory.Spares (Writable policy) (Fillable policy)) := by
    unfold perform
    cases Operation.ofName? operation with
    | some op => exact apply_stays input op
    | none => exact .const .refl _
  exact .bind .trans hperform fun _ => .const .refl _

/-! ### Sequences of calls -/

/-- The answers to calls that are made one after another, and the state after them. -/
def invokeAll (s : Service σ) : List (String × Json) → σ → List (Except CallError Json) × σ
  | [], m => ([], m)
  | (operation, input) :: calls, m =>
    let (answer, m') := s.invoke operation input m
    let (answers, m'') := s.invokeAll calls m'
    (answer :: answers, m'')

theorem invokeAll_alike (calls : List (String × Json)) {m n : Memory}
    (h : m.Agrees (Readable policy) n) :
    ((Memory.service policy).invokeAll calls m).1 =
        ((Memory.service policy).invokeAll calls n).1 ∧
      ((Memory.service policy).invokeAll calls m).2.Agrees (Readable policy)
        ((Memory.service policy).invokeAll calls n).2 := by
  induction calls generalizing m n with
  | nil => exact ⟨rfl, h⟩
  | cons call calls ih =>
    obtain ⟨operation, input⟩ := call
    obtain ⟨hanswer, hstates⟩ := invoke_agrees operation input m n h
    obtain ⟨hanswers, hafter⟩ := ih hstates
    exact ⟨congrArg₂ List.cons hanswer.eq hanswers, hafter⟩

theorem invokeAll_spares (calls : List (String × Json)) (m : Memory) :
    m.Spares (Writable policy) (Fillable policy)
      ((Memory.service policy).invokeAll calls m).2 := by
  induction calls generalizing m with
  | nil => exact .refl m
  | cons call calls ih =>
    obtain ⟨operation, input⟩ := call
    exact (invoke_stays operation input m).trans (ih _)

/-- Grants keep apart what they do not join: on two states with the same tables and the same objects
in the containers that may be read, the same calls get the same answers and leave two such states;
and neither run changes an object or a table that may not be written to. -/
theorem noninterference (grants : List Grant) (calls : List (String × Json)) {m n : Memory}
    (h : m.Agrees (.read · ∈ grants) n) :
    ((Memory.service (.ofGrants grants)).invokeAll calls m).1 =
        ((Memory.service (.ofGrants grants)).invokeAll calls n).1 ∧
      ((Memory.service (.ofGrants grants)).invokeAll calls m).2.Agrees (.read · ∈ grants)
        ((Memory.service (.ofGrants grants)).invokeAll calls n).2 ∧
      m.Spares (.write · ∈ grants) (.table · ∈ grants)
        ((Memory.service (.ofGrants grants)).invokeAll calls m).2 ∧
      n.Spares (.write · ∈ grants) (.table · ∈ grants)
        ((Memory.service (.ofGrants grants)).invokeAll calls n).2 := by
  have hread : Readable (.ofGrants grants) = (.read · ∈ grants) :=
    funext fun _ => propext AccessPolicy.allows_ofGrants
  have hwrite : Writable (.ofGrants grants) = (.write · ∈ grants) :=
    funext fun _ => propext AccessPolicy.allows_ofGrants
  have htable : Fillable (.ofGrants grants) = (.table · ∈ grants) :=
    funext fun _ => propext AccessPolicy.allows_ofGrants
  rw [← hread] at h
  rw [← hread, ← hwrite, ← htable]
  obtain ⟨hanswers, hafter⟩ := invokeAll_alike calls h
  exact ⟨hanswers, hafter, invokeAll_spares calls m, invokeAll_spares calls n⟩

/-- A vault that can be written to but not read from, once with a secret in it and once without,
while something is copied out of it and into it. -/
theorem noninterference_vault :
    let grants : List Grant := [.read "inbox", .write "inbox", .write "vault"]
    let calls : List (String × Json) := [
      ("storage:copyObject", .object [("Bucket", .string "inbox"), ("Key", .string "copy"),
        ("CopySource", .string "vault/secret")]),
      ("storage:copyObject", .object [("Bucket", .string "vault"), ("Key", .string "copy"),
        ("CopySource", .string "inbox/file")])]
    let m := Memory.empty.setObject ⟨"inbox", "file"⟩ "data".toUTF8
    let n := m.setObject ⟨"vault", "secret"⟩ "secret".toUTF8
    m.Agrees (.read · ∈ grants) n ∧
      ((Memory.service (.ofGrants grants)).invokeAll calls m).1 =
        ((Memory.service (.ofGrants grants)).invokeAll calls n).1 ∧
      ((Memory.service (.ofGrants grants)).invokeAll calls m).2.Agrees (.read · ∈ grants)
        ((Memory.service (.ofGrants grants)).invokeAll calls n).2 ∧
      m.Spares (.write · ∈ grants) (.table · ∈ grants)
        ((Memory.service (.ofGrants grants)).invokeAll calls m).2 ∧
      n.Spares (.write · ∈ grants) (.table · ∈ grants)
        ((Memory.service (.ofGrants grants)).invokeAll calls n).2 := by
  intro grants calls m n
  have hsecret : Grant.read "vault" ∉ grants := by decide
  have h : m.Agrees (.read · ∈ grants) n := .of_unreadable hsecret _
  exact ⟨h, noninterference grants calls h⟩

end Service

end Conveyor
