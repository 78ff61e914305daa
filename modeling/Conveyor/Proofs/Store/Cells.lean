import Conveyor.Proofs.Store.Memory
import Conveyor.Store.Service

/-!
# What operations read and write

An operation on a store in memory reads and writes certain cells: objects, and rows of tables. Its
answer, and what it leaves in any cells, depend on the cells that it reads alone
(`Service.apply_alike`, `Service.invoke_alike`), and it leaves the cells that it does not write as
they were (`Service.apply_keeps`, `Service.invoke_keeps`).

The row that an item is put into depends on the partition key of its table. No operation changes a
partition key, so that they are given once and for all, by a schema.
-/

namespace Conveyor

/-- What is stored in one place: an object, or a row of a table. -/
inductive Cell where
  | object (r : ObjectRef)
  | row (table key : String)
  deriving DecidableEq, Repr

/-- Two stores have the same in a cell. -/
def Cell.Same (m n : Memory) : Cell → Prop
  | .object r => m.object? r = n.object? r
  | .row table key => m.item? table key = n.item? table key

namespace Cell

variable {c : Cell} {m n k : Memory} {r : ObjectRef} {name key : String} {table : Table}

theorem Same.refl (m : Memory) (c : Cell) : c.Same m m := by
  cases c with
  | object r => exact Eq.refl (m.object? r)
  | row table key => exact Eq.refl (m.item? table key)

theorem Same.symm (h : c.Same m n) : c.Same n m := by
  cases c with
  | object r => exact Eq.symm h
  | row table key => exact Eq.symm h

theorem Same.trans (h : c.Same m n) (h' : c.Same n k) : c.Same m k := by
  cases c with
  | object r => exact Eq.trans h h'
  | row table key => exact Eq.trans h h'

theorem same_setObject (h : c ≠ .object r) (body : ByteArray) :
    c.Same (m.setObject r body) m := by
  cases c with
  | object other =>
    exact Memory.object?_setObject.trans (if_neg fun heq => h (congrArg object heq))
  | row table key => exact Eq.refl (m.item? table key)

theorem same_eraseObject (h : c ≠ .object r) : c.Same (m.eraseObject r) m := by
  cases c with
  | object other =>
    exact Memory.object?_eraseObject.trans (if_neg fun heq => h (congrArg object heq))
  | row table key => exact Eq.refl (m.item? table key)

theorem same_setItem (htable : m.tables.lookup name = some table) (h : c ≠ .row name key)
    (item : Item) : c.Same (m.setItem name table key item) m := by
  cases c with
  | object r => exact Eq.refl (m.object? r)
  | row other key' =>
    refine (Memory.item?_setItem htable).trans (if_neg ?_)
    rintro ⟨rfl, rfl⟩
    exact h rfl

end Cell

/-! ### Cells of operations -/

namespace Operation

theorem ofName?_name (operation : Operation) : ofName? operation.name = some operation := by
  cases operation <;> decide

variable (policy : AccessPolicy) (schema : String → Option String) (input : Json)

/-- The cells that an operation reads if the policy lets it. When an item is put into a table, the
answer tells whether there was a row already. -/
inductive Reads : Operation → Cell → Prop
  | copyObject {source : ObjectRef} (hsource : Service.sourceObject input = .ok source)
    (hread : policy.allows (.read source.container) = true) :
    Reads .copyObject (.object source)
  | getObject {object : ObjectRef} (hobject : Service.namedObject .getObject input = .ok object)
    (hread : policy.allows (.read object.container) = true) :
    Reads .getObject (.object object)
  | putItem {table partitionKey key : String} {item : Item}
    (htable : Service.requiredText .putItem input "TableName" = .ok table)
    (hitem : Service.namedItem input = .ok item) (hfill : policy.allows (.table table) = true)
    (hschema : schema table = some partitionKey) (hkey : item.key partitionKey = .ok key) :
    Reads .putItem (.row table key)

/-- The cells that an operation writes or deletes if the policy lets it. -/
inductive Writes : Operation → Cell → Prop
  | copyObject {destination : ObjectRef}
    (hdestination : Service.namedObject .copyObject input = .ok destination)
    (hwrite : policy.allows (.write destination.container) = true) :
    Writes .copyObject (.object destination)
  | deleteObject {object : ObjectRef}
    (hobject : Service.namedObject .deleteObject input = .ok object)
    (hwrite : policy.allows (.write object.container) = true) :
    Writes .deleteObject (.object object)
  | putItem {table partitionKey key : String} {item : Item}
    (htable : Service.requiredText .putItem input "TableName" = .ok table)
    (hitem : Service.namedItem input = .ok item) (hfill : policy.allows (.table table) = true)
    (hschema : schema table = some partitionKey) (hkey : item.key partitionKey = .ok key) :
    Writes .putItem (.row table key)

end Operation

namespace Memory

/-- The store in memory behind a policy. -/
def service (policy : AccessPolicy) : Service Memory := ⟨backend, policy⟩

/-- The partition keys of the tables of a store. -/
def schema (m : Memory) (table : String) : Option String := m.partitionKey? table

/-- Two stores have the partition keys of a schema, and the same in some cells. -/
structure Matches (schema : String → Option String) (cells : Cell → Prop) (m n : Memory) :
    Prop where
  left (table : String) : m.schema table = schema table
  right (table : String) : n.schema table = schema table
  same (c : Cell) (h : cells c) : c.Same m n

/-- From one store with a schema to another one some cells stay as they are. -/
def Keeps (schema : String → Option String) (cells : Cell → Prop) (m m' : Memory) : Prop :=
  (∀ table, m.schema table = schema table) → m'.Matches schema cells m

variable {schema : String → Option String} {cells : Cell → Prop} {m m₁ m₂ m₃ n : Memory}
  {object source destination : ObjectRef} {name : String} {item : Item}

theorem Matches.trans (h : m₁.Matches schema cells m₂) (h' : m₂.Matches schema cells m₃) :
    m₁.Matches schema cells m₃ :=
  ⟨h.left, h'.right, fun c hc => (h.same c hc).trans (h'.same c hc)⟩

/-! ### The operations on stores that match -/

theorem Matches.setObject (h : m.Matches schema cells n) (body : ByteArray) :
    (m.setObject object body).Matches schema cells (n.setObject object body) where
  left := h.left
  right := h.right
  same c hc := by
    by_cases hobject : c = .object object
    · subst hobject
      exact (object?_setObject.trans (if_pos rfl)).trans (object?_setObject.trans (if_pos rfl)).symm
    · exact (Cell.same_setObject hobject body).trans
        ((h.same c hc).trans (Cell.same_setObject hobject body).symm)

theorem Matches.eraseObject (h : m.Matches schema cells n) :
    (m.eraseObject object).Matches schema cells (n.eraseObject object) where
  left := h.left
  right := h.right
  same c hc := by
    by_cases hobject : c = .object object
    · subst hobject
      exact (object?_eraseObject.trans (if_pos rfl)).trans
        (object?_eraseObject.trans (if_pos rfl)).symm
    · exact (Cell.same_eraseObject hobject).trans
        ((h.same c hc).trans (Cell.same_eraseObject hobject).symm)

theorem Matches.setItem (h : m.Matches schema cells n) {table table' : Table} {key : String}
    (hm : m.tables.lookup name = some table) (hn : n.tables.lookup name = some table') :
    (m.setItem name table key item).Matches schema cells (n.setItem name table' key item) where
  left other := (partitionKey?_setItem hm).trans (h.left other)
  right other := (partitionKey?_setItem hn).trans (h.right other)
  same c hc := by
    by_cases hrow : c = .row name key
    · subst hrow
      exact ((item?_setItem hm).trans (if_pos ⟨rfl, rfl⟩)).trans
        ((item?_setItem hn).trans (if_pos ⟨rfl, rfl⟩)).symm
    · exact (Cell.same_setItem hm hrow item).trans
        ((h.same c hc).trans (Cell.same_setItem hn hrow item).symm)

theorem get_alike (hobject : cells (.object object)) :
    Call.Alike (Matches schema cells) (· = ·) (backend.get object) (backend.get object) := by
  intro m n h
  have hsame : m.object? object = n.object? object := h.same _ hobject
  rw [get_eq, get_eq, hsame]
  cases n.object? object with
  | some body => exact ⟨.ok rfl, h⟩
  | none => exact ⟨.error _, h⟩

theorem copy_alike (hsource : cells (.object source)) :
    Call.Alike (Matches schema cells) (· = ·) (backend.copy source destination)
      (backend.copy source destination) := by
  intro m n h
  have hsame : m.object? source = n.object? source := h.same _ hsource
  rw [copy_eq, copy_eq, hsame]
  cases n.object? source with
  | some body => exact ⟨.ok rfl, h.setObject body⟩
  | none => exact ⟨.error _, h⟩

/-- Whether there was an object need not be the same. -/
theorem delete_alike :
    Call.Alike (Matches schema cells) (fun _ _ => True) (backend.delete object)
      (backend.delete object) := by
  intro m n h
  rw [delete_eq, delete_eq]
  exact ⟨.ok trivial, h.eraseObject⟩

theorem putItem_alike (hrow : ∀ partitionKey key, schema name = some partitionKey →
      item.key partitionKey = .ok key → cells (.row name key)) :
    Call.Alike (Matches schema cells) (· = ·) (backend.putItem name item)
      (backend.putItem name item) := by
  intro m n h
  have hleft := h.left name
  have hright := h.right name
  unfold Memory.schema partitionKey? at hleft hright
  cases hm : m.tables.lookup name with
  | none =>
    rw [← hleft, hm] at hright
    rw [putItem_eq_of_none hm, putItem_eq_of_none (Option.map_eq_none_iff.mp hright)]
    exact ⟨.error _, h⟩
  | some table =>
    rw [hm] at hleft
    rw [← hleft] at hright
    -- both tables have the partition key of the schema, so the item goes into the same row
    obtain ⟨table', hn, hkey⟩ := Option.map_eq_some_iff.mp hright
    rw [putItem_eq hm, putItem_eq hn, hkey]
    cases hitem : item.key table.partitionKey with
    | error e => exact ⟨.error e, h⟩
    | ok key =>
      -- the answer tells whether there was a row with this key
      have hsame : m.item? name key = n.item? name key :=
        h.same _ (hrow _ key hleft.symm hitem)
      rw [item?_of_lookup hm, item?_of_lookup hn] at hsame
      exact ⟨.ok (by rw [hsame]), h.setItem hm hn⟩

/-! ### What the operations leave as it was -/

theorem Keeps.refl (m : Memory) : Keeps schema cells m m :=
  fun h => ⟨h, h, fun c _ => .refl m c⟩

theorem Keeps.trans (h : Keeps schema cells m₁ m₂) (h' : Keeps schema cells m₂ m₃) :
    Keeps schema cells m₁ m₃ :=
  fun hschema => (h' (h hschema).left).trans (h hschema)

theorem get_keeps : (backend.get object).Stays (Keeps schema cells) := by
  intro m
  rw [get_eq]
  cases m.object? object <;> exact .refl m

theorem copy_keeps (hdestination : ¬cells (.object destination)) :
    (backend.copy source destination).Stays (Keeps schema cells) := by
  intro m
  rw [copy_eq]
  cases m.object? source with
  | some body =>
    exact fun h => ⟨h, h, fun c hc =>
      Cell.same_setObject (fun heq => hdestination (heq ▸ hc)) body⟩
  | none => exact .refl m

theorem delete_keeps (hobject : ¬cells (.object object)) :
    (backend.delete object).Stays (Keeps schema cells) :=
  fun _ h => ⟨h, h, fun _ hc => Cell.same_eraseObject fun heq => hobject (heq ▸ hc)⟩

theorem putItem_keeps (hrow : ∀ partitionKey key, schema name = some partitionKey →
      item.key partitionKey = .ok key → ¬cells (.row name key)) :
    (backend.putItem name item).Stays (Keeps schema cells) := by
  intro m h
  cases hm : m.tables.lookup name with
  | none =>
    rw [putItem_eq_of_none hm]
    exact Keeps.refl m h
  | some table =>
    have hschema : schema name = some table.partitionKey := by
      rw [← h name, Memory.schema, partitionKey?, hm]
      rfl
    rw [putItem_eq hm]
    cases hkey : item.key table.partitionKey with
    | error e => exact Keeps.refl m h
    | ok key =>
      refine ⟨fun other => (partitionKey?_setItem hm).trans (h other), h, fun c hc => ?_⟩
      exact Cell.same_setItem hm (fun heq => hrow _ key hschema hkey (heq ▸ hc)) item

end Memory

/-! ### Calls of a service -/

theorem AccessPolicy.allows_of_check {policy : AccessPolicy} {g : Grant}
    {operation resource : String} {a : Unit} (h : policy.check g operation resource = .ok a) :
    policy.allows g = true := by
  unfold check at h
  split at h
  · assumption
  · cases h

namespace Service

variable {policy : AccessPolicy} {schema : String → Option String} {cells : Cell → Prop}
  {input : Json} {operation : Operation}

/-- On stores with the same in the cells that it reads, an operation gives the same answer up to its
deed. -/
theorem apply_alike (hreads : ∀ c, operation.Reads policy schema input c → cells c) :
    Call.Alike (Memory.Matches schema cells) (fun a b => a.1 = b.1)
      ((Memory.service policy).apply input operation)
      ((Memory.service policy).apply input operation) := by
  cases operation with
  | copyObject =>
    refine .check fun destination _ => .check fun source hsource => .check fun _ hread =>
      .check fun _ _ => .bind (Memory.copy_alike (hreads _ (.copyObject hsource
        (AccessPolicy.allows_of_check hread)))) ?_
    rintro size _ rfl
    exact .pure rfl
  | getObject =>
    refine .check fun object hobject => .check fun _ hread =>
      .bind (Memory.get_alike (hreads _ (.getObject hobject
        (AccessPolicy.allows_of_check hread)))) ?_
    rintro body _ rfl
    cases String.fromUTF8? body with
    | some text => exact .pure rfl
    | none => exact .throw _
  | deleteObject =>
    exact .check fun object _ => .check fun _ _ =>
      .bind Memory.delete_alike fun _ _ _ => .pure rfl
  | putItem =>
    refine .check fun table htable => .check fun item hitem => .check fun _ hfill =>
      .bind (Memory.putItem_alike fun _ _ hschema hkey => hreads _
        (.putItem htable hitem (AccessPolicy.allows_of_check hfill) hschema hkey)) ?_
    rintro stored _ rfl
    exact .pure rfl

/-- An operation leaves the cells that it does not write. -/
theorem apply_keeps (hwrites : ∀ c, operation.Writes policy schema input c → ¬cells c) :
    ((Memory.service policy).apply input operation).Stays (Memory.Keeps schema cells) := by
  cases operation with
  | copyObject =>
    exact .check .refl fun destination hdestination => .check .refl fun source _ =>
      .check .refl fun _ _ => .check .refl fun _ hwrite =>
        .bind .trans (Memory.copy_keeps (hwrites _ (.copyObject hdestination
          (AccessPolicy.allows_of_check hwrite)))) fun _ => .const .refl _
  | getObject =>
    refine .check .refl fun object _ => .check .refl fun _ _ => .bind .trans Memory.get_keeps ?_
    intro body
    cases String.fromUTF8? body with
    | some text => exact .const .refl _
    | none => exact .const .refl _
  | deleteObject =>
    exact .check .refl fun object hobject => .check .refl fun _ hwrite =>
      .bind .trans (Memory.delete_keeps (hwrites _ (.deleteObject hobject
        (AccessPolicy.allows_of_check hwrite)))) fun _ => .const .refl _
  | putItem =>
    exact .check .refl fun table htable => .check .refl fun item hitem =>
      .check .refl fun _ hfill => .bind .trans (Memory.putItem_keeps fun _ _ hschema hkey =>
        hwrites _ (.putItem htable hitem (AccessPolicy.allows_of_check hfill) hschema hkey))
          fun _ => .const .refl _

/-- The cells that the call of the operation with a name reads. -/
def Reads (policy : AccessPolicy) (schema : String → Option String) (call : String × Json)
    (c : Cell) : Prop :=
  ∃ operation, Operation.ofName? call.1 = some operation ∧ operation.Reads policy schema call.2 c

/-- The cells that the call of the operation with a name writes or deletes. -/
def Writes (policy : AccessPolicy) (schema : String → Option String) (call : String × Json)
    (c : Cell) : Prop :=
  ∃ operation, Operation.ofName? call.1 = some operation ∧ operation.Writes policy schema call.2 c

/-- A cell is read or written by one of these calls. -/
def Touches (policy : AccessPolicy) (schema : String → Option String)
    (calls : List (String × Json)) (c : Cell) : Prop :=
  ∃ call ∈ calls, Reads policy schema call c ∨ Writes policy schema call c

/-- A cell is written by one of these calls. -/
def Changes (policy : AccessPolicy) (schema : String → Option String)
    (calls : List (String × Json)) (c : Cell) : Prop :=
  ∃ call ∈ calls, Writes policy schema call c

theorem changes_singleton {c : Cell} :
    Changes policy schema [(operation.name, input)] c ↔ operation.Writes policy schema input c := by
  simp only [Changes, Writes, List.mem_singleton, exists_eq_left, Operation.ofName?_name,
    Option.some.injEq, exists_eq_left']

theorem touches_singleton {c : Cell} :
    Touches policy schema [(operation.name, input)] c ↔
      operation.Reads policy schema input c ∨ operation.Writes policy schema input c := by
  simp only [Touches, Reads, Writes, List.mem_singleton, exists_eq_left, Operation.ofName?_name,
    Option.some.injEq, exists_eq_left']

theorem Changes.touches {calls : List (String × Json)} {c : Cell}
    (h : Changes policy schema calls c) : Touches policy schema calls c :=
  h.imp fun _ hcall => ⟨hcall.1, .inr hcall.2⟩

/-- On stores with the same in the cells that it reads, a call gets the same answer, and leaves such
stores. -/
theorem invoke_alike {call : String × Json} (hreads : ∀ c, Reads policy schema call c → cells c) :
    Call.Alike (Memory.Matches schema cells) (· = ·)
      ((Memory.service policy).invoke call.1 call.2)
      ((Memory.service policy).invoke call.1 call.2) := by
  have hperform : Call.Alike (Memory.Matches schema cells) (fun a b => a.1 = b.1)
      ((Memory.service policy).perform call.1 call.2)
      ((Memory.service policy).perform call.1 call.2) := by
    unfold perform
    cases hname : Operation.ofName? call.1 with
    | some operation => exact apply_alike fun c hc => hreads c ⟨operation, hname, hc⟩
    | none => exact .throw _
  exact .bind hperform fun _ _ h => .pure h

/-- A call leaves the cells that it does not write. -/
theorem invoke_keeps {call : String × Json}
    (hwrites : ∀ c, Writes policy schema call c → ¬cells c) :
    ((Memory.service policy).invoke call.1 call.2).Stays (Memory.Keeps schema cells) := by
  have hperform : ((Memory.service policy).perform call.1 call.2).Stays
      (Memory.Keeps schema cells) := by
    unfold perform
    cases hname : Operation.ofName? call.1 with
    | some operation => exact apply_keeps fun c hc => hwrites c ⟨operation, hname, hc⟩
    | none => exact .const .refl _
  exact .bind .trans hperform fun _ => .const .refl _

end Service

end Conveyor
