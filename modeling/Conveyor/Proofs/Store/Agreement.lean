import Conveyor.Proofs.Store.Mirrors
import Conveyor.Proofs.Store.Operations

/-!
# The same requests to memory and to files

A store on files that mirrors a store in memory (`FileStore.Mirrors`) answers each request as that
one does, and mirrors it afterwards. Each operation of the backends keeps this relation, and the
operations of a service are checks, one operation of the backend, and an answer that depends on
nothing else. The tables have to be read back from the texts that are written of them; this is asked
of the states before each request (`Memory.Legible`).
-/

namespace Conveyor

/-! ### Calls on different states -/

namespace Call

variable {σ τ α β : Type} {R R' : σ → τ → Prop} {c : Call σ α} {d : Call τ α}

/-- On states in the relation `R` two calls give the same answer and leave states in `R'`. -/
def Agree (R R' : σ → τ → Prop) (c : Call σ α) (d : Call τ α) : Prop :=
  ∀ m t, R m t → (c m).1 = (d t).1 ∧ R' (c m).2 (d t).2

namespace Agree

theorem ofExcept (hR : ∀ m t, R m t → R' m t) (r : Except CallError α) :
    Agree R R' (ofExcept r) (ofExcept r) :=
  fun m t h => ⟨rfl, hR m t h⟩

/-- After a check that changes nothing. -/
theorem check (hR : ∀ m t, R m t → R' m t) {r : Except CallError α} {f : α → Call σ β}
    {g : α → Call τ β} (h : ∀ a, r = .ok a → Agree R R' (f a) (g a)) :
    Agree R R' (Call.ofExcept r >>= f) (Call.ofExcept r >>= g) := by
  cases r with
  | ok a =>
    rw [ofExcept_bind_of_ok rfl, ofExcept_bind_of_ok rfl]
    exact h a rfl
  | error e =>
    rw [ofExcept_bind_of_error rfl, ofExcept_bind_of_error rfl]
    exact .ofExcept hR (.error e)

/-- Before an answer that changes nothing. -/
theorem answer {f : α → Call σ β} {g : α → Call τ β} (h : Agree R R' c d)
    (hfg : ∀ a, ∃ r, f a = Call.ofExcept r ∧ g a = Call.ofExcept r) :
    Agree R R' (c >>= f) (d >>= g) := by
  intro m t hstates
  obtain ⟨hanswer, hafter⟩ := h m t hstates
  rcases hc : c m with ⟨r, m'⟩
  rcases hd : d t with ⟨r', t'⟩
  rw [hc, hd] at hanswer hafter
  obtain rfl : r = r' := hanswer
  cases r with
  | ok a =>
    obtain ⟨answer, hf, hg⟩ := hfg a
    rw [bind_of_ok hc, bind_of_ok hd, hf, hg]
    exact ⟨rfl, hafter⟩
  | error e =>
    rw [bind_of_error hc, bind_of_error hd]
    exact ⟨rfl, hafter⟩

end Agree

end Call

/-! ### The operations of the backends -/

/-- The tables of a store in memory are read back from the texts that are written of them. -/
def Memory.Legible (m : Memory) : Prop :=
  ∀ e ∈ m.tables, Json.readObjects (FileStore.tableText e.2.rows) = .ok e.2.rows

instance (m : Memory) : Decidable m.Legible :=
  inferInstanceAs (Decidable (∀ e ∈ m.tables, _))

namespace FileStore

/-- The files of a tree hold what a store in memory holds, which are objects out of `K`. -/
structure Mirrors (s : FileStore) (K : ObjectRef → Prop) (m : Memory) (t : Tree) : Prop where
  objects : s.ShowsObjects K m.object? t
  tables : s.ShowsTables m t

/-- The files hold what the memory holds, and the tables can be read back. -/
structure Tracks (s : FileStore) (K : ObjectRef → Prop) (m : Memory) (t : Tree) : Prop
    extends s.Mirrors K m t where
  legible : m.Legible

namespace Mirrors

variable {s : FileStore} {K : ObjectRef → Prop} {m : Memory} {t : Tree} {r : ObjectRef}
  (hs : s.Separate) (hK : s.Compatible K)

theorem placeOf_apart (hs : s.Separate) : ¬ s.placeOf r <+: s.tables.place :=
  fun hp => hs.objects_apart (place_prefix_placeOf.trans hp)

theorem apart_placeOf (hs : s.Separate) : ¬ s.tables.place <+: s.placeOf r := fun hp =>
  (List.prefix_or_prefix_of_prefix hp place_prefix_placeOf).elim hs.tables_apart hs.objects_apart

include hs hK

/-- What is found at the file of an object is what is in memory. -/
theorem find_eq (h : s.Mirrors K m t) (hr : K r) : ∃ route, s.locate r = .ok route ∧
    t.find route = match m.object? r with
      | some body => .ok (s.placeOf r, .file body)
      | none => .error .missing := by
  obtain ⟨name, hlocate, hplace, hroute⟩ := exists_route hs (hK.ordinary r hr)
  refine ⟨_, hlocate, ?_⟩
  cases hbody : m.object? r with
  | none =>
    exact Tree.find_eq_missing hroute (h.objects.clear_way hK hr)
      (hplace ▸ h.objects.entry?_eq_none hK hr hbody)
  | some body =>
    rw [hplace]
    exact Tree.find_eq_file hroute (h.objects.paved r (Option.isSome_of_eq_some hbody))
      (hplace ▸ h.objects.entry?_eq_file hbody)

/-- The folders in which an object is to be written can be made, and the object written then. -/
theorem makeParents_eq (h : s.Mirrors K m t) (hr : K r) : ∃ route t', s.locate r = .ok route ∧
    makeParents route t = (.ok (), t') ∧ s.Mirrors K m t' ∧
      t'.target route = .ok (s.placeOf r) ∧
      ∀ body, s.Mirrors K (m.setObject r body) (t'.withFile (s.placeOf r) body) := by
  obtain ⟨name, hlocate, hplace, hroute⟩ := exists_route hs (hK.ordinary r hr)
  obtain ⟨t', hmake, hpaved, hsame⟩ := Tree.makeParents_eq hroute (h.objects.clear_way hK hr)
  have hway : s.objects.start ++ s.way r <+: s.placeOf r := by
    rw [hplace, ← List.append_assoc]
    exact List.prefix_append _ _
  have hspares : Tree.Spares s.tables.place t t' :=
    .of_paved hpaved hsame fun hp => apart_placeOf hs (hp.trans hway)
  have h' : s.Mirrors K m t' :=
    ⟨h.objects.makeFolders hK hr hpaved hsame, h.tables.spares hspares⟩
  have hfolder := h'.objects.entry?_ne_folder hK hr
  refine ⟨_, t', hlocate, ?_, h', ?_, fun body => ?_⟩
  · simp only [makeParents, hmake]
    rfl
  · rw [hplace] at hfolder ⊢
    exact Tree.target_eq hroute hpaved hfolder
  · have hchange (p : Place) : Tree.entry? (t'.withFile (s.placeOf r) body) p =
        if p = s.placeOf r then (some body).map .file else t'.entry? p :=
      Tree.entry?_withFile_eq hfolder
    exact ⟨h'.objects.setEntry hK hr (fun _ => hpaved) hchange fun _ => Memory.object?_setObject,
      (h'.tables.of_tables Memory.setObject_tables).spares
        (.of_ne hfolder hchange (placeOf_apart hs) (apart_placeOf hs))⟩

/-- The file of an object can be removed if the object is there. -/
theorem remove_eq (h : s.Mirrors K m t) (hr : K r) : ∃ route, s.locate r = .ok route ∧
    (m.object? r = none ∧ t.remove route = .error .missing ∨
      (m.object? r).isSome ∧ ∃ t', t.remove route = .ok t' ∧ s.Mirrors K (m.eraseObject r) t') := by
  obtain ⟨name, hlocate, hplace, hroute⟩ := exists_route hs (hK.ordinary r hr)
  refine ⟨_, hlocate, ?_⟩
  cases hbody : m.object? r with
  | none =>
    refine .inl ⟨rfl, Tree.remove_eq_missing hroute (h.objects.clear_way hK hr) ?_⟩
    exact hplace ▸ h.objects.entry?_eq_none hK hr hbody
  | some body =>
    have hfile := h.objects.entry?_eq_file hbody
    have hpaved := h.objects.paved r (Option.isSome_of_eq_some hbody)
    have hfolder := h.objects.entry?_ne_folder hK hr
    refine .inr ⟨rfl, _, Tree.remove_eq_file hroute hpaved (hplace ▸ hfile), ?_⟩
    rw [← hplace]
    let t' : Tree := ⟨t.folders, t.files.filter (·.1 ≠ s.placeOf r)⟩
    have hchange (p : Place) : t'.entry? p =
        if p = s.placeOf r then (none : Option ByteArray).map .file else t.entry? p :=
      Tree.entry?_filter hfolder
    have hgone : (none : Option ByteArray).isSome → t.Paved s.objects.start (s.way r) :=
      fun hsome => absurd hsome Bool.false_ne_true
    exact ⟨h.objects.setEntry hK hr hgone hchange fun _ => Memory.object?_eraseObject,
      (h.tables.of_tables Memory.eraseObject_tables).spares
        (.of_ne hfolder hchange (placeOf_apart hs) (apart_placeOf hs))⟩

end Mirrors

open Call (Agree)

section Backends

variable {s : FileStore} {K : ObjectRef → Prop} (hs : s.Separate) (hK : s.Compatible K)
  {r source destination : ObjectRef}

include hs hK

theorem get_agree (hr : K r) :
    Agree (s.Tracks K) (s.Mirrors K) (Memory.backend.get r) (s.backend.get r) := by
  intro m t h
  obtain ⟨route, hlocate, hfind⟩ := h.find_eq hs hK hr
  have hget : s.backend.get r = Call.ofRead fun t => (t.read route).mapError (objectFault r) :=
    Call.ofExcept_bind_of_ok hlocate
  rw [Memory.get_eq, hget]
  cases hbody : m.object? r <;>
  · rw [hbody] at hfind
    simp only [Call.ofRead, Tree.read, hfind]
    exact ⟨rfl, h.toMirrors⟩

theorem has_agree (hr : K r) :
    Agree (s.Tracks K) (s.Mirrors K) (Memory.backend.has r) (s.backend.has r) := by
  intro m t h
  obtain ⟨route, hlocate, hfind⟩ := h.find_eq hs hK hr
  have hhas : s.backend.has r = Call.ofRead fun t => (t.has route).mapError failed :=
    Call.ofExcept_bind_of_ok hlocate
  have hmem : Memory.backend.has r m = (.ok (m.object? r).isSome, m) := rfl
  rw [hmem, hhas]
  cases hbody : m.object? r <;>
  · rw [hbody] at hfind
    simp only [Call.ofRead, Tree.has, hfind]
    exact ⟨rfl, h.toMirrors⟩

theorem put_agree (hr : K r) (body : ByteArray) :
    Agree (s.Tracks K) (s.Mirrors K) (Memory.backend.put r body) (s.backend.put r body) := by
  intro m t h
  obtain ⟨route, t', hlocate, hmake, -, htarget, hwritten⟩ := h.makeParents_eq hs hK hr
  have hput : s.backend.put r body t = (.ok (), t'.withFile (s.placeOf r) body) := by
    have hstart : s.backend.put r body = _ := Call.ofExcept_bind_of_ok hlocate
    rw [hstart, Call.bind_of_ok hmake]
    simp only [Call.ofUpdate, Tree.write, htarget]
    rfl
  rw [hput]
  exact ⟨rfl, hwritten body⟩

theorem delete_agree (hr : K r) :
    Agree (s.Tracks K) (s.Mirrors K) (Memory.backend.delete r) (s.backend.delete r) := by
  intro m t h
  obtain ⟨route, hlocate, hremove⟩ := h.remove_eq hs hK hr
  have hdelete : s.backend.delete r = _ := Call.ofExcept_bind_of_ok hlocate
  rw [Memory.delete_eq, hdelete]
  rcases hremove with ⟨hnone, hremove⟩ | ⟨hsome, t', hremove, herased⟩
  · have herase : (m.eraseObject r).object? = m.object? := by
      funext other
      rw [Memory.object?_eraseObject]
      split
      · rename_i heq
        rw [heq, hnone]
      · rfl
    simp only [Call.ofUpdate, hremove, hnone]
    exact ⟨rfl, herase ▸ h.objects, h.tables.of_tables Memory.eraseObject_tables⟩
  · simp only [Call.ofUpdate, hremove]
    exact ⟨congrArg Except.ok hsome, herased⟩

theorem copy_agree (hsource : K source) (hdestination : K destination)
    (hne : source ≠ destination) :
    Agree (s.Tracks K) (s.Mirrors K) (Memory.backend.copy source destination)
      (s.backend.copy source destination) := by
  intro m t h
  obtain ⟨target, t', htarget, hmake, hmirrors, hplace, hwritten⟩ :=
    h.makeParents_eq hs hK hdestination
  obtain ⟨origin, horigin, hfind⟩ := hmirrors.find_eq hs hK hsource
  have hcopy : s.backend.copy source destination t =
      Call.ofUpdate (fun t => (t.copy origin target).mapError (objectFault source)) t' := by
    have hstart : s.backend.copy source destination = _ := Call.ofExcept_bind_of_ok horigin
    rw [hstart, Call.ofExcept_bind_of_ok htarget, Call.bind_of_ok hmake]
  rw [Memory.copy_eq, hcopy]
  cases hbody : m.object? source with
  | none =>
    rw [hbody] at hfind
    simp only [Call.ofUpdate, Tree.copy, hfind]
    exact ⟨rfl, hmirrors⟩
  | some body =>
    rw [hbody] at hfind
    have hplaces : s.placeOf destination ≠ s.placeOf source := fun heq => hne
      (placeOf_injective (hK.ordinary _ hsource) (hK.ordinary _ hdestination) heq.symm)
    simp only [Call.ofUpdate, Tree.copy, hfind, bind, Except.bind, hplace, if_neg hplaces]
    exact ⟨rfl, hwritten body⟩

omit hK in
theorem putItem_agree (table : String) (item : Item) :
    Agree (s.Tracks K) (s.Mirrors K) (Memory.backend.putItem table item)
      (s.backend.putItem table item) := by
  intro m t h
  have hschema := h.tables.schema table
  rw [show s.backend.putItem table item = s.putItem table item from rfl, putItem, hschema,
    Memory.partitionKey?]
  cases hdeclared : m.tables.lookup table with
  | none =>
    rw [Memory.putItem_eq_of_none hdeclared]
    exact ⟨rfl, h.toMirrors⟩
  | some declared =>
    rw [Memory.putItem_eq hdeclared]
    dsimp only [Option.map_some]
    cases hkey : item.key declared.partitionKey with
    | error e =>
      rw [Call.ofExcept_bind_of_error rfl]
      exact ⟨rfl, h.toMirrors⟩
    | ok key =>
      -- the items are loaded, the folder is made and the file is written
      have hlegible := h.legible (table, declared) (Keyed.mem_of_lookup hdeclared)
      have hload := h.tables.load_eq hs hdeclared hlegible
      have hread : Call.ofRead (s.load table) t = (.ok declared.rows, t) := by
        rw [Call.ofRead, hload]
      obtain ⟨t', hmake, hpaved, hshows, hspares⟩ := h.tables.makeTables_eq hs
      have htarget : t'.target (s.tableRoute table) = .ok (s.tablePlace table) := by
        have hplace : s.tables.start ++ (s.tables.names ++ [table ++ ".json"]) =
            s.tablePlace table := (List.append_assoc _ _ _).symm
        have hfolder := hshows.entry?_ne_folder hdeclared
        rw [tableRoute_eq (h.tables.ordinary table declared hdeclared), ← hplace]
        exact Tree.target_eq (hshows.ordinary_route hs hdeclared) hpaved (hplace ▸ hfolder)
      obtain ⟨htables, hwritten⟩ := hshows.setItem hs hdeclared key item hpaved fun p =>
        Tree.entry?_withFile_eq (p := p) (hshows.entry?_ne_folder hdeclared)
      rw [Call.ofExcept_bind_of_ok rfl, Call.bind_of_ok hread, Call.bind_of_ok hmake]
      have hwrite : Call.ofUpdate (fun t => ((t.write (s.tableRoute table)
          (tableText (Keyed.insert key item declared.rows)).toUTF8).map fun t' =>
            ((), t')).mapError failed) t' =
          (.ok (), t'.withFile (s.tablePlace table)
            (tableText (Keyed.insert key item declared.rows)).toUTF8) := by
        simp only [Call.ofUpdate, Tree.write, htarget]
        rfl
      rw [Call.bind_of_ok hwrite]
      exact ⟨rfl, (h.objects.spares hspares).spares hwritten, htables⟩

end Backends

end FileStore

/-! ### Requests -/

/-- What can be asked of a store directly, and of the service in front of it. -/
inductive Request where
  | put (object : ObjectRef) (body : ByteArray)
  | get (object : ObjectRef)
  | delete (object : ObjectRef)
  | copy (source destination : ObjectRef)
  | has (object : ObjectRef)
  | invoke (operation : String) (input : Json)

/-- What a request is answered with. -/
inductive Reply where
  | done
  | body (body : ByteArray)
  | size (size : Nat)
  | flag (flag : Bool)
  | document (document : Json)

/-- The objects that the input of an operation names. -/
def Operation.objects (input : Json) : Operation → List ObjectRef
  | .copyObject => (Service.namedObject .copyObject input).toOption.toList ++
      (Service.sourceObject input).toOption.toList
  | .putItem => []
  | operation => (Service.namedObject operation input).toOption.toList

namespace Request

/-- The objects that a request names. -/
def objects : Request → List ObjectRef
  | .put object _ | .get object | .delete object | .has object => [object]
  | .copy source destination => [destination, source]
  | .invoke operation input =>
    ((Operation.ofName? operation).map (Operation.objects input)).getD []

/-- A request would copy an object to itself. -/
def CopiesToItself : Request → Prop
  | .copy source destination => source = destination
  | .invoke operation input => Operation.ofName? operation = some .copyObject ∧
    ∃ r, Service.namedObject .copyObject input = .ok r ∧ Service.sourceObject input = .ok r
  | _ => False

end Request

namespace Service

/-- Answers a request. -/
def request {σ : Type} (s : Service σ) : Request → Call σ Reply
  | .put object body => do s.backend.put object body; return .done
  | .get object => do return .body (← s.backend.get object)
  | .delete object => do let _ ← s.backend.delete object; return .done
  | .copy source destination => do return .size (← s.backend.copy source destination)
  | .has object => do return .flag (← s.backend.has object)
  | .invoke operation input => do return .document (← s.invoke operation input)

/-- Answers requests one after another, and tells the state after them. -/
def requestAll {σ : Type} (s : Service σ) :
    List Request → σ → List (Except CallError Reply) × σ
  | [], m => ([], m)
  | q :: requests, m =>
    let (answer, m') := s.request q m
    let (answers, m'') := s.requestAll requests m'
    (answer :: answers, m'')

section Agree

open Call (Agree)

variable {s : FileStore} {K : ObjectRef → Prop} (hs : s.Separate) (hK : s.Compatible K)
  (policy : AccessPolicy)

include hs hK

/-- Each operation is a number of checks, one operation of the backend, and the answer. -/
theorem apply_agree {input : Json} {operation : Operation}
    (hobjects : ∀ r ∈ operation.objects input, K r)
    (hcopy : operation = .copyObject → ∀ r, namedObject .copyObject input = .ok r →
      sourceObject input ≠ .ok r) :
    Agree (s.Tracks K) (s.Mirrors K) (Service.apply ⟨Memory.backend, policy⟩ input operation)
      (Service.apply ⟨s.backend, policy⟩ input operation) := by
  have hweaken (m : Memory) (t : Tree) (h : s.Tracks K m t) : s.Mirrors K m t := h.toMirrors
  cases operation with
  | copyObject =>
    refine .check hweaken fun destination hdestination => .check hweaken fun source hsource =>
      .check hweaken fun _ _ => .check hweaken fun _ _ => ?_
    have hnames : K destination ∧ K source := by
      constructor <;> refine hobjects _ ?_ <;>
        simp [Operation.objects, hdestination, hsource, Except.toOption]
    refine .answer (FileStore.copy_agree hs hK hnames.2 hnames.1 fun heq => ?_)
      fun size => ⟨.ok _, rfl, rfl⟩
    exact hcopy rfl destination hdestination (heq ▸ hsource)
  | getObject =>
    refine .check hweaken fun object hobject => .check hweaken fun _ _ => ?_
    have hname : K object := by
      refine hobjects _ ?_
      simp [Operation.objects, hobject, Except.toOption]
    refine .answer (FileStore.get_agree hs hK hname) fun body => ?_
    cases String.fromUTF8? body with
    | some text => exact ⟨.ok _, rfl, rfl⟩
    | none => exact ⟨.error _, rfl, rfl⟩
  | deleteObject =>
    refine .check hweaken fun object hobject => .check hweaken fun _ _ => ?_
    have hname : K object := by
      refine hobjects _ ?_
      simp [Operation.objects, hobject, Except.toOption]
    exact .answer (FileStore.delete_agree hs hK hname) fun there => ⟨.ok _, rfl, rfl⟩
  | putItem =>
    refine .check hweaken fun table _ => .check hweaken fun item _ => .check hweaken fun _ _ => ?_
    exact .answer (FileStore.putItem_agree hs table item) fun stored => ⟨.ok _, rfl, rfl⟩

theorem request_agree {q : Request} (hobjects : ∀ r ∈ q.objects, K r)
    (hcopy : ¬ q.CopiesToItself) :
    Agree (s.Tracks K) (s.Mirrors K) (Service.request ⟨Memory.backend, policy⟩ q)
      (Service.request ⟨s.backend, policy⟩ q) := by
  cases q with
  | put object body =>
    exact .answer (FileStore.put_agree hs hK (hobjects _ (List.mem_singleton_self _)) body)
      fun _ => ⟨.ok _, rfl, rfl⟩
  | get object =>
    exact .answer (FileStore.get_agree hs hK (hobjects _ (List.mem_singleton_self _)))
      fun _ => ⟨.ok _, rfl, rfl⟩
  | delete object =>
    exact .answer (FileStore.delete_agree hs hK (hobjects _ (List.mem_singleton_self _)))
      fun _ => ⟨.ok _, rfl, rfl⟩
  | has object =>
    exact .answer (FileStore.has_agree hs hK (hobjects _ (List.mem_singleton_self _)))
      fun _ => ⟨.ok _, rfl, rfl⟩
  | copy source destination =>
    exact .answer (FileStore.copy_agree hs hK (hobjects _ (by simp [Request.objects]))
      (hobjects _ (by simp [Request.objects])) hcopy) fun _ => ⟨.ok _, rfl, rfl⟩
  | invoke operation input =>
    refine .answer (.answer ?_ fun r => ⟨.ok _, rfl, rfl⟩) fun _ => ⟨.ok _, rfl, rfl⟩
    unfold perform
    cases hop : Operation.ofName? operation with
    | none => exact .ofExcept (fun _ _ h => h.toMirrors) (.error (.unknownOperation operation))
    | some op =>
      refine apply_agree hs hK policy (fun r hr => hobjects r ?_) fun heq r hr hr' => hcopy ?_
      · simpa [Request.objects, hop] using hr
      · exact ⟨heq ▸ hop, r, hr, hr'⟩

/-- The answers to requests are the same, and the states keep mirroring each other. -/
theorem requestAll_agree {requests : List Request}
    (hobjects : ∀ q ∈ requests, ∀ r ∈ q.objects, K r)
    (hcopies : ∀ q ∈ requests, ¬ q.CopiesToItself) {m : Memory} {t : Tree} (h : s.Mirrors K m t)
    (hread : ∀ before, before <+: requests →
      (requestAll ⟨Memory.backend, policy⟩ before m).2.Legible) :
    (requestAll ⟨Memory.backend, policy⟩ requests m).1 =
        (requestAll ⟨s.backend, policy⟩ requests t).1 ∧
      ∀ before, before <+: requests →
        s.Tracks K (requestAll ⟨Memory.backend, policy⟩ before m).2
          (requestAll ⟨s.backend, policy⟩ before t).2 := by
  have hnow : s.Tracks K m t := ⟨h, hread [] (List.nil_prefix)⟩
  induction requests generalizing m t with
  | nil =>
    refine ⟨rfl, fun before hbefore => ?_⟩
    obtain rfl := List.prefix_nil.mp hbefore
    exact hnow
  | cons q requests ih =>
    obtain ⟨hq, hrest⟩ := List.forall_mem_cons.mp hobjects
    obtain ⟨hcopy, hcopies⟩ := List.forall_mem_cons.mp hcopies
    obtain ⟨hanswer, hafter⟩ := request_agree hs hK policy hq hcopy m t hnow
    have hlegible (before) (hbefore : before <+: requests) :
        (requestAll ⟨Memory.backend, policy⟩ before
          (request ⟨Memory.backend, policy⟩ q m).2).2.Legible :=
      hread (q :: before) ((List.prefix_cons_inj q).mpr hbefore)
    obtain ⟨hanswers, hstates⟩ := ih hrest hcopies hafter hlegible
      ⟨hafter, hlegible [] List.nil_prefix⟩
    refine ⟨congrArg₂ List.cons hanswer hanswers, fun before hbefore => ?_⟩
    cases before with
    | nil => exact hnow
    | cons q' before =>
      obtain ⟨rfl, hrest⟩ := List.cons_prefix_cons.mp hbefore
      exact hstates before hrest

end Agree

end Service

end Conveyor
