import Conveyor.Proofs.Json.Members
import Conveyor.Proofs.Store.Noninterference
import Conveyor.Run.Script

/-!
# What the operations do to a store in memory

The effect of each operation of a service in memory: either nothing happens and the call fails, or
the objects change in the one way that the operation is for. An adapter adds to this only that it
may refuse the call (`Script.answer_cases`).
-/

namespace Conveyor

/-! ### Operations and their inputs -/

/-- No operation has a name that a script answers by itself. -/
theorem Operation.name_ne (operation : Operation) : operation.name ≠ Script.echoName ∧
    operation.name ≠ Script.constName ∧ operation.name ≠ Script.workName := by
  cases operation <;> decide

namespace ObjectRef

/-- A reference is read back if its container is a name without slashes. -/
theorem parse_text {r : ObjectRef} (hcontainer : r.container ≠ "")
    (hslash : '/' ∉ r.container.toList) (hkey : r.key ≠ "") : parse r.text = some r := by
  have hne : r.container.toList ≠ [] := fun h => hcontainer (String.toList_eq_nil_iff.mp h)
  have hkeyne : r.key.toList ≠ [] := fun h => hkey (String.toList_eq_nil_iff.mp h)
  have htext : r.text.toList = r.container.toList ++ '/' :: r.key.toList := by
    simp [text]
  have hcut (cs rest : List Char) (h : '/' ∉ cs) :
      Text.cutAt? '/' (cs ++ '/' :: rest) = some (cs, rest) := by
    induction cs with
    | nil => rfl
    | cons c cs ih =>
      obtain ⟨hc, hcs⟩ := not_or.mp (mt List.mem_cons.mpr h)
      simp only [List.cons_append, Text.cutAt?, beq_false_of_ne (Ne.symm hc), ih hcs]
      rfl
  have hdrop : (r.container.toList ++ '/' :: r.key.toList).dropWhile (· == '/') =
      r.container.toList ++ '/' :: r.key.toList := by
    obtain ⟨c, cs, hcs⟩ := List.exists_cons_of_ne_nil hne
    rw [hcs] at hslash ⊢
    obtain ⟨hc, -⟩ := not_or.mp (mt List.mem_cons.mpr hslash)
    simp [Ne.symm hc]
  rw [parse, htext, hdrop, hcut _ _ hslash]
  simp [hne, hkeyne]

end ObjectRef

namespace Service

variable {operation : Operation} {input : Json} {field value : String} {object : ObjectRef}

theorem requiredText_eq (h : input.member? field = some (.string value)) (hne : value ≠ "") :
    requiredText operation input field = .ok value := by
  have hempty : value.isEmpty = false := by simpa using hne
  simp only [requiredText, h, Option.bind_some, Json.string?, hempty]
  rfl

theorem namedObject_eq (hcontainer : input.member? "Bucket" = some (.string object.container))
    (hne : object.container ≠ "") (hkey : input.member? "Key" = some (.string object.key))
    (hkeyne : object.key ≠ "") : namedObject operation input = .ok object := by
  simp only [namedObject, requiredText_eq hcontainer hne, requiredText_eq hkey hkeyne]
  rfl

theorem namedObject_objectMembers (hne : object.container ≠ "") (hkeyne : object.key ≠ "") :
    namedObject operation (.object (objectMembers object)) = .ok object :=
  namedObject_eq rfl hne rfl hkeyne

theorem sourceObject_eq (h : input.member? "CopySource" = some (.string object.text))
    (hcontainer : object.container ≠ "") (hslash : '/' ∉ object.container.toList)
    (hkey : object.key ≠ "") : sourceObject input = .ok object := by
  have hne : object.text ≠ "" := by
    intro hempty
    have hlist := congrArg String.toList hempty
    simp [ObjectRef.text] at hlist
  simp only [sourceObject, requiredText_eq h hne, bind, Except.bind,
    ObjectRef.parse_text hcontainer hslash hkey]
  rfl

end Service

/-! ### Effects -/

namespace Service

variable {policy : AccessPolicy} {input : Json} {m : Memory} {source destination object : ObjectRef}

/-- A copy changes the destination only, and makes it the same as the source. -/
theorem copyObject_cases (hdestination : namedObject .copyObject input = .ok destination)
    (hsource : sourceObject input = .ok source) :
    (∃ error, (Memory.service policy).copyObject input m = (.error error, m)) ∨
      ∃ body answer, m.object? source = some body ∧
        (Memory.service policy).copyObject input m =
          (.ok answer, m.setObject destination body) := by
  unfold copyObject
  rw [Call.ofExcept_bind_of_ok hdestination, Call.ofExcept_bind_of_ok hsource]
  -- both grants are checked before the source is looked at
  cases hread : (Memory.service policy).policy.checkRead Operation.copyObject.name
      source.container with
  | error e => exact .inl ⟨e, by rw [Call.ofExcept_bind_of_error rfl]⟩
  | ok =>
    rw [Call.ofExcept_bind_of_ok rfl]
    cases hwrite : (Memory.service policy).policy.checkWrite Operation.copyObject.name
        destination.container with
    | error e => exact .inl ⟨e, by rw [Call.ofExcept_bind_of_error rfl]⟩
    | ok =>
      rw [Call.ofExcept_bind_of_ok rfl]
      have hcopy := Memory.copy_eq source destination m
      cases hbody : m.object? source with
      | none =>
        rw [hbody] at hcopy
        exact .inl ⟨_, Call.bind_of_error hcopy⟩
      | some body =>
        rw [hbody] at hcopy
        exact .inr ⟨body, _, rfl, Call.bind_of_ok hcopy⟩

theorem getObject_stays : ((Memory.service policy).getObject input).Stays Eq := by
  have hget (object : ObjectRef) : (Memory.backend.get object).Stays Eq := by
    intro m
    rw [Memory.get_eq]
    cases m.object? object <;> rfl
  refine .check .refl fun object _ => .check .refl fun _ _ =>
    .bind .trans (hget object) fun body => ?_
  cases String.fromUTF8? body with
  | some text => exact .const .refl _
  | none => exact .const .refl _

/-- A deletion changes only the object that the input names, and removes it. -/
theorem deleteObject_stays (hobject : namedObject .deleteObject input = .ok object) :
    ((Memory.service policy).deleteObject input).Stays fun m m' =>
      m' = m ∨ m' = m.eraseObject object := by
  intro m
  unfold deleteObject
  rw [Call.ofExcept_bind_of_ok hobject]
  cases hwrite : (Memory.service policy).policy.checkWrite Operation.deleteObject.name
      object.container with
  | error e => exact .inl (by rw [Call.ofExcept_bind_of_error rfl])
  | ok =>
    rw [Call.ofExcept_bind_of_ok rfl]
    exact .inr (congrArg Prod.snd (Call.bind_of_ok (Memory.delete_eq object m)))

/-- Putting an item into a table changes no object. -/
theorem putItem_stays :
    ((Memory.service policy).putItem input).Stays fun m m' =>
      ∀ object, m'.object? object = m.object? object := by
  -- no container has to be writable for it
  have hspares : ((Memory.service policy).putItem input).Stays
      (Memory.Spares (fun _ => False) fun _ => True) :=
    .check .refl fun table _ => .check .refl fun item _ => .check .refl fun _ _ =>
      .bind .trans (Memory.putItem_stays trivial) fun _ => .const .refl _
  exact fun m object => (hspares m).objects object not_false

end Service

/-! ### Success

What the operations answer when everything is allowed and the objects and tables are there. -/

namespace Service

variable {input : Json} {m : Memory} {source destination object : ObjectRef} {body : ByteArray}
  {name key : String} {item : Item} {table : Table}

theorem checkRead_allowAll (operation container : String) :
    (Memory.service .allowAll).policy.checkRead operation container = .ok () := rfl

theorem checkWrite_allowAll (operation container : String) :
    (Memory.service .allowAll).policy.checkWrite operation container = .ok () := rfl

theorem checkTable_allowAll (operation name : String) :
    (Memory.service .allowAll).policy.checkTable operation name = .ok () := rfl

theorem copyObject_allowAll (hdestination : namedObject .copyObject input = .ok destination)
    (hsource : sourceObject input = .ok source) (hbody : m.object? source = some body) :
    ∃ answer, (Memory.service .allowAll).copyObject input m =
      (.ok answer, m.setObject destination body) := by
  have hcopy := Memory.copy_eq source destination m
  rw [hbody] at hcopy
  unfold copyObject
  rw [Call.ofExcept_bind_of_ok hdestination, Call.ofExcept_bind_of_ok hsource,
    Call.ofExcept_bind_of_ok (checkRead_allowAll _ _),
    Call.ofExcept_bind_of_ok (checkWrite_allowAll _ _)]
  exact ⟨_, Call.bind_of_ok hcopy⟩

theorem getObject_allowAll {text : String} (hobject : namedObject .getObject input = .ok object)
    (hbody : m.object? object = some body) (htext : String.fromUTF8? body = some text) :
    ∃ output deed, output.member? "Body" = some (.string text) ∧
      (Memory.service .allowAll).getObject input m = (.ok (output, deed), m) := by
  have hget := Memory.get_eq object m
  rw [hbody] at hget
  have hanswer : (Memory.service .allowAll).getObject input m =
      (.ok (.ofFields (objectMembers object ++
        [("Body", .string text), ("ContentLength", .ofNat body.size)]), none), m) := by
    unfold getObject
    rw [Call.ofExcept_bind_of_ok hobject, Call.ofExcept_bind_of_ok (checkRead_allowAll _ _)]
    refine (Call.bind_of_ok hget).trans ?_
    rw [htext]
    rfl
  exact ⟨_, _, rfl, hanswer⟩

theorem deleteObject_allowAll (hobject : namedObject .deleteObject input = .ok object)
    (m : Memory) :
    ∃ answer, (Memory.service .allowAll).deleteObject input m =
      (.ok answer, m.eraseObject object) := by
  unfold deleteObject
  rw [Call.ofExcept_bind_of_ok hobject, Call.ofExcept_bind_of_ok (checkWrite_allowAll _ _)]
  exact ⟨_, Call.bind_of_ok (Memory.delete_eq object m)⟩

theorem putItem_allowAll (hname : requiredText .putItem input "TableName" = .ok name)
    (hitem : namedItem input = .ok item) (htable : m.tables.lookup name = some table)
    (hkey : item.key table.partitionKey = .ok key) :
    ∃ output deed, output.member? "StatusCode" = some (.ofNat 200) ∧
      (Memory.service .allowAll).putItem input m =
        (.ok (output, deed), m.setItem name table key item) := by
  have hput : Memory.backend.putItem name item m = _ := Memory.putItem_eq htable
  rw [hkey] at hput
  unfold putItem
  rw [Call.ofExcept_bind_of_ok hname, Call.ofExcept_bind_of_ok hitem,
    Call.ofExcept_bind_of_ok (checkTable_allowAll _ _)]
  exact ⟨_, _, rfl, Call.bind_of_ok hput⟩

end Service

/-! ### Adapters -/

section Adapters

variable {σ : Type} (script : Script) (s : Service σ) (describe : Deed → String) (number : Nat)
  (operation : Operation) (input : Json) (state : σ)

theorem Service.perform_name : s.perform operation.name input = s.apply input operation := by
  simp only [perform, Operation.ofName?_name]

theorem Service.answer_eq :
    ((s.adapter describe).answer number operation.name input state).1.1 =
        (s.apply input operation state).1.map Prod.fst ∧
      ((s.adapter describe).answer number operation.name input state).2 =
        (s.apply input operation state).2 := by
  simp only [adapter, perform_name]
  rcases s.apply input operation state with ⟨_ | ⟨output, deed⟩, state'⟩ <;> exact ⟨rfl, rfl⟩

/-- A script refuses a call, and then nothing happens, or leaves it to the service. -/
theorem Script.answer_cases :
    (∃ error, (script.adapter s describe).answer number operation.name input state =
        ((.error error, []), state)) ∨
      (script.adapter s describe).answer number operation.name input state =
        (s.adapter describe).answer number operation.name input state := by
  obtain ⟨hecho, hconst, hwork⟩ := operation.name_ne
  by_cases hrefused : number ≤ (script.rule operation.name).refusals
  · exact .inl ⟨_, if_pos hrefused⟩
  · refine .inr ?_
    simp only [Script.adapter, if_neg hrefused, if_neg hecho, if_neg hconst, if_neg hwork]

/-- Behind a script as well, a call changes the state in the way of its operation only. -/
theorem Script.answer_stays {F : σ → σ → Prop} (hrefl : ∀ m, F m m)
    (h : (s.apply input operation).Stays F) :
    F state ((script.adapter s describe).answer number operation.name input state).2 := by
  rcases script.answer_cases s describe number operation input state with
    ⟨error, hrefused⟩ | hanswer
  · rw [hrefused]
    exact hrefl state
  · rw [hanswer, (s.answer_eq describe number operation input state).2]
    exact h state

/-- A copy behind a script. -/
theorem Script.copyObject_cases {policy : AccessPolicy} {source destination : ObjectRef}
    (hdestination : Service.namedObject .copyObject input = .ok destination)
    (hsource : Service.sourceObject input = .ok source) (m : Memory) :
    let answer := (script.adapter (Memory.service policy) describe).answer number
      Operation.copyObject.name input m
    (∃ error, answer.1.1 = .error error ∧ answer.2 = m) ∨
      ∃ body, m.object? source = some body ∧ answer.2 = m.setObject destination body := by
  intro answer
  rcases script.answer_cases (Memory.service policy) describe number .copyObject input m with
    ⟨error, hrefused⟩ | hanswer
  · exact .inl ⟨error, congrArg (·.1.1) hrefused, congrArg Prod.snd hrefused⟩
  · obtain ⟨hresult, hstate⟩ :=
      (Memory.service policy).answer_eq describe number .copyObject input m
    rw [← hanswer] at hresult hstate
    rcases Service.copyObject_cases hdestination hsource with
      ⟨error, hcopy⟩ | ⟨body, a, hbody, hcopy⟩
    · refine .inl ⟨error, hresult.trans ?_, hstate.trans ?_⟩
      · rw [Service.apply, hcopy]
        rfl
      · rw [Service.apply, hcopy]
    · refine .inr ⟨body, hbody, hstate.trans ?_⟩
      rw [Service.apply, hcopy]

end Adapters

/-! ### Scripts that do nothing -/

section Idle

variable {σ : Type} {script : Script} {s : Service σ} {input : Json} {state state' : σ}

/-- No call is delayed or refused. -/
def Script.Idle (script : Script) : Prop :=
  ∀ operation, (script.rule operation).delay = 0 ∧ (script.rule operation).refusals = 0

theorem Script.Idle.delay (h : script.Idle) (operation : Operation) (input : Json) :
    script.delay operation.name input = 0 := by
  rw [Script.delay, (h _).1, if_neg operation.name_ne.2.2]

/-- A script that is idle leaves a call to the service. -/
theorem Script.Idle.answer {answer : Json × Option Deed} (h : script.Idle)
    (describe : Deed → String) (operation : Operation)
    (happly : s.apply input operation state = (.ok answer, state')) (count : Nat) :
    ((script.adapter s describe).answer (count + 1) operation.name input state).1.1 =
        .ok answer.1 ∧
      ((script.adapter s describe).answer (count + 1) operation.name input state).2 = state' := by
  obtain ⟨hresult, hstate⟩ := s.answer_eq describe (count + 1) operation input state
  rw [happly] at hresult hstate
  obtain ⟨hecho, hconst, hwork⟩ := operation.name_ne
  have hrefused : ¬ count + 1 ≤ (script.rule operation.name).refusals := by
    rw [(h _).2]
    exact Nat.not_succ_le_zero count
  simp only [Script.adapter, if_neg hrefused, if_neg hecho, if_neg hconst, if_neg hwork]
  exact ⟨hresult, hstate⟩

end Idle

end Conveyor
