import Conveyor.Proofs.FileIngest.Context
import Conveyor.Proofs.Run.Prompt

/-!
# Every file is taken in

When nothing is refused or delayed, the file ingest workflow does what it is for
(`Workflow.fileIngest_completes`): the records of the file are put into the table in their order,
the file goes from the inbox to the archive, and no copy in work is left.

No call takes time, so each step leaves one state and one context, which the next step goes on with
(`Machine.Arrived`). Of the contexts between the steps only the names of the file are followed, and
the records while they are there; the states are followed exactly.
-/

namespace Conveyor

namespace FileIngest

/-! ### Records -/

/-- What a record is found by in the table: a text that is not empty, or a number. -/
inductive RecordId where
  | text (value : String) (value_ne : value ≠ "")
  | number (value : Number)

/-- The identifier as a document. -/
def RecordId.json : RecordId → Json
  | .text value _ => .string value
  | .number value => .number value

/-- The text under which a record is stored. -/
def RecordId.key : RecordId → String
  | .text value _ => value
  | .number value => value.write

/-- A document with an identifier and a name. -/
structure Record where
  doc : Json
  id : RecordId
  name : Json
  doc_id : doc.member? "id" = some id.json
  doc_name : doc.member? "name" = some name

namespace Record

/-- The item for a record: its identifier and its name, each as a text attribute. -/
def item (r : Record) : Item :=
  [("id", .object [("S", r.id.json)]), ("name", .object [("S", r.name)])]

/-- The rows of a table after records have been put into it, one after another. -/
def stored (records : List Record) (rows : List (String × Item)) : List (String × Item) :=
  records.foldl (fun rows r => Keyed.insert r.id.key r.item rows) rows

theorem stored_take_succ {records : List Record} {n : Nat} (rows : List (String × Item))
    (h : n < records.length) :
    stored (records.take (n + 1)) rows =
      Keyed.insert records[n].id.key records[n].item (stored (records.take n) rows) := by
  rw [stored, List.take_add_one, List.getElem?_eq_getElem h, List.foldl_append]
  rfl

theorem key_item (r : Record) : r.item.key "id" = .ok r.id.key := by
  unfold item
  cases r.id with
  | text value hne => exact if_neg (mt String.isEmpty_iff.mp hne)
  | number value => rfl

/-- The last record with a key is the one that is stored. -/
theorem lookup_stored (records : List Record) (rows : List (String × Item)) (key : String) :
    (stored records rows).lookup key =
      ((records.reverse.find? (·.id.key = key)).map item).or (rows.lookup key) := by
  induction records generalizing rows with
  | nil => rfl
  | cons r records ih =>
    have hcons : stored (r :: records) rows =
      stored records (Keyed.insert r.id.key r.item rows) := rfl
    rw [hcons, ih, List.reverse_cons, List.find?_append, Keyed.lookup_insert]
    cases records.reverse.find? (·.id.key = key) with
    | some later => rfl
    | none =>
      -- no later record has the key, so this one decides
      by_cases hkey : r.id.key = key
      · simp [hkey]
      · simp [hkey, Ne.symm hkey]

end Record

/-! ### The table -/

/-- The table that the records go to. -/
def tableName : String := "StepfnExample"

/-- A store differs from another one in the rows of the table only. -/
structure Filled (m : Memory) (rows : List (String × Item)) (m' : Memory) : Prop where
  objects : ∀ object, m'.object? object = m.object? object
  table : m'.tables.lookup tableName = some ⟨"id", rows⟩
  tables : ∀ name ≠ tableName, m'.tables.lookup name = m.tables.lookup name

variable {m m' : Memory} {rows : List (String × Item)}

theorem Filled.setItem (h : Filled m rows m') (r : Record) :
    Filled m (Keyed.insert r.id.key r.item rows)
      (m'.setItem tableName ⟨"id", rows⟩ r.id.key r.item) where
  objects := h.objects
  table := Memory.lookup_setItem.trans (if_pos rfl)
  tables name hne := (Memory.lookup_setItem.trans (if_neg hne)).trans (h.tables name hne)

theorem insertRecord_input (r : Record) :
    (Payload.object [("Item", .object [("id", text "id"), ("name", text "name")]),
      ("TableName", .literal (.string "StepfnExample"))]).resolve r.doc =
      .ok (.object [("Item", .object r.item), ("TableName", .string tableName)]) := by
  simp only [text, Payload.resolve, Payload.resolveFields, field_resolve r.doc_id,
    field_resolve r.doc_name]
  rfl

/-! ### The steps -/

section Steps

variable {j : Job} {body : ByteArray} {c : Json} {st : Memory} {script : Script}
  {w : Machine Memory} (hscript : script.Idle) (describe : Deed → String) (index : Nat)
include hscript

omit hscript in
variable (script) in
theorem validateFile_arrived (h : Machine.Arrived c st w) : Machine.Arrived c st
    (w.runStep (script.adapter (Memory.service .allowAll) describe) none index validateFile) :=
  h.pass rfl

/-- Copies a file that the context names, and keeps the answer in the context. -/
theorem copy_arrived {s : TaskStep} {name result container folder folder' : String}
    (hadapter : s.adapter = Operation.copyObject.name)
    (hparameters : s.parameters = some (.object [("Bucket", field "destBucket"),
      ("CopySource", source name folder), ("Key", below folder')]))
    (hselector : s.resultSelector = none) (hpath : s.resultPath = .at (member result))
    (hresult : result ∉ ["sourceBucket", "destBucket", "key"])
    (hcontext : j.NamedBy c) (hname : c.member? name = some (.string container))
    (hne : container ≠ "") (hslash : '/' ∉ container.toList)
    (hbody : st.object? (j.file container folder) = some body) (h : Machine.Arrived c st w) :
    ∃ c', j.NamedBy c' ∧ Machine.Arrived c' (st.setObject (j.file j.dest folder') body)
      (w.runStep (script.adapter (Memory.service .allowAll) describe) none index (.task s)) := by
  obtain ⟨⟨output, deed⟩, hcopy⟩ := Service.copyObject_allowAll (m := st)
    (Job.namedObject_copyInput folder') (Job.sourceObject_copyInput hne hslash) hbody
  obtain ⟨c', hwrite, hcontext', -⟩ := hcontext.exists_write result hresult output
  have hfinish : s.resultPath.apply c output = .ok c' := by
    rw [hpath]
    exact hwrite
  refine ⟨c', hcontext', h.task (TaskStep.input_eq hparameters (copy_resolve hcontext hname)) ?_ ?_
    (TaskStep.finish_eq hselector hfinish)⟩
  · rw [hadapter]
    exact hscript.delay .copyObject _
  · rw [hadapter]
    exact hscript.answer describe .copyObject hcopy

theorem copyFile_arrived (hcontext : j.NamedBy c) (hbody : st.object? j.inbox = some body)
    (h : Machine.Arrived c st w) :
    ∃ c', j.NamedBy c' ∧ Machine.Arrived c' (st.setObject j.process body)
      (w.runStep (script.adapter (Memory.service .allowAll) describe) none index copyFile) :=
  copy_arrived hscript describe index rfl rfl rfl rfl (by decide) hcontext hcontext.sourceBucket
    j.source_ne j.source_slash hbody h

theorem archiveFile_arrived (hcontext : j.NamedBy c) (hbody : st.object? j.process = some body)
    (h : Machine.Arrived c st w) :
    ∃ c', j.NamedBy c' ∧ Machine.Arrived c' (st.setObject j.archive body)
      (w.runStep (script.adapter (Memory.service .allowAll) describe) none index archiveFile) :=
  copy_arrived hscript describe index rfl rfl rfl rfl (by decide) hcontext hcontext.destBucket
    j.dest_ne j.dest_slash hbody h

theorem readFileContent_arrived {fileText : String} {docs : List Json} (hcontext : j.NamedBy c)
    (hbody : st.object? j.process = some body) (htext : String.fromUTF8? body = some fileText)
    (hdocs : Json.read fileText = .ok (.array docs)) (h : Machine.Arrived c st w) :
    ∃ c', j.NamedBy c' ∧
      c'.member? "getObject" = some (.object [("filecontent", .array docs)]) ∧
      Machine.Arrived c' st (w.runStep (script.adapter (Memory.service .allowAll) describe) none
        index readFileContent) := by
  obtain ⟨output, deed, houtput, hget⟩ := Service.getObject_allowAll
    (Service.namedObject_objectMembers j.dest_ne Job.file_key_ne) hbody htext
  have hread : (member "Body").read output = .ok (.string fileText) := Path.read_key houtput
  have hvalue : (Expression.stringToJson (member "Body")).evaluate output = .ok (.array docs) := by
    simp only [Expression.evaluate, hread, bind, Except.bind, Except.mapError, hdocs]
  have hselected : (Payload.object
      [("filecontent", .expression (.stringToJson (member "Body")))]).resolve output =
      .ok (.object [("filecontent", .array docs)]) := by
    simp only [Payload.resolve, Payload.resolveFields, hvalue]
    rfl
  obtain ⟨c', hwrite, hcontext', hmember⟩ := hcontext.exists_write "getObject" (by decide)
    (.object [("filecontent", .array docs)])
  exact ⟨c', hcontext', hmember, h.task
    (TaskStep.input_eq rfl (reference_resolve hcontext.destBucket hcontext.key))
    (hscript.delay .getObject _) (hscript.answer describe .getObject hget)
    (TaskStep.finish_eq_of_selector rfl hselected hwrite)⟩

/-- An item of the map is a record that is put into the table. -/
theorem insertRecord_turns {rows : List (String × Item)} (r : Record)
    (htable : st.tables.lookup tableName = some ⟨"id", rows⟩) (id : String) (item : Nat) :
    ∃ out, (Pipeline.branch [insertRecord] id item r.doc).Turns
      (script.adapter (Memory.service .allowAll) describe) false st (.ok out)
      (st.setItem tableName ⟨"id", rows⟩ r.id.key r.item) := by
  have hname : Service.requiredText .putItem
      (.object [("Item", .object r.item), ("TableName", .string tableName)]) "TableName" =
      .ok tableName := Service.requiredText_eq rfl (by decide)
  obtain ⟨output, deed, houtput, hput⟩ := Service.putItem_allowAll hname rfl htable r.key_item
  have hselected : (Payload.object [("statusCode", field "StatusCode")]).resolve output =
      .ok (.object [("statusCode", .ofNat 200)]) := by
    simp only [Payload.resolve, Payload.resolveFields, field_resolve houtput]
    rfl
  refine ⟨.object [("statusCode", .ofNat 200)], branch_turns id item fun id next hnext => ?_⟩
  exact TaskStep.turns (TaskStep.input_eq rfl (insertRecord_input r)) (hscript.delay .putItem _)
    (hscript.answer describe .putItem hput) (TaskStep.finish_eq_of_selector rfl hselected rfl)
    hnext id

theorem putItem_arrived {records : List Record} {rows : List (String × Item)}
    (hcontext : j.NamedBy c)
    (hdocs : c.member? "getObject" =
      some (.object [("filecontent", .array (records.map Record.doc))]))
    (htable : st.tables.lookup tableName = some ⟨"id", rows⟩) (h : Machine.Arrived c st w) :
    ∃ c' st', j.NamedBy c' ∧ Filled st (Record.stored records rows) st' ∧
      Machine.Arrived c' st' (w.runStep (script.adapter (Memory.service .allowAll) describe) none
        index putItem) := by
  have hitems : (MapHead.items ⟨"putItem", none, (member "getObject").key "filecontent", some 10,
      .at (member "putItemResponse")⟩ c) = .ok (records.map Record.doc) := by
    have hread : ((member "getObject").key "filecontent").read c =
      .ok (.array (records.map Record.doc)) := Path.read_key_key hdocs rfl
    simp only [MapHead.items, hread]
  refine h.map hitems (fun id => ?_) fun outputs => ?_
  · have hlength : (records.map Record.doc).length = records.length := List.length_map _
    have hstored : Record.stored (records.take (records.map Record.doc).length) rows =
        Record.stored records rows := by
      rw [hlength, List.take_length]
    rw [← hstored]
    -- before each item the table has the records before it
    refine Chain.exists_range (A := fun item => Filled st (Record.stored (records.take item) rows))
      ⟨fun _ => rfl, htable, fun _ _ => rfl⟩ fun item hitem st' hst' => ?_
    have hlt : item < records.length := hlength ▸ hitem
    have hget : (records.map Record.doc).getD item .null = records[item].doc := by
      simp [hlt]
    obtain ⟨out, hturns⟩ := insertRecord_turns hscript describe records[item] hst'.table id item
    refine ⟨out, _, ?_, hget ▸ hturns⟩
    rw [Record.stored_take_succ rows hlt]
    exact hst'.setItem records[item]
  · obtain ⟨c', hwrite, hcontext', -⟩ := hcontext.exists_write "putItemResponse" (by decide)
      (.array outputs)
    exact ⟨c', hcontext', Except.mapError_eq_ok.mpr hwrite⟩

omit hscript in
variable (script) in
theorem prepareFileDeletion_arrived (hcontext : j.NamedBy c) (h : Machine.Arrived c st w) :
    Machine.Arrived j.deletions st (w.runStep (script.adapter (Memory.service .allowAll) describe)
      none index prepareFileDeletion) := by
  refine h.pass ?_
  simp only [PassStep.apply, deletions_resolve hcontext]
  rfl

/-- An item of the map is an object that is deleted. -/
theorem deleteFile_turns {r : ObjectRef} (hcontainer : r.container ≠ "") (hkey : r.key ≠ "")
    (st : Memory) (id : String) (item : Nat) :
    (Pipeline.branch [deleteFile] id item (.object (Service.objectMembers r))).Turns
      (script.adapter (Memory.service .allowAll) describe) false st
      (.ok (.object (Service.objectMembers r))) (st.eraseObject r) := by
  obtain ⟨⟨output, deed⟩, hdelete⟩ :=
    Service.deleteObject_allowAll (Service.namedObject_objectMembers hcontainer hkey) st
  exact branch_turns id item fun id next hnext => TaskStep.turns
    (TaskStep.input_eq rfl (deletion_resolve r)) (hscript.delay .deleteObject _)
    (hscript.answer describe .deleteObject hdelete) (TaskStep.finish_eq rfl rfl) hnext id

theorem deleteFiles_arrived (h : Machine.Arrived j.deletions st w) :
    Machine.Arrived j.deletions ((st.eraseObject j.inbox).eraseObject j.process)
      (w.runStep (script.adapter (Memory.service .allowAll) describe) none index deleteFiles) := by
  have hitems : (MapHead.items ⟨"DeleteFiles", none, member "filesToDelete", none, .discard⟩
      j.deletions) = .ok [.object (Service.objectMembers j.inbox),
        .object (Service.objectMembers j.process)] := rfl
  obtain ⟨c', st', rfl, rfl, harrived⟩ := h.map (Q := (· = j.deletions))
    (R := (· = (st.eraseObject j.inbox).eraseObject j.process)) hitems
    (fun id => ⟨_, rfl, .cons
      (deleteFile_turns hscript describe j.source_ne Job.file_key_ne st id 0) (.cons
        (deleteFile_turns hscript describe j.dest_ne Job.file_key_ne _ id 1) (.nil _))⟩)
    fun outputs => ⟨_, rfl, rfl⟩
  exact harrived

end Steps

/-! ### The workflow -/

/-- What the workflow leaves of a store. -/
structure TakenIn (j : Job) (body : ByteArray) (records : List Record)
    (rows : List (String × Item)) (m m' : Memory) : Prop where
  objects : ∀ object, m'.object? object =
    if object = j.inbox ∨ object = j.process then none
    else if object = j.archive then some body else m.object? object
  tables : ∀ name, m'.tables.lookup name =
    if name = tableName then some ⟨"id", Record.stored records rows⟩ else m.tables.lookup name

/-- The rows are filled between two copies, and then two objects are deleted. -/
theorem Filled.takenIn {j : Job} {body : ByteArray} {records : List Record}
    (h : Filled (m.setObject j.process body) (Record.stored records rows) m') :
    TakenIn j body records rows m
      (((m'.setObject j.archive body).eraseObject j.inbox).eraseObject j.process) where
  objects object := by
    rw [Memory.object?_eraseObject, Memory.object?_eraseObject, Memory.object?_setObject, h.objects,
      Memory.object?_setObject]
    by_cases hprocess : object = j.process
    · rw [if_pos hprocess, if_pos (.inr hprocess)]
    · by_cases hinbox : object = j.inbox
      · rw [if_neg hprocess, if_pos hinbox, if_pos (.inl hinbox)]
      · rw [if_neg hprocess, if_neg hinbox, if_neg hprocess, if_neg (not_or.mpr ⟨hinbox, hprocess⟩)]
  tables name := by
    by_cases hname : name = tableName
    · rw [if_pos hname, hname]
      exact h.table
    · exact (h.tables name hname).trans (if_neg hname).symm

/-- The steps of the workflow, one after another. -/
theorem fileIngest_arrived {j : Job} {body : ByteArray} {fileText : String} {records : List Record}
    {context : Json} {script : Script} (hcontext : j.NamedBy context)
    (hm : m.object? j.inbox = some body) (htext : String.fromUTF8? body = some fileText)
    (hrecords : Json.read fileText = .ok (.array (records.map Record.doc)))
    (htable : m.tables.lookup tableName = some ⟨"id", rows⟩) (hscript : script.Idle)
    (describe : Deed → String) :
    ∃ m', TakenIn j body records rows m m' ∧ Machine.Arrived j.deletions m'
      (Engine.stepsRun (script.adapter (Memory.service .allowAll) describe) none
        Workflow.fileIngest.steps context m) := by
  have h₀ : Machine.Arrived context m (Engine.untouched m context) := Machine.arrived_untouched
  have h₁ := validateFile_arrived script describe 0 h₀
  obtain ⟨c₂, hc₂, h₂⟩ := copyFile_arrived hscript describe 1 hcontext hm h₁
  have hprocess : (m.setObject j.process body).object? j.process = some body :=
    Memory.object?_setObject.trans (if_pos rfl)
  obtain ⟨c₃, hc₃, hdocs, h₃⟩ :=
    readFileContent_arrived hscript describe 2 hc₂ hprocess htext hrecords h₂
  have htable' : (m.setObject j.process body).tables.lookup tableName = some ⟨"id", rows⟩ := htable
  obtain ⟨c₄, m₄, hc₄, hfilled, h₄⟩ := putItem_arrived hscript describe 3 hc₃ hdocs htable' h₃
  obtain ⟨c₅, hc₅, h₅⟩ :=
    archiveFile_arrived hscript describe 4 hc₄ ((hfilled.objects _).trans hprocess) h₄
  have h₆ := prepareFileDeletion_arrived script describe 5 hc₅ h₅
  have h₇ := deleteFiles_arrived hscript describe 6 h₆
  exact ⟨_, hfilled.takenIn, h₀.runFrom_cons (h₁.runFrom_cons (h₂.runFrom_cons (h₃.runFrom_cons
    (h₄.runFrom_cons (h₅.runFrom_cons (h₆.runFrom_cons h₇.runFrom_nil))))))⟩

end FileIngest

namespace Workflow

open FileIngest

/-- **The file ingest workflow is correct for every file.** When everything is allowed and nothing
is scripted, a run on a file of records is completed with the list of the deleted files, whether the
budget is the workflow's own or any other but zero; afterwards the file is in the archive only, and
the table has the records of the file, entered in their order. -/
theorem fileIngest_completes {j : Job} {body : ByteArray} {text : String} {records : List Record}
    {rows : List (String × Item)} {context : Json} {m : Memory} {script : Script}
    {budget : Option Nat} (hcontext : j.NamedBy context) (hm : m.object? j.inbox = some body)
    (htext : String.fromUTF8? body = some text)
    (hrecords : Json.read text = .ok (.array (records.map Record.doc)))
    (htable : m.tables.lookup "StepfnExample" = some ⟨"id", rows⟩) (hscript : script.Idle)
    (describe : Deed → String) (hbudget : budget ≠ some 0) :
    let e : Engine Memory := ⟨script.adapter (Memory.service .allowAll) describe, budget⟩
    ∃ report m', e.execute fileIngest context m = some (.ok report, m') ∧
      report.outcome = .completed (.object [("filesToDelete", .array
        [.object [("Bucket", .string j.inbox.container), ("Key", .string j.inbox.key)],
          .object [("Bucket", .string j.process.container), ("Key", .string j.process.key)]])]) ∧
      (∀ object, m'.world.state.object? object =
        if object = j.inbox ∨ object = j.process then none
        else if object = j.archive then some body else m.object? object) ∧
      (∀ name, m'.world.state.tables.lookup name =
        if name = "StepfnExample" then some ⟨"id", Record.stored records rows⟩
        else m.tables.lookup name) ∧
      ∀ key, m'.world.state.item? "StepfnExample" key =
        ((records.reverse.find? (·.id.key = key)).map Record.item).or
          (m.item? "StepfnExample" key) := by
  intro e
  obtain ⟨st, htaken, harrived⟩ :=
    fileIngest_arrived hcontext hm htext hrecords htable hscript describe
  have hlimit : e.budgetFor fileIngest ≠ some 0 := by
    intro hzero
    cases budget with
    | none => cases hzero
    | some limit => exact hbudget hzero
  obtain ⟨report, m', hexec, houtcome, rfl⟩ := e.execute_of_arrived harrived hlimit
  have hitem {m : Memory} {rows : List (String × Item)}
      (h : m.tables.lookup "StepfnExample" = some ⟨"id", rows⟩) (key : String) :
      m.item? "StepfnExample" key = rows.lookup key := Memory.item?_of_lookup h
  refine ⟨report, m', hexec, houtcome, htaken.objects, htaken.tables, fun key => ?_⟩
  rw [hitem ((htaken.tables _).trans (if_pos rfl)), hitem htable, Record.lookup_stored]

/-- Two records with the key `7`, of which the second one stays in the table. -/
theorem fileIngest_completes_same_key :
    let j : Job := ⟨"in", "out", "people.json", by decide, by decide, by decide, by decide⟩
    let text := "[\x7b\"id\":\"7\",\"name\":\"Ann\"\x7d,\x7b\"id\":7,\"name\":\"Bob\"\x7d]"
    let seven : Json := .number (.integer 7 (by decide))
    let records : List Record :=
      [⟨.object [("id", .string "7"), ("name", .string "Ann")], .text "7" (by decide),
          .string "Ann", rfl, rfl⟩,
        ⟨.object [("id", seven), ("name", .string "Bob")], .number (.integer 7 (by decide)),
          .string "Bob", rfl, rfl⟩]
    let context : Json := .object [("destBucket", .string "out"), ("key", .string "people.json"),
      ("sourceBucket", .string "in")]
    let m := (Memory.empty.declare "StepfnExample" "id").setObject ⟨"in", "inbox/people.json"⟩
      text.toUTF8
    let script : Script := []
    let e : Engine Memory := ⟨script.adapter (Memory.service .allowAll) fun _ => "", none⟩
    (j.NamedBy context ∧ m.object? j.inbox = some text.toUTF8 ∧
      String.fromUTF8? text.toUTF8 = some text ∧
      Json.read text = .ok (.array (records.map Record.doc)) ∧
      m.tables.lookup "StepfnExample" = some ⟨"id", []⟩ ∧ script.Idle ∧
      (none : Option Nat) ≠ some 0) ∧
      ∃ report m', e.execute fileIngest context m = some (.ok report, m') ∧
        m'.world.state.object? j.archive = some text.toUTF8 ∧
        m'.world.state.item? "StepfnExample" "7" =
          some [("id", .object [("S", seven)]), ("name", .object [("S", .string "Bob")])] := by
  intro j text seven records context m script e
  -- the hypotheses, one by one
  have hcontext : j.NamedBy context := ⟨rfl, rfl, rfl⟩
  have hinbox : j.inbox = ⟨"in", "inbox/people.json"⟩ := by decide
  have hm : m.object? j.inbox = some text.toUTF8 := by
    rw [hinbox, Memory.object?_setObject, if_pos rfl]
  have htext : String.fromUTF8? text.toUTF8 = some text := dif_pos text.isValidUTF8
  have hrecords : Json.read text = .ok (.array (records.map Record.doc)) := by decide +kernel
  have htable : m.tables.lookup "StepfnExample" = some ⟨"id", []⟩ := rfl
  have hscript : script.Idle := fun _ => ⟨rfl, rfl⟩
  have hbudget : (none : Option Nat) ≠ some 0 := nofun
  obtain ⟨report, m', hexec, -, hobjects, -, hitems⟩ :=
    fileIngest_completes hcontext hm htext hrecords htable hscript (fun _ => "") hbudget
  refine ⟨⟨hcontext, hm, htext, hrecords, htable, hscript, hbudget⟩, report, m', hexec, ?_, ?_⟩
  · rw [hobjects, if_neg (by decide), if_pos rfl]
  · rw [hitems]
    rfl

end Workflow

end Conveyor
