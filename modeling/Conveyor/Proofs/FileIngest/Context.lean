import Conveyor.Proofs.Path.Lens
import Conveyor.Proofs.Store.Operations
import Conveyor.Run.Steps
import Conveyor.Workflow.FileIngest

/-!
# The files that a context names

The context of the file ingest workflow names a file by two containers and a key (`FileIngest.Job`),
and the payloads of the steps make inputs of these names. All of them name the same three objects:
the file in the inbox, in work and in the archive.
-/

namespace Conveyor

namespace FileIngest

/-- A file to take in: the containers are names without slashes. -/
structure Job where
  source : String
  dest : String
  key : String
  source_ne : source ≠ ""
  source_slash : '/' ∉ source.toList
  dest_ne : dest ≠ ""
  dest_slash : '/' ∉ dest.toList

namespace Job

variable (j : Job)

/-- The file below a folder of a container. -/
def file (container folder : String) : ObjectRef := ⟨container, folder ++ "/" ++ j.key⟩

/-- The file where it comes from. -/
def inbox : ObjectRef := j.file j.source "inbox"

/-- The copy that is worked on. -/
def process : ObjectRef := j.file j.dest "process"

/-- The file where it is kept. -/
def archive : ObjectRef := j.file j.dest "archive"

/-- A context names the file. -/
structure NamedBy (context : Json) : Prop where
  sourceBucket : context.member? "sourceBucket" = some (.string j.source)
  destBucket : context.member? "destBucket" = some (.string j.dest)
  key : context.member? "key" = some (.string j.key)

variable {j}

theorem file_key_ne {container folder : String} : (j.file container folder).key ≠ "" := by
  intro h
  have hlist := congrArg String.toList h
  simp [file] at hlist

/-- Files below different folders are different. -/
theorem file_ne {container container' folder folder' : String} (h : folder ≠ folder') :
    j.file container folder ≠ j.file container' folder' := by
  intro heq
  have hkey : folder.toList ++ ('/' :: j.key.toList) = folder'.toList ++ ('/' :: j.key.toList) := by
    simpa [file] using congrArg String.toList (ObjectRef.mk.inj heq).2
  exact h (String.toList_inj.mp (List.append_cancel_right hkey))

theorem process_ne_inbox : j.process ≠ j.inbox := file_ne (by decide)

theorem archive_ne_inbox : j.archive ≠ j.inbox := file_ne (by decide)

theorem archive_ne_process : j.archive ≠ j.process := file_ne (by decide)

/-! ### Contexts that name a file -/

namespace NamedBy

variable {context context' value : Json} {name : String}

/-- The names stay in the context when something else is written to it. -/
theorem write (h : j.NamedBy context) (hname : name ∉ ["sourceBucket", "destBucket", "key"])
    (hwrite : (member name).write value context = .ok context') : j.NamedBy context' := by
  simp only [List.mem_cons, List.not_mem_nil, or_false, not_or] at hname
  obtain ⟨hsource, hdest, hkey⟩ := hname
  exact ⟨Path.member?_write h.sourceBucket (Ne.symm hsource) hwrite,
    Path.member?_write h.destBucket (Ne.symm hdest) hwrite,
    Path.member?_write h.key (Ne.symm hkey) hwrite⟩

/-- Something else can be written to the context. -/
theorem exists_write (h : j.NamedBy context) (name : String)
    (hname : name ∉ ["sourceBucket", "destBucket", "key"]) (value : Json) :
    ∃ context', (member name).write value context = .ok context' ∧ j.NamedBy context' ∧
      context'.member? name = some value := by
  have hobject : ∃ fields, context = .object fields := by
    cases context with
    | object fields => exact ⟨fields, rfl⟩
    | _ => cases h.key
  obtain ⟨fields, rfl⟩ := hobject
  exact ⟨_, Path.write_key, h.write hname Path.write_key, Json.lookup_insert_self⟩

end NamedBy

end Job

/-! ### Payloads -/

section Payloads

variable {context value : Json} {name container folder : String} {j : Job}

theorem field_resolve (h : context.member? name = some value) :
    (field name).resolve context = .ok value := by
  have hread : (member name).read context = .ok value := Path.read_key h
  simp only [field, Payload.resolve, Expression.evaluate, hread]
  rfl

theorem below_resolve (container : String) (h : context.member? "key" = some (.string j.key)) :
    (below folder).resolve context = .ok (.string (j.file container folder).key) := by
  have hread : (member "key").read context = .ok (.string j.key) := Path.read_key h
  simp only [below, Payload.resolve, Expression.evaluate, Template.format, Template.fillParts,
    hread, bind, Except.bind, pure, Except.pure, Except.mapError, Except.map, Json.text,
    String.append_empty, Job.file]

theorem source_resolve (hcontainer : context.member? name = some (.string container))
    (hkey : context.member? "key" = some (.string j.key)) :
    (source name folder).resolve context = .ok (.string (j.file container folder).text) := by
  have hread : (member "key").read context = .ok (.string j.key) := Path.read_key hkey
  have hread' : (member name).read context = .ok (.string container) := Path.read_key hcontainer
  simp only [source, Payload.resolve, Expression.evaluate, Template.format, Template.fillParts,
    hread, hread', bind, Except.bind, pure, Except.pure, Except.mapError, Except.map, Json.text,
    String.append_empty, Job.file, ObjectRef.text, String.append_assoc]

theorem reference_resolve (hcontainer : context.member? name = some (.string container))
    (hkey : context.member? "key" = some (.string j.key)) :
    (reference name folder).resolve context =
      .ok (.object (Service.objectMembers (j.file container folder))) := by
  simp only [reference, Payload.resolve, Payload.resolveFields, field_resolve hcontainer,
    below_resolve container hkey]
  rfl

/-- The input of the copy of a file from below a folder of a container to below another folder. -/
def Job.copyInput (j : Job) (container folder folder' : String) : Json :=
  .object [("Bucket", .string (j.file j.dest folder').container),
    ("CopySource", .string (j.file container folder).text),
    ("Key", .string (j.file j.dest folder').key)]

theorem copy_resolve {folder' : String} (hcontext : j.NamedBy context)
    (hname : context.member? name = some (.string container)) :
    (Payload.object [("Bucket", field "destBucket"), ("CopySource", source name folder),
      ("Key", below folder')]).resolve context = .ok (j.copyInput container folder folder') := by
  simp only [Payload.resolve, Payload.resolveFields, field_resolve hcontext.destBucket,
    source_resolve hname hcontext.key, below_resolve j.dest hcontext.key]
  rfl

theorem Job.namedObject_copyInput (folder' : String) :
    Service.namedObject .copyObject (j.copyInput container folder folder') =
      .ok (j.file j.dest folder') :=
  Service.namedObject_eq rfl j.dest_ne rfl Job.file_key_ne

theorem Job.sourceObject_copyInput {folder' : String} (hne : container ≠ "")
    (hslash : '/' ∉ container.toList) :
    Service.sourceObject (j.copyInput container folder folder') = .ok (j.file container folder) :=
  Service.sourceObject_eq rfl hne hslash Job.file_key_ne

/-- The list of the files that are deleted, as the context of their deletion. -/
def Job.deletions (j : Job) : Json :=
  .object [("filesToDelete",
    .array [.object (Service.objectMembers j.inbox), .object (Service.objectMembers j.process)])]

theorem deletions_resolve (hcontext : j.NamedBy context) :
    (Payload.object [("filesToDelete",
      .array [reference "sourceBucket" "inbox", reference "destBucket" "process"])]).resolve
        context = .ok j.deletions := by
  simp only [Payload.resolve, Payload.resolveFields, Payload.resolveItems,
    reference_resolve hcontext.sourceBucket hcontext.key,
    reference_resolve hcontext.destBucket hcontext.key]
  rfl

/-- The input of a deletion is the item of the list itself. -/
theorem deletion_resolve (r : ObjectRef) :
    (Payload.object [("Bucket", field "Bucket"), ("Key", field "Key")]).resolve
      (.object (Service.objectMembers r)) = .ok (.object (Service.objectMembers r)) :=
  rfl

end Payloads

end FileIngest

end Conveyor
