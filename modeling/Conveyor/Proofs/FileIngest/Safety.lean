import Conveyor.Proofs.FileIngest.Context
import Conveyor.Proofs.Result
import Conveyor.Proofs.Run.Moments
import Conveyor.Proofs.Run.Reports

/-!
# No file is lost

Whatever is refused, denied or cut off: at every moment of a run of the file ingest workflow the
file is in the inbox or in the archive (`Workflow.fileIngest_keeps_file`). The copy in work is made
from the inbox before anything else happens, the archive is filled from the copy, and only then,
with a context that lists the file in the inbox and the copy, something is deleted; neither of the
two is the file in the archive.
-/

namespace Conveyor

namespace FileIngest

variable {j : Job} {body : ByteArray} {m m' : Memory} {context context' : Json} {i : Nat}

/-! ### The assertions along the workflow -/

/-- Where the file is to be found while the step at a position is at work. -/
def Held (j : Job) (body : ByteArray) : Nat → Memory → Prop
  | 0, m | 1, m => m.object? j.inbox = some body
  | 2, m | 3, m | 4, m => m.object? j.inbox = some body ∧ m.object? j.process = some body
  | 5, m => m.object? j.inbox = some body ∧ m.object? j.archive = some body
  | _ + 6, m => m.object? j.archive = some body

/-- What the context is like when the step at a position begins. -/
def Form (j : Job) : Nat → Json → Prop
  | 6, context => context = j.deletions
  | _ + 7, _ => True
  | _, context => j.NamedBy context

theorem Held.inbox (h : Held j body i m) (hi : i < 6) : m.object? j.inbox = some body := by
  match i, hi with
  | 0, _ | 1, _ => exact h
  | 2, _ | 3, _ | 4, _ | 5, _ => exact h.1

theorem Held.inbox_or_archive (h : Held j body i m) :
    m.object? j.inbox = some body ∨ m.object? j.archive = some body := by
  by_cases hi : i < 6
  · exact .inl (h.inbox hi)
  · obtain ⟨k, rfl⟩ := Nat.exists_eq_add_of_le' (Nat.not_lt.mp hi)
    exact .inr h

/-- Only the objects matter. -/
theorem Held.of_objects (h : Held j body i m)
    (hsame : ∀ object, m'.object? object = m.object? object) : Held j body i m' := by
  match i with
  | 0 | 1 => exact (hsame _).trans h
  | 2 | 3 | 4 | 5 => exact ⟨(hsame _).trans h.1, (hsame _).trans h.2⟩
  | _ + 6 => exact (hsame _).trans h

/-- A result that is installed is written to the context. -/
theorem exists_write {s : TaskStep} {path : Path} {output : Json} (hpath : s.resultPath = .at path)
    (h : s.finish context output = .ok context') :
    ∃ value, path.write value context = .ok context' := by
  simp only [TaskStep.finish, hpath, ResultPath.apply] at h
  split at h
  all_goals
    obtain ⟨value, -, hwrite⟩ := Except.bind_eq_ok.mp h
    exact ⟨value, Except.mapError_eq_ok.mp hwrite⟩

/-! ### The calls -/

section Calls

variable (script : Script) (describe : Deed → String) (number : Nat)

/-- A copy of a file that the context names. -/
theorem copy_call {name container folder folder' : String} {input : Json}
    (hcontext : j.NamedBy context) (hname : context.member? name = some (.string container))
    (hne : container ≠ "") (hslash : '/' ∉ container.toList)
    (hinput : (Payload.object [("Bucket", field "destBucket"), ("CopySource", source name folder),
      ("Key", below folder')]).resolve context = .ok input) (policy : AccessPolicy) (m : Memory) :
    let answer := (script.adapter (Memory.service policy) describe).answer number
      "storage:copyObject" input m
    (∃ error, answer.1.1 = .error error ∧ answer.2 = m) ∨
      ∃ body, m.object? (j.file container folder) = some body ∧
        answer.2 = m.setObject (j.file j.dest folder') body := by
  obtain rfl := Except.ok.inj ((copy_resolve hcontext hname).symm.trans hinput)
  exact script.copyObject_cases describe number _ (Job.namedObject_copyInput folder')
    (Job.sourceObject_copyInput hne hslash) m

/-- A deletion of another file leaves the file in the archive. -/
theorem deletion_call {r : ObjectRef} {input : Json} (hcontainer : r.container ≠ "")
    (hkey : r.key ≠ "") (hr : j.archive ≠ r)
    (hinput : (Payload.object [("Bucket", field "Bucket"), ("Key", field "Key")]).resolve
      (.object (Service.objectMembers r)) = .ok input) (policy : AccessPolicy)
    (hm : m.object? j.archive = some body) :
    ((script.adapter (Memory.service policy) describe).answer number "storage:deleteObject" input
      m).2.object? j.archive = some body := by
  obtain rfl := Except.ok.inj ((deletion_resolve r).symm.trans hinput)
  have hobject : Service.namedObject .deleteObject (.object (Service.objectMembers r)) = .ok r :=
    Service.namedObject_objectMembers hcontainer hkey
  rcases script.answer_stays (Memory.service policy) describe number .deleteObject _ m
    (fun _ => .inl rfl) (Service.deleteObject_stays hobject) with hsame | herased
  · exact (congrArg (Memory.object? j.archive) hsame).trans hm
  · refine (congrArg (Memory.object? j.archive) herased).trans ?_
    rw [Memory.object?_eraseObject, if_neg hr, hm]

end Calls

/-! ### The steps -/

section Steps

variable (policy : AccessPolicy) (script : Script) (describe : Deed → String)

theorem validateFile_advances :
    validateFile.Advances (script.adapter (Memory.service policy) describe) (Held j body) (Form j)
      0 := by
  refine PassStep.advances (fun _ h => h) fun c c' hc h => ?_
  obtain rfl := Except.ok.inj h
  exact hc

theorem copyFile_advances :
    copyFile.Advances (script.adapter (Memory.service policy) describe) (Held j body) (Form j)
      1 := by
  refine TaskStep.advances (fun c input number m hc hinput hm => ?_) fun c output c' hc h => ?_
  · have hcall := copy_call script describe number hc hc.sourceBucket j.source_ne j.source_slash
      (Except.mapError_eq_ok.mp hinput) policy m
    have hinbox : m.object? j.inbox = some body := hm
    rcases hcall with ⟨error, herror, hsame⟩ | ⟨body', hbody', hset⟩
    · -- after an error the step does not end well, and nothing has changed
      rw [hsame]
      exact ⟨hm, fun output hok => absurd (herror.symm.trans hok) nofun⟩
    · obtain rfl := Option.some.inj (hbody'.symm.trans hinbox)
      have hafter : (m.setObject j.process body').object? j.inbox = some body' := by
        rw [Memory.object?_setObject, if_neg Job.process_ne_inbox.symm, hinbox]
      rw [hset]
      exact ⟨hafter, fun _ _ => ⟨hafter, Memory.object?_setObject.trans (if_pos rfl)⟩⟩
  · obtain ⟨value, hwrite⟩ := exists_write rfl h
    exact Job.NamedBy.write hc (by decide) hwrite

theorem readFileContent_advances :
    readFileContent.Advances (script.adapter (Memory.service policy) describe) (Held j body)
      (Form j) 2 := by
  refine TaskStep.advances (fun c input number m hc hinput hm => ?_) fun c output c' hc h => ?_
  · have hsame : m = _ := script.answer_stays (Memory.service policy) describe number .getObject
      input m .refl Service.getObject_stays
    exact ⟨hsame ▸ hm, fun _ _ => hsame ▸ hm⟩
  · obtain ⟨value, hwrite⟩ := exists_write rfl h
    exact Job.NamedBy.write hc (by decide) hwrite

theorem putItem_advances :
    putItem.Advances (script.adapter (Memory.service policy) describe) (Held j body) (Form j)
      3 := by
  refine MapHead.advances (fun _ h => h) (fun c outputs c' hc h => ?_)
    fun c items hc hitems item k hk scope next hnext => ?_
  · exact Job.NamedBy.write hc (by decide) (Except.mapError_eq_ok.mp h)
  · refine pipelineActivity_keeps_cons (fun next' hnext' => ?_) (fun c' => ?_) hnext
    · refine TaskStep.activity_keeps (fun input number m _ hm => ?_) hnext' _
      exact hm.of_objects (script.answer_stays (Memory.service policy) describe number .putItem
        input m (fun _ _ => rfl) Service.putItem_stays)
    · simp only [pipelineActivity]
      exact hnext _

theorem archiveFile_advances :
    archiveFile.Advances (script.adapter (Memory.service policy) describe) (Held j body) (Form j)
      4 := by
  refine TaskStep.advances (fun c input number m hc hinput hm => ?_) fun c output c' hc h => ?_
  · have hcall := copy_call script describe number hc hc.destBucket j.dest_ne j.dest_slash
      (Except.mapError_eq_ok.mp hinput) policy m
    have hheld : m.object? j.inbox = some body ∧ m.object? j.process = some body := hm
    obtain ⟨hinbox, hprocess⟩ := hheld
    rcases hcall with ⟨error, herror, hsame⟩ | ⟨body', hbody', hset⟩
    · rw [hsame]
      exact ⟨hm, fun output hok => absurd (herror.symm.trans hok) nofun⟩
    · obtain rfl := Option.some.inj (hbody'.symm.trans hprocess)
      -- the archive is filled from the copy, which is the same as the file
      have hother {object : ObjectRef} (hne : j.archive ≠ object) :
          (m.setObject j.archive body').object? object = m.object? object := by
        rw [Memory.object?_setObject, if_neg hne.symm]
      have hinbox' := (hother Job.archive_ne_inbox).trans hinbox
      rw [hset]
      exact ⟨⟨hinbox', (hother Job.archive_ne_process).trans hprocess⟩,
        fun _ _ => ⟨hinbox', Memory.object?_setObject.trans (if_pos rfl)⟩⟩
  · obtain ⟨value, hwrite⟩ := exists_write rfl h
    exact Job.NamedBy.write hc (by decide) hwrite

theorem prepareFileDeletion_advances :
    prepareFileDeletion.Advances (script.adapter (Memory.service policy) describe) (Held j body)
      (Form j) 5 := by
  refine PassStep.advances (fun _ h => h.2) fun c c' hc h => ?_
  simp only [PassStep.apply, deletions_resolve hc] at h
  exact (Except.ok.inj h).symm

theorem deleteFiles_advances :
    deleteFiles.Advances (script.adapter (Memory.service policy) describe) (Held j body) (Form j)
      6 := by
  refine MapHead.advances (fun _ h => h) (fun _ _ _ _ _ => trivial)
    fun c items hc hitems item k hk scope next hnext => ?_
  obtain ⟨k, rfl⟩ := Nat.exists_eq_add_of_le' hk
  refine pipelineActivity_keeps_cons (fun next' hnext' => ?_) (fun c' => ?_) hnext
  · refine TaskStep.activity_keeps (fun input number m hinput hm => ?_) hnext' _
    have hinput' := Except.mapError_eq_ok.mp hinput
    have hlisted : items = [.object (Service.objectMembers j.inbox),
        .object (Service.objectMembers j.process)] := by
      obtain rfl : c = _ := hc
      exact (Except.ok.inj hitems).symm
    subst hlisted
    -- only these two items exist, and neither of them is in the archive
    match item with
    | 0 =>
      exact deletion_call script describe number (r := j.inbox) j.source_ne Job.file_key_ne
        Job.archive_ne_inbox hinput' policy hm
    | 1 =>
      exact deletion_call script describe number (r := j.process) j.dest_ne Job.file_key_ne
        Job.archive_ne_process hinput' policy hm
    | _ + 2 => cases hinput'
  · simp only [pipelineActivity]
    exact hnext _

end Steps

/-- Every step leads on. -/
theorem fileIngest_advances (policy : AccessPolicy) (script : Script) (describe : Deed → String) :
    Pipeline.Advances (script.adapter (Memory.service policy) describe) (Held j body) (Form j) 0
      Workflow.fileIngest.steps :=
  ⟨validateFile_advances policy script describe, copyFile_advances policy script describe,
    readFileContent_advances policy script describe, putItem_advances policy script describe,
    archiveFile_advances policy script describe,
    prepareFileDeletion_advances policy script describe,
    deleteFiles_advances policy script describe, trivial⟩

end FileIngest

namespace Workflow

open FileIngest

/-- The results of the steps go to members of the context. -/
theorem fileIngest_fits : Pipeline.Fits fileIngest.steps := by
  have hmember (name : String) : (ResultPath.at (member name)).Fits :=
    fun i hi => by simp [member, Path.root, Path.key, Path.push] at hi
  have halone {s : Step} (h : s.resultPath.Fits) (hs : ∀ head iterator, s ≠ .map head iterator) :
      Pipeline.Fits [s] :=
    Pipeline.fits_singleton.mpr ⟨h, fun head iterator heq => absurd heq (hs head iterator)⟩
  have hmap {head : MapHead} {iterator : Pipeline} (h : head.resultPath.Fits)
      (hinner : Pipeline.Fits iterator) : Pipeline.Fits [.map head iterator] :=
    Pipeline.fits_singleton.mpr ⟨h, fun _ _ heq => (Step.map.inj heq).2 ▸ hinner⟩
  have hcons {s : Step} {steps : List Step} (h : Pipeline.Fits [s]) (hsteps : Pipeline.Fits steps) :
      Pipeline.Fits (s :: steps) :=
    Pipeline.fits_cons.mpr ⟨h, hsteps⟩
  exact hcons (halone trivial nofun) <| hcons (halone (hmember _) nofun) <|
    hcons (halone (hmember _) nofun) <| hcons (hmap (hmember _) (halone trivial nofun)) <|
    hcons (halone (hmember _) nofun) <| hcons (halone trivial nofun) <|
    hmap trivial (halone trivial nofun)

/-- **The file ingest workflow never loses a file.** At every moment of a run and after it the file
is in the inbox or in the archive; if the run ends early before files are deleted, it stays in the
inbox. -/
theorem fileIngest_keeps_file {j : Job} {body : ByteArray} {context : Json} {m : Memory}
    (hcontext : j.NamedBy context) (hm : m.object? j.inbox = some body) (policy : AccessPolicy)
    (script : Script) (describe : Deed → String) (budget : Option Nat) :
    let e : Engine Memory := ⟨script.adapter (Memory.service policy) describe, budget⟩
    ∃ report m', e.execute fileIngest context m = some (.ok report, m') ∧
      (∀ world, e.Moment fileIngest context m world →
        world.state.object? j.inbox = some body ∨ world.state.object? j.archive = some body) ∧
      ∀ index < 6, report.outcome.stepIndex = some index → ∀ world, m'.Moment e.adapter world →
        world.state.object? j.inbox = some body := by
  intro e
  have hmeets {world : World Memory} (h : e.Moment fileIngest context m world) :
      world.Meets (Held j body) :=
    h.meets (fileIngest_advances policy script describe) hcontext hm
  obtain ⟨report, m', hexec⟩ := e.exists_report fileIngest_fits context m
  refine ⟨report, m', hexec, fun world h => Held.inbox_or_archive (hmeets h),
    fun index hlt hindex world h => ?_⟩
  have hreached : world.reached.1 = index := Engine.reached_of_moment hexec hindex h
  exact Held.inbox (hmeets (.after hexec h)) (hreached ▸ hlt)

/-- A file whose first copy is refused, while all calls are slow and the time is short. -/
theorem fileIngest_keeps_refused_file :
    let j : Job := ⟨"in", "out", "people.json", by decide, by decide, by decide, by decide⟩
    let context : Json := .object [("destBucket", .string "out"), ("key", .string "people.json"),
      ("sourceBucket", .string "in")]
    let body := "[]".toUTF8
    let m := Memory.empty.setObject ⟨"in", "inbox/people.json"⟩ body
    let script : Script := [("storage:copyObject", ⟨20, 1, .null⟩)]
    let e : Engine Memory := ⟨script.adapter (Memory.service .allowAll) fun _ => "", some 10⟩
    j.NamedBy context ∧ m.object? j.inbox = some body ∧
      ∃ report m', e.execute fileIngest context m = some (.ok report, m') ∧
        (∀ world, e.Moment fileIngest context m world →
          world.state.object? j.inbox = some body ∨ world.state.object? j.archive = some body) ∧
        ∀ index < 6, report.outcome.stepIndex = some index → ∀ world, m'.Moment e.adapter world →
          world.state.object? j.inbox = some body := by
  intro j context body m script e
  have hcontext : j.NamedBy context := ⟨rfl, rfl, rfl⟩
  have hinbox : j.inbox = ⟨"in", "inbox/people.json"⟩ := by decide
  have hm : m.object? j.inbox = some body := by
    rw [hinbox, Memory.object?_setObject, if_pos rfl]
  exact ⟨hcontext, hm, fileIngest_keeps_file hcontext hm _ _ _ _⟩

end Workflow

end Conveyor
