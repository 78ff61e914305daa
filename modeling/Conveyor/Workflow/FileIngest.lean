import Conveyor.Workflow.Basic

/-!
# The file ingest workflow

The workflow that goes with the interpreter: it takes a file of records from the inbox of one
container, works on a copy in another one, puts each record into a table, files the copy in the
archive, and deletes the file in the inbox and the copy. Its context holds the two containers under
`sourceBucket` and `destBucket` and the name of the file under `key`.
-/

namespace Conveyor

namespace FileIngest

/-- The path to a member of the context. -/
def member (name : String) : Path := .key .root name

/-- An expression for a member of the context. -/
def field (name : String) : Payload := .expression (.path (member name))

/-- An expression for the name of the file below a folder. -/
def below (folder : String) : Payload :=
  .expression (.format ⟨[.literal (folder ++ "/"), .ref (member "key")]⟩)

/-- An expression for the file below a folder of a container. -/
def source (container folder : String) : Payload :=
  .expression (.format
    ⟨[.ref (member container), .literal ("/" ++ folder ++ "/"), .ref (member "key")]⟩)

/-- An expression for the reference to the file below a folder of a container. -/
def reference (container folder : String) : Payload :=
  .object [("Bucket", field container), ("Key", below folder)]

/-- Accepts every file. -/
def validateFile : Step :=
  .pass ⟨"ValidateFile", some "always pass the validation", none, .replace⟩

/-- Copies the file from the inbox to the files in work. -/
def copyFile : Step :=
  .task {
    name := "CopyFile"
    comment := none
    adapter := "storage:copyObject"
    parameters := some (.object [("Bucket", field "destBucket"),
      ("CopySource", source "sourceBucket" "inbox"), ("Key", below "process")])
    resultSelector := none
    resultPath := .at (member "copyResult")
    retry := none }

/-- Reads the records of the file in work. -/
def readFileContent : Step :=
  .task {
    name := "ReadFileContent"
    comment := none
    adapter := "storage:getObject"
    parameters := some (reference "destBucket" "process")
    resultSelector :=
      some (.object [("filecontent", .expression (.stringToJson (member "Body")))])
    resultPath := .at (member "getObject")
    retry := none }

/-- The text attribute of an item with a member of the context in it. -/
def text (name : String) : Payload := .object [("S", field name)]

/-- Puts a record into the table. -/
def insertRecord : Step :=
  .task {
    name := "InsertRecord"
    comment := none
    adapter := "table:putItem"
    parameters := some (.object [
      ("Item", .object [("id", text "id"), ("name", text "name")]),
      ("TableName", .literal (.string "StepfnExample"))])
    resultSelector := some (.object [("statusCode", field "StatusCode")])
    resultPath := .replace
    retry := none }

/-- Puts every record into the table, ten at once. -/
def putItem : Step :=
  .map ⟨"putItem", none, (member "getObject").key "filecontent", some 10,
    .at (member "putItemResponse")⟩ [insertRecord]

/-- Copies the file in work to the archive. -/
def archiveFile : Step :=
  .task {
    name := "ArchiveFile"
    comment := none
    adapter := "storage:copyObject"
    parameters := some (.object [("Bucket", field "destBucket"),
      ("CopySource", source "destBucket" "process"), ("Key", below "archive")])
    resultSelector := none
    resultPath := .at (member "archiveResult")
    retry := none }

/-- Makes the list of the files to delete the context. -/
def prepareFileDeletion : Step :=
  .pass {
    name := "PrepareFileDeletion"
    comment := some "builds the input payload for the next step"
    parameters := some (.object [("filesToDelete",
      .array [reference "sourceBucket" "inbox", reference "destBucket" "process"])])
    resultPath := .replace }

/-- Deletes a file. -/
def deleteFile : Step :=
  .task {
    name := "DeleteFile"
    comment := none
    adapter := "storage:deleteObject"
    parameters := some (.object [("Bucket", field "Bucket"), ("Key", field "Key")])
    resultSelector := none
    resultPath := .discard
    retry := none }

/-- Deletes the listed files. -/
def deleteFiles : Step :=
  .map ⟨"DeleteFiles", none, member "filesToDelete", none, .discard⟩ [deleteFile]

end FileIngest

/-- The workflow that takes a file of records from an inbox into a table and an archive. -/
def Workflow.fileIngest : Workflow where
  name := "file-ingest"
  comment := some "copy, parse and load a file into the records table, then clean up"
  timeoutSecs := some 600
  steps := [FileIngest.validateFile, FileIngest.copyFile, FileIngest.readFileContent,
    FileIngest.putItem, FileIngest.archiveFile, FileIngest.prepareFileDeletion,
    FileIngest.deleteFiles]

end Conveyor
