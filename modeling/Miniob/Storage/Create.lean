import Miniob.Storage.Scan

/-!
`Table::create(path, name, base_dir, attribute_count, attributes)` and the files it leaves
under the base directory (`storage/common/table.cpp`).

The meta file at `path` is created with `O_EXCL`, so a file already there makes the call
return `SCHEMA_TABLE_EXIST` (`tableCreate_of_mem`). Every step after that open can still
fail: `table_meta_.init`, reopening the meta file to write it, `create_file` for the data
file and `init_record_handler`. None of their failure branches removes a file, so every call
that got past the open leaves the meta file behind (`mem_tableCreate_iff`), and the data file
too once `create_file` ran; a later `create` of the same table then fails with
`SCHEMA_TABLE_EXIST` (`failed_create_blocks_name`).

The collaborators' outcomes are a record (`CreateOutcomes`). `table_meta_.init` and the
buffer pool are not in `src/`: they are their outcomes here.
-/

namespace Miniob

/-- The outcomes of `Table::create`'s collaborators. -/
structure CreateOutcomes where
  /-- The `O_EXCL` open of a meta file that is not there: `false` for a failure with any
  `errno` other than `EEXIST`. -/
  metaFileOpened : Bool
  /-- `table_meta_.init(name, attribute_count, attributes)`. -/
  metaInit : RC
  /-- `fs.is_open()` after opening the meta file to write it. -/
  metaFileWritten : Bool
  /-- `data_buffer_pool_->create_file(data_file)`. -/
  createFile : RC
  /-- `data_buffer_pool_->open_file(data_file, &file_id)` in `init_record_handler`. -/
  openFile : RC
  /-- `record_handler_->init(...)` in `init_record_handler`. -/
  handlerInit : RC
  deriving DecidableEq, Repr

/-- `TABLE_DATA_SUFFIX`, defined outside `src/`: the spec's `<name>.data`. -/
def tableDataSuffix : String := ".data"

/-- `Table::init_record_handler(base_dir)`: open the data file, then set up the record
handler on it. -/
def initRecordHandler (o : CreateOutcomes) : RC :=
  if o.openFile ≠ .success then o.openFile else o.handlerInit

/-- `Table::create(path, name, base_dir, attribute_count, attributes)` over the paths of the
files under the base directory: the code it returns and the files afterwards. -/
def tableCreate (files : List String) (path name baseDir : String) (attributeCount : Int)
    (o : CreateOutcomes) : RC × List String :=
  if isBlank name then (.invalidArgument, files)
  else if attributeCount ≤ 0 then (.invalidArgument, files)
  else if path ∈ files then (.schemaTableExist, files)
  else if !o.metaFileOpened then (.ioerr, files)
  else
    let files := path :: files
    if o.metaInit ≠ .success then (o.metaInit, files)
    else if !o.metaFileWritten then (.ioerr, files)
    else if o.createFile ≠ .success then (o.createFile, files)
    else (initRecordHandler o, (baseDir ++ "/" ++ name ++ tableDataSuffix) :: files)

section Create

variable {files : List String} {path name baseDir : String} {attributeCount : Int}
  (o : CreateOutcomes)

/-- With a valid name and attribute count, a meta file already at `path` makes `create`
return `SCHEMA_TABLE_EXIST` and touch nothing, whatever the collaborators would do. -/
theorem tableCreate_of_mem (named : isBlank name = false) (counted : 0 < attributeCount)
    (h : path ∈ files) :
    tableCreate files path name baseDir attributeCount o = (.schemaTableExist, files) := by
  rw [tableCreate, if_neg (by simp [named]), if_neg (by omega), if_pos h]

/-- `create` only adds files: the meta file is there afterwards exactly when it was there
before or the call got past the `O_EXCL` open, whatever happened next. -/
theorem mem_tableCreate_iff :
    path ∈ (tableCreate files path name baseDir attributeCount o).2 ↔
      path ∈ files ∨ (isBlank name = false ∧ 0 < attributeCount ∧ o.metaFileOpened = true) := by
  unfold tableCreate
  split_ifs <;> simp_all

end Create

/-- Every collaborator succeeding. -/
def createSucceeds : CreateOutcomes := ⟨true, .success, true, .success, .success, .success⟩

/-- `table_meta_.init` rejecting the attributes, every other collaborator succeeding. -/
def metaInitRejects : CreateOutcomes := { createSucceeds with metaInit := .schemaFieldNameIllegal }

/-- `create` of `t` in `db` with an attribute `table_meta_.init` rejects: the call returns
`SCHEMA_FIELD_NAME_ILLEGAL` and leaves `db/t.table`, and a second `create` of `t`, every
collaborator succeeding, fails with `SCHEMA_TABLE_EXIST`. -/
theorem failed_create_blocks_name :
    (tableCreate [] "db/t.table" "t" "db" 1 metaInitRejects).1 = .schemaFieldNameIllegal ∧
      (tableCreate [] "db/t.table" "t" "db" 1 metaInitRejects).2 = ["db/t.table"] ∧
      (tableCreate ["db/t.table"] "db/t.table" "t" "db" 1 createSucceeds).1 = .schemaTableExist := by
  decide

end Miniob
