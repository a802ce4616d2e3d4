import ConceptLedger.Data.SortedMap
import ConceptLedger.Store.Tables.View

/-!
The files that a command reads and writes: folders, texts and stores under paths. A path that does
not start with a slash starts in the working folder.
-/

namespace ConceptLedger.CommandLine

/-- What stands at a path. -/
inductive Entry where
  | folder
  | text (content : String)
  | store (db : Tables.Database)
  /-- A file that is neither text nor a store. -/
  | bytes

/-- Why a file cannot be used. -/
inductive FileError where
  | missing
  | notFolder
  | isFolder
  | taken
  | notText
deriving DecidableEq

/-- The words of the operating system. -/
def FileError.message : FileError → String
  | missing => "No such file or directory (os error 2)"
  | notFolder => "Not a directory (os error 20)"
  | isFolder => "Is a directory (os error 21)"
  | taken => "File exists (os error 17)"
  | notText => "stream did not contain valid UTF-8"

/-- The files that are known. -/
structure Directory where
  entries : SortedMap String Entry := SortedMap.empty

/-- The parts of a path between slashes. The first part of an absolute path is empty. -/
def partsOf (path : String) : List String := path.splitOn "/"

/-- The parts after one more step: the same folder, the folder above, or an entry. -/
def step (parts : List String) (part : String) : List String :=
  if part = "." then parts
  else if part = "" then (if parts.isEmpty then [""] else parts)
  else if part = ".." then
    match parts.getLast? with
    | none | some ".." => parts ++ [".."]
    | some "" => parts
    | some _ => parts.dropLast
  else parts ++ [part]

/-- The path of a list of parts. -/
def joined (parts : List String) : String := "/".intercalate parts

/-- The one form of all paths that name the same entry by their parts. -/
def plainPath (path : String) : String := joined ((partsOf path).foldl step [])

namespace Directory

/-- The entry at parts in plain form. Folders above the working folder are always there. -/
def entryAt (d : Directory) (parts : List String) : Option Entry :=
  if parts = [""] || parts.all (· = "..") then some .folder else d.entries.find? (joined parts)

/-- Goes on from a place through parts that must all be there; what is not the last part must be a
folder. -/
def walk (d : Directory) (place : List String) : List String → Except FileError Entry
  | [] =>
    match d.entryAt place with
    | some entry => .ok entry
    | none => .error .missing
  | part :: rest =>
    match d.entryAt place with
    | some .folder => d.walk (step place part) rest
    | some _ => .error .notFolder
    | none => .error .missing

/-- The entry at a path. -/
def find (d : Directory) (path : String) : Except FileError Entry :=
  if path.isEmpty then .error .missing else d.walk [] (partsOf path)

/-- The text at a path. -/
def readText (d : Directory) (path : String) : Except FileError String :=
  match d.find path with
  | .ok (.text content) => .ok content
  | .ok .folder => .error .isFolder
  | .ok _ => .error .notText
  | .error e => .error e

/-- Puts an entry at a path. -/
def put (d : Directory) (path : String) (entry : Entry) : Directory :=
  ⟨d.entries.insert (plainPath path) entry⟩

/-- Makes the folders on the way through parts, as far as they are missing. -/
def makeFolders (d : Directory) (place : List String) :
    List String → Except FileError Directory
  | [] => .ok d
  | part :: rest =>
    let next := step place part
    match d.entryAt next with
    | some .folder => d.makeFolders next rest
    | some _ => .error (if rest.isEmpty then .taken else .notFolder)
    | none => makeFolders ⟨d.entries.insert (joined next) .folder⟩ next rest

/-- The parts of the folder in which a path stands. -/
def folderParts (path : String) : List String :=
  let parts := partsOf path
  (parts.zipIdx.filterMap fun e =>
    if e.1 = "" && e.2 ≠ 0 || e.1 = "." && e.2 ≠ 0 then none else some e.1).dropLast

end Directory

/-- Whether a path names a store that lasts only as long as it is open. -/
def isTemporary (path : String) : Bool := path = "" || path = ":memory:"

/-- A store that is open, and where it is kept. -/
structure OpenStore where
  path : String
  db : Tables.Database

namespace Directory

/-- The failure of a file that is no store. -/
def notStore : Failure := Tables.refusal "the file is not a store"

/-- Opens the store at a path, with the folders on the way to it; where there is nothing or an
empty text, it is new. -/
def openStore (d : Directory) (path : String) : Except Failure OpenStore × Directory :=
  if isTemporary path then (.ok ⟨path, {}⟩, d)
  else
    match d.makeFolders [] (folderParts path) with
    | .error e => (.error (.during .io "create_db_dir" e.message), d)
    | .ok d =>
      let parts := (partsOf path).foldl step []
      match d.entryAt parts with
      | none | some (.text "") => (.ok ⟨path, {}⟩, d)
      | some (.store db) => (.ok ⟨path, db⟩, d)
      | some _ => (.error notStore, d)

/-- Keeps a store where it was opened. -/
def keepStore (d : Directory) (s : OpenStore) : Directory :=
  if isTemporary s.path then d else d.put s.path (.store s.db)

end Directory

end ConceptLedger.CommandLine
