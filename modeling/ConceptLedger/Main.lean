import ConceptLedger.CommandLine.Run
import ConceptLedger.Store.Tables.Dump
import Std.Time.DateTime.Timestamp

/-!
The program: it brings the files that a request names into memory, carries the request out, writes
the store back and prints the answer.
-/

namespace ConceptLedger.Main

open CommandLine

/-- The entry at a path of the file system, or nothing. -/
def loadEntry (path : String) : IO (Option Entry) := do
  let place := (← IO.currentDir) / path
  if ← place.isDir then return some .folder
  if !(← place.pathExists) then return none
  match String.fromUTF8? (← IO.FS.readBinFile place) with
  | none => return some .bytes
  | some text =>
    if text.startsWith Tables.Dump.heading then
      match Tables.Dump.read? text with
      | some contents => return some (.store { contents })
      | none => return some .bytes
    else return some (.text text)

/-- Brings the entries on the way to a path into memory, the path itself included. -/
def load (d : Directory) (path : String) : IO Directory := do
  let mut d := d
  let mut parts := []
  for part in partsOf path do
    parts := step parts part
    let there := joined parts
    if !there.isEmpty then
      if let some entry ← loadEntry there then d := d.put there entry
  return d

/-- The reading of the clock. -/
def clock : IO Instant := do
  let now ← Std.Time.Timestamp.now
  let nanos := now.toNanosecondsSinceUnixEpoch.toInt
  return ⟨nanos / 1000000000, (nanos % 1000000000).toNat, by omega⟩

/-- A supply of new identifiers, of the usual form for random ones. -/
def supply : IO IdSupply := do
  let seed := (← IO.getRandomBytes 16).toList.foldl (fun n b => n * 256 + b.toNat) 0
  return ⟨fun n =>
    let bits : BitVec 128 := BitVec.ofNat 128 (seed + n * 0x9E3779B97F4A7C15F39CC0605CEDC835)
    ⟨bits &&& 0xFFFFFFFFFFFF0FFF3FFFFFFFFFFFFFFF ||| 0x40008000000000000000⟩, 0⟩

/-- Writes a store back, with the folders on the way to it. -/
def save (path : String) (d : Directory) : IO Unit := do
  if isTemporary path then return
  if let .ok (.store db) := d.find path then
    let place := (← IO.currentDir) / plainPath path
    if let some folder := place.parent then IO.FS.createDirAll folder
    IO.FS.writeFile place (Tables.Dump.write db.contents)

/-- Carries out a request. -/
def carryOut (r : Request) : IO Outcome := do
  let mut d : Directory := {}
  for file in r.files do
    d ← load d file
  let database := (r.loadConfig d).toOption.map (·.database)
  if let some path := database then
    if !isTemporary path then d ← load d path
  let (outcome, after) := r.run (← clock) (← supply) d
  if let some path := database then save path after
  return outcome

end ConceptLedger.Main

open ConceptLedger CommandLine in
/-- Carries out a command line, and answers the exit code. -/
def main (args : List String) : IO UInt32 := do
  let outcome ← match Request.read args with
    | .error .help => pure Outcome.help
    | .error .misuse => pure Outcome.misuse
    | .ok r => ConceptLedger.Main.carryOut r
  IO.print outcome.output
  IO.eprint outcome.complaint
  return outcome.exitCode.toUInt32
