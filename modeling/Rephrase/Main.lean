import Rephrase.CommandLine.Program

/-!
The program on a real disk. What a run may look at is read first, the program does its work on that,
and then what has changed is written back. There are no grammars and there is no network here: all
files are searched by pattern, and every request ends like one on a machine without a network.
-/

namespace Rephrase.Main

/-- A file or a directory with its location. -/
abbrev Entries := List (Disk.Location × Disk.Entry)

def locationOf (path : String) : Disk.Location :=
  (Disk.steps path).filter (· ≠ "")

/-- Whether a directory is read: what a run looks into, and the session directory with all that is
in it. -/
def readsDirectory (config : Config) (inSession : Bool) (name : String) : Bool :=
  inSession || name = Session.directoryName || Discovery.entersDirectory config name

/-- Whether a file is read: what a run looks at, and what it keeps for itself. -/
def readsFile (config : Config) (inSession : Bool) (name : String) (size : Nat) : Bool :=
  inSession || [".gitignore", "retext.toml"].contains name ||
    Discovery.takesFile config name size

/-- Reads a directory. Links are passed over. -/
partial def readDirectory (config : Config) (inSession : Bool) (path : String) : IO Entries := do
  let mut found : Entries := [(locationOf path, .directory)]
  for entry in ← (← IO.FS.realPath path).readDir do
    let inner := Path.join path entry.fileName
    let metadata ← entry.path.symlinkMetadata
    match metadata.type with
    | .dir =>
      if readsDirectory config inSession entry.fileName then
        let session := inSession || entry.fileName = Session.directoryName
        found := found ++ (← readDirectory config session inner)
    | .file =>
      if readsFile config inSession entry.fileName metadata.byteSize.toNat then
        found := (locationOf inner, .file (← IO.FS.readBinFile inner)) :: found
    | _ => pure ()
  return found

def directoriesAbove (path : String) : Entries :=
  let location := locationOf path
  (List.range location.length).map fun n => (location.take n, .directory)

/-- Reads a file, if it is there, with the directories on the way to it. -/
def readFile (path : String) : IO Entries := do
  match ← (IO.FS.readBinFile path).toBaseIO with
  | .ok content =>
    return (locationOf path, .file content) :: directoriesAbove path
  | .error _ => return []

/-- Writes back what is no longer as it was. -/
def writeBack (before after : Disk) : IO Unit := do
  for (location, _) in before.entries do
    if (after.get? location).isNone then IO.FS.removeFile (Disk.pathOf location)
  for (location, entry) in after.entries do
    if before.get? location ≠ some entry then
      let path := Disk.pathOf location
      match entry with
      | .file content =>
        IO.FS.createDirAll (Disk.pathOf location.dropLast)
        IO.FS.writeBinFile path content
      | .directory => IO.FS.createDirAll path
      | .link _ => pure ()

/-- What the clock shows, read off a file that is made for it. -/
def readClock : IO Instant := do
  let (_, path) ← IO.FS.createTempFile
  let time := (← path.metadata).modified
  IO.FS.removeFile path
  return ⟨time.sec, time.nsec.toNat⟩

def randomSession : IO String := do
  let bytes := (← IO.getRandomBytes 16).toList
  let digits := bytes.flatMap fun b =>
    [Decimal.hexChar (b.toNat / 16), Decimal.hexChar (b.toNat % 16)]
  let part (start count : Nat) : List Char := (digits.drop start).take count
  return String.ofList <| ['-'].intercalate
    [part 0 8, part 8 4, '4' :: part 13 3, 'a' :: part 17 3, part 20 12]

def settingsDirectory : IO (Option String) := do
  match ← IO.getEnv "XDG_CONFIG_HOME" with
  | some path => if Path.isAbsolute path then return some path
  | none => pure ()
  return (← IO.getEnv "HOME").map fun home => Path.join home ".config"

/-- The way to a service where there is no network. -/
def noNetwork : Chat.Transport Unit := fun post memory =>
  (.lost ["error sending request for url (" ++ post.url ++ ")", "client error (Connect)",
    "tcp connect error", "Network is unreachable (os error 101)"], memory)

def readSettings (root : String) (settings : Option String) : IO Entries := do
  let user ← match settings with
    | some directory => readFile (Config.userPath directory)
    | none => pure []
  return (← readFile (Config.projectPath root)) ++ user

def diskOf (working : String) (entries : Entries) : Disk :=
  { entries := entries.foldl (fun done e => if done.any (·.1 = e.1) then done else e :: done) []
    working := locationOf working }

/-- A path without links and dots; the path itself if nothing stands there. -/
def realPathOf (path : String) : IO String := do
  match ← (IO.FS.realPath path).toBaseIO with
  | .ok real => return real.toString
  | .error _ => return path

/-- Does what the command line asks for. -/
def perform (words : List String) : IO UInt32 := do
  let started ← IO.monoMsNow
  let working := (← IO.currentDir).toString
  let settings ← settingsDirectory
  let root ← match CommandLine.Arguments.ofWords words with
    | .ok a => realPathOf (Path.join working a.root)
    | .error _ => pure working
  let kept ← readSettings root settings
  let config := match Config.load root settings (diskOf working kept) with
    | (.ok config, _) => config
    | _ => {}
  let project ← (readDirectory config false root).toBaseIO
  let disk := diskOf working (project.toOption.getD [] ++ kept ++ directoriesAbove root)
  let key ← IO.getEnv config.oracle.keyVariable
  let now ← readClock
  let around : CommandLine.Surroundings :=
    { settings
      environment := fun name => if name = config.oracle.keyVariable then key else none
      parser := fun _ _ => none
      times := ⟨now, now⟩
      session := ← randomSession }
  let (result, (_, after)) := CommandLine.program around noNetwork words ((), disk)
  writeBack disk after
  match result with
  | .ok ending =>
    let exit := ending ((← IO.monoMsNow) - started)
    IO.print exit.texts.output
    IO.eprint exit.texts.errors
    return exit.code.toUInt32
  | .error _ =>
    IO.eprintln "a setting is out of range"
    return 101

end Rephrase.Main

/-- Runs the program with the words of its command line. -/
def main (words : List String) : IO UInt32 :=
  Rephrase.Main.perform words
