import Rephrase.Disk.Resolve

/-!
Reading and writing files. A file is written in two steps: it is emptied first, and then filled as
far as there is room.
-/

namespace Rephrase.Disk

def bytesAt (disk : Disk) (path : String) : Except Error ByteArray :=
  match disk.resolve true path with
  | .ok ⟨_, some (.file content)⟩ => .ok content
  | .ok ⟨_, some .directory⟩ => .error .isDirectory
  | .ok _ => .error .notFound
  | .error e => .error e

def textAt (disk : Disk) (path : String) : Except Error String := do
  match String.fromUTF8? (← disk.bytesAt path) with
  | some text => .ok text
  | none => .error .notText

/-- The location of a file that is to be written: there may be one already or not. -/
def writable (disk : Disk) (path : String) : Except Error (Location × ByteArray) :=
  match disk.resolve true path with
  | .ok ⟨location, some (.file content)⟩ => .ok (location, content)
  | .ok ⟨location, none⟩ => .ok (location, ByteArray.empty)
  | .ok _ => .error .isDirectory
  | .error e => .error e

def fill (location : Location) (before added : ByteArray) : Action Unit := do
  let disk ← get
  let whole := before ++ added
  match disk.limit with
  | none => set (disk.put location (.file whole))
  | some limit =>
    -- What is in the file already stays, also beyond the limit.
    let room := max limit before.size
    set (disk.put location (.file (whole.extract 0 room)))
    if room < whole.size then throw (.refused .tooLarge)

/-- Replaces the content of a file, or makes one. -/
def writeBytes (path : String) (content : ByteArray) : Action Unit := do
  let (location, _) ← Action.look (writable · path)
  -- The old content is lost even if there turns out to be no room for the new one.
  modify (·.put location (.file ByteArray.empty))
  fill location ByteArray.empty content

def writeText (path text : String) : Action Unit :=
  writeBytes path text.toUTF8

/-- Adds a text at the end of a file, or makes one. -/
def appendText (path text : String) : Action Unit := do
  let (location, content) ← Action.look (writable · path)
  modify (·.put location (.file content))
  fill location content text.toUTF8

def touch (path : String) : Action Unit := do
  let (location, content) ← Action.look (writable · path)
  modify (·.put location (.file content))

def makeDirectory (path : String) : Action Unit := do
  let place ← Action.look (resolve · false path)
  match place.entry with
  | some _ => throw (.refused .exists)
  | none => modify (·.put place.location .directory)

def parentPath? (path : String) : Option String :=
  match (Path.components path).reverse with
  | [] | [.root] => none
  | _ :: above =>
    let name : Path.Component → String
      | .name n => n
      | .parent => ".."
      | .here => "."
      | .root => ""
    match above.reverse with
    | [.root] => some "/"
    | parts => some ("/".intercalate (parts.map name))

/-- One step of `makeDirectories`; the fuel bounds the number of directories on the way. -/
def makeDirectoriesFrom (fuel : Nat) (path : String) : Action Unit := do
  match fuel with
  | 0 => throw (.refused .notFound)
  | fuel + 1 =>
    if path = "" then return
    match ← (makeDirectory path).attempt with
    | .ok _ => return
    | .error (.refused .notFound) =>
      match parentPath? path with
      | none => throw (.refused .notFound)
      | some parent =>
        makeDirectoriesFrom fuel parent
        match ← (makeDirectory path).attempt with
        | .ok _ => return
        | .error e => if (← get).isDirectory path then return else throw e
    -- It may stand there already, also by way of a link.
    | .error e => if (← get).isDirectory path then return else throw e

def makeDirectories (path : String) : Action Unit :=
  makeDirectoriesFrom ((Path.components path).length + 1) path

/-- Moves a file to another path, where it replaces a file or a link. -/
def rename (source target : String) : Action Unit := do
  let old ← Action.look (resolve · false source)
  let new ← Action.look (resolve · false target)
  match old.entry, new.entry with
  | none, _ => throw (.refused .notFound)
  | some .directory, none => modify fun disk =>
    let moved := disk.entries.map fun (location, entry) =>
      if old.location.isPrefixOf location then
        (new.location ++ location.drop old.location.length, entry)
      else (location, entry)
    { disk with entries := moved }
  | some .directory, some .directory => throw (.refused .notEmpty)
  | some .directory, some _ => throw (.refused .notDirectory)
  | some _, some .directory => throw (.refused .isDirectory)
  | some entry, _ => modify fun disk => (disk.erase old.location).put new.location entry

def remove (path : String) : Action Unit := do
  let place ← Action.look (resolve · false path)
  match place.entry with
  | none => throw (.refused .notFound)
  | some .directory => throw (.refused .isDirectory)
  | some _ => modify (·.erase place.location)

/-- Puts a text into a file by way of another one, so that the file never holds a part of it. The
other file is removed if it cannot take the place of the first; it stays if it cannot be filled. -/
def replaceText (path passing text : String) : Action Unit := do
  writeText passing text
  match ← (rename passing path).attempt with
  | .ok _ => return
  | .error e => do
    let _ ← (remove passing).attempt
    throw e

end Rephrase.Disk
