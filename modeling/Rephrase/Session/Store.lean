import Rephrase.Json.Printer
import Rephrase.Session.Directory
import Rephrase.Time.Stamp

/-!
The store of a project: values by key, each of which is kept for a while. It is one JSON text, which
is replaced as a whole; a text that cannot be read counts as an empty store.
-/

namespace Rephrase

structure Store.Entry where
  value : Json
  expires : Instant

abbrev Store := List (String × Store.Entry)

namespace Store

open Disk (Action)
open Json.Decode

def Entry.isLive (now : Instant) (entry : Entry) : Bool :=
  now.before entry.expires

def find? (store : Store) (key : String) : Option Entry :=
  List.lookup key store

def erase (store : Store) (key : String) : Store :=
  store.filter fun e => e.1 ≠ key

def insert (store : Store) (key : String) (entry : Entry) : Store :=
  (key, entry) :: store.erase key

def purge (store : Store) (now : Instant) : Store :=
  store.filter fun e => e.2.isLive now

def Entry.toJson (entry : Entry) : Json :=
  .object [("value", entry.value), ("expires_at", entry.expires.toJson)]

def Entry.decode : Json.Decoder Entry := fun levels document => do
  let field ← record ["value", "expires_at"] levels document
  return {
    value := ← (field "value").required any
    expires := ← (field "expires_at").required Instant.decode }

def toText (store : Store) : String :=
  String.ofList (Json.compact (.object (store.map fun (key, entry) => (key, entry.toJson))))

def decode : Json.Decoder Store := fun levels document =>
  (members Entry.decode levels document).map fun entries =>
    -- Of entries under the same key the last one counts.
    entries.foldl (fun store (key, entry) => store.insert key entry) []

def ofText (text : String) : Store :=
  (Json.decodeText? decode text.toList).getD []

/-! ## On disk -/

def path (root : String) : String := Session.inside root "store.json"

def passing (root : String) : String := Session.inside root "store.tmp"

def load (disk : Disk) (root : String) : Store :=
  match disk.textAt (path root) with
  | .ok text => ofText text
  | .error _ => []

def save (root : String) (store : Store) : Action Unit :=
  Disk.replaceText (path root) (passing root) store.toText

def set (root : String) (now : Instant) (key : String) (value : Json) (span : Int) :
    Action Unit := do
  Session.lockToWrite root
  -- What is no longer kept is dropped on this occasion.
  let store := (load (← get) root).purge now
  let expires ← Action.compute (now.after span)
  save root (store.insert key ⟨value.normalize, expires⟩)

/-- The value under a key, if it is still kept and has the wanted shape. -/
def get {α : Type} (root : String) (now : Instant) (key : String) (decode : Json.Decoder α) :
    Action (Option α) := do
  match ← (Session.lockToRead root).attempt with
  | .error _ => return none
  | .ok _ =>
    let entry := (load (← MonadState.get) root).find? key
    return (entry.filter (Entry.isLive now)).bind fun entry => Json.decode? decode entry.value

/-- Removes a key; whether its value was still kept. -/
def remove (root : String) (now : Instant) (key : String) : Action Bool := do
  if !(← MonadState.get).holds (Session.directory root) then return false
  Session.lockToWrite root
  let store := load (← MonadState.get) root
  save root (store.erase key)
  return ((store.find? key).filter (Entry.isLive now)).isSome

end Store

end Rephrase
