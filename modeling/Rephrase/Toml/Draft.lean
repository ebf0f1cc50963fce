import Rephrase.Toml.Basic

/-!
Puts tables together from headers and keys. A table that was only named on the way to another one may
still get a header of its own, one that was made by dotted keys may get more of them, and nothing may
be defined twice.
-/

namespace Rephrase.Toml

/-- A table that may still grow, and what stands in it. -/
inductive Draft where
  | value (v : Toml)
  /-- A table. `closed` says that it has had its header, `dotted` that dotted keys have made it. -/
  | table (closed dotted : Bool) (entries : List (String × Draft))
  /-- Tables that come one by one under the same header. -/
  | rows (tables : List Draft)

namespace Draft

def replaceEntry (key : String) (draft : Draft) (entries : List (String × Draft)) :
    List (String × Draft) :=
  entries.map fun (k, d) => if k = key then (k, draft) else (k, d)

def change (dotted : Bool) (f : Draft → Option Draft) : List String → Draft → Option Draft
  | [], draft => f draft
  | key :: path, .table closed made entries =>
    match entries.lookup key with
    -- Tables on the way that do not exist are made.
    | none =>
      (change dotted f path (.table false dotted [])).map fun inner =>
        .table closed made (entries ++ [(key, inner)])
    | some (.value _) => none
    | some (.table innerClosed innerMade inner) =>
      -- Dotted keys do not lead through a table with a header.
      if dotted && innerClosed then none
      else
        (change dotted f path (.table innerClosed innerMade inner)).map fun inner =>
          .table closed made (replaceEntry key inner entries)
    -- Of tables under one header the last one counts.
    | some (.rows tables) =>
      match tables.getLast? with
      | some last =>
        (change dotted f path last).map fun last =>
          .table closed made (replaceEntry key (.rows (tables.dropLast ++ [last])) entries)
      | none => none
  | _ :: _, _ => none

def openTable (key : String) : Draft → Option Draft
  | .table closed made entries =>
    match entries.lookup key with
    | none => some (.table closed made (entries ++ [(key, .table true false [])]))
    -- A table that was only named on the way to another one may still get its header.
    | some (.table false false inner) =>
      some (.table closed made (replaceEntry key (.table true false inner) entries))
    | some _ => none
  | _ => none

def openRow (key : String) : Draft → Option Draft
  | .table closed made entries =>
    match entries.lookup key with
    | none => some (.table closed made (entries ++ [(key, .rows [.table true false []])]))
    | some (.rows tables) =>
      some (.table closed made (replaceEntry key (.rows (tables ++ [.table true false []])) entries))
    | some _ => none
  | _ => none

def addValue (dotted : Bool) (key : String) (value : Toml) : Draft → Option Draft
  | .table closed made entries =>
    -- Dotted keys only add to tables that dotted keys have made, and other keys only to the others.
    if made == dotted && (entries.lookup key).isNone then
      some (.table closed made (entries ++ [(key, .value value)]))
    else
      none
  | _ => none

def put (path : List String) (key : String) (value : Toml) (draft : Draft) : Option Draft :=
  draft.change true (addValue (!path.isEmpty) key value) path

def empty : Draft := .table true false []

mutual

def finish : Draft → Toml
  | .value v => v
  | .table _ _ entries => .table (finishEntries entries)
  | .rows tables => .array (finishAll tables)

def finishAll : List Draft → List Toml
  | [] => []
  | draft :: rest => draft.finish :: finishAll rest

def finishEntries : List (String × Draft) → List (String × Toml)
  | [] => []
  | (key, draft) :: rest => (key, draft.finish) :: finishEntries rest

end

end Draft

end Rephrase.Toml
