import Rephrase.Config.Toml

/-! All integers of a TOML text have 64 bits, however deep in tables and arrays they stand, and so
have those of settings that are made of it. -/

namespace Rephrase.Toml

/-- Whether an integer is one of 64 bits. -/
def IsWord (n : Int) : Prop := -0x8000000000000000 ≤ n ∧ n < 0x8000000000000000

/-- Whether all integers of a value have 64 bits. -/
inductive HasWords : Toml → Prop
  | string (s : String) : HasWords (.string s)
  | integer {n : Int} (h : IsWord n) : HasWords (.integer n)
  | float (x : Float) : HasWords (.float x)
  | boolean (b : Bool) : HasWords (.boolean b)
  | dateTime (text : String) : HasWords (.dateTime text)
  | array {items : List Toml} (h : ∀ item ∈ items, HasWords item) : HasWords (.array items)
  | table {entries : List (String × Toml)} (h : ∀ entry ∈ entries, HasWords entry.2) :
      HasWords (.table entries)

theorem isWord_of_integer? {cs : List Char} {n : Int} (h : integer? cs = some n) : IsWord n := by
  have hbounded : ∀ m : Int, (if -0x8000000000000000 ≤ m && m < 0x8000000000000000 then some m
      else none) = some n → IsWord n := by
    intro m hm
    split at hm
    · rename_i hrange
      obtain rfl := Option.some.inj hm
      simpa [IsWord] using hrange
    · cases hm
  unfold integer? at h
  dsimp only at h
  split at h
  all_goals
    obtain ⟨digits, -, h⟩ := Option.bind_eq_some_iff.mp h
    exact hbounded _ h

theorem hasWords_of_scalar? {cs : List Char} {value : Toml} (h : scalar? cs = some value) :
    value.HasWords := by
  unfold scalar? at h
  split at h
  · cases h
    exact .boolean true
  split at h
  · cases h
    exact .boolean false
  split at h
  · cases h
    exact .dateTime _
  split at h
  · rename_i n hn
    cases h
    exact .integer (isWord_of_integer? hn)
  · obtain ⟨x, -, rfl⟩ := Option.map_eq_some_iff.mp h
    exact .float x

/-! ## Tables in the making -/

namespace Draft

/-- Whether all integers in a table in the making have 64 bits. -/
inductive HasWords : Draft → Prop
  | value {v : Toml} (h : v.HasWords) : HasWords (.value v)
  | table {closed dotted : Bool} {entries : List (String × Draft)}
      (h : ∀ entry ∈ entries, HasWords entry.2) : HasWords (.table closed dotted entries)
  | rows {tables : List Draft} (h : ∀ table ∈ tables, HasWords table) : HasWords (.rows tables)

theorem hasWords_newTable (closed dotted : Bool) : (table closed dotted []).HasWords :=
  .table (List.forall_mem_nil _)

/-- What becomes of drafts whose integers have 64 bits is such a draft again. -/
def KeepsWords (f : Draft → Option Draft) : Prop :=
  ∀ draft draft', draft.HasWords → f draft = some draft' → draft'.HasWords

section

variable {key : String} {entries : List (String × Draft)}
  (h : ∀ entry ∈ entries, entry.2.HasWords)
include h

theorem hasWords_of_lookup {draft : Draft} (hlookup : entries.lookup key = some draft) :
    draft.HasWords := by
  induction entries with
  | nil => cases hlookup
  | cons entry rest ih =>
    obtain ⟨hentry, hrest⟩ := List.forall_mem_cons.mp h
    rw [List.lookup_cons] at hlookup
    split at hlookup
    · exact Option.some.inj hlookup ▸ hentry
    · exact ih hrest hlookup

theorem HasWords.add {draft : Draft} (hdraft : draft.HasWords) (closed dotted : Bool) :
    (Draft.table closed dotted (entries ++ [(key, draft)])).HasWords :=
  .table (List.forall_mem_append.mpr ⟨h, List.forall_mem_singleton.mpr hdraft⟩)

theorem HasWords.replaceEntry {draft : Draft} (hdraft : draft.HasWords) (closed dotted : Bool) :
    (Draft.table closed dotted (replaceEntry key draft entries)).HasWords := by
  refine .table (List.forall_mem_map.mpr ?_)
  rintro ⟨name, old⟩ hentry
  dsimp only
  split
  · exact hdraft
  · exact h _ hentry

end

theorem keepsWords_change (dotted : Bool) {f : Draft → Option Draft} (hf : KeepsWords f)
    (path : List String) : KeepsWords (change dotted f path) := by
  induction path with
  | nil =>
    intro draft draft' hdraft hchange
    rw [change] at hchange
    exact hf draft draft' hdraft hchange
  | cons key path ih =>
    intro draft draft' hdraft hchange
    cases hdraft with
    | value _ => simp [change] at hchange
    | rows _ => simp [change] at hchange
    | @table closed made entries hentries =>
      rw [change] at hchange
      -- The key is new, leads to one draft, or to an array of tables, whose last one changes.
      split at hchange
      · obtain ⟨inner, hinner, rfl⟩ := Option.map_eq_some_iff.mp hchange
        exact .add hentries (ih _ _ (hasWords_newTable _ _) hinner) closed made
      · cases hchange
      · rename_i hlookup
        split at hchange
        · cases hchange
        · obtain ⟨inner, hinner, rfl⟩ := Option.map_eq_some_iff.mp hchange
          exact .replaceEntry hentries (ih _ _ (hasWords_of_lookup hentries hlookup) hinner) closed
            made
      · rename_i tables hlookup
        split at hchange
        · rename_i last hlast
          obtain ⟨inner, hinner, rfl⟩ := Option.map_eq_some_iff.mp hchange
          obtain _ | _ | hrows := hasWords_of_lookup hentries hlookup
          have hinner := ih _ _ (hrows last (List.mem_of_getLast? hlast)) hinner
          refine .replaceEntry hentries (.rows (List.forall_mem_append.mpr ⟨fun table htable => ?_,
            List.forall_mem_singleton.mpr hinner⟩)) closed made
          exact hrows table (List.dropLast_subset tables htable)
        · cases hchange

theorem keepsWords_addValue (dotted : Bool) (key : String) {value : Toml} (hvalue : value.HasWords) :
    KeepsWords (addValue dotted key value) := by
  intro draft draft' hdraft hadd
  unfold addValue at hadd
  split at hadd
  · split at hadd
    · cases hadd
      obtain _ | hentries := hdraft
      exact .add hentries (.value hvalue) _ _
    · cases hadd
  · cases hadd

theorem keepsWords_openTable (key : String) : KeepsWords (openTable key) := by
  intro draft draft' hdraft hopen
  unfold openTable at hopen
  split at hopen
  · rename_i closed made entries
    obtain _ | hentries := hdraft
    split at hopen
    · cases hopen
      exact .add hentries (hasWords_newTable _ _) closed made
    · rename_i inner hlookup
      cases hopen
      obtain _ | hinner := hasWords_of_lookup hentries hlookup
      exact .replaceEntry hentries (.table hinner) closed made
    · cases hopen
  · cases hopen

theorem keepsWords_openRow (key : String) : KeepsWords (openRow key) := by
  intro draft draft' hdraft hopen
  unfold openRow at hopen
  split at hopen
  · rename_i closed made entries
    obtain _ | hentries := hdraft
    have hrow := hasWords_newTable true false
    split at hopen
    · cases hopen
      exact .add hentries (.rows (List.forall_mem_singleton.mpr hrow)) closed made
    · rename_i tables hlookup
      cases hopen
      obtain _ | _ | hrows := hasWords_of_lookup hentries hlookup
      exact .replaceEntry hentries
        (.rows (List.forall_mem_append.mpr ⟨hrows, List.forall_mem_singleton.mpr hrow⟩)) closed made
    · cases hopen
  · cases hopen

theorem HasWords.put {path : List String} {key : String} {value : Toml} {draft draft' : Draft}
    (hdraft : draft.HasWords) (hvalue : value.HasWords)
    (h : draft.put path key value = some draft') : draft'.HasWords :=
  keepsWords_change true (keepsWords_addValue _ key hvalue) path draft draft' hdraft h

mutual

theorem HasWords.finish : {draft : Draft} → draft.HasWords → draft.finish.HasWords
  | .value _, .value h => h
  | .table _ _ _, .table h => by
    rw [Draft.finish]
    exact .table (hasWords_finishEntries h)
  | .rows _, .rows h => by
    rw [Draft.finish]
    exact .array (hasWords_finishAll h)

theorem hasWords_finishAll : {drafts : List Draft} → (∀ draft ∈ drafts, draft.HasWords) →
    ∀ value ∈ finishAll drafts, value.HasWords
  | [], _ => by simp [finishAll]
  | draft :: rest, h => by
    obtain ⟨hdraft, hrest⟩ := List.forall_mem_cons.mp h
    rw [finishAll]
    exact List.forall_mem_cons.mpr ⟨hdraft.finish, hasWords_finishAll hrest⟩

theorem hasWords_finishEntries : {entries : List (String × Draft)} →
    (∀ entry ∈ entries, entry.2.HasWords) →
    ∀ entry ∈ finishEntries entries, entry.2.HasWords
  | [], _ => by simp [finishEntries]
  | (key, draft) :: rest, h => by
    obtain ⟨hdraft, hrest⟩ := List.forall_mem_cons.mp h
    rw [finishEntries]
    exact List.forall_mem_cons.mpr ⟨HasWords.finish hdraft, hasWords_finishEntries hrest⟩

end

end Draft

/-! ## Reading -/

theorem hasWords_of_readScalar {cs rest : List Char} {value : Toml}
    (h : readScalar cs = some (value, rest)) : value.HasWords := by
  have hmap : ∀ token behind, (scalar? token).map (fun value => (value, behind)) =
      some (value, rest) → value.HasWords := by
    intro token behind hvalue
    obtain ⟨_, hscalar, hvalue⟩ := Option.map_eq_some_iff.mp hvalue
    cases hvalue
    exact hasWords_of_scalar? hscalar
  unfold readScalar at h
  dsimp only at h
  split at h
  all_goals
    split at h
    all_goals exact hmap _ _ h

/-- What is read with so much fuel has integers of 64 bits alone: a value, the items of an array
behind some others, and the pairs of a table behind some others. -/
structure ReadsWords (fuel : Nat) : Prop where
  value : ∀ {depth cs value rest}, readValue depth fuel cs = some (value, rest) → value.HasWords
  items : ∀ {depth done cs value rest}, (∀ item ∈ done, item.HasWords) →
    readItems depth fuel done cs = some (value, rest) → value.HasWords
  pairs : ∀ {depth draft cs value rest}, draft.HasWords →
    readPairs depth fuel draft cs = some (value, rest) → value.HasWords

namespace ReadsWords

variable {fuel depth : Nat} (ih : ReadsWords fuel) {cs rest : List Char} {value : Toml}
include ih

theorem value_succ (h : readValue depth (fuel + 1) cs = some (value, rest)) : value.HasWords := by
  unfold readValue at h
  dsimp only at h
  split at h
  · split at h
    · cases h
    split at h
    · cases h
      exact .array (List.forall_mem_nil _)
    · exact ih.items (List.forall_mem_nil _) h
  · split at h
    · cases h
    split at h
    · cases h
      exact .table (List.forall_mem_nil _)
    · exact ih.pairs (Draft.hasWords_newTable _ _) h
  · split at h
    · obtain ⟨_, -, h⟩ := Option.map_eq_some_iff.mp h
      cases h
      exact .string _
    · exact hasWords_of_readScalar h
  · cases h

theorem items_succ {done : List Toml} (hdone : ∀ item ∈ done, item.HasWords)
    (h : readItems depth (fuel + 1) done cs = some (value, rest)) : value.HasWords := by
  rw [readItems] at h
  split at h
  · cases h
  rename_i item rest hitem
  have hall : ∀ value ∈ item :: done, value.HasWords :=
    List.forall_mem_cons.mpr ⟨ih.value hitem, hdone⟩
  have harray : (Toml.array (item :: done).reverse).HasWords :=
    .array fun value hvalue => hall value (List.mem_reverse.mp hvalue)
  split at h
  · cases h
    exact harray
  · split at h
    · cases h
      exact harray
    · exact ih.items hall h
  · cases h

theorem pairs_succ {draft : Draft} (hdraft : draft.HasWords)
    (h : readPairs depth (fuel + 1) draft cs = some (value, rest)) : value.HasWords := by
  rw [readPairs] at h
  split at h
  · split at h
    · cases h
    rename_i value rest hvalue
    split at h
    · cases h
    rename_i draft' hput
    have hdraft' := hdraft.put (ih.value hvalue) hput
    split at h
    · exact ih.pairs hdraft' h
    · cases h
      exact hdraft'.finish
    · cases h
  · cases h

end ReadsWords

theorem readsWords (fuel : Nat) : ReadsWords fuel := by
  induction fuel with
  | zero => exact ⟨by simp [readValue], by simp [readItems], by simp [readPairs]⟩
  | succ fuel ih => exact ⟨ih.value_succ, ih.items_succ, ih.pairs_succ⟩

theorem hasWords_of_readLine {progress progress' : Progress} {cs rest : List Char}
    (hroot : progress.root.HasWords) (h : readLine progress cs = some (progress', rest)) :
    progress'.root.HasWords := by
  unfold readLine at h
  -- A line opens a row of an array, opens a table, or gives a key its value.
  split at h
  · obtain ⟨⟨⟨path, key⟩, behind⟩, -, h⟩ := Option.bind_eq_some_iff.mp h
    dsimp only at h
    split at h
    · obtain ⟨root, hopen, h⟩ := Option.bind_eq_some_iff.mp h
      obtain ⟨_, -, h⟩ := Option.bind_eq_some_iff.mp h
      cases h
      exact Draft.keepsWords_change false (Draft.keepsWords_openRow key) path _ _ hroot hopen
    · cases h
  · obtain ⟨⟨⟨path, key⟩, behind⟩, -, h⟩ := Option.bind_eq_some_iff.mp h
    dsimp only at h
    split at h
    · obtain ⟨root, hopen, h⟩ := Option.bind_eq_some_iff.mp h
      obtain ⟨_, -, h⟩ := Option.bind_eq_some_iff.mp h
      cases h
      exact Draft.keepsWords_change false (Draft.keepsWords_openTable key) path _ _ hroot hopen
    · cases h
  · obtain ⟨⟨⟨path, key⟩, behind⟩, -, h⟩ := Option.bind_eq_some_iff.mp h
    dsimp only at h
    split at h
    · obtain ⟨⟨value, behind'⟩, hvalue, h⟩ := Option.bind_eq_some_iff.mp h
      obtain ⟨root, hput, h⟩ := Option.bind_eq_some_iff.mp h
      obtain ⟨_, -, h⟩ := Option.bind_eq_some_iff.mp h
      cases h
      have hput' : Draft.KeepsWords (Draft.put path key value) := fun _ _ hdraft =>
        hdraft.put ((readsWords _).value hvalue)
      exact Draft.keepsWords_change false hput' progress.header _ _ hroot hput
    · cases h

theorem hasWords_of_readLines {fuel : Nat} {progress : Progress} {cs : List Char} {value : Toml}
    (hroot : progress.root.HasWords) (h : readLines fuel progress cs = some value) :
    value.HasWords := by
  induction fuel generalizing progress cs with
  | zero => cases h
  | succ fuel ih =>
    rw [readLines] at h
    split at h
    · cases h
      exact hroot.finish
    · split at h
      · exact ih hroot h
      · split at h
        · rename_i hline
          exact ih (hasWords_of_readLine hroot hline) h
        · cases h

theorem hasWords_of_ofText? {cs : List Char} {value : Toml} (h : ofText? cs = some value) :
    value.HasWords :=
  hasWords_of_readLines (Draft.hasWords_newTable true false) h

/-! ## Settings -/

theorem exists_of_mem_entriesToDocuments {entries : List (String × Toml)} {key : Option String}
    {document : Json.Document} (h : (key, document) ∈ entriesToDocuments entries) :
    ∃ entry ∈ entries, document = entry.2.toDocument := by
  induction entries with
  | nil => simp [entriesToDocuments] at h
  | cons entry rest ih =>
    rw [entriesToDocuments] at h
    obtain h | h := List.mem_cons.mp h
    · cases h
      exact ⟨entry, List.mem_cons_self, rfl⟩
    · obtain ⟨other, hother, hdocument⟩ := ih h
      exact ⟨other, List.mem_cons_of_mem entry hother, hdocument⟩

/-- A count that is read from a value is an integer of it. -/
theorem lt_of_nat_toDocument {value : Toml} {levels n : Nat} (hvalue : value.HasWords)
    (h : Json.Decode.nat levels value.toDocument = some n) : n < 0x8000000000000000 := by
  cases hvalue with
  | @integer m hword =>
    unfold Json.Decode.nat toDocument Json.Decode.natBelow at h
    split at h
    · rename_i k heq
      obtain rfl : m = .ofNat k := by simpa using heq
      split at h
      · obtain rfl := Option.some.inj h
        exact Int.ofNat_lt.mp hword.2
      · cases h
    · cases h
  | _ => cases h

theorem hasWords_trimOracle {entries : List (String × Toml)}
    (h : ∀ entry ∈ entries, entry.2.HasWords) :
    ∀ entry ∈ Config.trimOracle entries, entry.2.HasWords := by
  refine List.forall_mem_map.mpr ?_
  rintro ⟨key, value⟩ hentry
  have hvalue := h _ hentry
  dsimp only
  split
  · obtain _ | _ | _ | _ | _ | hitems := hvalue
    split
    · exact .array fun item hitem => hitems item (List.mem_of_mem_take hitem)
    · exact .array hitems
  · exact hvalue

end Rephrase.Toml

namespace Rephrase.Config

open Json.Decode

/-- What is known of a field of an object is one of its members. -/
theorem mem_of_record_object {names : List String} {levels inner : Nat}
    {members : List (Option String × Json.Document)} {field : String → Slot} {name : String}
    {document : Json.Document} (h : record names levels (.object members) = some field)
    (hfield : field name = .given inner document) : ∃ key, (key, document) ∈ members := by
  cases levels with
  | zero => cases h
  | succ levels =>
    unfold record at h
    dsimp only at h
    split at h
    · cases h
      dsimp only at hfield
      split at hfield
      · rename_i other rest hvalues
        cases hfield
        have hmem : document ∈ valuesAt name members := hvalues ▸ List.mem_cons_self
        obtain ⟨⟨key, other⟩, hmem, hkey⟩ := List.mem_filterMap.mp hmem
        dsimp only at hkey
        split at hkey
        · exact ⟨key, Option.some.inj hkey ▸ hmem⟩
        · cases hkey
      · cases hfield
    · cases h

theorem contextLines_of_decode {levels : Nat} {document : Json.Document} {config : Config}
    (h : decode levels document = some config) : ∃ field, record fieldNames levels document =
      some field ∧ (field "context_lines").withDefault nat 3 = some config.contextLines := by
  obtain ⟨field, hfield, h⟩ := Option.bind_eq_some_iff.mp h
  obtain ⟨_, -, h⟩ := Option.bind_eq_some_iff.mp h
  obtain ⟨_, -, h⟩ := Option.bind_eq_some_iff.mp h
  obtain ⟨_, -, h⟩ := Option.bind_eq_some_iff.mp h
  obtain ⟨_, -, h⟩ := Option.bind_eq_some_iff.mp h
  obtain ⟨_, hlines, h⟩ := Option.bind_eq_some_iff.mp h
  obtain ⟨_, -, h⟩ := Option.bind_eq_some_iff.mp h
  obtain ⟨_, -, h⟩ := Option.bind_eq_some_iff.mp h
  obtain ⟨_, -, h⟩ := Option.bind_eq_some_iff.mp h
  obtain ⟨_, -, h⟩ := Option.bind_eq_some_iff.mp h
  obtain ⟨_, -, h⟩ := Option.bind_eq_some_iff.mp h
  obtain ⟨_, -, h⟩ := Option.bind_eq_some_iff.mp h
  obtain ⟨_, -, h⟩ := Option.bind_eq_some_iff.mp h
  obtain ⟨_, -, h⟩ := Option.bind_eq_some_iff.mp h
  obtain ⟨_, -, h⟩ := Option.bind_eq_some_iff.mp h
  cases h
  exact ⟨field, hfield, hlines⟩

/-- Settings in TOML have no count of lines that is close to the limit of a machine word. -/
theorem contextLines_lt_of_ofToml? {cs : List Char} {config : Config}
    (h : ofToml? cs = some config) : config.contextLines < 0x8000000000000000 := by
  unfold ofToml? at h
  split at h
  · rename_i entries htext
    have htable := Toml.hasWords_of_ofText? htext
    obtain _ | _ | _ | _ | _ | _ | hentries := htable
    obtain ⟨raw, hraw, rfl⟩ := Option.map_eq_some_iff.mp h
    obtain ⟨field, hfield, hlines⟩ := contextLines_of_decode hraw
    show raw.contextLines < 0x8000000000000000
    rw [Toml.toDocument] at hfield
    cases hslot : field "context_lines" with
    | given inner document =>
      rw [hslot] at hlines
      obtain ⟨key, hmem⟩ := mem_of_record_object hfield hslot
      obtain ⟨entry, hentry, rfl⟩ := Toml.exists_of_mem_entriesToDocuments hmem
      exact Toml.lt_of_nat_toDocument (Toml.hasWords_trimOracle hentries entry hentry) hlines
    | absent | beyond =>
      rw [hslot] at hlines
      have hdefault : 3 = raw.contextLines := Option.some.inj hlines
      omega
  · cases h

end Rephrase.Config
