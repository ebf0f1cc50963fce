import Mathlib
import Rephrase.Proofs.Disk.Walk
import Rephrase.Proofs.Json.Decode
import Rephrase.Proofs.Time.Stamp
import Rephrase.Session.Store

/-! A store is a map from keys to entries, and it is read back from its text: under each key stands
what stood there before, in its normal form if it holds no floats. -/

namespace Rephrase.Store

open Json (Number Document)

/-! ## Keys -/

/-- Each key stands there once. -/
def IsMap (store : Store) : Prop := (store.map Prod.fst).Nodup

theorem mem_of_find? {store : Store} {key : String} {entry : Entry}
    (h : store.find? key = some entry) : (key, entry) ∈ store := by
  obtain ⟨front, rest, rfl, -⟩ := List.lookup_eq_some_iff.mp h
  exact List.mem_append_right _ List.mem_cons_self

theorem find?_erase (store : Store) (key other : String) :
    (store.erase key).find? other = if other = key then none else store.find? other := by
  unfold find? erase
  split
  · rename_i hother
    subst hother
    refine Keyed.lookup_eq_none fun hmem => ?_
    obtain ⟨e, he, heq⟩ := List.mem_map.mp hmem
    exact of_decide_eq_true (List.mem_filter.mp he).2 heq
  · rename_i hother
    exact Disk.lookup_filter_ne hother store

theorem find?_insert (store : Store) (key : String) (entry : Entry) (other : String) :
    (store.insert key entry).find? other = if other = key then some entry else store.find? other := by
  have herase := find?_erase store key other
  unfold find? at herase ⊢
  rw [insert, List.lookup_cons]
  by_cases hother : other = key
  · rw [hother, if_pos rfl, beq_self_eq_true]
  · rw [if_neg hother] at herase ⊢
    rw [beq_eq_false_iff_ne.mpr hother]
    exact herase

/-- What is no longer kept is found no more, and nothing else is dropped. -/
theorem find?_purge {store : Store} (h : store.IsMap) (now : Instant) (key : String) :
    (store.purge now).find? key = (store.find? key).filter (Entry.isLive now) := by
  unfold IsMap at h
  unfold find? purge
  induction store with
  | nil => rfl
  | cons e rest ih =>
    obtain ⟨k, entry⟩ := e
    obtain ⟨hfirst, hrest⟩ := List.nodup_cons.mp h
    specialize ih hrest
    by_cases hkey : key = k
    · subst hkey
      rw [Keyed.lookup_eq_none hfirst] at ih
      rw [List.lookup_cons_self, Option.filter_some, List.filter_cons]
      dsimp only
      split
      · exact List.lookup_cons_self
      · exact ih
    · rw [Keyed.lookup_cons_of_ne hkey, List.filter_cons]
      split
      · rw [Keyed.lookup_cons_of_ne hkey, ih]
      · exact ih

theorem isMap_erase {store : Store} (h : store.IsMap) (key : String) : (store.erase key).IsMap :=
  h.sublist (List.filter_sublist.map _)

theorem isMap_purge {store : Store} (h : store.IsMap) (now : Instant) : (store.purge now).IsMap :=
  h.sublist (List.filter_sublist.map _)

theorem isMap_insert {store : Store} (h : store.IsMap) (key : String) (entry : Entry) :
    (store.insert key entry).IsMap := by
  refine List.nodup_cons.mpr ⟨fun hmem => ?_, isMap_erase h key⟩
  obtain ⟨e, he, heq⟩ := List.mem_map.mp hmem
  exact of_decide_eq_true (List.mem_filter.mp he).2 heq

/-- The store that is made of entries one after the other. -/
def ofEntries (entries : List (String × Entry)) : Store :=
  entries.foldl (fun store (key, entry) => store.insert key entry) []

theorem isMap_ofEntries (entries : List (String × Entry)) : (ofEntries entries).IsMap := by
  unfold ofEntries
  induction entries using List.reverseRecOn with
  | nil => exact List.nodup_nil
  | append_singleton entries e ih =>
    rw [List.foldl_concat]
    exact isMap_insert ih _ _

theorem of_mem_ofEntries {entries : List (String × Entry)} {e : String × Entry}
    (h : e ∈ ofEntries entries) : e ∈ entries := by
  unfold ofEntries at h
  induction entries using List.reverseRecOn with
  | nil => exact h
  | append_singleton entries f ih =>
    rw [List.foldl_concat] at h
    obtain rfl | h := List.mem_cons.mp h
    · exact List.mem_append_right _ (List.mem_singleton.mpr rfl)
    · exact List.mem_append_left _ (ih (List.mem_of_mem_filter h))

theorem find?_ofEntries {entries : List (String × Entry)} (h : (entries.map Prod.fst).Nodup)
    (key : String) : (ofEntries entries).find? key = entries.lookup key := by
  unfold ofEntries
  induction entries using List.reverseRecOn with
  | nil => rfl
  | append_singleton entries e ih =>
    obtain ⟨k, entry⟩ := e
    rw [List.map_append, List.nodup_append] at h
    obtain ⟨hentries, -, hapart⟩ := h
    rw [List.foldl_concat, find?_insert, ih hentries, List.lookup_append]
    by_cases hkey : key = k
    · subst hkey
      have hnot : key ∉ entries.map Prod.fst := fun hmem =>
        hapart key hmem key (List.mem_singleton.mpr rfl) rfl
      rw [if_pos rfl, Keyed.lookup_eq_none hnot, Option.none_or, List.lookup_cons_self]
    · rw [if_neg hkey, Keyed.lookup_cons_of_ne hkey, List.lookup_nil, Option.or_none]

/-! ## Entries that can be kept -/

/-- How deep a value in the store may be nested: the store and its entry stand around it. -/
def valueLevels : Nat := Json.Decode.textLevels - 2

/-- An entry that is read back from its text. -/
structure Entry.IsSound (entry : Entry) : Prop where
  numbers : entry.value.allNumbers Number.isReadable = true
  depth : entry.value.depth ≤ valueLevels
  expires : entry.expires.IsPlain

/-- What is set is sound, if it holds no floats and is not nested too deep. -/
theorem Entry.isSound_of_after {now expires : Instant} {span : Int} {value : Json}
    (hnumbers : value.allNumbers Number.isWord = true) (hdepth : value.depth ≤ valueLevels)
    (hnanos : now.nanos < 1000000000) (hexpires : now.after span = .ok expires) :
    Entry.IsSound ⟨value.normalize, expires⟩ where
  numbers := Json.allNumbers_mono Json.isReadable_of_isWord _ (Json.allNumbers_normalize value hnumbers)
  depth := Nat.le_trans (Json.depth_normalize_le value) hdepth
  expires := Instant.isPlain_of_after hexpires hnanos

/-- A store that is read back from its text. -/
structure IsSound (store : Store) : Prop where
  isMap : store.IsMap
  entries : ∀ e ∈ store, e.2.IsSound

namespace IsSound

variable {store : Store} (h : store.IsSound)
include h

theorem erase (key : String) : (store.erase key).IsSound :=
  ⟨isMap_erase h.isMap key, fun e he => h.entries e (List.mem_of_mem_filter he)⟩

theorem purge (now : Instant) : (store.purge now).IsSound :=
  ⟨isMap_purge h.isMap now, fun e he => h.entries e (List.mem_of_mem_filter he)⟩

theorem insert {entry : Entry} (hentry : entry.IsSound) (key : String) :
    (store.insert key entry).IsSound :=
  ⟨isMap_insert h.isMap key entry,
    List.forall_mem_cons.mpr ⟨hentry, fun e he => h.entries e (List.mem_of_mem_filter he)⟩⟩

end IsSound

theorem isSound_nil : IsSound [] := ⟨List.nodup_nil, nofun⟩

/-- What a text gives can be kept again. -/
theorem Entry.isSound_of_decode {inner : Nat} (hinner : inner < Json.Decode.textLevels)
    {document : Document} {entry : Entry} (hread : document.IsRead)
    (h : Entry.decode inner document = some entry) : entry.IsSound := by
  have hrequired : ∀ {α : Type} {decode : Json.Decoder α} {slot : Json.Decode.Slot} {a : α},
      slot.required decode = some a → ∃ inner part, slot = .given inner part ∧
        decode inner part = some a := by
    intro α decode slot a h
    cases slot with
    | given inner part => exact ⟨inner, part, rfl, h⟩
    | absent | beyond => cases h
  simp only [Entry.decode, Option.bind_eq_bind, Option.bind_eq_some_iff, Option.pure_def,
    Option.some.injEq] at h
  obtain ⟨field, hfield, value, hvalue, expires, hexpires, rfl⟩ := h
  obtain ⟨levels, part, hgiven, hvalue⟩ := hrequired hvalue
  obtain ⟨_, stamp, -, hexpires⟩ := hrequired hexpires
  obtain ⟨rfl, hpart⟩ := Json.Decode.of_record_given hfield hread hgiven
  obtain ⟨hdepth, hnumbers⟩ := hpart.of_value? hvalue
  obtain ⟨s, -, hs⟩ := Option.bind_eq_some_iff.mp hexpires
  exact ⟨hnumbers, Nat.le_trans hdepth (Nat.le_sub_of_add_le hinner),
    Instant.isPlain_of_read? hs⟩

theorem isSound_ofText (text : String) : (ofText text).IsSound := by
  cases hdecoded : Json.decodeText? decode text.toList with
  | none =>
    rw [ofText, hdecoded]
    exact isSound_nil
  | some store =>
    rw [ofText, hdecoded, Option.getD_some]
    unfold Json.decodeText? at hdecoded
    split at hdecoded
    · rename_i document hdocument
      obtain ⟨entries, hentries, rfl⟩ := Option.map_eq_some_iff.mp hdecoded
      refine ⟨isMap_ofEntries entries, fun e he => ?_⟩
      obtain ⟨inner, parts, hlevels, rfl, hparts⟩ := Json.Decode.of_mem_members hentries
      obtain ⟨m, hm, hdecode⟩ := hparts e (of_mem_ofEntries he)
      cases Document.isRead_of_ofText? hdocument with
      | object hread =>
        exact Entry.isSound_of_decode (hlevels ▸ Nat.lt_succ_self inner) (hread m hm) hdecode
    · cases hdecoded

theorem isSound_load (disk : Disk) (root : String) : (load disk root).IsSound := by
  unfold load
  split
  · exact isSound_ofText _
  · exact isSound_nil

/-! ## Reading back -/

/-- A store is lost where something is added to its text. -/
theorem ofText_toText_append (store : Store) {c : Char} {rest : List Char}
    (hc : Json.isSpace c = false) (hends : Json.Ends (c :: rest)) :
    ofText (store.toText ++ String.ofList (c :: rest)) = [] := by
  unfold ofText toText Json.decodeText?
  rw [String.toList_append, String.toList_ofList, String.toList_ofList,
    Json.ofText?_compact_append _ hc hends]
  rfl

/-- An entry is read back, with its value's normal form if there are no floats in it. -/
theorem Entry.exists_decode_reread {entry : Entry} {levels : Nat}
    (hnumbers : entry.value.allNumbers Number.isReadable = true) (hdepth : entry.value.depth ≤ levels)
    (hexpires : entry.expires.IsPlain) : ∃ again,
      Entry.decode (levels + 1) entry.toJson.reread = some again ∧
        (entry.value.allNumbers Number.isWord = true →
          again = ⟨entry.value.normalize, entry.expires⟩) := by
  obtain ⟨value, hvalue, hword⟩ := Json.exists_value?_reread entry.value hnumbers hdepth
  refine ⟨⟨value, entry.expires⟩, ?_, fun hall => by rw [hword hall]⟩
  have hstamp : Instant.decode levels entry.expires.toJson.reread = some entry.expires := by
    show (some entry.expires.write).bind (fun s => Instant.read? s.toList) = _
    rw [Option.bind_some, Instant.read?_write hexpires]
  have hrecord := Json.Decode.record_map ["value", "expires_at"] levels
    (show (["value", "expires_at"].zip [entry.value.reread, entry.expires.toJson.reread]).map
      Prod.fst |>.Nodup by simp)
  have hdocument : entry.toJson.reread = .object ((["value", "expires_at"].zip
    [entry.value.reread, entry.expires.toJson.reread]).map fun m => (some m.1, m.2)) := rfl
  rw [Entry.decode, hdocument, hrecord]
  simp [Json.Decode.Slot.required, Json.Decode.any, List.lookup_cons, hstamp, hvalue]

section

variable {store : Store} (h : store.IsSound)
include h

/-- A store is read back entry by entry. -/
theorem exists_ofText_toText : ∃ again : Entry → Entry,
    (∀ key, (ofText store.toText).find? key = (store.find? key).map again) ∧
      ∀ e ∈ store, e.2.value.allNumbers Number.isWord = true →
        again e.2 = ⟨e.2.value.normalize, e.2.expires⟩ := by
  -- The entries that are read are chosen by entry, so that one map does for the whole store.
  have hentry : ∀ entry, (∃ e ∈ store, e.2 = entry) → ∃ again,
      Entry.decode (valueLevels + 1) entry.toJson.reread = some again ∧
        (entry.value.allNumbers Number.isWord = true →
          again = ⟨entry.value.normalize, entry.expires⟩) := by
    rintro _ ⟨e, he, rfl⟩
    obtain ⟨hnumbers, hdepth, hexpires⟩ := h.entries e he
    exact Entry.exists_decode_reread hnumbers hdepth hexpires
  choose! again hdecode hword using hentry
  refine ⟨again, fun key => ?_, fun e he => hword e.2 ⟨e, he, rfl⟩⟩
  have hdocument : Json.reread (.object (store.map fun (key, entry) => (key, entry.toJson))) =
      .object (store.map fun e => (some e.1, e.2.toJson.reread)) := by
    rw [Json.reread, Json.rereadMembers_eq_map, List.map_map]
    rfl
  have hmembers := Json.Decode.members_map (fun entry => entry.toJson.reread) again
    fun e he => hdecode e.2 ⟨e, he, rfl⟩
  have hdecoded : ofText store.toText = ofEntries (store.map fun e => (e.1, again e.2)) := by
    unfold ofText toText Json.decodeText?
    rw [String.toList_ofList, Json.ofText?_compact, hdocument]
    show ((Json.Decode.members Entry.decode (valueLevels + 1 + 1) _).map ofEntries).getD [] = _
    rw [hmembers]
    rfl
  rw [hdecoded, find?_ofEntries]
  · exact Keyed.lookup_map store again key
  · rw [List.map_map]
    exact h.isMap

theorem find?_ofText_toText {key : String} {entry : Entry} (hfind : store.find? key = some entry)
    (hword : entry.value.allNumbers Number.isWord = true) :
    (ofText store.toText).find? key = some ⟨entry.value.normalize, entry.expires⟩ := by
  obtain ⟨again, hagain, hwords⟩ := exists_ofText_toText h
  rw [hagain, hfind, Option.map_some, hwords _ (mem_of_find? hfind) hword]

/-- No key is made up. -/
theorem find?_ofText_toText_none {key : String} (hfind : store.find? key = none) :
    (ofText store.toText).find? key = none := by
  obtain ⟨again, hagain, -⟩ := exists_ofText_toText h
  rw [hagain, hfind, Option.map_none]

end

end Rephrase.Store
