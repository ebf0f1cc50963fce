import Mathlib
import Rephrase.Session.Snapshot

/-! Lists whose keys ascend: putting entries in keeps them so, and a list that is so already comes out
as it is. The members of JSON objects and the files of snapshots are such lists. -/

namespace Rephrase.Keyed

variable {α : Type}

/-- Puts an entry into a list with ascending keys. -/
def put (key : String) (a : α) : List (String × α) → List (String × α)
  | [] => [(key, a)]
  | (k, b) :: rest =>
    if key < k then (key, a) :: (k, b) :: rest
    else if key = k then (key, a) :: rest
    else (k, b) :: put key a rest

def ofList (entries : List (String × α)) : List (String × α) :=
  entries.foldl (fun done e => put e.1 e.2 done) []

def Ascending (entries : List (String × α)) : Prop := entries.Pairwise fun e f => e.1 < f.1

theorem insertMember_eq_put (key : String) (value : Json) (members : List (String × Json)) :
    Json.insertMember key value members = put key value members := by
  induction members with
  | nil => rfl
  | cons member rest ih => rw [Json.insertMember, put, ih]

theorem ofMembers_eq (members : List (String × Json)) :
    Json.ofMembers members = .object (ofList members) := by
  simp only [Json.ofMembers, ofList, insertMember_eq_put]

theorem insert_eq_put (path : String) (file : KeptFile) (snapshot : Snapshot) :
    Snapshot.insert path file snapshot = put path file snapshot := by
  induction snapshot with
  | nil => rfl
  | cons e rest ih => rw [Snapshot.insert, put, ih]

theorem ofFiles_eq (files : List (String × KeptFile)) : Snapshot.ofFiles files = ofList files := by
  simp only [Snapshot.ofFiles, ofList, insert_eq_put]

/-! ## Entries -/

theorem of_mem_put {key : String} {a : α} {entries : List (String × α)} {e : String × α}
    (h : e ∈ put key a entries) : e = (key, a) ∨ e ∈ entries := by
  induction entries with
  | nil => exact .inl (List.mem_singleton.mp h)
  | cons f rest ih =>
    rw [put] at h
    split at h
    · exact List.mem_cons.mp h
    split at h
    · exact (List.mem_cons.mp h).imp_right (List.mem_cons_of_mem _)
    · obtain rfl | h := List.mem_cons.mp h
      · exact .inr List.mem_cons_self
      · exact (ih h).imp_right (List.mem_cons_of_mem _)

theorem mem_put_self (key : String) (a : α) (entries : List (String × α)) :
    (key, a) ∈ put key a entries := by
  induction entries with
  | nil => exact List.mem_singleton.mpr rfl
  | cons f rest ih =>
    rw [put]
    split
    · exact List.mem_cons_self
    split
    · exact List.mem_cons_self
    · exact List.mem_cons_of_mem _ ih

theorem mem_put_of_ne {key : String} {a : α} {entries : List (String × α)} {e : String × α}
    (h : e ∈ entries) (hne : e.1 ≠ key) : e ∈ put key a entries := by
  induction entries with
  | nil => nomatch h
  | cons f rest ih =>
    rw [put]
    split
    · exact List.mem_cons_of_mem _ h
    split
    · rename_i heq
      obtain rfl | h := List.mem_cons.mp h
      · exact absurd heq.symm hne
      · exact List.mem_cons_of_mem _ h
    · obtain rfl | h := List.mem_cons.mp h
      · exact List.mem_cons_self
      · exact List.mem_cons_of_mem _ (ih h)

theorem ofList_append (entries : List (String × α)) (e : String × α) :
    ofList (entries ++ [e]) = put e.1 e.2 (ofList entries) := List.foldl_append

theorem of_mem_ofList {entries : List (String × α)} {e : String × α} (h : e ∈ ofList entries) :
    e ∈ entries := by
  induction entries using List.reverseRecOn with
  | nil => exact h
  | append_singleton entries f ih =>
    rw [ofList_append] at h
    obtain rfl | h := of_mem_put h
    · exact List.mem_append_right _ (List.mem_singleton.mpr rfl)
    · exact List.mem_append_left _ (ih h)

/-- No key is lost. -/
theorem exists_mem_ofList {entries : List (String × α)} {key : String} {a : α}
    (h : (key, a) ∈ entries) : ∃ b, (key, b) ∈ ofList entries := by
  induction entries using List.reverseRecOn with
  | nil => nomatch h
  | append_singleton entries f ih =>
    rw [ofList_append]
    by_cases hkey : key = f.1
    · exact ⟨f.2, hkey ▸ mem_put_self _ _ _⟩
    · obtain h | h := List.mem_append.mp h
      · obtain ⟨b, hb⟩ := ih h
        exact ⟨b, mem_put_of_ne hb hkey⟩
      · rw [← List.mem_singleton.mp h] at hkey
        exact absurd rfl hkey

/-! ## Order -/

theorem ascending_put {key : String} {a : α} {entries : List (String × α)}
    (h : Ascending entries) : Ascending (put key a entries) := by
  induction entries with
  | nil => exact List.pairwise_singleton _ _
  | cons f rest ih =>
    obtain ⟨hfirst, hrest⟩ := List.pairwise_cons.mp h
    rw [put]
    split
    · rename_i hlt
      refine List.pairwise_cons.mpr ⟨List.forall_mem_cons.mpr ⟨hlt, fun e he => ?_⟩, h⟩
      exact lt_trans hlt (hfirst e he)
    split
    · rename_i heq
      subst heq
      exact List.pairwise_cons.mpr ⟨hfirst, hrest⟩
    · rename_i hnot hne
      refine List.pairwise_cons.mpr ⟨fun e he => ?_, ih hrest⟩
      obtain rfl | he := of_mem_put he
      · exact lt_of_le_of_ne (not_lt.mp hnot) (Ne.symm hne)
      · exact hfirst e he

theorem ascending_ofList (entries : List (String × α)) : Ascending (ofList entries) := by
  induction entries using List.reverseRecOn with
  | nil => exact List.Pairwise.nil
  | append_singleton entries f ih =>
    rw [ofList_append]
    exact ascending_put ih

theorem put_last {key : String} {a : α} {entries : List (String × α)}
    (h : ∀ e ∈ entries, e.1 < key) : put key a entries = entries ++ [(key, a)] := by
  induction entries with
  | nil => rfl
  | cons f rest ih =>
    obtain ⟨hfirst, hrest⟩ := List.forall_mem_cons.mp h
    rw [put, if_neg (not_lt.mpr hfirst.le), if_neg hfirst.ne', ih hrest, List.cons_append]

theorem ofList_of_ascending {entries : List (String × α)} (h : Ascending entries) :
    ofList entries = entries := by
  induction entries using List.reverseRecOn with
  | nil => rfl
  | append_singleton entries f ih =>
    obtain ⟨hentries, -, hlast⟩ := List.pairwise_append.mp h
    rw [ofList_append, ih hentries, put_last fun e he => hlast e he f (List.mem_singleton.mpr rfl)]

/-! ## Looking up -/

theorem lookup_cons_of_ne {key k : String} (h : key ≠ k) (a : α) (rest : List (String × α)) :
    List.lookup key ((k, a) :: rest) = rest.lookup key := by
  rw [List.lookup_cons, beq_eq_false_iff_ne.mpr h]

theorem lookup_eq_none {entries : List (String × α)} {key : String}
    (h : key ∉ entries.map Prod.fst) : entries.lookup key = none := by
  rw [List.lookup_eq_none_iff]
  intro e he
  rw [bne_iff_ne]
  rintro rfl
  exact h (List.mem_map_of_mem he)

theorem lookup_map {β : Type} (entries : List (String × α)) (f : α → β) (key : String) :
    (entries.map fun e => (e.1, f e.2)).lookup key = (entries.lookup key).map f := by
  induction entries with
  | nil => rfl
  | cons e rest ih =>
    obtain ⟨k, a⟩ := e
    rw [List.map_cons]
    by_cases hkey : key = k
    · subst hkey
      rw [List.lookup_cons_self, List.lookup_cons_self, Option.map_some]
    · rw [lookup_cons_of_ne hkey, lookup_cons_of_ne hkey, ih]

/-- What stands under a key is found. -/
theorem lookup_of_mem {entries : List (String × α)} (h : Ascending entries) {key : String} {a : α}
    (hmem : (key, a) ∈ entries) : entries.lookup key = some a := by
  induction entries with
  | nil => nomatch hmem
  | cons f rest ih =>
    obtain ⟨hfirst, hrest⟩ := List.pairwise_cons.mp h
    obtain ⟨k, b⟩ := f
    obtain heq | hmem := List.mem_cons.mp hmem
    · cases heq
      exact List.lookup_cons_self
    · rw [lookup_cons_of_ne (hfirst _ hmem).ne']
      exact ih hrest hmem

end Rephrase.Keyed
