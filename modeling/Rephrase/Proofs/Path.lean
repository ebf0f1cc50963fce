import Mathlib.Data.List.Basic
import Rephrase.Disk.Discovery

/-! A name that is joined to a path is its last component, so a path below a directory tells the
names on the way. What is left of a path below a directory tells the path: its text has the
components that follow those of the directory. -/

namespace Rephrase.Path

/-- A name that a file or directory can have. -/
structure IsName (name : String) : Prop where
  ne_empty : name ≠ ""
  ne_here : name ≠ "."
  ne_parent : name ≠ ".."
  slash : '/' ∉ name.toList

theorem isName_iff {name : String} :
    IsName name ↔ name ≠ "" ∧ name ≠ "." ∧ name ≠ ".." ∧ '/' ∉ name.toList :=
  ⟨fun h => ⟨h.ne_empty, h.ne_here, h.ne_parent, h.slash⟩, fun ⟨h₁, h₂, h₃, h₄⟩ => ⟨h₁, h₂, h₃, h₄⟩⟩

instance (name : String) : Decidable (IsName name) := decidable_of_iff' _ isName_iff

theorem IsName.not_empty {name : String} (h : IsName name) :
    ¬(name = "" || name = ".") = true := by
  simp [h.ne_empty, h.ne_here]

theorem IsName.not_isAbsolute {name : String} (h : IsName name) : isAbsolute name = false := by
  rw [isAbsolute, beq_eq_false_iff_ne]
  intro hhead
  exact h.slash (List.mem_of_mem_head? hhead)

/-! ## Segments -/

theorem segments_append (front back : List Char) :
    segments (front ++ '/' :: back) = segments front ++ segments back :=
  List.splitOnP_append_cons front back (by simp)

theorem segments_of_not_mem {cs : List Char} (h : '/' ∉ cs) : segments cs = [cs] := by
  refine List.splitOnP_eq_singleton fun c hc => ?_
  rw [beq_eq_false_iff_ne]
  rintro rfl
  exact h hc

theorem segments_ne_nil (cs : List Char) : segments cs ≠ [] := List.splitOnP_ne_nil _ _

theorem segments_ne_singleton {cs : List Char} (h : cs ≠ []) : segments cs ≠ [[]] := by
  obtain ⟨c, rest, rfl⟩ := List.exists_cons_of_ne_nil h
  unfold segments
  rw [List.splitOnP_cons_eq_if_modifyHead]
  split
  · intro heq
    exact List.splitOnP_ne_nil _ _ (List.cons.inj heq).2
  · cases hparts : rest.splitOnP (· == '/') with
    | nil => exact absurd hparts (List.splitOnP_ne_nil _ _)
    | cons first more =>
      rw [List.modifyHead_cons]
      intro heq
      nomatch (List.cons.inj heq).1

/-! ## Joins -/

section

variable {directory name : String} (hdirectory : directory ≠ "") (hname : IsName name)
include hdirectory hname

/-- A name is joined behind the slash that ends a directory's path, or else behind a new one. -/
theorem toList_join : ∃ front, (join directory name).toList = front ++ '/' :: name.toList ∧
    (directory.toList = front ++ ['/'] ∨ directory.toList = front) := by
  unfold join
  rw [hname.not_isAbsolute, if_neg Bool.false_ne_true]
  split
  · rename_i hslash
    simp only [hdirectory, Bool.or_eq_true, decide_eq_true_eq, false_or] at hslash
    obtain ⟨front, hfront⟩ := List.getLast?_eq_some_iff.mp hslash
    exact ⟨front, by simp [hfront], .inl hfront⟩
  · exact ⟨directory.toList, by simp, .inr rfl⟩

theorem segments_join : ∃ parts, parts ≠ [] ∧
    segments (join directory name).toList = parts ++ [name.toList] ∧
    (segments directory.toList = parts ++ [[]] ∨
      segments directory.toList = parts ∧ parts ≠ [[]]) := by
  obtain ⟨front, hjoin, hfront⟩ := toList_join hdirectory hname
  refine ⟨segments front, segments_ne_nil front, ?_, ?_⟩
  · rw [hjoin, segments_append, segments_of_not_mem hname.slash]
  · obtain hfront | hfront := hfront
    · rw [hfront, segments_append]
      exact .inl rfl
    · rw [← hfront]
      exact .inr ⟨rfl, segments_ne_singleton (by simpa using hdirectory)⟩

theorem join_ne_empty : join directory name ≠ "" := by
  intro hempty
  obtain ⟨front, hjoin, -⟩ := toList_join hdirectory hname
  rw [hempty] at hjoin
  simp at hjoin

theorem isAbsolute_join : isAbsolute (join directory name) = isAbsolute directory := by
  obtain ⟨front, hjoin, hfront⟩ := toList_join hdirectory hname
  unfold isAbsolute
  rw [hjoin]
  obtain hfront | hfront := hfront
  · rw [hfront]
    cases front <;> rfl
  · have hne : directory.toList ≠ [] := by simpa using hdirectory
    rw [hfront] at hne ⊢
    obtain ⟨c, rest, rfl⟩ := List.exists_cons_of_ne_nil hne
    rfl

end

theorem pathBelow_ne_empty {directory : String} {names : List String} (hdirectory : directory ≠ "")
    (hnames : ∀ n ∈ names, IsName n) : Discovery.pathBelow directory names ≠ "" := by
  induction names generalizing directory with
  | nil => exact hdirectory
  | cons n rest ih =>
    obtain ⟨hn, hrest⟩ := List.forall_mem_cons.mp hnames
    exact ih (join_ne_empty hdirectory hn) hrest

/-! ## Components -/

/-- What the first segment adds to the components of a path. -/
def leadOf (parts : List (List Char)) : List Component :=
  if parts.head? = some [] ∧ 1 < parts.length then [.root]
  else if parts.head? = some ['.'] then [.here]
  else []

theorem components_eq (path : String) : components path =
    leadOf (segments path.toList) ++ (segments path.toList).filterMap Component.ofSegment? := by
  unfold components leadOf
  dsimp only
  split
  · rename_i hsegments
    rw [hsegments]
    rfl
  · rename_i hsegments
    rw [hsegments]
    rfl
  · rename_i hroot hhere
    cases hparts : segments path.toList with
    | nil => rfl
    | cons first rest =>
      rw [hparts] at hroot hhere
      have hfirst : first ≠ ['.'] := fun heq => hhere rest (by rw [heq])
      -- An empty first segment with others behind it is the root, which was another case.
      have hsingle : first = [] → rest = [] := by
        intro hempty
        cases rest with
        | nil => rfl
        | cons next more => exact absurd (by rw [hempty]) (hroot next more)
      rw [if_neg (by simpa using hsingle), if_neg (by simpa using hfirst)]
      rfl

theorem leadOf_append {parts : List (List Char)} (hne : parts ≠ []) (last : List Char) :
    leadOf (parts ++ [last]) = leadOf (parts ++ [[]]) := by
  obtain ⟨first, rest, rfl⟩ := List.exists_cons_of_ne_nil hne
  simp [leadOf]

theorem leadOf_append_empty {parts : List (List Char)} (hne : parts ≠ []) (h : parts ≠ [[]]) :
    leadOf (parts ++ [[]]) = leadOf parts := by
  obtain ⟨first, rest, rfl⟩ := List.exists_cons_of_ne_nil hne
  have hrest : first = [] → 0 < rest.length := by
    rintro rfl
    exact List.length_pos_iff.mpr fun hnil => h (by rw [hnil])
  unfold leadOf
  congr 1
  simpa using hrest

theorem ofSegment?_name {name : String} (h : IsName name) :
    Component.ofSegment? name.toList = some (.name name) := by
  have hempty : name.toList ≠ [] := by simpa using h.ne_empty
  have hhere : name.toList ≠ ['.'] := fun heq => h.ne_here (String.toList_inj.mp heq)
  have hparent : name.toList ≠ ['.', '.'] := fun heq => h.ne_parent (String.toList_inj.mp heq)
  unfold Component.ofSegment?
  rw [if_neg (by simp [hempty, hhere]), if_neg hparent, String.ofList_toList]

theorem components_join {directory name : String} (hdirectory : directory ≠ "")
    (hname : IsName name) :
    components (join directory name) = components directory ++ [.name name] := by
  obtain ⟨parts, hne, hjoin, hparts⟩ := segments_join hdirectory hname
  have hdirectory : leadOf (parts ++ [[]]) = leadOf (segments directory.toList) ∧
      parts.filterMap Component.ofSegment? =
        (segments directory.toList).filterMap Component.ofSegment? := by
    obtain hparts | ⟨rfl, hparts⟩ := hparts
    · rw [hparts, List.filterMap_append]
      exact ⟨rfl, (List.append_nil _).symm⟩
    · exact ⟨leadOf_append_empty hne hparts, rfl⟩
  rw [components_eq, components_eq, hjoin, leadOf_append hne, hdirectory.1, List.filterMap_append,
    hdirectory.2, ← List.append_assoc]
  simp [ofSegment?_name hname]

/-- The names below a directory are the last components. -/
theorem components_pathBelow {directory : String} {names : List String}
    (hdirectory : directory ≠ "") (hnames : ∀ n ∈ names, IsName n) :
    components (Discovery.pathBelow directory names) =
      components directory ++ names.map .name := by
  induction names generalizing directory with
  | nil => exact (List.append_nil _).symm
  | cons n rest ih =>
    obtain ⟨hn, hrest⟩ := List.forall_mem_cons.mp hnames
    show components (Discovery.pathBelow (join directory n) rest) = _
    rw [ih (join_ne_empty hdirectory hn) hrest, components_join hdirectory hn, List.append_assoc]
    rfl

theorem below?_pathBelow {directory : String} {names : List String} (hdirectory : directory ≠ "")
    (hnames : ∀ n ∈ names, IsName n) :
    below? directory (Discovery.pathBelow directory names) = some ("/".intercalate names) := by
  unfold below?
  rw [components_pathBelow hdirectory hnames]
  dsimp only
  rw [if_pos (List.isPrefixOf_iff_prefix.mpr (List.prefix_append _ _)), List.drop_left,
    List.map_map]
  exact congrArg (fun ns => some ("/".intercalate ns)) (List.map_id names)

/-! ## Relative paths -/

theorem intercalate_cons (a b : String) (rest : List String) :
    "/".intercalate (a :: b :: rest) = "/".intercalate ((a ++ "/" ++ b) :: rest) := rfl

theorem getLast?_ne_slash {name : String} (h : IsName name) : name.toList.getLast? ≠ some '/' :=
  fun hlast => h.slash (List.mem_of_getLast? hlast)

/-- A path that the next name follows behind a slash. -/
structure EndsInName (path : String) : Prop where
  ne_empty : path ≠ ""
  last : path.toList.getLast? ≠ some '/'

theorem IsName.endsInName {name : String} (h : IsName name) : EndsInName name :=
  ⟨h.ne_empty, getLast?_ne_slash h⟩

section

variable {front name : String} (hfront : EndsInName front)
include hfront

theorem EndsInName.append (before : String) : EndsInName (before ++ front) := by
  have hne : front.toList ≠ [] := by simpa using hfront.ne_empty
  refine ⟨fun hempty => hfront.ne_empty (String.append_eq_empty_iff.mp hempty).2, ?_⟩
  rw [String.toList_append, List.getLast?_append_of_ne_nil _ hne]
  exact hfront.last

theorem EndsInName.join_name (hname : IsName name) : join front name = front ++ "/" ++ name := by
  unfold join
  rw [hname.not_isAbsolute]
  simp [hfront.ne_empty, hfront.last]

theorem EndsInName.join (hname : IsName name) : EndsInName (join front name) := by
  rw [hfront.join_name hname]
  exact hname.endsInName.append _

/-- Names with slashes between them are a path below the first of them. -/
theorem intercalate_eq_pathBelow {names : List String} (hnames : ∀ n ∈ names, IsName n) :
    "/".intercalate (front :: names) = Discovery.pathBelow front names := by
  induction names generalizing front with
  | nil => rfl
  | cons n rest ih =>
    obtain ⟨hn, hrest⟩ := List.forall_mem_cons.mp hnames
    show "/".intercalate (front :: n :: rest) = Discovery.pathBelow (Path.join front n) rest
    rw [intercalate_cons, ← hfront.join_name hn]
    exact ih (hfront.join hn) hrest

/-- It comes to the same whether a name is joined before or after. -/
theorem EndsInName.join_join (hrelative : isAbsolute front = false) (hname : IsName name)
    (directory : String) :
    Path.join directory (Path.join front name) = Path.join (Path.join directory front) name := by
  have hrelative' : isAbsolute (Path.join front name) = false := by
    rw [isAbsolute_join hfront.ne_empty hname, hrelative]
  -- What comes to stand before a relative path.
  have hbefore : ∃ before, ∀ path, isAbsolute path = false →
      Path.join directory path = before ++ path := by
    unfold Path.join
    by_cases hslash : (directory = "" || directory.toList.getLast? = some '/') = true
    · exact ⟨directory, fun path hpath => by rw [hpath, if_neg Bool.false_ne_true, if_pos hslash]⟩
    · exact ⟨directory ++ "/", fun path hpath => by
        rw [hpath, if_neg Bool.false_ne_true, if_neg hslash]⟩
  obtain ⟨before, hbefore⟩ := hbefore
  rw [hbefore _ hrelative', hbefore _ hrelative, (hfront.append before).join_name hname,
    hfront.join_name hname]
  simp only [String.append_assoc]

theorem join_pathBelow {names : List String} (hrelative : isAbsolute front = false)
    (hnames : ∀ n ∈ names, IsName n) (directory : String) :
    Path.join directory (Discovery.pathBelow front names) =
      Discovery.pathBelow (Path.join directory front) names := by
  induction names generalizing front with
  | nil => rfl
  | cons n rest ih =>
    obtain ⟨hn, hrest⟩ := List.forall_mem_cons.mp hnames
    have hrelative' : isAbsolute (Path.join front n) = false := by
      rw [isAbsolute_join hfront.ne_empty hn, hrelative]
    show Path.join directory (Discovery.pathBelow (Path.join front n) rest) =
      Discovery.pathBelow (Path.join (Path.join directory front) n) rest
    rw [ih (hfront.join hn) hrelative' hrest, hfront.join_join hrelative hn]

end

/-- Joined to a directory, names with slashes between them are a path below it. -/
theorem join_intercalate {names : List String} (hne : names ≠ []) (hnames : ∀ n ∈ names, IsName n)
    (directory : String) :
    join directory ("/".intercalate names) = Discovery.pathBelow directory names := by
  obtain ⟨first, rest, rfl⟩ := List.exists_cons_of_ne_nil hne
  obtain ⟨hfirst, hrest⟩ := List.forall_mem_cons.mp hnames
  rw [intercalate_eq_pathBelow hfirst.endsInName hrest,
    join_pathBelow hfirst.endsInName hfirst.not_isAbsolute hrest]
  rfl

theorem components_name {name : String} (h : IsName name) : components name = [.name name] := by
  have hhere : name.toList ≠ ['.'] := fun heq => h.ne_here (String.toList_inj.mp heq)
  rw [components_eq, segments_of_not_mem h.slash, List.filterMap_cons, ofSegment?_name h]
  unfold leadOf
  simp [hhere]

/-- Different names make different paths. -/
theorem intercalate_injective {names names' : List String} (hne : names ≠ []) (hne' : names' ≠ [])
    (hnames : ∀ n ∈ names, IsName n) (hnames' : ∀ n ∈ names', IsName n)
    (h : "/".intercalate names = "/".intercalate names') : names = names' := by
  obtain ⟨n, rest, rfl⟩ := List.exists_cons_of_ne_nil hne
  obtain ⟨n', rest', rfl⟩ := List.exists_cons_of_ne_nil hne'
  obtain ⟨hn, hrest⟩ := List.forall_mem_cons.mp hnames
  obtain ⟨hn', hrest'⟩ := List.forall_mem_cons.mp hnames'
  rw [intercalate_eq_pathBelow hn.endsInName hrest, intercalate_eq_pathBelow hn'.endsInName hrest'] at h
  have hcomponents := congrArg components h
  rw [components_pathBelow hn.ne_empty hrest, components_pathBelow hn'.ne_empty hrest',
    components_name hn, components_name hn'] at hcomponents
  have hinj : Function.Injective Component.name := fun _ _ hname => Component.name.inj hname
  exact List.map_injective_iff.mpr hinj hcomponents
/-! ## Order -/

theorem eq_of_compare_component {a b : Component} (h : a.compare b = .eq) : a = b := by
  cases a with
  | name x =>
    cases b with
    | name y =>
      change (if x < y then Ordering.lt else if x = y then .eq else .gt) = .eq at h
      split at h
      · cases h
      split at h
      · rename_i heq
        rw [heq]
      · cases h
    | _ => cases h
  | root | here | parent => cases b <;> simp_all [Component.compare, Component.rank]

theorem eq_of_compareComponents {as bs : List Component} (h : compareComponents as bs = .eq) :
    as = bs := by
  induction as generalizing bs with
  | nil =>
    cases bs with
    | nil => rfl
    | cons => cases h
  | cons a as ih =>
    cases bs with
    | nil => cases h
    | cons b bs =>
      rw [compareComponents] at h
      split at h
      · rename_i hab
        rw [eq_of_compare_component hab, ih h]
      · rename_i hab
        exact absurd h hab

/-- The name of a component that has one. -/
def Component.text : Component → String
  | .name n => n
  | _ => ""

theorem Component.compare_eq :
    Component.compare = compareLex (compareOn Component.rank) (compareOn Component.text) := by
  funext a b
  cases a <;> cases b <;> rfl

instance : Std.TransCmp Component.compare := by
  rw [Component.compare_eq]
  infer_instance

theorem compareComponents_eq : compareComponents = List.compareLex Component.compare := by
  funext as bs
  induction as generalizing bs with
  | nil => cases bs <;> rfl
  | cons a as ih =>
    cases bs with
    | nil => rfl
    | cons b bs =>
      rw [compareComponents, List.compareLex_cons_cons, ih]
      cases a.compare b <;> rfl

instance : Std.TransCmp compareComponents := by
  rw [compareComponents_eq]
  infer_instance

instance : Std.TransCmp Path.compare :=
  have h : Std.TransCmp compareComponents := inferInstance
  { eq_swap := h.eq_swap, isLE_trans := h.isLE_trans }

theorem compare_self (path : String) : Path.compare path path = .eq := Std.ReflCmp.compare_self

/-- Paths are alike in the order of paths if they have the same components. -/
theorem compare_eq_iff_same {a b : String} : Path.compare a b = .eq ↔ same a b = true := by
  unfold same
  rw [beq_iff_eq]
  constructor
  · exact eq_of_compareComponents
  · intro h
    unfold Path.compare
    rw [h]
    exact Std.ReflCmp.compare_self

/-- Paths below a directory that are alike in the order of paths have the same names. -/
theorem eq_of_compare_pathBelow {directory : String} {names names' : List String}
    (hdirectory : directory ≠ "") (hnames : ∀ n ∈ names, IsName n)
    (hnames' : ∀ n ∈ names', IsName n)
    (h : compare (Discovery.pathBelow directory names) (Discovery.pathBelow directory names') =
      .eq) : names = names' := by
  have heq := eq_of_compareComponents h
  rw [components_pathBelow hdirectory hnames, components_pathBelow hdirectory hnames'] at heq
  have hinj : Function.Injective Component.name := fun _ _ hname => Component.name.inj hname
  exact List.map_injective_iff.mpr hinj (List.append_cancel_left heq)

/-! ## What is left of a path -/

/-- A component that is not in front only. -/
def Component.IsInner : Component → Prop
  | .parent => True
  | .name n => IsName n
  | _ => False

/-- How a component is written between slashes. -/
def Component.written : Component → String
  | .name n => n
  | .parent => ".."
  | .here => "."
  | .root => ""

theorem not_mem_of_mem_segments {cs segment : List Char} (h : segment ∈ segments cs) :
    '/' ∉ segment := by
  induction cs generalizing segment with
  | nil =>
    obtain rfl := List.mem_singleton.mp h
    simp
  | cons c rest ih =>
    by_cases hslash : c = '/'
    · subst hslash
      rw [← List.nil_append ('/' :: rest), segments_append] at h
      obtain hfirst | hrest := List.mem_append.mp h
      · obtain rfl := List.mem_singleton.mp hfirst
        simp
      · exact ih hrest
    -- Any other character is put to the first segment of what follows.
    · have hmatch : ¬(c == '/') = true := by simpa using hslash
      unfold segments at h ih
      rw [List.splitOnP_cons_eq_if_modifyHead, if_neg hmatch] at h
      cases hparts : rest.splitOnP (· == '/') with
      | nil => exact absurd hparts (List.splitOnP_ne_nil _ _)
      | cons first more =>
        rw [hparts] at h ih
        rw [List.modifyHead_cons] at h
        obtain rfl | hmore := List.mem_cons.mp h
        · exact List.not_mem_cons_of_ne_of_not_mem (Ne.symm hslash) (ih List.mem_cons_self)
        · exact ih (List.mem_cons_of_mem _ hmore)

theorem isInner_of_ofSegment? {segment : List Char} {c : Component} (hslash : '/' ∉ segment)
    (h : Component.ofSegment? segment = some c) : c.IsInner := by
  unfold Component.ofSegment? at h
  split at h
  · cases h
  rename_i hsegment
  simp only [Bool.or_eq_true, decide_eq_true_eq, not_or] at hsegment
  split at h
  · cases h
    trivial
  rename_i hparent
  cases h
  have htext : (String.ofList segment).toList = segment := String.toList_ofList
  refine ⟨?_, fun heq => ?_, fun heq => ?_, ?_⟩
  · simpa using hsegment.1
  · exact hsegment.2 (by rw [← htext, heq]; rfl)
  · exact hparent (by rw [← htext, heq]; rfl)
  · rwa [htext]

/-- The slash or the dot in front of a path, and the components behind it. -/
theorem exists_components (path : String) : ∃ lead inner, components path = lead ++ inner ∧
    (lead = [] ∨ lead = [.root] ∨ lead = [.here]) ∧ ∀ c ∈ inner, c.IsInner := by
  refine ⟨_, _, components_eq path, ?_, fun c hc => ?_⟩
  · unfold leadOf
    split
    · exact .inr (.inl rfl)
    · split
      · exact .inr (.inr rfl)
      · exact .inl rfl
  · obtain ⟨segment, hsegment, hc⟩ := List.mem_filterMap.mp hc
    exact isInner_of_ofSegment? (not_mem_of_mem_segments hsegment) hc

theorem segments_intercalate {texts : List String} (hne : texts ≠ [])
    (h : ∀ text ∈ texts, '/' ∉ text.toList) :
    segments ("/".intercalate texts).toList = texts.map String.toList := by
  rw [String.toList_intercalate]
  refine List.splitOn_intercalate '/' ?_ (by simpa using hne)
  simpa using h

theorem slash_not_mem_written {c : Component} (h : c = .root ∨ c = .here ∨ c.IsInner) :
    '/' ∉ c.written.toList := by
  cases c with
  | name n => exact (h.resolve_left nofun |>.resolve_left nofun : IsName n).slash
  | root | here | parent => decide

theorem ofSegment?_written {c : Component} (h : c.IsInner) :
    Component.ofSegment? c.written.toList = some c := by
  cases c with
  | name n => exact ofSegment?_name h
  | parent => decide
  | root | here => exact h.elim

theorem filterMap_written {inner : List Component} (h : ∀ c ∈ inner, c.IsInner) :
    (inner.map fun c => c.written.toList).filterMap Component.ofSegment? = inner := by
  induction inner with
  | nil => rfl
  | cons c rest ih =>
    obtain ⟨hc, hrest⟩ := List.forall_mem_cons.mp h
    rw [List.map_cons, List.filterMap_cons, ofSegment?_written hc, ih hrest]

theorem leadOf_written {inner : List Component} (h : ∀ c ∈ inner, c.IsInner) :
    leadOf (inner.map fun c => c.written.toList) = [] := by
  cases inner with
  | nil => rfl
  | cons c rest =>
    have hc := ofSegment?_written (h c List.mem_cons_self)
    have hempty : c.written.toList ≠ [] := by
      intro heq
      rw [heq] at hc
      cases hc
    have hhere : c.written.toList ≠ ['.'] := by
      intro heq
      rw [heq] at hc
      cases hc
    rw [leadOf, List.map_cons, List.head?_cons, if_neg fun hroot => hempty (by simpa using hroot.1),
      if_neg fun heq => hhere (Option.some.inj heq)]

/-- Components are read again from their texts with slashes between, but for the slash alone. -/
theorem components_written {lead inner : List Component}
    (hlead : lead = [] ∨ lead = [.root] ∨ lead = [.here]) (hinner : ∀ c ∈ inner, c.IsInner)
    (hroot : lead ++ inner ≠ [.root]) :
    components ("/".intercalate ((lead ++ inner).map Component.written)) = lead ++ inner := by
  by_cases hnil : lead ++ inner = []
  · rw [hnil]
    rfl
  -- No text holds a slash, so the segments are the texts again.
  have hslash : ∀ text ∈ (lead ++ inner).map Component.written, '/' ∉ text.toList := by
    intro text htext
    obtain ⟨c, hc, rfl⟩ := List.mem_map.mp htext
    refine slash_not_mem_written ?_
    obtain hc | hc := List.mem_append.mp hc
    · obtain rfl | rfl | rfl := hlead
      · nomatch hc
      · exact .inl (List.mem_singleton.mp hc)
      · exact .inr (.inl (List.mem_singleton.mp hc))
    · exact .inr (.inr (hinner c hc))
  rw [components_eq, segments_intercalate (by simpa using hnil) hslash, List.map_map]
  change leadOf ((lead ++ inner).map fun c => c.written.toList) ++
    ((lead ++ inner).map fun c => c.written.toList).filterMap Component.ofSegment? = _
  rw [List.map_append, List.filterMap_append, filterMap_written hinner]
  obtain rfl | rfl | rfl := hlead
  · rw [List.map_nil, List.nil_append, leadOf_written hinner]
    rfl
  · have hpos : 0 < inner.length := List.length_pos_iff.mpr fun hnil => hroot (by rw [hnil]; rfl)
    rw [leadOf, if_pos ⟨rfl, by simpa using hpos⟩]
    rfl
  · have hhere : Component.here.written.toList = ['.'] := rfl
    rw [List.map_singleton, hhere, leadOf, if_neg (by simp), if_pos (by simp)]
    rfl

/-- Only the empty path has no components. -/
theorem eq_empty_of_components {path : String} (h : components path = []) : path = "" := by
  rw [components_eq, List.append_eq_nil_iff] at h
  obtain ⟨hlead, hinner⟩ := h
  cases hsegments : segments path.toList with
  | nil => exact absurd hsegments (segments_ne_nil _)
  | cons first more =>
    rw [hsegments] at hlead hinner
    have hfirst : Component.ofSegment? first = none :=
      List.filterMap_eq_nil_iff.mp hinner first List.mem_cons_self
    unfold leadOf at hlead
    split at hlead
    · cases hlead
    rename_i hslash
    split at hlead
    · cases hlead
    rename_i hhere
    -- Without a component, the only segment is an empty one.
    have hempty : first = [] := by
      unfold Component.ofSegment? at hfirst
      split at hfirst
      · rename_i hor
        simp only [Bool.or_eq_true, decide_eq_true_eq] at hor
        exact hor.resolve_right fun heq => hhere (by rw [heq]; rfl)
      · split at hfirst <;> cases hfirst
    have hmore : more = [] := by
      refine List.eq_nil_iff_length_eq_zero.mpr (Nat.eq_zero_of_not_pos fun hpos => hslash ?_)
      exact ⟨by rw [hempty]; rfl, Nat.succ_lt_succ hpos⟩
    refine Classical.byContradiction fun hne => ?_
    have hne : path.toList ≠ [] := by simpa using hne
    exact segments_ne_singleton hne (by rw [hsegments, hempty, hmore])

/-- What is left of a path below a directory has the components that follow the directory's. The
slash alone is lost below the empty path. -/
theorem components_of_below? {directory path rest : String}
    (h : below? directory path = some rest) :
    components path = components directory ++ components rest ∨
      components path = [.root] ∧ components directory = [] ∧ components rest = [] := by
  obtain ⟨lead, inner, hpath, hlead, hinner⟩ := exists_components path
  unfold below? at h
  dsimp only at h
  split at h
  · rename_i hprefix
    obtain ⟨behind, hbehind⟩ := List.isPrefixOf_iff_prefix.mp hprefix
    rw [← hbehind, List.drop_left] at h
    have hrest : rest = "/".intercalate (behind.map Component.written) := by
      rw [← Option.some.inj h]
      congr 2
    subst hrest
    -- A directory without components is in front of every path, also of an absolute one.
    cases houter : components directory with
    | nil =>
      rw [houter, List.nil_append, hpath] at hbehind
      rw [hpath, hbehind]
      by_cases hroot : lead ++ inner = [.root]
      · refine .inr ⟨hroot, rfl, ?_⟩
        rw [hroot]
        rfl
      · exact .inl (components_written hlead hinner hroot).symm
    | cons first more =>
      rw [houter] at hbehind
      have htail : (lead ++ inner).tail = more ++ behind := by
        rw [← hpath, ← hbehind]
        rfl
      -- What follows the directory's first component cannot lead a path.
      have hafter : ∀ c ∈ behind, c.IsInner := by
        intro c hc
        have hmem : c ∈ (lead ++ inner).tail := htail ▸ List.mem_append_right more hc
        obtain rfl | rfl | rfl := hlead
        · exact hinner c (List.mem_of_mem_tail hmem)
        · exact hinner c hmem
        · exact hinner c hmem
      have hroot : [] ++ behind ≠ [Component.root] := by
        rintro rfl
        exact hafter .root List.mem_cons_self
      have hwritten := components_written (.inl rfl) hafter hroot
      rw [List.nil_append] at hwritten
      rw [hwritten, hbehind]
      exact .inl rfl
  · cases h

/-- Different paths below a directory leave different rests. -/
theorem same_of_below? {directory a b rest rest' : String} (ha : a ≠ "") (hb : b ≠ "")
    (hrest : below? directory a = some rest) (hrest' : below? directory b = some rest')
    (h : components rest = components rest') : same a b = true := by
  rw [same, beq_iff_eq]
  obtain ha' | ⟨ha', hdirectory, hnil⟩ := components_of_below? hrest
  · obtain hb' | ⟨hb', hdirectory, hnil⟩ := components_of_below? hrest'
    · rw [ha', hb', h]
    · rw [hdirectory, h, hnil] at ha'
      exact absurd (eq_empty_of_components ha') ha
  · obtain hb' | ⟨hb', -, -⟩ := components_of_below? hrest'
    · rw [hdirectory, ← h, hnil] at hb'
      exact absurd (eq_empty_of_components hb') hb
    · rw [ha', hb']

end Rephrase.Path
