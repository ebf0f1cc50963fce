import Rephrase.Proofs.Tree.Enclosing

/-! Every construct of a tree has a place: what it is, and what is around it. The constructs around
a stretch of the text are in one another, and the search for the innermost one finds it. Every text
unit is taken from a construct of a kind that holds text, and the search for units comes to this
construct through others that hold none. -/

namespace Rephrase

open Text

namespace Tree

/-- A construct in its place: its tree, and the constructs around it, innermost first. -/
structure Place where
  tree : Tree
  above : List Label

namespace Place

def label (place : Place) : Label := place.tree.label

/-- The way out from a construct to the root. -/
def path (place : Place) : List Label := place.label :: place.above

end Place

mutual

/-- The places of a tree, each construct before its parts. `above` holds what is around the tree. -/
def places (above : List Label) : Tree → List Place
  | .node label children => ⟨.node label children, above⟩ :: placesAmong (label :: above) children

def placesAmong (above : List Label) : List Tree → List Place
  | [] => []
  | tree :: rest => places above tree ++ placesAmong above rest

end

mutual

/-- What is around a tree is around all of its places. -/
theorem suffix_of_mem_places {place : Place} : (tree : Tree) → (above : List Label) →
    place ∈ places above tree → above <:+ place.above
  | .node label children, above, h => by
    rw [places] at h
    obtain rfl | h := List.mem_cons.mp h
    · exact List.suffix_rfl
    · exact (List.suffix_cons label above).trans (suffix_of_mem_placesAmong children _ h)

theorem suffix_of_mem_placesAmong {place : Place} : (trees : List Tree) → (above : List Label) →
    place ∈ placesAmong above trees → above <:+ place.above
  | [], _, h => by simp [placesAmong] at h
  | tree :: rest, above, h => by
    rw [placesAmong] at h
    exact (List.mem_append.mp h).elim (suffix_of_mem_places tree above)
      (suffix_of_mem_placesAmong rest above)

end

mutual

/-- The way to the innermost construct around a stretch leads to a place of the tree. -/
theorem exists_place_of_pathTo (stretch : Span) : (tree : Tree) → (above : List Label) →
    ∃ place ∈ places above tree, place.path = pathTo stretch above tree
  | .node label children, above => by
    rw [places, pathTo]
    cases hpath : pathThrough? stretch (label :: above) children with
    | none => exact ⟨_, List.mem_cons_self, rfl⟩
    | some path =>
      obtain ⟨place, hplace, heq⟩ := exists_place_of_pathThrough? children _ hpath
      exact ⟨place, List.mem_cons_of_mem _ hplace, heq⟩

theorem exists_place_of_pathThrough? {stretch : Span} {path : List Label} : (trees : List Tree) →
    (above : List Label) → pathThrough? stretch above trees = some path →
    ∃ place ∈ placesAmong above trees, place.path = path
  | [], _, h => by simp [pathThrough?] at h
  | tree :: rest, above, h => by
    rw [pathThrough?] at h
    rw [placesAmong]
    split at h
    · obtain ⟨place, hplace, heq⟩ := exists_place_of_pathThrough? rest above h
      exact ⟨place, List.mem_append_right _ hplace, heq⟩
    split at h
    · obtain rfl := Option.some.inj h
      obtain ⟨place, hplace, heq⟩ := exists_place_of_pathTo stretch tree above
      exact ⟨place, List.mem_append_left _ hplace, heq⟩
    · cases h

end

mutual

/-- A construct lies within the tree that it is part of. -/
theorem isWithin_of_mem_places {place : Place} : (tree : Tree) → (above : List Label) →
    tree.isNested = true → place ∈ places above tree → place.label.span.IsWithin tree.label.span
  | .node label children, above, hnested, h => by
    rw [places] at h
    rw [isNested] at hnested
    obtain rfl | h := List.mem_cons.mp h
    · exact ⟨Nat.le_refl _, Nat.le_refl _⟩
    · exact isWithin_of_mem_placesAmong children _ hnested h

theorem isWithin_of_mem_placesAmong {place : Place} {start stop : Nat} : (trees : List Tree) →
    (above : List Label) → areNested start stop trees = true → place ∈ placesAmong above trees →
    place.label.span.IsWithin ⟨start, stop⟩
  | [], _, _, h => by simp [placesAmong] at h
  | tree :: rest, above, hnested, h => by
    obtain ⟨hstart, htree, hrest⟩ := areNested_cons hnested
    have hle := start_le_stop tree htree
    have hstop := le_of_areNested rest hrest
    rw [placesAmong] at h
    obtain h | h := List.mem_append.mp h
    · exact (isWithin_of_mem_places tree above htree h).trans ⟨hstart, hstop⟩
    · have hbehind : Span.IsWithin ⟨tree.label.span.stop, stop⟩ ⟨start, stop⟩ :=
        ⟨Nat.le_trans hstart hle, Nat.le_refl stop⟩
      exact (isWithin_of_mem_placesAmong rest above hrest h).trans hbehind

end

mutual

/-- The parts of every construct lie in it, one after another. -/
theorem areNested_of_mem_places {place : Place} : (tree : Tree) → (above : List Label) →
    tree.isNested = true → place ∈ places above tree →
    areNested place.label.span.start place.label.span.stop place.tree.children = true
  | .node label children, above, hnested, h => by
    rw [places] at h
    rw [isNested] at hnested
    obtain rfl | h := List.mem_cons.mp h
    · exact hnested
    · exact areNested_of_mem_placesAmong children _ hnested h

theorem areNested_of_mem_placesAmong {place : Place} {start stop : Nat} : (trees : List Tree) →
    (above : List Label) → areNested start stop trees = true → place ∈ placesAmong above trees →
    areNested place.label.span.start place.label.span.stop place.tree.children = true
  | [], _, _, h => by simp [placesAmong] at h
  | tree :: rest, above, hnested, h => by
    obtain ⟨-, htree, hrest⟩ := areNested_cons hnested
    rw [placesAmong] at h
    exact (List.mem_append.mp h).elim (areNested_of_mem_places tree above htree)
      (areNested_of_mem_placesAmong rest above hrest)

end

theorem suffix_pathTo (stretch : Span) (tree : Tree) (above : List Label) :
    tree.label :: above <:+ pathTo stretch above tree := by
  obtain ⟨label, children⟩ := tree
  rw [pathTo]
  cases hpath : pathThrough? stretch (label :: above) children with
  | none => exact List.suffix_rfl
  | some path =>
    obtain ⟨place, hplace, rfl⟩ := exists_place_of_pathThrough? children _ hpath
    exact (suffix_of_mem_placesAmong children _ hplace).trans (List.suffix_cons _ _)

/-- A part that ends where a stretch starts, or before, is passed over. -/
theorem passesOver_of_stop_le {stretch : Span} {label : Label}
    (hstretch : stretch.start < stretch.stop) (h : label.span.stop ≤ stretch.start) :
    passesOver stretch label = true := by
  have hlt : label.span.stop < stretch.stop := Nat.lt_of_le_of_lt h hstretch
  simp [passesOver, hlt]

theorem not_passesOver_of_isWithin {stretch : Span} {label : Label}
    (hstretch : stretch.start < stretch.stop) (h : stretch.IsWithin label.span) :
    passesOver stretch label = false := by
  unfold Span.IsWithin at h
  unfold passesOver
  simp only [Bool.or_eq_false_iff, decide_eq_false_iff_not]
  refine ⟨by omega, ?_⟩
  split <;> simp only [decide_eq_false_iff_not] <;> omega

mutual

/-- Every construct around a stretch is on the way to the innermost one. -/
theorem path_suffix_pathTo {stretch : Span} {place : Place}
    (hstretch : stretch.start < stretch.stop) : (tree : Tree) → (above : List Label) →
    tree.isNested = true → place ∈ places above tree → stretch.IsWithin place.label.span →
    place.path <:+ pathTo stretch above tree
  | .node label children, above, hnested, hplace, hwithin => by
    rw [places] at hplace
    obtain rfl | hplace := List.mem_cons.mp hplace
    · exact suffix_pathTo stretch (.node label children) above
    · rw [isNested] at hnested
      obtain ⟨path, hpath, hsuffix⟩ :=
        path_suffix_pathThrough? hstretch children (label :: above) hnested hplace hwithin
      rw [pathTo, hpath]
      exact hsuffix

theorem path_suffix_pathThrough? {stretch : Span} {place : Place} {start stop : Nat}
    (hstretch : stretch.start < stretch.stop) : (trees : List Tree) → (above : List Label) →
    areNested start stop trees = true → place ∈ placesAmong above trees →
    stretch.IsWithin place.label.span →
    ∃ path, pathThrough? stretch above trees = some path ∧ place.path <:+ path
  | [], _, _, hplace, _ => by simp [placesAmong] at hplace
  | tree :: rest, above, hnested, hplace, hwithin => by
    obtain ⟨-, htree, hrest⟩ := areNested_cons hnested
    rw [placesAmong] at hplace
    rw [pathThrough?]
    obtain hplace | hplace := List.mem_append.mp hplace
    · have hpart := hwithin.trans (isWithin_of_mem_places tree above htree hplace)
      rw [not_passesOver_of_isWithin hstretch hpart, if_neg Bool.false_ne_true, if_pos hpart.1]
      exact ⟨_, rfl, path_suffix_pathTo hstretch tree above htree hplace hwithin⟩
    · -- The parts in front of the one around the stretch end before the stretch.
      have hbehind := (isWithin_of_mem_placesAmong rest above hrest hplace).1
      rw [passesOver_of_stop_le hstretch (Nat.le_trans hbehind hwithin.1), if_pos rfl]
      exact path_suffix_pathThrough? hstretch rest above hrest hplace hwithin

end

mutual

/-- All that is around a construct within a tree has a place in the tree itself. -/
theorem exists_place_of_suffix {place : Place} {label : Label} {outer : List Label}
    (hpath : label :: outer <:+ place.path) : (tree : Tree) → (above : List Label) →
    above <:+ outer → place ∈ places above tree →
    ∃ other ∈ places above tree, other.path = label :: outer
  | .node root children, above, houter, h => by
    rw [places] at h ⊢
    have hlength := houter.length_le
    obtain rfl | h := List.mem_cons.mp h
    · refine ⟨_, List.mem_cons_self, (hpath.eq_of_length_le ?_).symm⟩
      exact Nat.succ_le_succ hlength
    have hroot : root :: above <:+ place.path :=
      (suffix_of_mem_placesAmong children _ h).trans (List.suffix_cons _ _)
    -- The construct that is looked for is inside the root, or is the root itself.
    by_cases hinner : (root :: above).length ≤ outer.length
    · have hbelow : root :: above <:+ outer :=
        List.suffix_of_suffix_length_le hroot ((List.suffix_cons label outer).trans hpath) hinner
      obtain ⟨other, hother, heq⟩ :=
        exists_place_of_suffix_among hpath children (root :: above) hbelow h
      exact ⟨other, List.mem_cons_of_mem _ hother, heq⟩
    · have hle : (label :: outer).length ≤ (root :: above).length := Nat.lt_of_not_le hinner
      have hsuffix := List.suffix_of_suffix_length_le hpath hroot hle
      refine ⟨_, List.mem_cons_self, (hsuffix.eq_of_length_le ?_).symm⟩
      exact Nat.succ_le_succ hlength

theorem exists_place_of_suffix_among {place : Place} {label : Label} {outer : List Label}
    (hpath : label :: outer <:+ place.path) : (trees : List Tree) → (above : List Label) →
    above <:+ outer → place ∈ placesAmong above trees →
    ∃ other ∈ placesAmong above trees, other.path = label :: outer
  | [], _, _, h => by simp [placesAmong] at h
  | tree :: rest, above, houter, h => by
    rw [placesAmong] at h ⊢
    obtain h | h := List.mem_append.mp h
    · obtain ⟨other, hother, heq⟩ := exists_place_of_suffix hpath tree above houter h
      exact ⟨other, List.mem_append_left _ hother, heq⟩
    · obtain ⟨other, hother, heq⟩ := exists_place_of_suffix_among hpath rest above houter h
      exact ⟨other, List.mem_append_right _ hother, heq⟩

end

/-! ## The innermost construct -/

/-- The innermost of the constructs of a kind around a stretch: all of them are this one or around
it. -/
structure IsInnermost (tree : Tree) (wanted : Label → Bool) (stretch : Span) (place : Place) :
    Prop where
  mem : place ∈ tree.places []
  isWanted : wanted place.label = true
  around : stretch.IsWithin place.label.span
  least : ∀ other ∈ tree.places [], wanted other.label = true →
    stretch.IsWithin other.label.span → other.path <:+ place.path

section

variable {tree : Tree} {stretch : Span} {wanted : Label → Bool} (hnested : tree.isNested = true)
  (hstretch : stretch.start < stretch.stop)
include hnested hstretch

/-- The first construct of a kind on the way out from a stretch is the innermost one. -/
theorem exists_isInnermost (hwithin : stretch.IsWithin tree.label.span) {label : Label}
    (h : (pathTo stretch [] tree).find? wanted = some label) :
    ∃ place, tree.IsInnermost wanted stretch place ∧ place.label = label := by
  obtain ⟨hwanted, inner, outer, hpath, hinner⟩ := List.find?_eq_some_iff_append.mp h
  obtain ⟨deepest, hdeepest, heq⟩ := exists_place_of_pathTo stretch tree []
  have hsuffix : label :: outer <:+ deepest.path := ⟨inner, by rw [heq, hpath]⟩
  obtain ⟨place, hplace, hout⟩ :=
    exists_place_of_suffix hsuffix tree [] List.nil_suffix hdeepest
  have hlabel : place.label = label := (List.cons.inj hout).1
  have haround : stretch.IsWithin label.span :=
    isWithin_of_mem_pathTo tree [] hwithin nofun label (by rw [hpath]; simp)
  refine ⟨place, ⟨hplace, hlabel ▸ hwanted, hlabel ▸ haround, fun other hother hkind hstands => ?_⟩,
    hlabel⟩
  -- One that is further in would have been found first.
  have hother := path_suffix_pathTo hstretch tree [] hnested hother hstands
  rw [hpath] at hother
  rw [hout]
  obtain ⟨front, hfront⟩ := hother
  obtain ⟨mid, hmid, hrest⟩ | ⟨mid, hmid, hrest⟩ := List.append_eq_append_iff.mp hfront
  · cases mid with
    | nil => exact ⟨[], by simpa using hrest⟩
    | cons first mid =>
      have hfirst : other.label = first := (List.cons.inj hrest).1
      have hmem : first ∈ inner := by simp [hmid]
      have hnot := hinner first hmem
      rw [← hfirst, hkind] at hnot
      cases hnot
  · exact ⟨mid, hrest.symm⟩

theorem not_isWithin_of_find?_eq_none (h : (pathTo stretch [] tree).find? wanted = none)
    {place : Place} (hplace : place ∈ tree.places []) (hwanted : wanted place.label = true) :
    ¬stretch.IsWithin place.label.span := by
  intro hwithin
  have hsuffix := path_suffix_pathTo hstretch tree [] hnested hplace hwithin
  exact List.find?_eq_none.mp h _ (hsuffix.subset List.mem_cons_self) hwanted

end

end Tree

/-! ## Text units -/

namespace TextUnit

open Rephrase.Tree (Place places placesAmong)

/-- Whether text for people is taken from a construct of this kind. -/
def isTextual (label : Label) : Bool :=
  isText label || label.kind == "attribute_value" || isString label

/-- Whether the search for units does not look at the parts of a construct. -/
def isClosed (label : Label) : Bool :=
  isTextual label || isSkipped label

/-- Whether the search for units comes to a construct. -/
def IsReached (place : Place) : Prop :=
  ∀ label ∈ place.above, isClosed label = false

/-- What a construct yields by itself, without regard to its parts. -/
def ofPlace? (content : List Char) (place : Place) : Option TextUnit :=
  if isText place.label then ofSpan? content .text place.label place.above place.label.span
  else if place.label.kind = "attribute_value" then
    ofSpan? content .attribute place.label place.above place.label.span
  else if isString place.label then
    ofString? content place.label place.above place.tree.children
  else none

/-- Whether a unit is taken from a construct. -/
structure IsTaken (content : List Char) (place : Place) (unit : TextUnit) : Prop where
  reached : IsReached place
  yields : ofPlace? content place = some unit

section

variable {content : List Char} {label : Label} (above : List Label) (children : List Tree)

theorem ofTree_of_closed (h : isClosed label = true) :
    ofTree content above (.node label children) =
      (ofPlace? content ⟨.node label children, above⟩).toList := by
  have hlabel : Place.label ⟨.node label children, above⟩ = label := rfl
  rw [ofTree, ofPlace?, hlabel]
  unfold isClosed isTextual at h
  split
  · rfl
  split
  · rfl
  split
  · rfl
  · simp_all

theorem ofPlace?_of_open (h : isClosed label = false) :
    ofPlace? content ⟨.node label children, above⟩ = none := by
  have hlabel : Place.label ⟨.node label children, above⟩ = label := rfl
  rw [ofPlace?, hlabel]
  unfold isClosed isTextual at h
  simp_all

theorem ofTree_of_open (h : isClosed label = false) :
    ofTree content above (.node label children) =
      ofTrees content (label :: above) children := by
  rw [ofTree]
  unfold isClosed isTextual at h
  simp_all

end

mutual

theorem mem_ofTree_iff {content : List Char} {unit : TextUnit} : (tree : Tree) →
    (above : List Label) → (∀ label ∈ above, isClosed label = false) →
    (unit ∈ ofTree content above tree ↔ ∃ place ∈ places above tree, IsTaken content place unit)
  | .node label children, above, habove => by
    rw [places]
    simp only [List.mem_cons, exists_eq_or_imp]
    cases hlabel : isClosed label with
    | true =>
      rw [ofTree_of_closed above children hlabel, Option.mem_toList]
      constructor
      · exact fun h => .inl ⟨habove, h⟩
      · rintro (h | ⟨place, hplace, h⟩)
        · exact h.yields
        · -- The search does not come to the parts.
          have hmem := (Tree.suffix_of_mem_placesAmong children _ hplace).subset List.mem_cons_self
          rw [h.reached label hmem] at hlabel
          cases hlabel
    | false =>
      rw [ofTree_of_open above children hlabel,
        mem_ofTrees_iff children _ (List.forall_mem_cons.mpr ⟨hlabel, habove⟩)]
      refine (or_iff_right fun h => ?_).symm
      have hyields := h.yields
      rw [ofPlace?_of_open above children hlabel] at hyields
      cases hyields

theorem mem_ofTrees_iff {content : List Char} {unit : TextUnit} : (trees : List Tree) →
    (above : List Label) → (∀ label ∈ above, isClosed label = false) →
    (unit ∈ ofTrees content above trees ↔
      ∃ place ∈ placesAmong above trees, IsTaken content place unit)
  | [], _, _ => by simp [ofTrees, placesAmong]
  | tree :: rest, above, habove => by
    rw [ofTrees, placesAmong, List.mem_append, mem_ofTree_iff tree above habove,
      mem_ofTrees_iff rest above habove]
    simp only [List.mem_append, or_and_right, exists_or]

end

namespace IsTaken

variable {content : List Char} {place : Place} {unit : TextUnit} (h : IsTaken content place unit)
include h

/-- A unit is the text of a whole construct, or that between the quotes of a string. -/
theorem exists_ofSpan? : ∃ span,
    ofSpan? content unit.kind place.label place.above span = some unit ∧
    (span = place.label.span ∨ span = innerSpan content place.label place.tree.children) := by
  have hyields := h.yields
  have hof : ∀ {kind : Node.Kind} {span : Span},
      ofSpan? content kind place.label place.above span = some unit →
      ofSpan? content unit.kind place.label place.above span = some unit := by
    intro kind span hspan
    rwa [kind_of_ofSpan? hspan]
  unfold ofPlace? at hyields
  split at hyields
  · exact ⟨_, hof hyields, .inl rfl⟩
  split at hyields
  · exact ⟨_, hof hyields, .inl rfl⟩
  split at hyields
  · unfold ofString? at hyields
    dsimp only at hyields
    split at hyields
    · exact ⟨_, hof hyields, .inr rfl⟩
    · exact ⟨_, hof (Option.filter_eq_some_iff.mp hyields).1, .inr rfl⟩
  · cases hyields

theorem isTextual : isTextual place.label = true := by
  cases hkind : TextUnit.isTextual place.label with
  | true => rfl
  | false =>
    have hyields := h.yields
    unfold TextUnit.isTextual at hkind
    unfold ofPlace? at hyields
    simp_all

theorem shown_eq : unit.shown = sourceOf? unit.kind place.label place.above := by
  obtain ⟨span, hspan, -⟩ := h.exists_ofSpan?
  exact shown_of_ofSpan? hspan

/-- A unit stands within the construct that it is taken from. -/
theorem isWithin {above : List Label} {tree : Tree} (hnested : tree.isNested = true)
    (hplace : place ∈ places above tree) : unit.span.IsWithin place.label.span := by
  obtain ⟨span, hspan, hwhole⟩ := h.exists_ofSpan?
  have hinner : span.IsWithin place.label.span := by
    obtain rfl | rfl := hwhole
    · exact ⟨Nat.le_refl _, Nat.le_refl _⟩
    · exact innerSpan_within content (Tree.areNested_of_mem_places tree above hnested hplace)
  exact Span.IsWithin.trans (of_ofSpan? hspan).2 hinner

end IsTaken

end TextUnit

end Rephrase
