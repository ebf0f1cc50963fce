import Rephrase.Proofs.Node.Snippet
import Rephrase.Proofs.Tree.Place

/-! What is shown with a unit is the nearest construct of the right kind around it, and what is
shown with several units the innermost element around them all. Where this is too much, it is the
unit's own construct, or the innermost construct of any kind. -/

namespace Rephrase

open Text

namespace Tree

/-- Whether a construct is worth showing. -/
def IsSmall (label : Label) : Prop :=
  label.span.stop - label.span.start ≤ maxShown

/-- What is shown of two constructs: the better one if there is one and it is small, or else the
other one if that is small. -/
inductive IsChoice (best : Label → Prop) (own : Label) : Option Span → Prop
  | best (label : Label) (hbest : best label) (hsmall : IsSmall label) :
    IsChoice best own (some label.span)
  | own (hbest : ∀ label, best label → ¬IsSmall label) (hsmall : IsSmall own) :
    IsChoice best own (some own.span)
  | none (hbest : ∀ label, best label → ¬IsSmall label) (hsmall : ¬IsSmall own) :
    IsChoice best own none

theorem isChoice_own {best : Label → Prop} (own : Label)
    (hbest : ∀ label, best label → ¬IsSmall label) : IsChoice best own (shown? own) := by
  unfold shown?
  split
  · exact .own hbest ‹_›
  · exact .none hbest ‹_›

theorem isChoice_of_iff {best : Label → Prop} {found? : Option Label} (own : Label)
    (hbest : ∀ label, best label ↔ found? = some label) :
    IsChoice best own ((shown? (found?.getD own)).or (shown? own)) := by
  cases found? with
  | none =>
    have hnone : ∀ label, best label → ¬IsSmall label :=
      fun label hlabel => nomatch (hbest label).mp hlabel
    rw [Option.getD_none, Option.or_self]
    exact isChoice_own own hnone
  | some found =>
    rw [Option.getD_some, shown?.eq_def found]
    split
    · rename_i hsmall
      rw [Option.some_or]
      exact .best found ((hbest found).mpr rfl) hsmall
    · rename_i hsmall
      rw [Option.none_or]
      refine isChoice_own own fun label hlabel => ?_
      obtain rfl := Option.some.inj ((hbest label).mp hlabel)
      exact hsmall

/-! ## Around a stretch -/

section

variable {tree : Tree} {stretch : Span}

theorem IsInnermost.path_eq {wanted : Label → Bool} {place other : Place}
    (h : tree.IsInnermost wanted stretch place) (hother : tree.IsInnermost wanted stretch other) :
    place.path = other.path := by
  have hsuffix := hother.least place h.mem h.isWanted h.around
  have hother := h.least other hother.mem hother.isWanted hother.around
  exact hsuffix.eq_of_length_le hother.length_le

variable (hnested : tree.isNested = true) (hstretch : stretch.start < stretch.stop)
  (hwithin : stretch.IsWithin tree.label.span)
include hnested hstretch hwithin

theorem exists_isInnermost_iff (wanted : Label → Bool) (label : Label) :
    (∃ place, tree.IsInnermost wanted stretch place ∧ place.label = label) ↔
      (pathTo stretch [] tree).find? wanted = some label := by
  constructor
  · rintro ⟨place, hplace, rfl⟩
    cases hfind : (pathTo stretch [] tree).find? wanted with
    | none =>
      exact absurd hplace.around
        (not_isWithin_of_find?_eq_none hnested hstretch hfind hplace.mem hplace.isWanted)
    | some found =>
      obtain ⟨other, hother, rfl⟩ := exists_isInnermost hnested hstretch hwithin hfind
      rw [(List.cons.inj (hother.path_eq hplace)).1]
  · exact exists_isInnermost hnested hstretch hwithin

/-- The source shown with a stretch is that of the innermost element around it, or else that of the
innermost construct. -/
theorem exists_isChoice_commonSource? : ∃ place, tree.IsInnermost (fun _ => true) stretch place ∧
    IsChoice
      (fun label => ∃ element, tree.IsInnermost isElement stretch element ∧ element.label = label)
      place.label (tree.commonSource? stretch) := by
  have hfind := exists_isInnermost_iff hnested hstretch hwithin isElement
  have hne : pathTo stretch [] tree ≠ [] := by
    have hsuffix := suffix_pathTo stretch tree []
    exact fun hnil => List.cons_ne_nil _ _ (List.suffix_nil.mp (hnil ▸ hsuffix))
  unfold commonSource?
  cases hpath : pathTo stretch [] tree with
  | nil => exact absurd hpath hne
  | cons innermost above =>
    have hhead : (pathTo stretch [] tree).find? (fun _ => true) = some innermost := by
      rw [hpath, List.find?_cons_of_pos rfl]
    obtain ⟨place, hplace, rfl⟩ := exists_isInnermost hnested hstretch hwithin hhead
    rw [hpath] at hfind
    exact ⟨place, hplace, isChoice_of_iff place.label hfind⟩

end

end Tree

namespace TextUnit

open Rephrase.Tree (Place IsChoice)

/-- The constructs of which the nearest one is shown with a unit. -/
def surrounds (kind : Node.Kind) (label : Label) : Bool :=
  match kind with
  | .text => Tree.isElement label
  | .attribute => Tree.isAttribute label
  | _ => true

theorem sourceOf?_eq (kind : Node.Kind) (label : Label) (above : List Label) :
    sourceOf? kind label above =
      (Tree.shown? ((above.find? (surrounds kind)).getD label)).or (Tree.shown? label) := by
  have hhead : above.find? (fun _ => true) = above.head? := by
    cases above with
    | nil => rfl
    | cons first rest => rfl
  unfold sourceOf? surrounds
  split
  · rfl
  · rfl
  · simp only [hhead]

end TextUnit

/-- Whether a label is that of the nearest construct of some sort around a construct. -/
def Tree.Place.IsNearest (place : Place) (wanted : Label → Bool) (label : Label) : Prop :=
  wanted label = true ∧ ∃ inner outer, place.above = inner ++ label :: outer ∧
    ∀ other ∈ inner, wanted other = false

namespace TextUnit

open Rephrase.Tree (Place IsChoice)

theorem IsTaken.isChoice {content : List Char} {place : Place} {unit : TextUnit}
    (h : IsTaken content place unit) :
    IsChoice (place.IsNearest (surrounds unit.kind)) place.label unit.shown := by
  rw [h.shown_eq, sourceOf?_eq]
  refine Tree.isChoice_of_iff place.label fun label => ?_
  simp only [Place.IsNearest, List.find?_eq_some_iff_append, Bool.not_eq_eq_eq_not, Bool.not_true]

end TextUnit

namespace Source

open Rephrase.Tree (IsChoice)
open TextUnit (IsTaken surrounds)

/-- Each of several units stands within the stretch that they are in together. -/
theorem isWithin_stretchOf_of_mem {units : List TextUnit} {start stop : Nat}
    (h : Ascend start stop (units.map (·.span))) {unit : TextUnit} (hunit : unit ∈ units) :
    unit.span.IsWithin (stretchOf units) := by
  obtain ⟨first, rest, rfl⟩ := List.exists_cons_of_ne_nil (List.ne_nil_of_mem hunit)
  obtain ⟨last, hlast⟩ : ∃ last, (first :: rest).getLast? = some last :=
    ⟨_, List.getLast?_eq_some_getLast (List.cons_ne_nil first rest)⟩
  have hspan : unit.span ∈ (first :: rest).map (·.span) := List.mem_map_of_mem hunit
  have hfrom : Ascend first.span.start stop ((first :: rest).map (·.span)) :=
    ⟨Nat.le_refl _, h.2⟩
  have hend : ((first :: rest).map (·.span)).getLast? = some last.span := by
    rw [List.getLast?_map, hlast, Option.map_some]
  have hstop := h.stop_le_of_getLast? hend hspan
  rw [stretchOf, List.head?_cons, hlast]
  exact ⟨hfrom.start_le_of_mem hspan, hstop⟩

/-- In a tree whose constructs lie in one another, what is shown with a stretch is the innermost
element around it, or else the innermost construct; what is shown with a unit is the nearest
construct of the right kind around the one that it is taken from, or else this one. Both are small,
and hold the text of the unit, or of all the units, that they are shown with. -/
theorem sources_of_tree {tree : Tree} (hnested : tree.isNested = true) :
    (∀ stretch : Span, stretch.start < stretch.stop → stretch.IsWithin tree.label.span →
      (∃ place, tree.IsInnermost (fun _ => true) stretch place ∧
        IsChoice (fun label => ∃ element, tree.IsInnermost Tree.isElement stretch element ∧
          element.label = label) place.label (tree.commonSource? stretch)) ∧
      ∀ span, tree.commonSource? stretch = some span →
        stretch.IsWithin span ∧ span.stop - span.start ≤ Tree.maxShown) ∧
    ∀ content : List Char,
      (∀ unit ∈ TextUnit.ofTree content [] tree,
        (∃ place ∈ tree.places [], IsTaken content place unit ∧
          IsChoice (place.IsNearest (surrounds unit.kind)) place.label unit.shown) ∧
        unit.IsShownAround) ∧
      ∀ units, units ≠ [] → units.Sublist (TextUnit.ofTree content [] tree) →
        (stretchOf units).start < (stretchOf units).stop ∧
          (stretchOf units).IsWithin tree.label.span ∧
          ∀ unit ∈ units, unit.span.IsWithin (stretchOf units) ∧
            ∀ span, tree.commonSource? (stretchOf units) = some span →
              unit.span.IsWithin span := by
  refine ⟨fun stretch hstretch hwithin => ⟨?_, fun span => ?_⟩, fun content => ⟨?_, ?_⟩⟩
  · exact Tree.exists_isChoice_commonSource? hnested hstretch hwithin
  · exact Tree.isWithin_of_commonSource? hwithin
  · intro unit hunit
    obtain ⟨place, hplace, htaken⟩ := (TextUnit.mem_ofTree_iff tree [] nofun).mp hunit
    exact ⟨⟨place, hplace, htaken, htaken.isChoice⟩,
      TextUnit.isShownAround_of_mem_ofTree tree [] hnested nofun hunit⟩
  · intro units hunits hsub
    have hascend := (TextUnit.areLaid_ofTree content [] tree hnested).ascend.sublist (hsub.map _)
    obtain ⟨hlt, hwithin⟩ := isWithin_stretchOf hunits hascend
    refine ⟨hlt, hwithin, fun unit hunit => ?_⟩
    have hinside := isWithin_stretchOf_of_mem hascend hunit
    exact ⟨hinside, fun span hspan =>
      hinside.trans (Tree.isWithin_of_commonSource? hwithin hspan).1⟩

/-- The upper one of two paragraphs is shown with its text. -/
theorem source_of_upper_paragraph : paragraphTree.isNested = true ∧ ∃ place,
    paragraphTree.IsInnermost (fun _ => true) ⟨5, 12⟩ place ∧
      IsChoice (fun label => ∃ element, paragraphTree.IsInnermost Tree.isElement ⟨5, 12⟩ element ∧
        element.label = label) place.label (some ⟨0, 16⟩) := by
  have hnested : paragraphTree.isNested = true := by decide
  have hwithin : Span.IsWithin ⟨5, 12⟩ paragraphTree.label.span := by
    unfold Span.IsWithin
    decide
  have hsource : paragraphTree.commonSource? ⟨5, 12⟩ = some ⟨0, 16⟩ := by cbv
  obtain ⟨hplace, -⟩ := (sources_of_tree hnested).1 ⟨5, 12⟩ (by decide) hwithin
  rw [hsource] at hplace
  exact ⟨hnested, hplace⟩

end Source

end Rephrase
