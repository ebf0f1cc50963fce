import Rephrase.Proofs.Node.Snippet
import Rephrase.Proofs.Tree.Place

/-! Nodes are made of the constructs that hold text. A keyword is taken for one of these if the
language calls it by the name of a string. -/

namespace Rephrase

open Text

/-- Whether a construct is a keyword or punctuation. -/
structure Tree.Place.IsToken (place : Place) : Prop where
  unnamed : place.label.named = false
  childless : place.tree.children = []

namespace TextUnit

open Rephrase.Tree (Place)

/-- Whether a unit is taken from a construct of a tree that is more than a keyword or
punctuation. -/
def IsOfNamed (content : List Char) (tree : Tree) (unit : TextUnit) : Prop :=
  ∃ place ∈ tree.places [], IsTaken content place unit ∧ place.label.named = true

/-- What has neither quotes nor parts is the text of a string as it is. -/
theorem innerSpan_of_forall_not_isQuote {content source : List Char} {label : Label}
    (hslice : slice? content label.span.start label.span.stop = some source)
    (hquote : ∀ c ∈ source, isQuote c = false) : innerSpan content label [] = label.span := by
  obtain ⟨front, back, -, hstart, hstop⟩ := of_slice? hslice
  have htail : (source.reverse.dropWhile fun c => !isQuote c) = [] := by
    rw [List.dropWhile_eq_nil_iff]
    intro c hc
    rw [hquote c (List.mem_reverse.mp hc)]
    rfl
  have hbetween : betweenQuotes source = ⟨0, size source⟩ := by
    unfold betweenQuotes
    rw [htail]
    rfl
  have hsize : label.span.start + size source = label.span.stop := by omega
  unfold innerSpan
  simp only [List.map_nil, List.filter_nil, List.head?_nil, hslice, hbetween, Nat.add_zero, hsize]

theorem exists_ofSpan?_of_trim {content source : List Char} {span : Span} (kind : Node.Kind)
    (label : Label) (above : List Label)
    (hslice : slice? content span.start span.stop = some source) (htrim : trim source ≠ []) :
    ∃ unit, ofSpan? content kind label above span = some unit ∧ unit.text = trim source := by
  have hempty : (trim source).isEmpty = false := List.isEmpty_eq_false_iff.mpr htrim
  unfold ofSpan?
  simp only [hslice, hempty, Bool.false_eq_true, if_false, Option.some.injEq, exists_eq_left']

/-- A keyword of a string's name is taken for a string, if it is long enough. -/
theorem exists_isTaken_of_isToken {content source : List Char} {place : Place}
    (hreached : IsReached place) (htoken : place.IsToken) (hstring : isString place.label = true)
    (hslice : slice? content place.label.span.start place.label.span.stop = some source)
    (hquote : ∀ c ∈ source, isQuote c = false)
    (hlong : minLiteralLength ≤ (trim source).length) :
    ∃ unit, IsTaken content place unit ∧ unit.text = trim source := by
  have htrim : trim source ≠ [] := by
    intro hnil
    rw [hnil] at hlong
    cases hlong
  -- No construct goes by two of the names.
  have htext : isText place.label = false := by
    unfold isString at hstring
    unfold isText
    grind
  have hvalue : place.label.kind ≠ "attribute_value" := by
    unfold isString at hstring
    grind
  obtain ⟨unit, hunit, heq⟩ : ∃ unit,
      ofString? content place.label place.above place.tree.children = some unit ∧
        unit.text = trim source := by
    unfold ofString?
    dsimp only
    rw [htoken.childless, innerSpan_of_forall_not_isQuote hslice hquote]
    split
    · exact exists_ofSpan?_of_trim .attribute place.label place.above hslice htrim
    · obtain ⟨unit, hunit, heq⟩ :=
        exists_ofSpan?_of_trim .stringLiteral place.label place.above hslice htrim
      refine ⟨unit, ?_, heq⟩
      rw [hunit, Option.filter_some, if_pos (by simpa [heq] using hlong)]
  refine ⟨unit, ⟨hreached, ?_⟩, heq⟩
  rw [ofPlace?, htext, if_neg Bool.false_ne_true, if_neg hvalue, if_pos hstring, hunit]

end TextUnit

namespace Source

open TextUnit (IsTaken IsReached IsOfNamed isTextual isString isQuote minLiteralLength)

/-- Whether a node is made of units of some sort: of one alone, or of several that have the phrase
together. -/
inductive IsMadeOf (source : Source) (tree : Tree) (sort : TextUnit → Prop) (node : Node) : Prop
  | unit (unit : TextUnit) (hunit : sort unit) (hnode : source.nodeOfUnit unit = .ok node)
  | units (units : List TextUnit) (coverage : Float) (hnil : units ≠ [])
      (hunits : ∀ unit ∈ units, sort unit)
      (hnode : source.nodeOfUnits tree units coverage = .ok node)

theorem IsMadeOf.imp {source : Source} {tree : Tree} {sort sort' : TextUnit → Prop} {node : Node}
    (hsort : ∀ unit, sort unit → sort' unit) (h : source.IsMadeOf tree sort node) :
    source.IsMadeOf tree sort' node := by
  cases h with
  | unit unit hunit hnode => exact .unit unit (hsort unit hunit) hnode
  | units units coverage hnil hunits hnode =>
    exact .units units coverage hnil (fun unit hunit => hsort unit (hunits unit hunit)) hnode

/-- A node of a tree is made of the tree's units, or found by the phrase's pattern in a text that
makes no sense in its language. -/
theorem isMadeOf_of_treeNodes {source : Source} {config : Config} {phrase : List Char}
    {parsed : Parsed} {nodes : List Node}
    (h : source.treeNodes config phrase parsed = .ok nodes) :
    (∀ node ∈ nodes,
      source.IsMadeOf parsed.tree (· ∈ TextUnit.ofTree source.content [] parsed.tree) node) ∨
      parsed.hasError = true ∧ source.patternNodes phrase = .ok nodes := by
  obtain rfl | ⟨-, h | h | h⟩ := of_treeNodes h
  · exact .inl nofun
  · refine .inl fun node hnode => ?_
    obtain ⟨unit, hunit, hresult⟩ := exists_of_mem_mapM h hnode
    exact .unit unit (List.mem_filter.mp hunit).1 hresult
  · exact .inr h
  · refine .inl fun node hnode => ?_
    obtain ⟨⟨units, coverage⟩, hunits, hresult⟩ := exists_of_mem_mapM h hnode
    have hsub := (of_mem_fragmentsOf hunits).2
    exact .units units coverage (ne_nil_of_mem_fragmentsOf hunits) (fun _ => hsub.mem) hresult

/-- Every unit is taken from one construct that holds text, and stands in it. If all constructs of
these kinds are more than keywords and punctuation, so is what every unit is taken from, and every
node, alone or in pieces, is made of such units; what a pattern finds apart. But a keyword or
punctuation of a string's kind, if it is long enough, is a unit itself. -/
theorem origins_of_units (source : Source) (tree : Tree) :
    (∀ unit ∈ TextUnit.ofTree source.content [] tree, ∃ place ∈ tree.places [],
      IsTaken source.content place unit ∧ isTextual place.label = true ∧
        (tree.isNested = true → unit.span.IsWithin place.label.span)) ∧
    ((∀ place ∈ tree.places [], IsReached place → isTextual place.label = true →
        place.label.named = true) →
      (∀ unit ∈ TextUnit.ofTree source.content [] tree, IsOfNamed source.content tree unit) ∧
      ∀ config phrase hasError nodes,
        source.treeNodes config phrase ⟨tree, hasError⟩ = .ok nodes →
        (∀ node ∈ nodes, source.IsMadeOf tree (IsOfNamed source.content tree) node) ∨
          hasError = true ∧ source.patternNodes phrase = .ok nodes) ∧
    ∀ place ∈ tree.places [], IsReached place → place.IsToken → isString place.label = true →
      ∀ text, slice? source.content place.label.span.start place.label.span.stop = some text →
        (∀ c ∈ text, isQuote c = false) → minLiteralLength ≤ (trim text).length →
        ∃ unit ∈ TextUnit.ofTree source.content [] tree,
          IsTaken source.content place unit ∧ unit.text = trim text := by
  have hplaces : ∀ unit, unit ∈ TextUnit.ofTree source.content [] tree ↔
      ∃ place ∈ tree.places [], IsTaken source.content place unit :=
    fun unit => TextUnit.mem_ofTree_iff tree [] nofun
  refine ⟨fun unit hunit => ?_, fun hnamed => ?_, ?_⟩
  · obtain ⟨place, hplace, htaken⟩ := (hplaces unit).mp hunit
    exact ⟨place, hplace, htaken, htaken.isTextual, fun hnested => htaken.isWithin hnested hplace⟩
  · have hunits : ∀ unit ∈ TextUnit.ofTree source.content [] tree,
        IsOfNamed source.content tree unit := by
      intro unit hunit
      obtain ⟨place, hplace, htaken⟩ := (hplaces unit).mp hunit
      exact ⟨place, hplace, htaken, hnamed place hplace htaken.reached htaken.isTextual⟩
    refine ⟨hunits, fun config phrase hasError nodes hnodes => ?_⟩
    obtain h | h := isMadeOf_of_treeNodes hnodes
    · exact .inl fun node hnode => (h node hnode).imp hunits
    · exact .inr h
  · intro place hplace hreached htoken hstring text hslice hquote hlong
    obtain ⟨unit, htaken, htext⟩ :=
      TextUnit.exists_isTaken_of_isToken hreached htoken hstring hslice hquote hlong
    exact ⟨unit, (hplaces unit).mpr ⟨place, hplace, htaken⟩, htaken, htext⟩

/-- A declaration with a type that has a string's name. -/
def declaration : List Char := "let s: string;".toList

/-- What stands around the type's keyword. -/
def aboveKeyword : List Label :=
  [⟨"predefined_type", true, ⟨7, 13⟩⟩, ⟨"type_annotation", true, ⟨5, 13⟩⟩,
    ⟨"variable_declarator", true, ⟨4, 13⟩⟩, ⟨"lexical_declaration", true, ⟨0, 14⟩⟩,
    ⟨"program", true, ⟨0, 14⟩⟩]

def keyword : Tree := .node ⟨"string", false, ⟨7, 13⟩⟩ []

def declarationTree : Tree :=
  .node ⟨"program", true, ⟨0, 14⟩⟩
    [.node ⟨"lexical_declaration", true, ⟨0, 14⟩⟩
      [.node ⟨"let", false, ⟨0, 3⟩⟩ [],
        .node ⟨"variable_declarator", true, ⟨4, 13⟩⟩
          [.node ⟨"identifier", true, ⟨4, 5⟩⟩ [],
            .node ⟨"type_annotation", true, ⟨5, 13⟩⟩
              [.node ⟨":", false, ⟨5, 6⟩⟩ [],
                .node ⟨"predefined_type", true, ⟨7, 13⟩⟩ [keyword]]],
        .node ⟨";", false, ⟨13, 14⟩⟩ []]]

def declarationSource : Source := .ofContent "a.ts" "a.ts" declaration 3

theorem mem_places_keyword : ⟨keyword, aboveKeyword⟩ ∈ declarationTree.places [] := by
  simp [declarationTree, keyword, aboveKeyword, Tree.places, Tree.placesAmong]

theorem exists_keyword_unit : ∃ unit ∈ TextUnit.ofTree declaration [] declarationTree,
    IsTaken declaration ⟨keyword, aboveKeyword⟩ unit ∧ unit.text = "string".toList := by
  have hreached : IsReached ⟨keyword, aboveKeyword⟩ := by
    simp [IsReached, aboveKeyword]
    decide
  exact (origins_of_units declarationSource declarationTree).2.2 ⟨keyword, aboveKeyword⟩
    mem_places_keyword hreached ⟨rfl, rfl⟩ rfl "string".toList (by cbv) (by simp [isQuote])
    (by decide)

def keywordNode (weight : Float) : Node :=
  ⟨.stringLiteral, "string", "a.ts", "a.ts", ⟨1, 7⟩, ⟨1, 13⟩, [], [], weight, none,
    some "string"⟩

def keywordUnit : TextUnit := ⟨.stringLiteral, "string".toList, ⟨7, 13⟩, some ⟨7, 13⟩⟩

theorem ofTree_declarationTree :
    TextUnit.ofTree declaration [] declarationTree = [keywordUnit] := by
  simp [declarationTree, keyword, TextUnit.ofTree, TextUnit.ofTrees, TextUnit.isText,
    TextUnit.isString, TextUnit.isSkipped]
  cbv

theorem nodeAt_keyword (weight : Float) :
    declarationSource.nodeAt .stringLiteral "string".toList ⟨7, 13⟩ weight none (some ⟨7, 13⟩) =
      .ok (keywordNode weight) := by
  cbv

theorem nodes_declaration :
    declarationSource.nodes {} "string".toList (some ⟨declarationTree, false⟩) =
      .ok [keywordNode Node.Kind.stringLiteral.relevance] := by
  have hwhole : (TextUnit.ofTree declarationSource.content [] declarationTree).filter
      (holds (lowercase (collapse "string".toList))) = [keywordUnit] := by
    rw [show declarationSource.content = declaration from rfl, ofTree_declarationTree]
    cbv
  have hphrase : lowercase (collapse "string".toList) ≠ [] := by decide
  show declarationSource.treeNodes {} "string".toList ⟨declarationTree, false⟩ = _
  rw [treeNodes_of_whole hphrase hwhole]
  show (do
    let node ← declarationSource.nodeAt .stringLiteral "string".toList ⟨7, 13⟩
      Node.Kind.stringLiteral.relevance none (some ⟨7, 13⟩)
    return [node]) = _
  rw [nodeAt_keyword]
  rfl

/-- The keyword of the type is a node. -/
theorem keyword_offered : declarationTree.isNested = true ∧
    (∃ unit, TextUnit.ofTree declaration [] declarationTree = [unit] ∧
      ¬ IsOfNamed declaration declarationTree unit) ∧
    ∃ node, declarationSource.nodes {} "string".toList (some ⟨declarationTree, false⟩) =
      .ok [node] ∧ node.kind = .stringLiteral ∧ node.content = "string" ∧
        node.start = ⟨1, 7⟩ ∧ node.stop = ⟨1, 13⟩ := by
  refine ⟨by decide, ⟨_, ofTree_declarationTree, ?_⟩, _, nodes_declaration, rfl, rfl, rfl, rfl⟩
  -- The keyword is the only construct of a kind that holds text.
  have hplaces : ∀ place ∈ declarationTree.places [], isTextual place.label = true →
      place.label.named = false := by
    simp [declarationTree, keyword, Tree.places, Tree.placesAmong, Tree.Place.label, Tree.label]
    decide
  rintro ⟨place, hplace, htaken, hnamed⟩
  rw [hplaces place hplace htaken.isTextual] at hnamed
  cases hnamed

end Source

end Rephrase
