import Mathlib
import Rephrase.Oracle.Request
import Rephrase.Proofs.Json.Decode
import Rephrase.Proofs.Json.Line

/-! The message about a batch ends with the request, and the request can be read from it again: it
stands behind the last line that announces one, whatever is in front of that line and whatever the
texts of the request hold. -/

namespace Rephrase

namespace Text

/-- Whether a text is what stands behind the last line of another that reads so. -/
def IsBehindLast (line cs rest : List Char) : Prop :=
  (∃ front, cs = front ++ '\n' :: (line ++ '\n' :: rest)) ∧
    ∀ front' rest', cs = front' ++ '\n' :: (line ++ '\n' :: rest') → rest <:+ rest'

theorem IsBehindLast.unique {line cs rest rest' : List Char} (h : IsBehindLast line cs rest)
    (h' : IsBehindLast line cs rest') : rest = rest' := by
  obtain ⟨⟨front, hfront⟩, hlast⟩ := h
  obtain ⟨⟨front', hfront'⟩, hlast'⟩ := h'
  have hsuffix := hlast front' rest' hfront'
  exact hsuffix.eq_of_length
    (Nat.le_antisymm hsuffix.length_le (hlast' front rest hfront).length_le)

/-- A text in which no line starts with a letter holds no line of words. -/
theorem isBehindLast_append {c : Char} {word rest : List Char} (hc : c.isAlpha = true)
    (hword : '\n' ∉ c :: word) (hhead : ∃ d ∈ rest.head?, d.isAlpha = false)
    (hrest : Json.BreaksPlainly rest) (front : List Char) :
    IsBehindLast (c :: word) (front ++ '\n' :: (c :: word ++ '\n' :: rest)) rest := by
  refine ⟨⟨front, rfl⟩, fun front' rest' h => ?_⟩
  have hbreaks : Json.BreaksPlainly (c :: word ++ '\n' :: rest) :=
    (Json.BreaksPlainly.of_not_mem hword).append ⟨fun _ => hhead, hrest⟩
  obtain ⟨mid, rfl, hmid⟩ | ⟨mid, rfl, hmid⟩ := List.append_eq_append_iff.mp h
  · cases mid with
    | nil =>
      have hsame := List.append_cancel_left (List.cons.inj hmid).2
      rw [(List.cons.inj hsame).2]
    | cons d mid =>
      -- Such a line further behind would start with a letter.
      obtain ⟨-, hbehind⟩ := List.cons.inj hmid
      rw [hbehind] at hbreaks
      rw [hbreaks.isAlpha_of_append] at hc
      exact absurd hc (by decide)
  · -- A line further in front has all of that behind it.
    have hbehind : rest <:+ '\n' :: (c :: word ++ '\n' :: rest') :=
      ⟨mid ++ '\n' :: (c :: word ++ ['\n']), by rw [hmid]; simp⟩
    have hlength := congrArg List.length hmid
    simp only [List.length_append, List.length_cons] at hlength
    exact List.suffix_of_suffix_length_le hbehind ⟨'\n' :: (c :: word ++ ['\n']), by simp⟩
      (by omega)

end Text

namespace Oracle

open Json (Document)

/-- The words in front of the line that announces the request. -/
def Request.preamble (request : Request) : String :=
  "INSTRUCTION: " ++ request.instruction ++ "\nCHANGE: \"" ++ request.search ++ "\" -> \"" ++
    request.replacement ++ "\"\n"

theorem Request.toList_message (request : Request) : request.message.toList =
    request.preamble.toList ++ '\n' :: ("BATCH:".toList ++ '\n' :: Json.pretty request.toJson) := by
  have hline : "\"\n\nBATCH:\n" = "\"\n" ++ ("\n" ++ "BATCH:" ++ "\n") := rfl
  have hmessage : request.message = request.preamble ++ ("\n" ++ "BATCH:" ++ "\n") ++
      String.ofList (Json.pretty request.toJson) := by
    unfold Request.message Request.preamble
    rw [hline]
    simp only [String.append_assoc]
  have hfeed : "\n".toList = ['\n'] := by decide
  rw [hmessage]
  simp only [String.toList_append, hfeed, String.toList_ofList, List.append_assoc, List.cons_append,
    List.nil_append]

/-! ## The request -/

/-- A descriptor whose numbers are machine words. -/
structure Descriptor.Fits (d : Descriptor) : Prop where
  index : d.index < Fault.wordLimit
  startLine : d.startLine < Fault.wordLimit
  endLine : d.endLine < Fault.wordLimit

/-- A request whose numbers are machine words. -/
def Request.Fits (request : Request) : Prop := ∀ d ∈ request.nodes, d.Fits

theorem decode_label (levels : Nat) (kind : Node.Kind) :
    Node.Kind.decode levels (Json.string kind.label).toDocument = some kind := by
  cases kind <;> rfl

theorem Descriptor.get?_toJson (d : Descriptor) :
    d.toJson.get? "index" = some (.ofNat d.index) ∧
    d.toJson.get? "nodeKind" = some (.string d.kind.label) ∧
    d.toJson.get? "filePath" = some (.string d.file) ∧
    d.toJson.get? "startLine" = some (.ofNat d.startLine) ∧
    d.toJson.get? "endLine" = some (.ofNat d.endLine) ∧
    d.toJson.get? "content" = some (.string d.content) ∧
    d.toJson.get? "snippet" = some (.string d.snippet) ∧
    d.toJson.get? "contextBefore" = some (.ofStrings d.contextBefore) ∧
    d.toJson.get? "contextAfter" = some (.ofStrings d.contextAfter) ∧
    d.toJson.get? "fragments" = d.fragments.map .ofStrings := by
  unfold Descriptor.toJson Json.get?
  refine ⟨?_, ?_, ?_, ?_, ?_, ?_, ?_, ?_, ?_, ?_⟩
  iterate 9 simp [List.lookup_cons]
  cases d.fragments <;> simp [List.lookup_cons]

theorem Descriptor.Fits.isWord {d : Descriptor} (h : d.Fits) :
    d.toJson.allNumbers Json.Number.isWord = true := by
  unfold Descriptor.toJson
  rw [Json.allNumbers_object_iff, List.forall_mem_append]
  constructor
  · simp only [List.forall_mem_cons, Json.allNumbers_ofNat h.index,
      Json.allNumbers_ofNat h.startLine, Json.allNumbers_ofNat h.endLine,
      Json.allNumbers_ofStrings, Json.allNumbers, true_and]
    exact List.forall_mem_nil _
  · cases d.fragments with
    | none => exact List.forall_mem_nil _
    | some fragments => exact List.forall_mem_singleton.mpr (Json.allNumbers_ofStrings fragments)

theorem Descriptor.decode_toJson {d : Descriptor} (h : d.Fits) (inner : Nat) :
    Descriptor.decode (inner + 2) d.toJson.toDocument = some d := by
  obtain ⟨hindex, hkind, hfile, hstart, hend, hcontent, hsnippet, hbefore, hafter, hfragments⟩ :=
    d.get?_toJson
  have honce : ∃ parts, d.toJson = .object parts ∧ (parts.map Prod.fst).Nodup :=
    ⟨_, rfl, by cases d.fragments <;> simp⟩
  unfold Descriptor.decode
  rw [Json.Decode.record_toDocument _ _ honce]
  simp only [Option.bind_eq_bind, Option.bind_some, hindex, hkind, hfile, hstart, hend, hcontent,
    hsnippet, hbefore, hafter, hfragments, Json.Decode.Slot.required, Json.Decode.nat_ofNat h.index,
    Json.Decode.nat_ofNat h.startLine, Json.Decode.nat_ofNat h.endLine, Json.Decode.string_string,
    Json.Decode.list_ofStrings, decode_label]
  obtain ⟨_, _, _, _, _, _, _, _, _, fragments⟩ := d
  -- The member is left out where there are no fragments, and written where the list is empty.
  cases fragments with
  | none => rfl
  | some fragments =>
    have hlist : Json.Decode.nullable (Json.Decode.list Json.Decode.string) (inner + 1)
        (Json.ofStrings fragments).toDocument = some (some fragments) :=
      congrArg (Option.map some) (Json.Decode.list_ofStrings inner fragments)
    simp only [Option.map_some, Json.Decode.Slot.withDefault, hlist]
    rfl

theorem Request.get?_toJson (request : Request) :
    request.toJson.get? "batchId" = some (.string request.batchId) ∧
    request.toJson.get? "searchTerm" = some (.string request.search) ∧
    request.toJson.get? "replacementTerm" = some (.string request.replacement) ∧
    request.toJson.get? "userInstruction" = some (.string request.instruction) ∧
    request.toJson.get? "nodes" = some (.array (request.nodes.map Descriptor.toJson)) := by
  unfold Request.toJson Json.get?
  refine ⟨?_, ?_, ?_, ?_, ?_⟩
  iterate 5 simp [List.lookup_cons]

theorem Request.Fits.isWord {request : Request} (h : request.Fits) :
    request.toJson.allNumbers Json.Number.isWord = true := by
  have hnodes : (Json.array (request.nodes.map Descriptor.toJson)).allNumbers
      Json.Number.isWord = true := by
    rw [Json.allNumbers_array_iff]
    intro item hitem
    obtain ⟨d, hd, rfl⟩ := List.mem_map.mp hitem
    exact (h d hd).isWord
  unfold Request.toJson
  rw [Json.allNumbers_object_iff]
  simp only [List.forall_mem_cons, hnodes]
  exact ⟨rfl, rfl, rfl, rfl, trivial, List.forall_mem_nil _⟩

theorem Request.decode_toJson {request : Request} (h : request.Fits) (inner : Nat) :
    Request.decode (inner + 4) request.toJson.toDocument = some request := by
  have hnodes := Json.Decode.list_array Descriptor.toJson id
    fun d (hd : d ∈ request.nodes) => Descriptor.decode_toJson (h d hd) inner
  rw [List.map_id] at hnodes
  obtain ⟨hbatch, hsearch, hreplacement, hinstruction, hlist⟩ := request.get?_toJson
  have honce : ∃ parts, request.toJson = .object parts ∧ (parts.map Prod.fst).Nodup :=
    ⟨_, rfl, by simp⟩
  unfold Request.decode
  rw [Json.Decode.record_toDocument _ _ honce]
  simp only [Option.bind_eq_bind, Option.bind_some, hbatch, hsearch, hreplacement, hinstruction,
    hlist, Json.Decode.Slot.required, Json.Decode.string_string, hnodes]
  rfl

theorem Request.decodeText?_pretty {request : Request} (h : request.Fits) :
    Json.decodeText? Request.decode (Json.pretty request.toJson) = some request := by
  unfold Json.decodeText?
  rw [Json.ofText?_pretty, Json.reread_eq_toDocument _ h.isWord]
  exact Request.decode_toJson h 123

/-- Neither the texts of the request nor those in front of it are taken for its announcement. -/
theorem Request.isBehindLast_message (request : Request) :
    Text.IsBehindLast "BATCH:".toList request.message.toList (Json.pretty request.toJson) := by
  have hword : "BATCH:".toList = 'B' :: "ATCH:".toList := by decide
  have hhead : ∃ d ∈ (Json.pretty request.toJson).head?, d.isAlpha = false := ⟨'\x7b', rfl, rfl⟩
  rw [toList_message, hword]
  exact Text.isBehindLast_append rfl (by decide) hhead (Json.breaksPlainly_prettyAt 0 _) _

/-- The request stands behind the last line of its message that announces one, as a text of its own
that is read as this request and no other. -/
theorem Request.read_message {request : Request} (h : request.Fits) :
    (∃ payload, Text.IsBehindLast "BATCH:".toList request.message.toList payload) ∧
      (∀ payload, Text.IsBehindLast "BATCH:".toList request.message.toList payload →
        (Document.ofText? payload).isSome = true ∧
          Json.decodeText? Request.decode payload = some request) ∧
      ∀ other : Request, other.Fits → other.message = request.message → other = request := by
  refine ⟨⟨_, isBehindLast_message request⟩, fun payload hpayload => ?_,
    fun other hother hsame => ?_⟩
  · rw [hpayload.unique (isBehindLast_message request)]
    exact ⟨by rw [Json.ofText?_pretty]; rfl, decodeText?_pretty h⟩
  · have hpayload := isBehindLast_message other
    rw [hsame] at hpayload
    have hdecode := decodeText?_pretty hother
    rw [hpayload.unique (isBehindLast_message request), decodeText?_pretty h] at hdecode
    exact (Option.some.inj hdecode).symm

/-- A node whose context ends with a carriage return. -/
def unitNode (index : Nat) (content : String) (fragments : Option (List String)) : Descriptor :=
  ⟨index, .fragmented, "a.md", 1, 2, content, "\"" ++ content ++ "\"", [], ["in\r"], fragments⟩

/-- A batch whose texts hold control characters and lines that announce another request. -/
def unitRequest (fragments : Option (List String)) : Request :=
  ⟨"batch-001", "Sign \"in\"", "Log\\in", "rename\n\nBATCH:\n[]",
    [unitNode 0 "\x00\x1f" none, unitNode 1 "\nBATCH:\n" fragments,
      unitNode 2 "Sign\tin" (some ["Sign", "in"])]⟩

/-- A batch is read as it is, and no units and an empty list of units are told apart. -/
theorem read_unitRequest : (unitRequest none).Fits ∧ (unitRequest (some [])).Fits ∧
    (∃ payload, Text.IsBehindLast "BATCH:".toList (unitRequest none).message.toList payload ∧
      Json.decodeText? Request.decode payload = some (unitRequest none)) ∧
    (unitRequest (some [])).message ≠ (unitRequest none).message := by
  have hnode : ∀ index < Fault.wordLimit, ∀ content fragments,
      (unitNode index content fragments).Fits := fun index h _ _ =>
    ⟨h, (by decide : 1 < Fault.wordLimit), (by decide : 2 < Fault.wordLimit)⟩
  have hfits : ∀ fragments, (unitRequest fragments).Fits := by
    intro fragments d hd
    simp only [unitRequest, List.mem_cons, List.not_mem_nil, or_false] at hd
    obtain rfl | rfl | rfl := hd <;> exact hnode _ (by decide) _ _
  obtain ⟨⟨payload, hpayload⟩, hread, hinjective⟩ := Request.read_message (hfits none)
  refine ⟨hfits none, hfits (some []), ⟨payload, hpayload, (hread payload hpayload).2⟩, ?_⟩
  exact fun hsame => absurd (hinjective _ (hfits (some [])) hsame) (by decide)

end Oracle

end Rephrase
