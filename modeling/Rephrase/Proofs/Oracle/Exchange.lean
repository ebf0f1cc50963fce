import Mathlib.Data.List.Forall2
import Rephrase.Oracle.Consultation

/-! Every batch is asked about once, in its turn, by a request that shows its nodes under their
places, and has one result. What is asked does not depend on what the oracle answers, unless it
changes the disk. -/

namespace Rephrase

/-! ## Requests -/

namespace Oracle

/-- Whether a descriptor shows a node under a number. -/
structure Descriptor.Shows (d : Descriptor) (number : Nat) (node : Node) : Prop where
  index : d.index = number
  kind : d.kind = node.kind
  file : d.file = node.file
  startLine : d.startLine = node.start.line
  endLine : d.endLine = node.stop.line
  content : d.content = node.content
  fragments : d.fragments = node.pieces.map fun pieces => pieces.map (·.text)

theorem shows_describe (disk : Disk) (number : Nat) (node : Node) (sources : Sources) :
    (describe disk number node sources).1.Shows number node :=
  ⟨rfl, rfl, rfl, rfl, rfl, rfl, rfl⟩

/-- Whether descriptors show some nodes, one each, counted from a number on. -/
inductive ShowFrom : Nat → List Descriptor → List Node → Prop
  | nil (number : Nat) : ShowFrom number [] []
  | cons {number : Nat} {d : Descriptor} {node : Node} {ds : List Descriptor} {nodes : List Node}
      (hfirst : d.Shows number node) (hrest : ShowFrom (number + 1) ds nodes) :
      ShowFrom number (d :: ds) (node :: nodes)

theorem showFrom_describeFrom (disk : Disk) (number : Nat) (nodes : List Node)
    (sources : Sources) : ShowFrom number (describeFrom disk number nodes sources).1 nodes := by
  induction nodes generalizing number sources with
  | nil => exact .nil number
  | cons node rest ih => exact .cons (shows_describe disk number node sources) (ih _ _)

namespace ShowFrom

variable {number : Nat} {ds : List Descriptor} {nodes : List Node} (h : ShowFrom number ds nodes)
include h

theorem exists_node {place : Nat} {d : Descriptor} (hd : ds[place]? = some d) :
    ∃ node, nodes[place]? = some node ∧ d.Shows (number + place) node := by
  induction h generalizing place with
  | nil => nomatch hd
  | @cons number first node ds nodes hfirst _ ih =>
    cases place with
    | zero => exact ⟨node, rfl, Option.some.inj hd ▸ hfirst⟩
    | succ place =>
      obtain ⟨other, hother, hshows⟩ := ih hd
      exact ⟨other, hother, Nat.succ_add_eq_add_succ number place ▸ hshows⟩

end ShowFrom

/-- Whether a request is for a batch and shows its nodes. -/
structure Request.Shows (request : Request) (batch : Batch) : Prop where
  batchId : request.batchId = batch.id
  nodes : ShowFrom 0 request.nodes batch.nodes

theorem shows_requestFor (disk : Disk) (batch : Batch) (sources : Sources) :
    (requestFor disk batch sources).1.Shows batch :=
  ⟨rfl, showFrom_describeFrom disk 0 batch.nodes sources⟩

/-- What is asked about some batches if the disk stays as it is. -/
def requests (disk : Disk) (batches : List Batch) : List Request :=
  (StateT.run (m := Id) (batches.mapM (requestFor disk)) []).1

/-! ## Calls -/

/-- A call of the oracle: what was asked, and what came of it. -/
structure Exchange where
  request : Request
  response : Response

variable {μ : Type}

/-- An oracle that also notes its calls. -/
def noting (oracle : Oracle μ) : Oracle (List Exchange × μ) :=
  fun request ((noted, memory), disk) =>
    let (response, memory, disk) := (oracle request).run (memory, disk)
    (response, (noted ++ [⟨request, response⟩], memory), disk)

/-- An oracle that leaves the disk alone. -/
def IsQuiet (oracle : Oracle μ) : Prop :=
  ∀ request memory disk, ((oracle request).run (memory, disk)).2.2 = disk

theorem IsQuiet.noting {oracle : Oracle μ} (h : oracle.IsQuiet) : oracle.noting.IsQuiet :=
  fun request memory disk => h request memory.2 disk

theorem disk_consult {oracle : Oracle μ} (h : oracle.IsQuiet) (timeout : Nat) (batch : Batch)
    (sources : Sources) (memory : μ) (disk : Disk) :
    (((consult oracle timeout batch).run sources).run (memory, disk)).2.2 = disk :=
  h _ memory disk

theorem disk_consultAll {oracle : Oracle μ} (h : oracle.IsQuiet) (timeout : Nat)
    (batches : List Batch) (memory : μ) (disk : Disk) :
    ((consultAll oracle timeout batches).run (memory, disk)).2.2 = disk := by
  suffices ∀ (sources : Sources) (memory : μ),
      (((batches.mapM (consult oracle timeout)).run sources).run (memory, disk)).2.2 = disk by
    exact this [] memory
  induction batches with
  | nil => exact fun sources memory => rfl
  | cons batch rest ih =>
    intro sources memory
    rw [List.mapM_cons, StateT.run_bind, StateT.run_bind]
    have hfirst := disk_consult h timeout batch sources memory disk
    rcases hconsult : ((consult oracle timeout batch).run sources).run (memory, disk) with
      ⟨⟨result, sources'⟩, memory', disk'⟩
    rw [hconsult] at hfirst
    obtain rfl : disk' = disk := hfirst
    exact ih sources' memory'

/-- The result that an exchange about a batch comes to. -/
def Exchange.result (timeout : Nat) (batch : Batch) (exchange : Exchange) : Batch.Result :=
  resultOf timeout batch exchange.request exchange.response

theorem run_consult_noting {oracle : Oracle μ} {batch : Batch} {sources sources' : Sources}
    (noted : List Exchange) {memory memory' : μ} {disk disk' : Disk} {request : Request}
    {response : Response} (hrequest : requestFor disk batch sources = (request, sources'))
    (hresponse : (oracle request).run (memory, disk) = (response, (memory', disk')))
    (timeout : Nat) : ((consult oracle.noting timeout batch).run sources).run
      ((noted, memory), disk) = ((resultOf timeout batch request response, sources'),
        ((noted ++ [⟨request, response⟩], memory'), disk')) := by
  have hrun : ((consult oracle.noting timeout batch).run sources).run ((noted, memory), disk) =
      ((resultOf timeout batch (requestFor disk batch sources).1
          ((oracle (requestFor disk batch sources).1).run (memory, disk)).1,
          (requestFor disk batch sources).2),
        ((noted ++ [⟨(requestFor disk batch sources).1,
            ((oracle (requestFor disk batch sources).1).run (memory, disk)).1⟩],
          ((oracle (requestFor disk batch sources).1).run (memory, disk)).2.1),
          ((oracle (requestFor disk batch sources).1).run (memory, disk)).2.2)) := rfl
  rw [hrun, hrequest]
  dsimp only
  rw [hresponse]

/-- Each batch has one exchange, in its turn, and the result of this. -/
theorem exists_exchanges (oracle : Oracle μ) (timeout : Nat) (batches : List Batch)
    (sources : Sources) (noted : List Exchange) (memory : μ) (disk : Disk) :
    ∃ exchanges,
      (((batches.mapM (consult oracle.noting timeout)).run sources).run
        ((noted, memory), disk)).2.1.1 = noted ++ exchanges ∧
      (((batches.mapM (consult oracle.noting timeout)).run sources).run
        ((noted, memory), disk)).1.1 = List.zipWith (Exchange.result timeout) batches exchanges ∧
      List.Forall₂ (fun batch exchange => exchange.request.Shows batch) batches exchanges ∧
      (oracle.IsQuiet → exchanges.map (·.request) =
        (StateT.run (m := Id) (batches.mapM (requestFor disk)) sources).1) := by
  induction batches generalizing sources noted memory disk with
  | nil => exact ⟨[], (List.append_nil noted).symm, rfl, .nil, fun _ => rfl⟩
  | cons batch rest ih =>
    have hshows := shows_requestFor disk batch sources
    rcases hrequest : requestFor disk batch sources with ⟨request, sources'⟩
    rcases hresponse : (oracle request).run (memory, disk) with ⟨response, memory', disk'⟩
    rw [hrequest] at hshows
    have hconsult := run_consult_noting noted hrequest hresponse timeout
    obtain ⟨exchanges, hnoted, hresults, hshow, hquiet⟩ :=
      ih sources' (noted ++ [⟨request, response⟩]) memory' disk'
    have hrun : (((batch :: rest).mapM (consult oracle.noting timeout)).run sources).run
        ((noted, memory), disk) =
          ((resultOf timeout batch request response ::
              (((rest.mapM (consult oracle.noting timeout)).run sources').run
                ((noted ++ [⟨request, response⟩], memory'), disk')).1.1,
            (((rest.mapM (consult oracle.noting timeout)).run sources').run
                ((noted ++ [⟨request, response⟩], memory'), disk')).1.2),
            (((rest.mapM (consult oracle.noting timeout)).run sources').run
                ((noted ++ [⟨request, response⟩], memory'), disk')).2) := by
      rw [List.mapM_cons, StateT.run_bind, StateT.run_bind, hconsult]
      rfl
    rw [hrun]
    refine ⟨⟨request, response⟩ :: exchanges, ?_, ?_, .cons hshows hshow, fun h => ?_⟩
    · exact hnoted.trans (List.append_assoc _ _ _)
    · exact congrArg (List.cons _) hresults
    -- A quiet oracle leaves the disk, so the later requests show it as it was at first.
    · have hdisk : disk' = disk := by
        have hsame := h request memory disk
        rwa [hresponse] at hsame
      rw [hdisk] at hquiet
      have hall : (StateT.run (m := Id) ((batch :: rest).mapM (requestFor disk)) sources).1 =
          (requestFor disk batch sources).1 :: (StateT.run (m := Id)
            (rest.mapM (requestFor disk)) (requestFor disk batch sources).2).1 := by
        rw [List.mapM_cons, StateT.run_bind]
        rfl
      rw [List.map_cons, hquiet h, hall, hrequest]

theorem run_mapM_noting (oracle : Oracle μ) (timeout : Nat) (batches : List Batch)
    (sources : Sources) (noted : List Exchange) (memory : μ) (disk : Disk) : ∃ exchanges,
      ((batches.mapM (consult oracle.noting timeout)).run sources).run ((noted, memory), disk) =
        ((((batches.mapM (consult oracle timeout)).run sources).run (memory, disk)).1,
          ((exchanges,
              (((batches.mapM (consult oracle timeout)).run sources).run (memory, disk)).2.1),
            (((batches.mapM (consult oracle timeout)).run sources).run (memory, disk)).2.2)) := by
  induction batches generalizing sources noted memory disk with
  | nil => exact ⟨noted, rfl⟩
  | cons batch rest ih =>
    rcases hrequest : requestFor disk batch sources with ⟨request, sources'⟩
    rcases hresponse : (oracle request).run (memory, disk) with ⟨response, memory', disk'⟩
    have hnoting := run_consult_noting noted hrequest hresponse timeout
    -- The oracle that takes notes answers as the plain one does, from the same memory and disk.
    have hplain : ((consult oracle timeout batch).run sources).run (memory, disk) =
        ((resultOf timeout batch request response, sources'), (memory', disk')) := by
      have hrun : ((consult oracle timeout batch).run sources).run (memory, disk) =
          ((resultOf timeout batch (requestFor disk batch sources).1
              ((oracle (requestFor disk batch sources).1).run (memory, disk)).1,
              (requestFor disk batch sources).2),
            ((oracle (requestFor disk batch sources).1).run (memory, disk)).2) := rfl
      rw [hrun, hrequest]
      dsimp only
      rw [hresponse]
    obtain ⟨exchanges, hrest⟩ := ih sources' (noted ++ [⟨request, response⟩]) memory' disk'
    refine ⟨exchanges, ?_⟩
    rw [List.mapM_cons, StateT.run_bind, StateT.run_bind, hnoting, List.mapM_cons, StateT.run_bind,
      StateT.run_bind, hplain]
    show (((rest.mapM (consult oracle.noting timeout)).run sources' >>= fun x =>
      pure (resultOf timeout batch request response :: x.1, x.2)).run
        ((noted ++ [⟨request, response⟩], memory'), disk')) = _
    rw [StateT.run_bind, hrest]
    rfl

/-- A batch's request shows it, and the answer to it makes its result. What is asked is known
beforehand if the oracle leaves the disk alone. -/
theorem of_run_consultAll {oracle : Oracle μ} {timeout : Nat} {batches : List Batch}
    {memory memory' : μ} {disk disk' : Disk} {results : List Batch.Result}
    {noted : List Exchange}
    (h : (consultAll oracle.noting timeout batches).run (([], memory), disk) =
      (results, ((noted, memory'), disk'))) :
    results = List.zipWith (Exchange.result timeout) batches noted ∧
      List.Forall₂ (fun batch exchange => exchange.request.Shows batch) batches noted ∧
      (oracle.IsQuiet → noted.map (·.request) = requests disk batches) := by
  obtain ⟨exchanges, hnoted, hresults, hshow, hquiet⟩ :=
    exists_exchanges oracle timeout batches [] [] memory disk
  have hrun : (consultAll oracle.noting timeout batches).run (([], memory), disk) =
      ((((batches.mapM (consult oracle.noting timeout)).run []).run (([], memory), disk)).1.1,
        (((batches.mapM (consult oracle.noting timeout)).run []).run (([], memory), disk)).2) := rfl
  rw [h] at hrun
  obtain ⟨hresult, hstate⟩ := Prod.mk.inj hrun
  rw [← hstate] at hnoted
  obtain rfl : noted = exchanges := hnoted
  exact ⟨hresult.trans hresults, hshow, hquiet⟩

/-- Noting its calls does not change what an oracle does. -/
theorem exists_run_noting {oracle : Oracle μ} {timeout : Nat} {batches : List Batch}
    {memory memory' : μ} {disk disk' : Disk} {results : List Batch.Result}
    (h : (consultAll oracle timeout batches).run (memory, disk) = (results, (memory', disk'))) :
    ∃ noted, (consultAll oracle.noting timeout batches).run (([], memory), disk) =
      (results, ((noted, memory'), disk')) := by
  have hrun : ∀ {ν : Type} (oracle : Oracle ν) (state : ν × Disk),
      (consultAll oracle timeout batches).run state =
        ((((batches.mapM (consult oracle timeout)).run []).run state).1.1,
          (((batches.mapM (consult oracle timeout)).run []).run state).2) := fun _ _ => rfl
  obtain ⟨noted, hnoted⟩ := run_mapM_noting oracle timeout batches [] [] memory disk
  rw [hrun] at h
  obtain ⟨hresult, hstate⟩ := Prod.mk.inj h
  refine ⟨noted, ?_⟩
  rw [hrun, hnoted, ← hresult, hstate]

/-- Where the oracle always gives the same answer, the result is what is read from this answer. -/
theorem run_consultAll_answered {text : String} {reply : List Descriptor → Reply}
    (h : ∀ nodes, Reply.ofText? nodes text.toList = some (reply nodes)) (timeout : Nat)
    (batch : Batch) (disk : Disk) :
    (consultAll (fun _ => return { outcome := .answered text } : Oracle Unit) timeout [batch]).run
        ((), disk) =
      ([resultOfReply batch (reply (requestFor disk batch []).1.nodes)], ((), disk)) := by
  have hresult : resultOf timeout batch (requestFor disk batch []).1
      { outcome := .answered text } =
        resultOfReply batch (reply (requestFor disk batch []).1.nodes) := by
    unfold resultOf
    rw [if_neg (Nat.not_lt_zero timeout)]
    dsimp only
    rw [h]
  rw [← hresult]
  rfl

end Oracle

end Rephrase
