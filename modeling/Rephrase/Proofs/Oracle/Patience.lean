import Mathlib
import Rephrase.Oracle.Chat

/-! A service that asks for patience gets the same post again, at most three times and each time
after twice as long a wait; the first other delivery alone decides what comes of the request. -/

namespace Rephrase.Chat

open Json Json.Decode

/-! ## What a response offers -/

/-- Whether an object has readable keys only, and one member of a name. -/
structure HasOne (members : List (Option String × Document)) (name : String)
    (document : Document) : Prop where
  readable : ∀ m ∈ members, m.1.isSome
  values : valuesAt name members = [document]

/-- Whether a message says some content, which may be missing. -/
inductive Says : Document → Option String → Prop
  | given {members : List (Option String × Document)} {content : String}
      (h : HasOne members "content" (.string (some content))) :
      Says (.object members) (some content)
  | null {members : List (Option String × Document)} (h : HasOne members "content" .null) :
      Says (.object members) none
  | absent {members : List (Option String × Document)} (hreadable : ∀ m ∈ members, m.1.isSome)
      (hvalues : valuesAt "content" members = []) : Says (.object members) none

/-- Whether a choice offers some content. -/
inductive Offers : Document → Option String → Prop
  | message {members : List (Option String × Document)} {message : Document}
      {content : Option String} (h : HasOne members "message" message)
      (htold : Says message content) : Offers (.object members) content

/-- A record of one field that is written as an object. -/
theorem record_one {members : List (Option String × Document)} {name : String}
    (hreadable : ∀ m ∈ members, m.1.isSome) (hfew : (valuesAt name members).length ≤ 1)
    (inner : Nat) : ∃ field, record [name] (inner + 1) (.object members) = some field ∧
      field name = match valuesAt name members with
        | document :: _ => .given inner document
        | [] => .absent := by
  have hkeys : (members.all fun m => m.1.isSome) = true := List.all_eq_true.mpr hreadable
  have hnames : ([name].all fun name => (valuesAt name members).length ≤ 1) = true := by
    simpa using hfew
  unfold record
  dsimp only
  rw [hkeys, hnames]
  exact ⟨_, rfl, rfl⟩

theorem HasOne.exists_record {members : List (Option String × Document)} {name : String}
    {document : Document} (h : HasOne members name document) (inner : Nat) :
    ∃ field, record [name] (inner + 1) (.object members) = some field ∧
      field name = .given inner document := by
  have hfew : (valuesAt name members).length ≤ 1 := by simp [h.values]
  obtain ⟨field, hfield, hname⟩ := record_one h.readable hfew inner
  rw [h.values] at hname
  exact ⟨field, hfield, hname⟩

theorem decodeMessage_of_says {message : Document} {content : Option String}
    (h : Says message content) (inner : Nat) :
    decodeMessage (inner + 1) message = some content := by
  cases h with
  | given h =>
    obtain ⟨field, hfield, hname⟩ := h.exists_record inner
    simp only [decodeMessage, hfield, Option.bind_eq_bind, Option.bind_some, hname, Slot.optional]
    rfl
  | null h =>
    obtain ⟨field, hfield, hname⟩ := h.exists_record inner
    simp only [decodeMessage, hfield, Option.bind_eq_bind, Option.bind_some, hname, Slot.optional]
    rfl
  | @absent members hreadable hvalues =>
    have hfew : (valuesAt "content" members).length ≤ 1 := by simp [hvalues]
    obtain ⟨field, hfield, hname⟩ := record_one hreadable hfew inner
    rw [hvalues] at hname
    simp only [decodeMessage, hfield, Option.bind_eq_bind, Option.bind_some, hname, Slot.optional]

theorem decodeChoice_of_offers {choice : Document} {content : Option String}
    (h : Offers choice content) (inner : Nat) :
    decodeChoice (inner + 2) choice = some content := by
  obtain ⟨h, htold⟩ := h
  obtain ⟨field, hfield, hname⟩ := h.exists_record (inner + 1)
  simp only [decodeChoice, hfield, Option.bind_eq_bind, Option.bind_some, hname, Slot.required,
    decodeMessage_of_says htold]

theorem mapM_decodeChoice {choices : List Document} {contents : List (Option String)}
    (h : List.Forall₂ Offers choices contents) (inner : Nat) :
    choices.mapM (decodeChoice (inner + 2)) = some contents := by
  induction h with
  | nil => rfl
  | cons hfirst _ ih =>
    rw [List.mapM_cons, decodeChoice_of_offers hfirst, ih]
    rfl

/-- The answer is the content of the first choice. -/
theorem answerOf_of_offers {body : String} {members : List (Option String × Document)}
    {choices : List Document} {contents : List (Option String)}
    (hbody : Document.ofText? body.toList = some (.object members))
    (hchoices : HasOne members "choices" (.array choices))
    (hoffers : List.Forall₂ Offers choices contents) :
    answerOf body = .ok (contents.head?.join.getD "") := by
  have hdecode : decodeText? decodeChoices body.toList = some contents := by
    obtain ⟨field, hfield, hname⟩ := hchoices.exists_record 126
    rw [decodeText?, hbody]
    simp only [decodeChoices, textLevels, hfield, Option.bind_eq_bind, Option.bind_some, hname,
      Slot.required, Decode.list, mapM_decodeChoice hoffers]
  rw [answerOf, hdecode]
  cases contents with
  | nil => rfl
  | cons => rfl

/-! ## What a delivery comes to -/

/-- Whether a delivery asks for patience. -/
def Delivery.isBusy : Delivery → Bool
  | .response status _ => status = tooManyRequests
  | .lost _ => false

/-- A text as an error shows it, with its length in characters. -/
inductive ShownAs (body : String) : String → Prop
  | whole (hlength : body.length ≤ 500) : ShownAs body body
  | cut (hlength : 500 < body.length) : ShownAs body (String.ofList (body.toList.take 497) ++ "...")

theorem ShownAs.length_le {body text : String} (h : ShownAs body text) : text.length ≤ 500 := by
  cases h with
  | whole hlength => exact hlength
  | cut hlength =>
    have hlength : 500 < body.toList.length := String.length_toList ▸ hlength
    rw [String.length_append, String.length_ofList, List.length_take]
    have hdots : "...".length = 3 := rfl
    omega

theorem shownAs_shown (body : String) : ShownAs body (shown body) := by
  rw [shown, shownChars, Text.truncate, String.length_toList]
  by_cases hlength : body.length ≤ 500
  · rw [if_pos hlength, String.ofList_toList]
    exact .whole hlength
  · rw [if_neg hlength, if_neg (by decide), String.ofList_append]
    exact .cut (Nat.lt_of_not_le hlength)

/-- What a delivery that does not ask for patience comes to. Of a malformed body only the part that
quotes it is told. -/
inductive ComesTo : Delivery → Except Error String → Prop
  | answered {status : Nat} {body : String} {contents : List (Option String)}
      (hstatus : 200 ≤ status ∧ status < 300)
      (hdecode : decodeText? decodeChoices body.toList = some contents) :
      ComesTo (.response status body) (.ok (contents.head?.join.getD ""))
  | malformed {status : Nat} {body reason text : String} (hstatus : 200 ≤ status ∧ status < 300)
      (hdecode : decodeText? decodeChoices body.toList = none) (htext : ShownAs body text) :
      ComesTo (.response status body) (.error (.malformed (reason ++ ": " ++ text)))
  | unauthorized {body : String} : ComesTo (.response 401 body) (.error .unauthorized)
  | http {status : Nat} {body text : String} (hsuccess : ¬(200 ≤ status ∧ status < 300))
      (hkey : status ≠ 401) (htext : ShownAs body text) (hlength : text.length ≤ 500) :
      ComesTo (.response status body) (.error (.http status text))
  | lost {causes : List String} : ComesTo (.lost causes) (.error (.transport causes))

theorem comesTo_verdict (delivery : Delivery) : ComesTo delivery (verdict delivery) := by
  cases delivery with
  | lost causes => exact .lost
  | response status body =>
    by_cases hstatus : 200 ≤ status ∧ status < 300
    · have hsuccess : isSuccess status = true := by simpa [isSuccess] using hstatus
      rw [verdict, if_pos hsuccess, answerOf]
      cases hdecode : decodeText? decodeChoices body.toList with
      | none => exact .malformed hstatus hdecode (shownAs_shown body)
      | some contents => exact .answered hstatus hdecode
    · have hsuccess : ¬isSuccess status = true := by simpa [isSuccess] using hstatus
      rw [verdict, if_neg hsuccess]
      by_cases hkey : status = 401
      · subst hkey
        exact .unauthorized
      · rw [if_neg hkey]
        exact .http hstatus hkey (shownAs_shown body) (shownAs_shown body).length_le

/-! ## One post -/

section

variable {μ : Type} {transport : Transport μ} {post : Post} {memory memory' : μ}
  {delivery : Delivery} (hpost : (transport post).run memory = (delivery, memory'))
include hpost

/-- Another delivery ends the exchange. -/
theorem run_exchangeFrom_of_not_isBusy (hbusy : delivery.isBusy = false) (left : Nat) :
    (exchangeFrom transport post left).run memory = (⟨verdict delivery, []⟩, memory') := by
  have hrun : transport post memory = (delivery, memory') := hpost
  cases delivery with
  | lost causes =>
    cases left <;> simp only [exchangeFrom, StateT.run, bind, StateT.bind, hrun] <;> rfl
  | response status body =>
    have hstatus : ¬status = tooManyRequests := of_decide_eq_false hbusy
    cases left <;>
      simp only [exchangeFrom, StateT.run, bind, StateT.bind, hrun, if_neg hstatus] <;> rfl

/-- At the last post there is no more patience. -/
theorem run_exchangeFrom_zero_of_isBusy (hbusy : delivery.isBusy = true) :
    (exchangeFrom transport post 0).run memory =
      (⟨.error (.rateLimited retryLimit), []⟩, memory') := by
  have hrun : transport post memory = (delivery, memory') := hpost
  cases delivery with
  | lost causes => nomatch hbusy
  | response status body =>
    have hstatus : status = tooManyRequests := of_decide_eq_true hbusy
    simp only [exchangeFrom, StateT.run, bind, StateT.bind, hrun, if_pos hstatus]
    rfl

/-- Before it, the rest of the exchange follows. -/
theorem run_exchangeFrom_succ_of_isBusy (hbusy : delivery.isBusy = true) (left : Nat)
    {rest : Exchange} {memory'' : μ}
    (hrest : (exchangeFrom transport post left).run memory' = (rest, memory'')) :
    (exchangeFrom transport post (left + 1)).run memory =
      (⟨rest.result, (retryLimit - left) :: rest.attempts⟩, memory'') := by
  have hrun : transport post memory = (delivery, memory') := hpost
  have hrest : exchangeFrom transport post left memory' = (rest, memory'') := hrest
  cases delivery with
  | lost causes => nomatch hbusy
  | response status body =>
    have hstatus : status = tooManyRequests := of_decide_eq_true hbusy
    simp only [exchangeFrom, StateT.run, bind, StateT.bind, hrun, if_pos hstatus, hrest]
    rfl

end

/-! ## A script of deliveries -/

/-- A service whose deliveries follow a script; it keeps the posts. -/
def scripted (script : Nat → Delivery) : Transport (List Post) := fun post posts =>
  (script posts.length, posts ++ [post])

/-- What the delivery that ends an exchange comes to. -/
def ending (delivery : Delivery) : Except Error String :=
  if delivery.isBusy then .error (.rateLimited retryLimit) else verdict delivery

theorem ending_of_isBusy {delivery : Delivery} (h : delivery.isBusy = true) :
    ending delivery = .error (.rateLimited retryLimit) := if_pos h

theorem ending_of_not_isBusy {delivery : Delivery} (h : delivery.isBusy = false) :
    ending delivery = verdict delivery := if_neg (Bool.not_eq_true _ ▸ h)

/-- A post is repeated as long as the deliveries ask for patience and there is some left. -/
theorem exists_run_exchangeFrom (script : Nat → Delivery) (post : Post) (left : Nat)
    (hleft : left ≤ retryLimit) (posts : List Post) : ∃ repeats ≤ left,
      (∀ k < repeats, (script (posts.length + k)).isBusy = true) ∧
      (repeats < left → (script (posts.length + repeats)).isBusy = false) ∧
      (exchangeFrom (scripted script) post left).run posts =
        (⟨ending (script (posts.length + repeats)),
            List.range' (retryLimit - left + 1) repeats⟩,
          posts ++ List.replicate (repeats + 1) post) := by
  induction left generalizing posts with
  | zero =>
    refine ⟨0, le_refl 0, nofun, nofun, ?_⟩
    have hpost : (scripted script post).run posts = (script posts.length, posts ++ [post]) := rfl
    cases hbusy : (script posts.length).isBusy with
    | true =>
      rw [run_exchangeFrom_zero_of_isBusy hpost hbusy, Nat.add_zero, ending_of_isBusy hbusy]
      rfl
    | false =>
      rw [run_exchangeFrom_of_not_isBusy hpost hbusy, Nat.add_zero, ending_of_not_isBusy hbusy]
      rfl
  | succ left ih =>
    have hpost : (scripted script post).run posts = (script posts.length, posts ++ [post]) := rfl
    cases hbusy : (script posts.length).isBusy with
    | false =>
      refine ⟨0, Nat.zero_le _, nofun, fun _ => hbusy, ?_⟩
      rw [run_exchangeFrom_of_not_isBusy hpost hbusy, Nat.add_zero, ending_of_not_isBusy hbusy]
      rfl
    | true =>
      obtain ⟨repeats, hrepeats, hlead, hend, hrun⟩ :=
        ih (Nat.le_of_succ_le hleft) (posts ++ [post])
      -- The rest of the exchange begins one delivery further on.
      have hplace (k : Nat) : (posts ++ [post]).length + k = posts.length + (k + 1) := by
        simp only [List.length_append, List.length_singleton]
        omega
      rw [hplace] at hend hrun
      refine ⟨repeats + 1, Nat.succ_le_succ hrepeats, fun k hk => ?_,
        fun hlt => hend (Nat.lt_of_succ_lt_succ hlt), ?_⟩
      · cases k with
        | zero => exact hbusy
        | succ k => exact hplace k ▸ hlead k (Nat.lt_of_succ_lt_succ hk)
      · have hattempt : retryLimit - left = retryLimit - (left + 1) + 1 := by omega
        rw [run_exchangeFrom_succ_of_isBusy hpost hbusy left hrun, hattempt, List.range'_succ,
          List.append_assoc, List.singleton_append, ← List.replicate_succ]

theorem backoff_attempts (repeats : Nat) :
    (List.range' 1 repeats).map backoff = (List.range repeats).map fun k => 2000 * 2 ^ k := by
  rw [List.range'_eq_map_range, List.map_map]
  refine List.map_congr_left fun k _ => ?_
  rw [Function.comp_apply, backoff, Nat.add_sub_cancel_left, Nat.shiftLeft_eq]

end Rephrase.Chat
