import Mathlib
import Rephrase.Proofs.Oracle.Neutral

/-! The two bracket scans agree: an object in a text ends, by the brackets that match, where the
count of open brackets is back at zero for the first time, and the next one starts behind that. A
bracket of the wrong kind closes a block for the count as well; the block is no object then. -/

namespace Rephrase.Oracle

/-! ## The count of open brackets -/

/-- What the search for objects knows of the text in front of it. The count is an integer here, so
nothing but the search itself keeps it from falling below zero. -/
structure Count where
  depth : Int
  quoting : Quoting

/-- The count behind a character. Outside of every block only an opening brace means something. -/
def Count.next (s : Count) (c : Char) : Count :=
  if s.depth = 0 then ⟨if c = '\x7b' then 1 else 0, .outside⟩
  else if s.quoting ≠ .outside then ⟨s.depth, s.quoting.next c⟩
  else if c = '"' then ⟨s.depth, .inside⟩
  else if isOpening c then ⟨s.depth + 1, .outside⟩
  else if isClosing c then ⟨s.depth - 1, .outside⟩
  else s

def Count.behind (s : Count) (cs : List Char) : Count := cs.foldl Count.next s

/-- How many brackets are open behind the front of a text. -/
def depthBehind (front : List Char) : Int := (Count.behind ⟨0, .outside⟩ front).depth

theorem Count.behind_cons (s : Count) (c : Char) (cs : List Char) :
    s.behind (c :: cs) = (s.next c).behind cs := rfl

theorem Count.behind_append (s : Count) (cs ds : List Char) :
    s.behind (cs ++ ds) = (s.behind cs).behind ds := List.foldl_append

theorem Count.next_of_zero {s : Count} (h : s.depth = 0) (c : Char) :
    s.next c = ⟨if c = '\x7b' then 1 else 0, .outside⟩ := if_pos h

section

variable {d : Int} (hd : 0 < d) {c : Char}

include hd

theorem Count.next_quoted {quoting : Quoting} (h : quoting ≠ .outside) :
    Count.next ⟨d, quoting⟩ c = ⟨d, quoting.next c⟩ := by
  rw [Count.next, if_neg hd.ne', if_pos h]

theorem Count.next_quote : Count.next ⟨d, .outside⟩ '"' = ⟨d, .inside⟩ := by
  rw [Count.next, if_neg hd.ne']
  rfl

theorem Count.next_opening (h : isOpening c = true) :
    Count.next ⟨d, .outside⟩ c = ⟨d + 1, .outside⟩ := by
  rw [Count.next, if_neg hd.ne', if_neg (not_not_intro rfl), if_neg (ne_quote_of_isOpening h),
    if_pos h]

theorem Count.next_closing (h : isClosing c = true) :
    Count.next ⟨d, .outside⟩ c = ⟨d - 1, .outside⟩ := by
  rw [Count.next, if_neg hd.ne', if_neg (not_not_intro rfl), if_neg (ne_quote_of_isClosing h),
    isOpening_of_isClosing h, if_neg (by decide), if_pos h]

theorem Count.next_plain (h : IsPlain c) : Count.next ⟨d, .outside⟩ c = ⟨d, .outside⟩ := by
  rcases h with ⟨hquote, hopening, hclosing⟩
  rw [Count.next, if_neg hd.ne', if_neg (not_not_intro rfl), if_neg hquote, hopening,
    if_neg (by decide), hclosing, if_neg (by decide)]

end

/-- One character takes the count and the search to the same state, in which the count is not below
zero, and a start is found just at an opening brace where no bracket is open. -/
theorem exists_next (depth : Nat) (quoting : Quoting) (c : Char) :
    ∃ (depth' : Nat) (quoting' : Quoting),
      Count.next ⟨depth, quoting⟩ c = ⟨depth', quoting'⟩ ∧
      ∀ rest, objectStartsFrom depth quoting (c :: rest) =
        (if depth = 0 ∧ c = '\x7b' then [c :: rest] else []) ++
          objectStartsFrom depth' quoting' rest := by
  cases depth with
  | zero =>
    rw [Count.next_of_zero rfl]
    by_cases hc : c = '\x7b'
    · exact ⟨1, .outside, by simp [hc], fun rest => by simp [objectStartsFrom, hc]⟩
    · exact ⟨0, .outside, by simp [hc], fun rest => by simp [objectStartsFrom, hc]⟩
  | succ depth =>
    have hpos : (0 : Int) < ((depth + 1 : Nat) : Int) := Int.natCast_pos.mpr depth.succ_pos
    -- Inside a bracket both keep track of strings, and of brackets outside of these.
    by_cases hquoting : quoting ≠ .outside
    · refine ⟨depth + 1, quoting.next c, Count.next_quoted hpos hquoting, fun rest => ?_⟩
      simpa using objectStartsFrom_quoted hquoting
    obtain rfl : quoting = .outside := Decidable.not_not.mp hquoting
    by_cases hquote : c = '"'
    · subst hquote
      refine ⟨depth + 1, .inside, Count.next_quote hpos, fun rest => ?_⟩
      simpa using objectStartsFrom_quote
    by_cases hopening : isOpening c = true
    · refine ⟨depth + 2, .outside, Count.next_opening hpos hopening, fun rest => ?_⟩
      simpa using objectStartsFrom_opening hopening
    have hopening' : isOpening c = false := by simpa using hopening
    by_cases hclosing : isClosing c = true
    · refine ⟨depth, .outside, ?_, fun rest => ?_⟩
      · rw [Count.next_closing hpos hclosing]
        simp
      · simpa using objectStartsFrom_closing hclosing
    · have hclosing' : isClosing c = false := by simpa using hclosing
      refine ⟨depth + 1, .outside, Count.next_plain hpos ⟨hquote, hopening', hclosing'⟩,
        fun rest => ?_⟩
      simpa using objectStartsFrom_plain hquote hopening' hclosing'

/-- Behind any front of a text the search goes on with the count, which is not below zero. -/
theorem exists_behind (depth : Nat) (quoting : Quoting) (front back : List Char) :
    ∃ (depth' : Nat) (quoting' : Quoting) (found : List (List Char)),
      Count.behind ⟨depth, quoting⟩ front = ⟨depth', quoting'⟩ ∧
      objectStartsFrom depth quoting (front ++ back) =
        found ++ objectStartsFrom depth' quoting' back := by
  induction front generalizing depth quoting with
  | nil => exact ⟨depth, quoting, [], rfl, rfl⟩
  | cons c front ih =>
    rcases exists_next depth quoting c with ⟨depth', quoting', hnext, hstarts⟩
    rcases ih depth' quoting' with ⟨depth'', quoting'', found, hbehind, hfound⟩
    refine ⟨depth'', quoting'', (if depth = 0 ∧ c = '\x7b' then [c :: (front ++ back)] else []) ++
      found, by rwa [Count.behind_cons, hnext], ?_⟩
    rw [List.cons_append, hstarts, hfound, List.append_assoc]

theorem exists_depthBehind (front back : List Char) : ∃ (depth : Nat) (quoting : Quoting)
    (found : List (List Char)), depthBehind front = depth ∧
      objectStarts (front ++ back) = found ++ objectStartsFrom depth quoting back := by
  rcases exists_behind 0 .outside front back with ⟨depth, quoting, found, hbehind, hfound⟩
  exact ⟨depth, quoting, found, congrArg Count.depth hbehind, hfound⟩

theorem zero_le_depthBehind (front : List Char) : 0 ≤ depthBehind front := by
  rcases exists_depthBehind front [] with ⟨depth, -, -, hdepth, -⟩
  rw [hdepth]
  exact Int.natCast_nonneg depth

theorem mem_objectStartsFrom {depth : Nat} {quoting : Quoting} {cs start : List Char} :
    start ∈ objectStartsFrom depth quoting cs ↔ ∃ front, cs = front ++ start ∧
      start.head? = some '\x7b' ∧ (Count.behind ⟨depth, quoting⟩ front).depth = 0 := by
  induction cs generalizing depth quoting with
  | nil =>
    simp only [objectStartsFrom, List.not_mem_nil, false_iff]
    rintro ⟨front, hsplit, hhead, -⟩
    rcases List.append_eq_nil_iff.mp hsplit.symm with ⟨-, rfl⟩
    cases hhead
  | cons c cs ih =>
    rcases exists_next depth quoting c with ⟨depth', quoting', hnext, hstarts⟩
    rw [hstarts, List.mem_append, ih]
    constructor
    · rintro (hhere | ⟨front, rfl, hhead, hdepth⟩)
      -- A start is found here, or behind this character.
      · split at hhere
        · rename_i hbrace
          rcases List.mem_singleton.mp hhere with rfl
          exact ⟨[], rfl, by rw [hbrace.2]; rfl, by rw [hbrace.1]; rfl⟩
        · cases hhere
      · exact ⟨c :: front, rfl, hhead, by rwa [Count.behind_cons, hnext]⟩
    · rintro ⟨front, hsplit, hhead, hdepth⟩
      cases front with
      | nil =>
        obtain rfl : c :: cs = start := hsplit
        obtain rfl : c = '\x7b' := by simpa using hhead
        have hzero : depth = 0 := Int.natCast_eq_zero.mp hdepth
        exact .inl (by simp [hzero])
      | cons d front =>
        rcases List.cons.inj hsplit with ⟨rfl, rfl⟩
        rw [Count.behind_cons, hnext] at hdepth
        exact .inr ⟨front, rfl, hhead, hdepth⟩

/-- The search starts at the opening braces where no bracket is open. -/
theorem mem_objectStarts {cs start : List Char} : start ∈ objectStarts cs ↔
    ∃ front, cs = front ++ start ∧ start.head? = some '\x7b' ∧ depthBehind front = 0 :=
  mem_objectStartsFrom

theorem pairwise_objectStartsFrom (depth : Nat) (quoting : Quoting) (cs : List Char) :
    (objectStartsFrom depth quoting cs).Pairwise (fun a b => b.length < a.length) := by
  induction cs generalizing depth quoting with
  | nil => exact .nil
  | cons c cs ih =>
    rcases exists_next depth quoting c with ⟨depth', quoting', -, hstarts⟩
    rw [hstarts]
    split
    · refine .cons (fun start hstart => ?_) (ih depth' quoting')
      rcases mem_objectStartsFrom.mp hstart with ⟨front, rfl, -⟩
      rw [List.length_cons, List.length_append]
      omega
    · exact ih depth' quoting'

/-! ## Texts whose brackets match -/

/-- The rest of a quoted text, up to the quote that closes it. -/
inductive IsQuoted : List Char → Prop where
  | closed : IsQuoted ['"']
  | plain {c : Char} {rest : List Char} (hquote : c ≠ '"') (hbackslash : c ≠ '\\')
      (hrest : IsQuoted rest) : IsQuoted (c :: rest)
  | escaped (c : Char) {rest : List Char} (hrest : IsQuoted rest) : IsQuoted ('\\' :: c :: rest)

/-- A text in which each bracket outside of quotes is closed by one of its own kind. -/
inductive IsMatched : List Char → Prop where
  | nil : IsMatched []
  | plain {c : Char} {rest : List Char} (hc : IsPlain c) (hrest : IsMatched rest) :
      IsMatched (c :: rest)
  | quoted {inner rest : List Char} (hinner : IsQuoted inner) (hrest : IsMatched rest) :
      IsMatched ('"' :: (inner ++ rest))
  | nested {c : Char} {inner rest : List Char} (hc : isOpening c = true)
      (hinner : IsMatched inner) (hrest : IsMatched rest) :
      IsMatched (c :: (inner ++ closingOf c :: rest))

/-- Braces around a text whose brackets match. -/
def IsObject (block : List Char) : Prop :=
  ∃ inner, IsMatched inner ∧ block = '\x7b' :: (inner ++ ['\x7d'])

theorem IsQuoted.closing {w : List Char} (h : IsQuoted w) : Closing w := by
  induction h with
  | closed => exact .quote
  | plain hquote hbackslash _ ih => exact ih.cons hquote hbackslash
  | escaped _ _ ih => exact ih.escape

theorem IsMatched.neutral {w : List Char} (h : IsMatched w) : Neutral w := by
  induction h with
  | nil => exact .nil
  | @plain c rest hc _ ih =>
    have hone : Neutral [c] := .of_forall (by simpa using hc)
    exact hone.append ih
  | quoted hinner _ ih => exact hinner.closing.neutral.append ih
  | @nested c inner rest hc _ _ ihinner ihrest =>
    have happend := (ihinner.enclose hc).append ihrest
    simpa using happend

theorem IsMatched.append {v w : List Char} (hv : IsMatched v) (hw : IsMatched w) :
    IsMatched (v ++ w) := by
  induction hv with
  | nil => exact hw
  | plain hc _ ih => exact .plain hc ih
  | quoted hinner _ ih =>
    rw [List.cons_append, List.append_assoc]
    exact .quoted hinner ih
  | nested hc hinner _ _ ih =>
    rw [List.cons_append, List.append_assoc, List.cons_append]
    exact .nested hc hinner ih

/-- A text that closes all pending brackets, the innermost first, and ends with the last of them. -/
inductive Unwinds : List Char → List Char → Prop where
  | nil : Unwinds [] []
  | cons {due : Char} {inner outer rest : List Char} (hinner : IsMatched inner)
      (hrest : Unwinds outer rest) : Unwinds (due :: outer) (inner ++ due :: rest)

theorem Unwinds.prepend {pending v w : List Char} (hv : IsMatched v) (hpending : pending ≠ [])
    (h : Unwinds pending w) : Unwinds pending (v ++ w) := by
  cases h with
  | nil => exact absurd rfl hpending
  | cons hinner hrest =>
    rw [← List.append_assoc]
    exact .cons (hv.append hinner) hrest

theorem Unwinds.opening {pending w : List Char} {c : Char} (hc : isOpening c = true)
    (hpending : pending ≠ []) (h : Unwinds (closingOf c :: pending) w) :
    Unwinds pending (c :: w) := by
  cases h with
  | @cons _ inner _ rest hinner hrest =>
    have hnested : IsMatched (c :: (inner ++ [closingOf c])) := .nested hc hinner .nil
    simpa using hrest.prepend hnested hpending

/-- What unwinds the pending brackets, if the text before it ends inside quotes or behind a
backslash. -/
def UnwindsFrom (pending : List Char) : Quoting → List Char → Prop
  | .outside, w => Unwinds pending w
  | .inside, w => ∃ inner rest, w = inner ++ rest ∧ IsQuoted inner ∧ Unwinds pending rest
  | .escaped, w => ∃ c inner rest, w = c :: (inner ++ rest) ∧ IsQuoted inner ∧
      Unwinds pending rest

theorem UnwindsFrom.quoted {pending w : List Char} {quoting : Quoting} {c : Char}
    (hquoting : quoting ≠ .outside) (h : UnwindsFrom pending (quoting.next c) w) :
    UnwindsFrom pending quoting (c :: w) := by
  cases quoting with
  | outside => exact absurd rfl hquoting
  | escaped =>
    rcases h with ⟨inner, rest, rfl, hinner, hrest⟩
    exact ⟨c, inner, rest, rfl, hinner, hrest⟩
  | inside =>
    by_cases hbackslash : c = '\\'
    · subst hbackslash
      rcases h with ⟨d, inner, rest, rfl, hinner, hrest⟩
      exact ⟨'\\' :: d :: inner, rest, rfl, .escaped d hinner, hrest⟩
    by_cases hquote : c = '"'
    · subst hquote
      exact ⟨['"'], w, rfl, .closed, h⟩
    · have hnext : Quoting.next c .inside = .inside := by simp [Quoting.next, hquote, hbackslash]
      rw [hnext] at h
      rcases h with ⟨inner, rest, rfl, hinner, hrest⟩
      exact ⟨c :: inner, rest, rfl, .plain hquote hbackslash hinner, hrest⟩

/-- What the typed scan takes unwinds the brackets that it started with. -/
theorem Scans.unwindsFrom {pending w : List Char} {quoting : Quoting}
    (h : Scans pending quoting w) : UnwindsFrom pending quoting w := by
  induction h with
  | quoted hquoting _ ih => exact ih.quoted hquoting
  | quote _ ih =>
    rcases ih with ⟨inner, rest, rfl, hinner, hrest⟩
    have hquoted : IsMatched ('"' :: (inner ++ [])) := .quoted hinner .nil
    have hw := hrest.prepend hquoted (List.cons_ne_nil _ _)
    rwa [List.append_nil] at hw
  | opening hopening _ ih => exact Unwinds.opening hopening (List.cons_ne_nil _ _) ih
  | closing _ _ ih => exact .cons .nil ih
  | last => exact .cons .nil .nil
  | plain hquote hopening hclosing _ ih =>
    have hplain : IsMatched [_] := .plain ⟨hquote, hopening, hclosing⟩ .nil
    exact Unwinds.prepend hplain (List.cons_ne_nil _ _) ih

theorem IsObject.isBlock {block : List Char} (h : IsObject block) : IsBlock block := by
  rcases h with ⟨inner, hinner, rfl⟩
  refine ⟨rfl, ?_⟩
  rw [balanced?, balancedFrom_opening rfl]
  show balancedFrom ['\x7b'] ['\x7d'] .outside (inner ++ ['\x7d']) = _
  rw [hinner.neutral, balancedFrom_last rfl]
  simp

theorem isObject_of_balanced? {cs block : List Char} (hhead : cs.head? = some '\x7b')
    (h : balanced? cs = some block) : IsObject block := by
  rcases List.head?_eq_some_iff.mp hhead with ⟨rest, rfl⟩
  rw [balanced?, balancedFrom_opening rfl] at h
  rcases exists_scans_of_balancedFrom h with ⟨w, -, -, rfl, hw⟩
  have hunwinds : Unwinds ['\x7d'] w := hw.unwindsFrom
  cases hunwinds with
  | cons hinner hrest =>
    cases hrest
    exact ⟨_, hinner, rfl⟩

theorem IsBlock.isObject {block : List Char} (h : IsBlock block) : IsObject block :=
  isObject_of_balanced? h.head h.balanced

/-- The typed scan takes the front of a text that is an object, and nothing if there is none. -/
theorem balanced?_eq_some_iff {cs block : List Char} (hhead : cs.head? = some '\x7b') :
    balanced? cs = some block ↔ IsObject block ∧ block <+: cs := by
  constructor
  · intro h
    refine ⟨isObject_of_balanced? hhead h, ?_⟩
    rcases List.head?_eq_some_iff.mp hhead with ⟨rest, rfl⟩
    rw [balanced?, balancedFrom_opening rfl] at h
    rcases exists_scans_of_balancedFrom h with ⟨w, tail, rfl, rfl, -⟩
    exact ⟨tail, rfl⟩
  · rintro ⟨hblock, tail, rfl⟩
    exact (hblock.isBlock.takes tail).1

/-! ## The count along an object -/

/-- A text leads from one state of the count to another, and never below a depth on the way. -/
structure Count.Leads (least : Int) (s : Count) (cs : List Char) (t : Count) : Prop where
  behind : s.behind cs = t
  least_le : ∀ front, front <+: cs → least ≤ (s.behind front).depth

section

variable {least : Int} {s t u : Count} {cs ds : List Char}

theorem Count.Leads.nil (h : least ≤ s.depth) : Count.Leads least s [] s := by
  refine ⟨rfl, fun front hfront => ?_⟩
  rw [List.prefix_nil.mp hfront]
  exact h

theorem Count.Leads.cons {c : Char} (h : least ≤ s.depth)
    (hrest : Count.Leads least (s.next c) cs t) : Count.Leads least s (c :: cs) t := by
  refine ⟨hrest.behind, fun front hfront => ?_⟩
  rcases List.prefix_cons_iff.mp hfront with rfl | ⟨more, rfl, hmore⟩
  · exact h
  · exact hrest.least_le more hmore

theorem Count.Leads.append (h : Count.Leads least s cs t) (h' : Count.Leads least t ds u) :
    Count.Leads least s (cs ++ ds) u := by
  refine ⟨by rw [Count.behind_append, h.behind, h'.behind], fun front hfront => ?_⟩
  obtain hshort | ⟨more, rfl⟩ :=
    List.prefix_or_prefix_of_prefix hfront (List.prefix_append cs ds)
  · exact h.least_le front hshort
  · rw [Count.behind_append, h.behind]
    exact h'.least_le more ((List.prefix_append_right_inj cs).mp hfront)

theorem Count.Leads.mono {least' : Int} (hle : least' ≤ least) (h : Count.Leads least s cs t) :
    Count.Leads least' s cs t :=
  ⟨h.behind, fun front hfront => hle.trans (h.least_le front hfront)⟩

end

theorem IsQuoted.leads {d : Int} (hd : 0 < d) {w : List Char} (h : IsQuoted w) :
    Count.Leads d ⟨d, .inside⟩ w ⟨d, .outside⟩ := by
  induction h with
  | closed =>
    refine .cons le_rfl ?_
    rw [Count.next_quoted hd (by decide)]
    exact .nil le_rfl
  | plain hquote hbackslash _ ih =>
    refine .cons le_rfl ?_
    rw [Count.next_quoted hd (by decide)]
    simpa [Quoting.next, hquote, hbackslash] using ih
  | escaped c _ ih =>
    refine .cons le_rfl ?_
    rw [Count.next_quoted hd (by decide)]
    refine .cons le_rfl ?_
    rw [Count.next_quoted hd (by decide)]
    exact ih

/-- A text whose brackets match comes back to the depth that it starts at. -/
theorem IsMatched.leads {d : Int} (hd : 0 < d) {w : List Char} (h : IsMatched w) :
    Count.Leads d ⟨d, .outside⟩ w ⟨d, .outside⟩ := by
  induction h generalizing d with
  | nil => exact .nil le_rfl
  | plain hc _ ih =>
    refine .cons le_rfl ?_
    rw [Count.next_plain hd hc]
    exact ih hd
  | quoted hinner _ ih =>
    refine .cons le_rfl ?_
    rw [Count.next_quote hd]
    exact (hinner.leads hd).append (ih hd)
  | @nested c inner rest hc _ _ ihinner ihrest =>
    have hlow : d ≤ d + 1 := Int.le_add_one le_rfl
    have hhigh : 0 < d + 1 := hd.trans_le hlow
    refine .cons le_rfl ?_
    rw [Count.next_opening hd hc]
    refine ((ihinner hhigh).mono hlow).append (.cons hlow ?_)
    rw [Count.next_closing hhigh (isClosing_closingOf c), Int.add_sub_cancel]
    exact ihrest hd

/-- A block ends where the count comes back to zero for the first time behind its first brace. -/
structure EndsAtZero (front block : List Char) : Prop where
  closed : depthBehind (front ++ block) = 0
  opened : ∀ w, w <+: block → w ≠ [] → w ≠ block → 0 < depthBehind (front ++ w)

theorem IsObject.endsAtZero {front block : List Char} (h : IsObject block)
    (hfront : depthBehind front = 0) : EndsAtZero front block := by
  rcases h with ⟨inner, hinner, rfl⟩
  have hbehind : ∀ w, depthBehind (front ++ '\x7b' :: w) =
      (Count.behind ⟨1, .outside⟩ w).depth := by
    intro w
    rw [depthBehind, Count.behind_append, Count.behind_cons, Count.next_of_zero hfront]
    rfl
  have hleads := hinner.leads Int.one_pos
  constructor
  · rw [hbehind, Count.behind_append, hleads.behind]
    rfl
  · intro w hw hnil hwhole
    rcases List.prefix_cons_iff.mp hw with rfl | ⟨v, rfl, hv⟩
    · exact absurd rfl hnil
    · rcases List.prefix_concat_iff.mp hv with rfl | hv
      · exact absurd rfl hwhole
      · rw [hbehind]
        exact Int.one_pos.trans_le (hleads.least_le v hv)

/-! ## Objects in a text -/

/-- Whether a brace in a text opens a block that is still open at the end of the text: the count has
not been back at zero since. -/
def HasOpenBlock (front : List Char) : Prop :=
  ∃ before within, front = before ++ '\x7b' :: within ∧ depthBehind before = 0 ∧
    ∀ w, w <+: within → 0 < depthBehind (before ++ '\x7b' :: w)

theorem hasOpenBlock_iff {front : List Char} : HasOpenBlock front ↔ depthBehind front ≠ 0 := by
  constructor
  · rintro ⟨before, within, rfl, -, hopen⟩
    exact (hopen within (List.prefix_refl within)).ne'
  · intro hdepth
    -- On the text from its end: the block was open already, or the last character opens it.
    induction front using List.reverseRecOn with
    | nil => exact absurd rfl hdepth
    | append_singleton front c ih =>
      have hpos := (zero_le_depthBehind (front ++ [c])).lt_of_ne' hdepth
      by_cases hfront : depthBehind front = 0
      · have hnext : depthBehind (front ++ [c]) = if c = '\x7b' then 1 else 0 := by
          rw [depthBehind, Count.behind_append, Count.behind_cons, Count.next_of_zero hfront]
          rfl
        obtain rfl : c = '\x7b' := by
          by_contra hc
          rw [hnext, if_neg hc] at hdepth
          exact hdepth rfl
        refine ⟨front, [], rfl, hfront, fun w hw => ?_⟩
        rwa [List.prefix_nil.mp hw]
      · rcases ih hfront with ⟨before, within, rfl, hbefore, hopen⟩
        refine ⟨before, within ++ [c], by simp, hbefore, fun w hw => ?_⟩
        rcases List.prefix_concat_iff.mp hw with rfl | hw
        · simpa using hpos
        · exact hopen w hw

/-- The front of an object that is cut off. -/
def IsCutOff (front : List Char) : Prop := ∃ lost, lost ≠ [] ∧ IsObject (front ++ lost)

/-- Where nothing is open by the count, no object in front is cut off there by its brackets. -/
theorem not_isCutOff {before front : List Char} (hbefore : depthBehind before = 0)
    (hfront : depthBehind (before ++ front) = 0) (hne : front ≠ []) : ¬IsCutOff front := by
  rintro ⟨lost, hlost, hobject⟩
  have hwhole : front ≠ front ++ lost := fun heq => hlost (List.self_eq_append_right.mp heq)
  have hopen := (hobject.endsAtZero hbefore).opened front (List.prefix_append front lost) hne hwhole
  exact hopen.ne' hfront

/-- A block in a text, with what stands on either side of it. -/
structure Placed where
  front : List Char
  block : List Char
  back : List Char

/-- The block that the typed scan takes at a start. -/
def placedAt? (cs start : List Char) : Option Placed :=
  (balanced? start).map fun block =>
    ⟨cs.take (cs.length - start.length), block, start.drop block.length⟩

def placed (cs : List Char) : List Placed := (objectStarts cs).filterMap (placedAt? cs)

theorem objectTexts_eq_map (cs : List Char) : objectTexts cs = (placed cs).map (·.block) := by
  rw [objectTexts, placed, List.map_filterMap]
  congr 1
  funext start
  rw [placedAt?, Option.map_map]
  exact (Option.map_id' (x := balanced? start)).symm

theorem placedAt?_eq_some_iff {front start : List Char} (hhead : start.head? = some '\x7b')
    {p : Placed} : placedAt? (front ++ start) start = some p ↔
      p.front = front ∧ start = p.block ++ p.back ∧ IsObject p.block := by
  have hfront : (front ++ start).take ((front ++ start).length - start.length) = front := by simp
  rw [placedAt?, hfront, Option.map_eq_some_iff]
  constructor
  · rintro ⟨block, hblock, rfl⟩
    rcases (balanced?_eq_some_iff hhead).mp hblock with ⟨hobject, tail, rfl⟩
    exact ⟨rfl, by simp, hobject⟩
  · rcases p with ⟨front', block, back⟩
    rintro ⟨rfl, rfl, hobject⟩
    refine ⟨block, (balanced?_eq_some_iff hhead).mpr ⟨hobject, back, rfl⟩, ?_⟩
    rw [List.drop_left]

theorem mem_placed {cs : List Char} {p : Placed} : p ∈ placed cs ↔
    cs = p.front ++ p.block ++ p.back ∧ depthBehind p.front = 0 ∧ IsObject p.block := by
  rw [placed, List.mem_filterMap]
  constructor
  · rintro ⟨start, hstart, hp⟩
    rcases mem_objectStarts.mp hstart with ⟨front, rfl, hhead, hdepth⟩
    rcases (placedAt?_eq_some_iff hhead).mp hp with ⟨rfl, rfl, hobject⟩
    exact ⟨(List.append_assoc _ _ _).symm, hdepth, hobject⟩
  · rintro ⟨rfl, hdepth, hobject⟩
    rw [List.append_assoc]
    have hhead : (p.block ++ p.back).head? = some '\x7b' := by
      rw [List.head?_append, hobject.isBlock.head, Option.some_or]
    exact ⟨p.block ++ p.back, mem_objectStarts.mpr ⟨p.front, rfl, hhead, hdepth⟩,
      (placedAt?_eq_some_iff hhead).mpr ⟨rfl, rfl, hobject⟩⟩

/-- An object that is found behind the start of another one is found behind its end. -/
theorem prefix_front {cs : List Char} {p q : Placed} (hp : p ∈ placed cs) (hq : q ∈ placed cs)
    (hlength : p.front.length < q.front.length) : p.front ++ p.block <+: q.front := by
  rcases mem_placed.mp hp with ⟨hsplit, hfront, hobject⟩
  rcases mem_placed.mp hq with ⟨hsplit', hfront', -⟩
  have hblock : p.front ++ p.block <+: cs := ⟨p.back, hsplit.symm⟩
  have hother : q.front <+: cs := ⟨q.block ++ q.back, by rw [hsplit', List.append_assoc]⟩
  rcases le_or_gt (p.front ++ p.block).length q.front.length with hle | hlt
  · exact List.prefix_of_prefix_length_le hblock hother hle
  · -- It would start within the block, where the count is not zero.
    obtain ⟨w, hw⟩ := List.prefix_of_prefix_length_le ⟨p.block ++ p.back, by
      rw [hsplit, List.append_assoc]⟩ hother hlength.le
    have hprefix := List.prefix_of_prefix_length_le hother hblock hlt.le
    rw [← hw] at hprefix hfront' hlength hlt
    have hopen := (hobject.endsAtZero hfront).opened w
      ((List.prefix_append_right_inj p.front).mp hprefix)
      (by rintro rfl; simp at hlength) (by rintro rfl; simp at hlt)
    exact absurd hfront' hopen.ne'

theorem pairwise_placed (cs : List Char) :
    (placed cs).Pairwise (fun p q => p.front ++ p.block <+: q.front) := by
  have hlength : (placed cs).Pairwise (fun p q => p.front.length < q.front.length) := by
    refine List.pairwise_filterMap.mpr
      ((pairwise_objectStartsFrom 0 .outside cs).imp_of_mem ?_)
    intro start start' hstart hstart' hlt p hp q hq
    rcases mem_objectStarts.mp hstart with ⟨front, hsplit, hhead, -⟩
    rcases mem_objectStarts.mp hstart' with ⟨front', hsplit', hhead', -⟩
    have hlength := congrArg List.length (hsplit.symm.trans hsplit')
    rw [List.length_append, List.length_append] at hlength
    rw [hsplit] at hp
    rw [hsplit'] at hq
    rw [((placedAt?_eq_some_iff hhead).mp hp).1, ((placedAt?_eq_some_iff hhead').mp hq).1]
    omega
  exact hlength.imp_of_mem fun hp hq => prefix_front hp hq

/-- The two bracket scans agree on every text. The search starts at the opening braces that stand in
no block that an earlier brace has opened. The objects that are found are parts of the text, one
behind the other: all the parts that begin at such a brace and in which each bracket outside of
quotes is closed by its own kind. Each of them ends where the count of open brackets is back at zero
for the first time, and none is within the front of another object, not even of one that is cut off.
The count, which the search holds at every character, is never below zero. -/
theorem objects_of_text (cs : List Char) :
    (∀ start, start ∈ objectStarts cs ↔
      ∃ front, cs = front ++ start ∧ start.head? = some '\x7b' ∧ ¬HasOpenBlock front) ∧
    (∃ finds : List Placed, objectTexts cs = finds.map (·.block) ∧
      finds.Pairwise (fun p q => p.front ++ p.block <+: q.front) ∧
      (∀ p, p ∈ finds ↔
        cs = p.front ++ p.block ++ p.back ∧ ¬HasOpenBlock p.front ∧ IsObject p.block) ∧
      ∀ p ∈ finds, EndsAtZero p.front p.block ∧ ∀ before front, p.front = before ++ front →
        ¬HasOpenBlock before → front ≠ [] → ¬IsCutOff front) ∧
    ∀ front back, cs = front ++ back → 0 ≤ depthBehind front ∧ ∃ quoting found,
      objectStarts cs = found ++ objectStartsFrom (depthBehind front).toNat quoting back := by
  -- That no block is open is that the count is zero, which the search goes by.
  have hopen : ∀ front, ¬HasOpenBlock front ↔ depthBehind front = 0 := by
    intro front
    rw [hasOpenBlock_iff, not_not]
  have hends : ∀ p ∈ placed cs, EndsAtZero p.front p.block ∧
      ∀ before front, p.front = before ++ front → ¬HasOpenBlock before → front ≠ [] →
        ¬IsCutOff front := by
    intro p hp
    rcases mem_placed.mp hp with ⟨-, hfront, hobject⟩
    refine ⟨hobject.endsAtZero hfront, fun before front hsplit hbefore hne => ?_⟩
    rw [hsplit] at hfront
    exact not_isCutOff ((hopen before).mp hbefore) hfront hne
  have hcount : ∀ front back, cs = front ++ back → 0 ≤ depthBehind front ∧ ∃ quoting found,
      objectStarts cs = found ++ objectStartsFrom (depthBehind front).toNat quoting back := by
    intro front back hsplit
    rcases exists_depthBehind front back with ⟨depth, quoting, found, hdepth, hfound⟩
    refine ⟨zero_le_depthBehind front, quoting, found, ?_⟩
    rw [hsplit, hdepth, Int.toNat_natCast]
    exact hfound
  refine ⟨fun start => ?_, ⟨placed cs, objectTexts_eq_map cs, pairwise_placed cs, fun p => ?_,
    hends⟩, hcount⟩
  · simp only [hopen]
    exact mem_objectStarts
  · rw [hopen]
    exact mem_placed

/-- An object between a block that a bracket of the wrong kind closes and one that nothing closes. -/
theorem object_between_remarks :
    EndsAtZero "As \x7basked]: ".toList "\x7b\"a\": \"\x7d\\\"[\", \"b\": [1]\x7d".toList := by
  have htext := objects_of_text
    "As \x7basked]: \x7b\"a\": \"\x7d\\\"[\", \"b\": [1]\x7d and \x7b".toList
  rcases htext with ⟨-, ⟨finds, -, -, hmem, hends⟩, -⟩
  have hobject : IsObject "\x7b\"a\": \"\x7d\\\"[\", \"b\": [1]\x7d".toList :=
    IsBlock.isObject ⟨rfl, by decide⟩
  have hfront : ¬HasOpenBlock "As \x7basked]: ".toList := by
    rw [hasOpenBlock_iff]
    decide
  exact (hends ⟨_, _, " and \x7b".toList⟩ ((hmem _).mpr ⟨by decide, hfront, hobject⟩)).1

end Rephrase.Oracle
