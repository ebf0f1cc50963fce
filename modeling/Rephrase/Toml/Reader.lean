import Rephrase.Json.Reader
import Rephrase.Toml.Draft
import Rephrase.Toml.Scalar

/-!
Reads a TOML text. Each step takes what it needs from the front of the text and hands back the rest.
-/

namespace Rephrase.Toml

/-! ## Space, comments and lines -/

def isSpace (c : Char) : Bool := c == ' ' || c == '\t'

def skipSpace (cs : List Char) : List Char := cs.dropWhile isSpace

/-- Whether a character may stand for itself: no control character but the tab. -/
def isPlain (c : Char) : Bool := c == '\t' || (0x20 ≤ c.toNat && c.toNat ≠ 0x7F)

def skipComment : List Char → List Char
  | '#' :: rest => rest.dropWhile isPlain
  | cs => cs

def afterBreak? : List Char → Option (List Char)
  | '\n' :: rest => some rest
  | '\r' :: '\n' :: rest => some rest
  | _ => none

/-- What follows the rest of a line that holds nothing more than a comment. -/
def afterLine? (cs : List Char) : Option (List Char) :=
  match skipComment (skipSpace cs) with
  | [] => some []
  | rest => afterBreak? rest

/-- The text without the space, comments and line breaks in front of it. -/
def skipFill (inComment : Bool) : List Char → List Char
  | [] => []
  | '\r' :: '\n' :: rest => skipFill false rest
  | c :: rest =>
    if c = '\n' then skipFill false rest
    else if inComment then if isPlain c then skipFill true rest else c :: rest
    else if isSpace c then skipFill false rest
    else if c = '#' then skipFill true rest
    else c :: rest

/-! ## Strings -/

def charOf? (n : Nat) : Option Char :=
  if n < 0xD800 || (0xE000 ≤ n && n < 0x110000) then some (Char.ofNat n) else none

def escaped? : Char → Option Char
  | 'b' => some '\x08'
  | 't' => some '\t'
  | 'n' => some '\n'
  | 'f' => some '\x0c'
  | 'r' => some '\r'
  | '"' => some '"'
  | '\\' => some '\\'
  | _ => none

def readEscape : List Char → Option (Char × List Char)
  | 'u' :: a :: b :: c :: d :: rest =>
    ((Json.hexUnit? a b c d).bind charOf?).map fun c => (c, rest)
  | 'U' :: a :: b :: c :: d :: e :: f :: g :: h :: rest =>
    let number := (Json.hexUnit? a b c d).bind fun high =>
      (Json.hexUnit? e f g h).map fun low => 65536 * high + low
    (number.bind charOf?).map fun c => (c, rest)
  | c :: rest => (escaped? c).map fun c => (c, rest)
  | [] => none

theorem readEscape_length {cs rest : List Char} {c : Char} (h : readEscape cs = some (c, rest)) :
    rest.length < cs.length := by
  unfold readEscape at h
  split at h
  all_goals first
    | simp at h; done
    | simp only [Option.map_eq_some_iff, Prod.mk.injEq] at h
      obtain ⟨_, _, _, rfl⟩ := h
      simp only [List.length_cons]
      omega

/-- Takes a string in double quotes up to the closing one; `done` is reversed. -/
def readBasic (done : List Char) (cs : List Char) : Option (List Char × List Char) :=
  match cs with
  | '"' :: rest => some (done.reverse, rest)
  | '\\' :: rest =>
    match _taken : readEscape rest with
    | some (c, rest) => readBasic (c :: done) rest
    | none => none
  | c :: rest => if isPlain c then readBasic (c :: done) rest else none
  | [] => none
termination_by cs.length
decreasing_by
  · have := readEscape_length _taken
    simp_all
    omega
  · simp_all

def readLiteral (cs : List Char) : Option (List Char × List Char) :=
  let body := cs.takeWhile fun c => isPlain c && c ≠ '\''
  match cs.dropWhile fun c => isPlain c && c ≠ '\'' with
  | '\'' :: rest => some (body, rest)
  | _ => none

def closeLong (quote : Char) (done : List Char) (cs : List Char) :
    Option (List Char × List Char) :=
  let quotes := (cs.takeWhile (· == quote)).length
  -- Up to two quotes in front of the closing ones belong to the string.
  if 3 ≤ quotes && quotes ≤ 5 then
    some (done.reverse ++ List.replicate (quotes - 3) quote, cs.drop quotes)
  else
    none

/-- The text without the space and line breaks in front of it. -/
def skipBlankLines : List Char → List Char
  | [] => []
  | '\r' :: '\n' :: rest => skipBlankLines rest
  | c :: rest => if isSpace c || c = '\n' then skipBlankLines rest else c :: rest

/-- What follows a backslash at the end of a line. -/
def afterFold? (cs : List Char) : Option (List Char) :=
  (afterBreak? (skipSpace cs)).map skipBlankLines

/-- Takes a string of several lines up to the quotes that close it; `done` is reversed. The fuel
bounds the number of characters. -/
def readLong (quote : Char) (escapes : Bool) (fuel : Nat) (done cs : List Char) :
    Option (List Char × List Char) :=
  match fuel with
  | 0 => none
  | fuel + 1 =>
    match cs with
    | [] => none
    -- A line break counts as a line feed.
    | '\r' :: '\n' :: rest => readLong quote escapes fuel ('\n' :: done) rest
    | '\n' :: rest => readLong quote escapes fuel ('\n' :: done) rest
    | c :: rest =>
      if c = quote then
        if 3 ≤ (cs.takeWhile (· == quote)).length then closeLong quote done cs
        else readLong quote escapes fuel (c :: done) rest
      else if c = '\\' && escapes then
        -- A backslash at the end of a line also takes the blank lines behind it.
        match afterFold? rest with
        | some rest => readLong quote escapes fuel done rest
        | none =>
          match readEscape rest with
          | some (c, rest) => readLong quote escapes fuel (c :: done) rest
          | none => none
      else if isPlain c then readLong quote escapes fuel (c :: done) rest
      else none

def readLongFrom (quote : Char) (escapes : Bool) (cs : List Char) :
    Option (List Char × List Char) :=
  -- A line break right behind the opening quotes does not count.
  let body := (afterBreak? cs).getD cs
  readLong quote escapes (body.length + 1) [] body

def readString : List Char → Option (List Char × List Char)
  | '"' :: '"' :: '"' :: rest => readLongFrom '"' true rest
  | '\'' :: '\'' :: '\'' :: rest => readLongFrom '\'' false rest
  | '"' :: rest => readBasic [] rest
  | '\'' :: rest => readLiteral rest
  | _ => none

/-! ## Keys -/

def isBare (c : Char) : Bool := c.isAlphanum || c == '_' || c == '-'

def readPart (cs : List Char) : Option (String × List Char) :=
  match cs with
  | '"' :: rest => (readBasic [] rest).map fun (s, rest) => (String.ofList s, rest)
  | '\'' :: rest => (readLiteral rest).map fun (s, rest) => (String.ofList s, rest)
  | cs =>
    let part := cs.takeWhile isBare
    if part.isEmpty then none else some (String.ofList part, cs.dropWhile isBare)

/-- A key may have fewer parts than this, and arrays and tables be nested less deep. -/
def maxDepth : Nat := 80

/-- Takes a key: parts with dots between them. It is handed back as the last part and the path in
front of it, which is reversed while it is read. -/
def readKeyFrom (path : List String) (fuel : Nat) (cs : List Char) :
    Option ((List String × String) × List Char) :=
  match fuel with
  | 0 => none
  | fuel + 1 =>
    match readPart (skipSpace cs) with
    | none => none
    | some (part, rest) =>
      match skipSpace rest with
      | '.' :: rest => readKeyFrom (part :: path) fuel rest
      | rest => some ((path.reverse, part), rest)

def readKey (cs : List Char) : Option ((List String × String) × List Char) :=
  readKeyFrom [] (maxDepth - 1) cs

/-! ## Values -/

def isScalarChar (c : Char) : Bool :=
  c.isAlphanum || c == '_' || c == '+' || c == '-' || c == '.' || c == ':'

def readScalar (cs : List Char) : Option (Toml × List Char) :=
  let token := cs.takeWhile isScalarChar
  let rest := cs.dropWhile isScalarChar
  -- A date may be followed by a space and a time.
  let time := match rest with
    | ' ' :: later => later.takeWhile isScalarChar
    | _ => []
  if afterDate? token = some [] && ((time.head?).map Char.isDigit).getD false then
    (scalar? (token ++ ' ' :: time)).map fun value => (value, rest.drop (time.length + 1))
  else
    (scalar? token).map fun value => (value, rest)

mutual

/-- Takes a value that may be nested `depth` deep. The fuel bounds the number of parts. -/
def readValue (depth fuel : Nat) (cs : List Char) : Option (Toml × List Char) :=
  match fuel with
  | 0 => none
  | fuel + 1 =>
    match cs with
    | '[' :: rest =>
      if depth = 0 then none
      else
        match skipFill false rest with
        | ']' :: rest => some (.array [], rest)
        | rest => readItems (depth - 1) fuel [] rest
    | '\x7b' :: rest =>
      if depth = 0 then none
      else
        match skipSpace rest with
        | '\x7d' :: rest => some (.table [], rest)
        | rest => readPairs (depth - 1) fuel Draft.empty rest
    | c :: rest =>
      if c = '"' || c = '\'' then
        (readString (c :: rest)).map fun (s, rest) => (.string (String.ofList s), rest)
      else readScalar (c :: rest)
    | [] => none

/-- Takes the items of an array up to its bracket; `done` is reversed. -/
def readItems (depth fuel : Nat) (done : List Toml) (cs : List Char) :
    Option (Toml × List Char) :=
  match fuel with
  | 0 => none
  | fuel + 1 =>
    match readValue depth fuel cs with
    | none => none
    | some (item, rest) =>
      match skipFill false rest with
      | ']' :: rest => some (.array (item :: done).reverse, rest)
      | ',' :: rest =>
        -- The last item may be followed by a comma.
        match skipFill false rest with
        | ']' :: rest => some (.array (item :: done).reverse, rest)
        | rest => readItems depth fuel (item :: done) rest
      | _ => none

def readPairs (depth fuel : Nat) (draft : Draft) (cs : List Char) :
    Option (Toml × List Char) :=
  match fuel with
  | 0 => none
  | fuel + 1 =>
    match readKey cs with
    | some ((path, key), '=' :: rest) =>
      match readValue depth fuel (skipSpace rest) with
      | none => none
      | some (value, rest) =>
        match draft.put path key value with
        | none => none
        | some draft =>
          match skipSpace rest with
          | ',' :: rest => readPairs depth fuel draft rest
          | '\x7d' :: rest => some (draft.finish, rest)
          | _ => none
    | _ => none

end

/-! ## Texts -/

structure Progress where
  root : Draft
  header : List String

def readLine (progress : Progress) (cs : List Char) : Option (Progress × List Char) :=
  match cs with
  | '[' :: '[' :: rest => do
    let ((path, key), rest) ← readKey rest
    match rest with
    | ']' :: ']' :: rest =>
      let root ← progress.root.change false (Draft.openRow key) path
      return (⟨root, path ++ [key]⟩, ← afterLine? rest)
    | _ => none
  | '[' :: rest => do
    let ((path, key), rest) ← readKey rest
    match rest with
    | ']' :: rest =>
      let root ← progress.root.change false (Draft.openTable key) path
      return (⟨root, path ++ [key]⟩, ← afterLine? rest)
    | _ => none
  | cs => do
    let ((path, key), rest) ← readKey cs
    match rest with
    | '=' :: rest =>
      let (value, rest) ← readValue (maxDepth - 1) (2 * rest.length + 1) (skipSpace rest)
      let root ← progress.root.change false (Draft.put path key value) progress.header
      return (⟨root, progress.header⟩, ← afterLine? rest)
    | _ => none

def readLines (fuel : Nat) (progress : Progress) (cs : List Char) : Option Toml :=
  match fuel with
  | 0 => none
  | fuel + 1 =>
    match skipSpace cs with
    | [] => some progress.root.finish
    -- The fuel bounds the number of lines, of which each takes a character at least.
    | cs =>
      match afterLine? cs with
      | some rest => readLines fuel progress rest
      | none =>
        match readLine progress cs with
        | some (progress, rest) => readLines fuel progress rest
        | none => none

def ofText? (cs : List Char) : Option Toml :=
  -- A byte order mark in front of the text does not count.
  let body := match cs with
    | '\ufeff' :: rest => rest
    | cs => cs
  readLines (body.length + 1) ⟨Draft.empty, []⟩ body

end Rephrase.Toml
