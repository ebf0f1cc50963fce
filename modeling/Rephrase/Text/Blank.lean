/-!
Blank characters, and what a text is once they are set aside: trimmed, split into words, or
collapsed to single spaces.
-/

namespace Rephrase.Text

/-- The 25 characters with the White_Space property. -/
def isBlank (c : Char) : Bool :=
  -- The separators U+001C to U+001F, the zero-width space and the byte order mark do not have it.
  let n := c.toNat
  (9 ≤ n && n ≤ 13) || n == 0x20 || n == 0x85 || n == 0xA0 || n == 0x1680 ||
    (0x2000 ≤ n && n ≤ 0x200A) || n == 0x2028 || n == 0x2029 || n == 0x202F ||
    n == 0x205F || n == 0x3000

def stripStart (strip : Char → Bool) (cs : List Char) : List Char :=
  cs.dropWhile strip

def stripEnd (strip : Char → Bool) (cs : List Char) : List Char :=
  (cs.reverse.dropWhile strip).reverse

def strip (drop : Char → Bool) (cs : List Char) : List Char :=
  stripEnd drop (stripStart drop cs)

def trim (cs : List Char) : List Char :=
  strip isBlank cs

/-- The longest runs of characters that are not blank, in order. -/
def words (cs : List Char) : List (List Char) :=
  (cs.splitOnP isBlank).filter fun w => !w.isEmpty

def unwords (ws : List (List Char)) : List Char :=
  [' '].intercalate ws

/-- Every run of blanks, line breaks included, becomes one space; none is left at the ends. -/
def collapse (cs : List Char) : List Char :=
  unwords (words cs)

end Rephrase.Text
