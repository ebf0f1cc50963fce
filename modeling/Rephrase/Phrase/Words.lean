import Rephrase.Text.Blank
import Rephrase.Text.Lowercase

/-!
The words of a phrase as they are compared: in lower case and without the punctuation around them.
-/

namespace Rephrase.Phrase

/-- A word without what is neither letter nor number at its ends, in lower case. -/
def plainWord (word : List Char) : List Char :=
  Text.lowercase (Text.strip (fun c => !Text.isAlphanumeric c) word)

def words (cs : List Char) : List (List Char) :=
  -- A word of punctuation alone does not count.
  ((Text.words cs).map plainWord).filter fun w => !w.isEmpty

end Rephrase.Phrase
