import Subtyping.Text.Blank

/-!
# Log formats

The names of the layouts in which a log may be written.
-/

namespace Subtyping

inductive LogFormat
  | text
  | tree
  | json
deriving DecidableEq

namespace LogFormat

/-- Whether a name spells a word, blanks at its ends and case aside. Every letter of the word
is an ASCII letter, and no character outside ASCII has one as its lower case. -/
def spells (name word : String) : Bool :=
  (Text.trim name.toList).map Char.toLower == word.toList

/-- The format that a name asks for; an unknown name asks for plain text. -/
def ofName (name : String) : LogFormat :=
  if spells name "tree" then .tree
  else if spells name "json" then .json
  else .text

end LogFormat

end Subtyping
