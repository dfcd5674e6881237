/-
Flag values: comma-separated entries `specification=tag`.

Blank parts are skipped, blanks around a specification or a tag do not count, and
the tag is all that follows the first equals sign.  If a specification comes twice,
the later tag holds.
-/
import ThreadAffinity.External.Entries
import ThreadAffinity.Text.Blank
import ThreadAffinity.Text.Quoted

namespace ThreadAffinity

open Text

/-- A part of a flag value that gives no tag. -/
structure FlagError where
  /-- The part, without outer blanks. -/
  entry : String
deriving DecidableEq, Repr

/-- The wording of a flag error. -/
def FlagError.message (e : FlagError) : String :=
  "entry " ++ quoted e.entry ++ ": missing thread tag"

namespace Entries

/-- The parts of a flag value that are not blank, without the blanks around them. -/
def flagParts (text : List Char) : List (List Char) :=
  ((splitWhen (· == ',') text).map trim).filter (! ·.isEmpty)

/-- Reads one part of a flag value. -/
def flagEntry (part : List Char) : Except FlagError (String × String) :=
  match cutFirst '=' part with
  | some (spec, tag) =>
    if (trim tag).isEmpty then .error ⟨String.ofList part⟩
    else .ok (String.ofList (trim spec), String.ofList (trim tag))
  | none => .error ⟨String.ofList part⟩

/-- Reads a flag value.  The first part without a tag is the error. -/
def parseFlag (text : String) : Except FlagError Entries := do
  let pairs ← (flagParts text.toList).mapM flagEntry
  return insertAll [] pairs

end Entries

end ThreadAffinity
