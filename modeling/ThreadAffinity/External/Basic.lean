/-
Tags of functions outside the package.

They come from an annotations file and from two flags, one for each kind.  Flag
entries replace file entries for the same specification.  Affinity entries come
first, and within a kind the entries are in the order of their specifications.
Any fault leaves no entry at all.
-/
import ThreadAffinity.External.File
import ThreadAffinity.External.Flag
import ThreadAffinity.FunctionSpec
import ThreadAffinity.Tag

namespace ThreadAffinity

open Text

/-- A tag for every function that a specification names. -/
structure External where
  spec : FunctionSpec
  kind : Kind
  tag : Tag
deriving DecidableEq, Repr

/-- Where external tags come from. -/
structure ExternalSources where
  /-- The path of the annotations file, empty for none. -/
  path : String := ""
  /-- The contents of the file at that path, if there is one. -/
  contents : Option String := none
  /-- The value of the affinity flag. -/
  thread : String := ""
  /-- The value of the dispatch flag. -/
  dispatch : String := ""
  /-- How the contents of the file are read. -/
  decoder : AnnotationFile.Decoder := AnnotationFile.decode

/-- Why the external tags cannot be had. -/
inductive ExternalError where
  /-- The annotations file cannot be read. -/
  | file (cause : AnnotationFile.LoadError)
  /-- A flag has an entry without a tag. -/
  | flag (kind : Kind) (cause : FlagError)
  /-- A key is no function specification. -/
  | spec (cause : FunctionSpec.ParseError)
  /-- The tag of a key is blank. -/
  | blankTag (key : String)
deriving DecidableEq, Repr

namespace ExternalError

/-- The name of the flag with entries of a kind. -/
def flagName : Kind → String
  | .affinity => "-external-thread"
  | .dispatch => "-external-dispatch"

/-- The wording of an error. -/
def message : ExternalError → String
  | file cause => cause.message
  | flag kind cause => flagName kind ++ ": " ++ cause.message
  | spec cause => cause.message
  | blankTag key => key ++ ": missing thread tag"

end ExternalError

namespace External

/-- An entry whose kind is given by number.  A number without a kind gives no tag. -/
def ofNumber (spec : FunctionSpec) (kind : Int) (tag : Tag) : External :=
  match Kind.ofNumber? kind with
  | some k => { spec, kind := k, tag }
  | none => { spec, kind := .affinity, tag := ⟨""⟩ }

/-- The entries of the file, by key without outer blanks, with those of the flag over them. -/
def merge (file flag : List (String × String)) : Entries :=
  Entries.insertAll (Entries.insertAll [] (file.map fun (key, value) => (trimmed key, value))) flag

/-- The tag that one entry gives. -/
def ofEntry (kind : Kind) (key value : String) : Except ExternalError External :=
  match FunctionSpec.parse key with
  | .error cause => .error (.spec cause)
  | .ok spec =>
    if (Tag.ofText value).isEmpty then .error (.blankTag key)
    else .ok { spec, kind, tag := Tag.ofText value }

/-- The tags that the entries of a kind give. -/
def ofEntries (kind : Kind) (entries : Entries) : Except ExternalError (List External) :=
  entries.mapM fun (key, value) => ofEntry kind key value

/-- The tags that a file and the entries of both flags give together. -/
def combine (file : AnnotationFile) (thread dispatch : List (String × String)) :
    Except ExternalError (List External) := do
  let affinities ← ofEntries .affinity (merge file.thread thread)
  let dispatches ← ofEntries .dispatch (merge file.dispatch dispatch)
  return affinities ++ dispatches

/-- The tags that a file and both flag values give, or the first fault: flags before entries. -/
def ofFile (file : AnnotationFile) (thread dispatch : String) :
    Except ExternalError (List External) := do
  let threads ← (Entries.parseFlag thread).mapError (.flag .affinity)
  let dispatches ← (Entries.parseFlag dispatch).mapError (.flag .dispatch)
  combine file threads dispatches

/-- All external tags, or the first fault: that of the file before all others. -/
def load (sources : ExternalSources) : Except ExternalError (List External) := do
  let file ← (AnnotationFile.load sources.path sources.contents sources.decoder).mapError .file
  ofFile file sources.thread sources.dispatch

end External

end ThreadAffinity
