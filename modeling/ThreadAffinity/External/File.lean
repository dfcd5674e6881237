/-
The annotations file.

It is a mapping with two sections, `thread` and `dispatch`, each a mapping from
function specification to tag.  How its text is turned into the two sections is the
work of a decoder, and any decoder will do.  The one given here reads documents:
other keys are left alone, and a document of another shape is refused with all its
faults, in the order in which they stand.
-/
import ThreadAffinity.External.Entries
import ThreadAffinity.Text.Quoted
import ThreadAffinity.Yaml.Reader

namespace ThreadAffinity

open Text Yaml

/-- The tags that an annotations file gives, by function specification. -/
structure AnnotationFile where
  thread : Entries := []
  dispatch : Entries := []
deriving DecidableEq, Repr, Inhabited

namespace AnnotationFile

/-- What a place in the file has to hold. -/
inductive Shape where
  /-- The whole file. -/
  | file
  /-- A section. -/
  | table
  /-- A key or a tag. -/
  | text
deriving DecidableEq, Repr

/-- How a shape is called in messages. -/
def Shape.name : Shape → String
  | file => "config.File"
  | table => "map[string]string"
  | text => "string"

/-- A place where the document has the wrong shape. -/
inductive Fault where
  /-- A scalar of a type, where a mapping belongs. -/
  | scalar (line : Nat) (type : ScalarType) (text : String) (wanted : Shape)
  /-- A sequence, where something else belongs. -/
  | sequence (line : Nat) (wanted : Shape)
  /-- A mapping, where text belongs. -/
  | mapping (line : Nat) (wanted : Shape)
  /-- A key that the same mapping already has. -/
  | duplicate (line : Nat) (key : String) (earlier : Nat)
deriving DecidableEq, Repr

/-- The longest beginning of a text with at most so many bytes. -/
def takeBytes : Nat → List Char → List Char
  | _, [] => []
  | k, c :: cs => if c.utf8Size ≤ k then c :: takeBytes (k - c.utf8Size) cs else []

/-- A scalar's text in a message: more than ten bytes are cut to seven. -/
def excerpt (text : String) : String :=
  if text.utf8ByteSize ≤ 10 then text
  else String.ofList (takeBytes 7 text.toList) ++ "..."

/-- The wording of a fault. -/
def Fault.message : Fault → String
  | scalar line type text wanted =>
    "line " ++ toString line ++ ": cannot unmarshal " ++ type.tagName ++
      " `" ++ excerpt text ++ "` into " ++ wanted.name
  | sequence line wanted =>
    "line " ++ toString line ++ ": cannot unmarshal !!seq into " ++ wanted.name
  | mapping line wanted =>
    "line " ++ toString line ++ ": cannot unmarshal !!map into " ++ wanted.name
  | duplicate line key earlier =>
    "line " ++ toString line ++ ": mapping key " ++ quoted key ++
      " already defined at line " ++ toString earlier

/-- The faults of keys that a mapping has more than once. -/
def duplicates : List (Node × Node) → List Fault
  | [] => []
  | (key, _) :: rest =>
    (rest.filter fun (other, _) => key.sameKey other).map
        (fun (other, _) => .duplicate other.line other.text key.line) ++
      duplicates rest

/-- The entries of a mapping, if the value is one and no key comes twice. -/
def asMapping (wanted : Shape) : Node → Except (List Fault) (List (Node × Node))
  | .scalar line isPlain text =>
    if Node.scalarType isPlain text = .null then .ok []
    else .error [.scalar line (Node.scalarType isPlain text) text wanted]
  | .sequence line _ => .error [.sequence line wanted]
  | .mapping _ entries =>
    match duplicates entries with
    | [] => .ok entries
    | faults => .error faults

/-- The text of a scalar; null has none. -/
def asText : Node → Except (List Fault) (Option String)
  | .scalar line isPlain text =>
    .ok (if (Node.scalar line isPlain text).isNull then none else some text)
  | .sequence line _ => .error [.sequence line .text]
  | .mapping line entries =>
    match duplicates entries with
    | [] => .error [.mapping line .text]
    | faults => .error faults

/-- What a reader has found, with the faults it has met. -/
structure Reading (α : Type) where
  value : α
  faults : List Fault := []

/-- Adds one entry of a section.  An entry with a null key does not count. -/
def addEntry (r : Reading Entries) (entry : Node × Node) : Reading Entries :=
  match asText entry.1 with
  | .error faults => { r with faults := r.faults ++ faults }
  | .ok none => r
  | .ok (some key) =>
    match asText entry.2 with
    | .error faults => { r with faults := r.faults ++ faults }
    | .ok value => { r with value := Entries.insert key (value.getD "") r.value }

/-- Reads a section. -/
def readSection (node : Node) : Reading Entries :=
  match asMapping .table node with
  | .error faults => { value := [], faults }
  | .ok entries => entries.foldl addEntry { value := [] }

/-- Adds one key of the file: a section, or something that does not count. -/
def addSection (r : Reading AnnotationFile) (entry : Node × Node) : Reading AnnotationFile :=
  match asText entry.1 with
  | .error faults => { r with faults := r.faults ++ faults }
  | .ok none => r
  | .ok (some key) =>
    if key = "thread" then
      let s := readSection entry.2
      { value := { r.value with thread := s.value }, faults := r.faults ++ s.faults }
    else if key = "dispatch" then
      let s := readSection entry.2
      { value := { r.value with dispatch := s.value }, faults := r.faults ++ s.faults }
    else r

/-- Reads a whole file. -/
def ofNode (node : Node) : Reading AnnotationFile :=
  match asMapping .file node with
  | .error faults => { value := {}, faults }
  | .ok entries => entries.foldl addSection { value := {} }

/-- Why a text gives no annotations. -/
inductive DecodeError where
  /-- The text is no document. -/
  | malformed
  /-- The document has the wrong shape. -/
  | misshapen (faults : List Fault)
deriving DecidableEq, Repr

/-- A way to read the text of an annotations file. -/
abbrev Decoder := String → Except DecodeError AnnotationFile

/-- Reads a text as a document. -/
def decode : Decoder := fun contents =>
  match Yaml.read contents with
  | none => .error .malformed
  | some none => .ok {}
  | some (some node) =>
    let r := ofNode node
    if r.faults.isEmpty then .ok r.value else .error (.misshapen r.faults)

/-- Why an annotations file cannot be read. -/
inductive LoadError where
  /-- There is no file at the path. -/
  | notFound (path : String)
  /-- The text is no document. -/
  | malformed (path : String)
  /-- The document has the wrong shape. -/
  | misshapen (path : String) (faults : List Fault)
deriving DecidableEq, Repr

/-- The error for a file at a path whose text gives no annotations. -/
def LoadError.ofDecode (path : String) : DecodeError → LoadError
  | .malformed => malformed path
  | .misshapen faults => misshapen path faults

/-- The wording of a load error. -/
def LoadError.message : LoadError → String
  | notFound path => "reading " ++ path ++ ": open " ++ path ++ ": no such file or directory"
  | malformed path => "parsing " ++ path ++ ": malformed document"
  | misshapen path faults =>
    "parsing " ++ path ++ ": yaml: unmarshal errors:" ++
      String.join (faults.map fun f => "\n  " ++ f.message)

/-- Reads the file at a path; the empty path stands for no file. -/
def load (path : String) (contents : Option String) (decoder : Decoder := decode) :
    Except LoadError AnnotationFile :=
  if path = "" then .ok {}
  else match contents with
    | none => .error (.notFound path)
    | some text => (decoder text).mapError (LoadError.ofDecode path)

end AnnotationFile

end ThreadAffinity
