/-
Source files and packages, as far as the analysis looks at them.
-/
import ThreadAffinity.Source.Calls
import ThreadAffinity.Text.Split

namespace ThreadAffinity

/-- A comment with its slashes. -/
structure Comment where
  pos : Pos
  text : String
deriving Repr, Inhabited

/-- A function declaration. -/
structure FuncDecl where
  name : String
  /-- The function it declares, if that is known. -/
  func : Option Func
  pos : Pos
  /-- The number of its doc comment among the comment groups of the file. -/
  doc : Option Nat := none
  /-- Its body, none for a function that is implemented elsewhere. -/
  body : Option (List Stmt) := none
deriving Inhabited

namespace FuncDecl

/-- The calls of the body. -/
def calls (d : FuncDecl) : List CallEntry :=
  d.body.elim [] enumerateCalls

end FuncDecl

/-- A source file. -/
structure SourceFile where
  name : String
  /-- Where the package clause stands. -/
  package : Pos
  /-- The comment groups, each a run of comments without a gap. -/
  comments : List (List Comment) := []
  funcs : List FuncDecl := []
  lineDirectives : List LineDirective := []
deriving Inhabited

namespace SourceFile

/-- How a place in the file is shown. -/
def shown (f : SourceFile) (p : Pos) : Position :=
  LineDirective.shown f.name f.lineDirectives p.line p.column

/-- The name under which the file goes: that of the place of its package clause. -/
def shownName (f : SourceFile) : String :=
  (f.shown f.package).file

/-- The comments of a declaration's doc comment. -/
def doc (f : SourceFile) (d : FuncDecl) : List Comment :=
  (d.doc.bind (f.comments[·]?)).getD []

/-! ### Generated files -/

/-- How a line that marks a generated file starts. -/
def generatedStart : List Char := "// Code generated ".toList

/-- How a line that marks a generated file ends. -/
def generatedStop : List Char := " DO NOT EDIT.".toList

/-- Whether a line marks its file as generated. -/
def isGeneratedLine (line : List Char) : Bool :=
  generatedStart.isPrefixOf line &&
    generatedStop.isSuffixOf (line.drop generatedStart.length)

/-- Whether some line of a comment marks its file as generated. -/
def isGeneratedComment (c : Comment) : Bool :=
  (Text.splitWhen (· == '\n') c.text.toList).any isGeneratedLine

/-- Whether a comment before the package clause marks the file as generated. -/
def isGenerated (f : SourceFile) : Bool :=
  f.comments.any fun group =>
    (group.takeWhile (·.pos.le f.package)).any isGeneratedComment

end SourceFile

/-- The files of a package. -/
structure Package where
  files : List SourceFile
deriving Inhabited

namespace Package

/-- How a place is shown. -/
def shown (p : Package) (pos : Pos) : Position :=
  match p.files[pos.file]? with
  | some f => f.shown pos
  | none => { file := "", line := pos.line, column := pos.column }

/-- All function declarations with the texts of their doc comments, file by file. -/
def funcDecls (p : Package) : List (FuncDecl × List String) :=
  p.files.flatMap fun f => f.funcs.map fun d => (d, (f.doc d).map (·.text))

/-- The names of the files that are generated, which are left alone. -/
def skipped (p : Package) : List String :=
  (p.files.filter (·.isGenerated)).map (·.shownName)

end Package

end ThreadAffinity
