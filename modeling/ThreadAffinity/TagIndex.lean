/-
Which tags a function carries.

The directives of a function's own doc comment come first; external entries fill
the kinds that are still free, in their order.
-/
import ThreadAffinity.Directive
import ThreadAffinity.External.Basic
import ThreadAffinity.Table

namespace ThreadAffinity

/-- The tags that directives give, by function, and the external entries. -/
structure TagIndex where
  directives : Table Func Tags := []
  external : List External := []
deriving Repr, Inhabited

namespace TagIndex

/--
Adds what a declaration says about its function.  A declaration without tags, or
without a function, adds nothing; a later declaration replaces an earlier one.
-/
def addDecl (known : Table Func Tags) (func : Option Func) (doc : List String) :
    Table Func Tags :=
  match func with
  | none => known
  | some f => if (Tags.ofDoc doc).isEmpty then known else Table.set f (Tags.ofDoc doc) known

/-- The index of the functions declared with the given doc comments. -/
def build (docs : List (Option Func × List String)) (external : List External) : TagIndex where
  directives := docs.foldl (fun known (func, doc) => addDecl known func doc) []
  external := external

/-- The tags of a function. -/
def lookup (index : TagIndex) (f : Func) : Tags :=
  index.external.foldl (fun ts e => if e.spec.matchesFunc f then ts.add e.kind e.tag else ts)
    ((index.directives.lookup f).getD .empty)

/-- The tags of a function, none where there is no function. -/
def lookup? (index : TagIndex) (f : Option Func) : Tags :=
  f.elim .empty index.lookup

/-- The number of functions with directives plus the number of external entries. -/
def size (index : TagIndex) : Nat :=
  index.directives.length + index.external.length

end TagIndex

end ThreadAffinity
