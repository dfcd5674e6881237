/-
The syntax of function bodies, with every use of a function resolved.

Types are expressions too.  An identifier or selector that uses a function carries
that function.  A part that is left out, such as the bound of a slice expression, is
`Expr.absent` or `Stmt.absent`.
-/
import ThreadAffinity.Source.Function
import ThreadAffinity.Source.Position

namespace ThreadAffinity

/-- Which way values go through a channel type. -/
inductive ChanDirection where
  | both
  | send
  | receive
deriving DecidableEq, Repr, Inhabited

mutual

/-- An expression or a type. -/
inductive Expr where
  | absent
  | ident (name : String) (target : Option Func)
  | literal (text : String)
  | funcLiteral (type : Expr) (body : List Stmt)
  | composite (type : Expr) (elements : List Expr)
  | keyValue (key value : Expr)
  | paren (inner : Expr)
  | selector (base : Expr) (name : String) (target : Option Func)
  /-- An index expression, or an instantiation with types. -/
  | index (base : Expr) (indices : List Expr) (instantiates : Bool)
  /-- A slice expression; a full one shows its limit. -/
  | slice (base low high limit : Expr) (full : Bool)
  | typeAssert (base type : Expr)
  | call (call : Call)
  | star (inner : Expr)
  | unary (op : String) (operand : Expr)
  | binary (op : String) (left right : Expr)
  | arrayType (length element : Expr)
  | structType (fields : List Field)
  | funcType (params results : List Field)
  | interfaceType (fields : List Field)
  | mapType (key value : Expr)
  | chanType (direction : ChanDirection) (element : Expr)
  | ellipsis (element : Expr)

/-- A call: what is called, with which arguments, and where. -/
inductive Call where
  | mk (fn : Expr) (args : List Expr) (spread : Bool) (start stop : Pos)

/-- A field of a struct, parameter list or interface: names that share a type. -/
inductive Field where
  | mk (names : List String) (type : Expr)

/-- A statement. -/
inductive Stmt where
  | absent
  | expr (value : Expr)
  | assign (left right : List Expr)
  | varDecl (type : Expr) (values : List Expr)
  | typeDecl (type : Expr)
  | returns (values : List Expr)
  | spawn (call : Expr)
  | defers (call : Expr)
  | ifElse (init : Stmt) (condition : Expr) (body : List Stmt) (otherwise : Stmt)
  | forLoop (init : Stmt) (condition : Expr) (post : Stmt) (body : List Stmt)
  | rangeLoop (key value range : Expr) (body : List Stmt)
  | switch (init : Stmt) (subject : Expr) (clauses : List Stmt)
  | typeSwitch (init assign : Stmt) (clauses : List Stmt)
  | caseClause (values : List Expr) (body : List Stmt)
  | select (clauses : List Stmt)
  | commClause (comm : Stmt) (body : List Stmt)
  | block (body : List Stmt)
  | labeled (stmt : Stmt)
  | send (channel value : Expr)
  | incDec (operand : Expr)
  /-- A statement without parts, such as a jump. -/
  | leaf

end

instance : Inhabited Expr := ⟨.absent⟩

instance : Inhabited Stmt := ⟨.absent⟩

instance : Inhabited Call := ⟨.mk .absent [] false default default⟩

namespace Call

/-- What is called. -/
def fn : Call → Expr
  | mk f _ _ _ _ => f

/-- The arguments. -/
def args : Call → List Expr
  | mk _ as _ _ _ => as

/-- Where the call starts. -/
def start : Call → Pos
  | mk _ _ _ p _ => p

/-- The place just behind the call. -/
def stop : Call → Pos
  | mk _ _ _ _ p => p

end Call

/-! ### The function that a call calls -/

namespace Expr

/-- The expression inside all parentheses around it. -/
def stripParens : Expr → Expr
  | paren inner => inner.stripParens
  | e => e

/-- The function that an identifier or selector uses. -/
def target? : Expr → Option Func
  | ident _ target => target
  | selector _ _ target => target
  | _ => none

/-- What an instantiation with types instantiates; several indices are always types. -/
def uninstantiated : Expr → Expr
  | index base indices instantiates =>
    if instantiates || indices.length ≠ 1 then base else index base indices instantiates
  | e => e

end Expr

/--
The function a call calls, where that is fixed: it is named in the call, perhaps in
parentheses or instantiated, and is no method of an interface.
-/
def Call.callee? (c : Call) : Option Func :=
  (c.fn.stripParens.uninstantiated.stripParens.target?).filter (! ·.isAbstract)

end ThreadAffinity
