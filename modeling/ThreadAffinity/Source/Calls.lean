/-
The calls of a function body, each with the calls around it.

A call is inside another one if it stands in what is called or in an argument, at any
depth, function literals included.  So the calls of a body form a forest, with the
outermost calls as roots.  `CallEntry` lists a forest in pre-order and names enclosing
calls by their numbers in that list.
-/
import ThreadAffinity.Source.Expr

namespace ThreadAffinity

/-- A call with the calls that stand directly inside it, in order. -/
inductive CallTree where
  | node (call : Call) (inner : List CallTree)

/-! ### The forest of a body

Every construct is the concatenation of the forests of its parts, in the order in
which they stand; only a call puts a new root over the forests of its parts.
-/

mutual

/-- The calls of an expression. -/
def Expr.calls : Expr → List CallTree
  | .absent => []
  | .ident _ _ => []
  | .literal _ => []
  | .funcLiteral type body => type.calls ++ Stmt.callsOf body
  | .composite type elements => type.calls ++ Expr.callsOf elements
  | .keyValue key value => key.calls ++ value.calls
  | .paren inner => inner.calls
  | .selector base _ _ => base.calls
  | .index base indices _ => base.calls ++ Expr.callsOf indices
  | .slice base low high limit _ => base.calls ++ low.calls ++ high.calls ++ limit.calls
  | .typeAssert base type => base.calls ++ type.calls
  | .call c => c.calls
  | .star inner => inner.calls
  | .unary _ operand => operand.calls
  | .binary _ left right => left.calls ++ right.calls
  | .arrayType length element => length.calls ++ element.calls
  | .structType fields => Field.callsOf fields
  | .funcType params results => Field.callsOf params ++ Field.callsOf results
  | .interfaceType fields => Field.callsOf fields
  | .mapType key value => key.calls ++ value.calls
  | .chanType _ element => element.calls
  | .ellipsis element => element.calls

/-- The calls of several expressions. -/
def Expr.callsOf : List Expr → List CallTree
  | [] => []
  | e :: es => e.calls ++ Expr.callsOf es

/-- A call itself, over the calls in what is called and in the arguments. -/
def Call.calls : Call → List CallTree
  | .mk fn args spread start stop =>
    [.node (.mk fn args spread start stop) (fn.calls ++ Expr.callsOf args)]

/-- The calls of several fields. -/
def Field.callsOf : List Field → List CallTree
  | [] => []
  | .mk _ type :: fields => type.calls ++ Field.callsOf fields

/-- The calls of a statement. -/
def Stmt.calls : Stmt → List CallTree
  | .absent => []
  | .expr value => value.calls
  | .assign left right => Expr.callsOf left ++ Expr.callsOf right
  | .varDecl type values => type.calls ++ Expr.callsOf values
  | .typeDecl type => type.calls
  | .returns values => Expr.callsOf values
  | .spawn call => call.calls
  | .defers call => call.calls
  | .ifElse init condition body otherwise =>
    init.calls ++ condition.calls ++ Stmt.callsOf body ++ otherwise.calls
  | .forLoop init condition post body =>
    init.calls ++ condition.calls ++ post.calls ++ Stmt.callsOf body
  | .rangeLoop key value range body =>
    key.calls ++ value.calls ++ range.calls ++ Stmt.callsOf body
  | .switch init subject clauses => init.calls ++ subject.calls ++ Stmt.callsOf clauses
  | .typeSwitch init assign clauses => init.calls ++ assign.calls ++ Stmt.callsOf clauses
  | .caseClause values body => Expr.callsOf values ++ Stmt.callsOf body
  | .select clauses => Stmt.callsOf clauses
  | .commClause comm body => comm.calls ++ Stmt.callsOf body
  | .block body => Stmt.callsOf body
  | .labeled stmt => stmt.calls
  | .send channel value => channel.calls ++ value.calls
  | .incDec operand => operand.calls
  | .leaf => []

/-- The calls of several statements. -/
def Stmt.callsOf : List Stmt → List CallTree
  | [] => []
  | s :: ss => s.calls ++ Stmt.callsOf ss

end

/-! ### The list of a body's calls -/

/-- A call of a body, and the numbers of the calls around it, innermost first. -/
structure CallEntry where
  call : Call
  enclosing : List Nat

mutual

/-- Lists a tree whose root has number `next` and stands inside the calls `enclosing`. -/
def CallTree.entries (enclosing : List Nat) (next : Nat) : CallTree → List CallEntry
  | .node call inner =>
    { call, enclosing } :: CallTree.entriesOf (next :: enclosing) (next + 1) inner

/-- Lists the trees of a forest, whose first root has number `next`. -/
def CallTree.entriesOf (enclosing : List Nat) (next : Nat) : List CallTree → List CallEntry
  | [] => []
  | tree :: trees =>
    let entries := tree.entries enclosing next
    entries ++ CallTree.entriesOf enclosing (next + entries.length) trees

end

/-- All calls of a body in pre-order. -/
def enumerateCalls (body : List Stmt) : List CallEntry :=
  CallTree.entriesOf [] 0 (Stmt.callsOf body)

end ThreadAffinity
