/-
The calls of a body, against its syntax tree.

`SyntaxNode.parts` says for every form of expression and statement which parts it is made of, in
the order in which they stand.  An address leads from a body down to a part, and the order of
addresses is pre-order: a part comes before what is inside it, and that comes before what
follows.  The list of calls is compared with the addresses at which there are calls, and the
numbers in an entry with the addresses above its own.

A forest of calls leaves out all parts that are no calls.  So the comparison is made for any
forest, with any numbers around it: `Listed` says that a forest has the calls at some places,
and it is kept up when one more part follows and when a part is put around the others.
-/
import Mathlib.Data.List.Forall2
import Mathlib.Data.List.Induction
import Mathlib.Data.List.Lex
import ThreadAffinity.Source.Calls

namespace ThreadAffinity

/-! ### The syntax tree -/

/-- A part of a function body. -/
inductive SyntaxNode where
  | expr (e : Expr)
  | field (f : Field)
  | stmt (s : Stmt)

namespace SyntaxNode

/-- The parts that a part is made of, in the order in which they stand. -/
def parts : SyntaxNode → List SyntaxNode
  | expr .absent => []
  | expr (.ident _ _) => []
  | expr (.literal _) => []
  | expr (.funcLiteral type body) => expr type :: body.map stmt
  | expr (.composite type elements) => expr type :: elements.map expr
  | expr (.keyValue key value) => [expr key, expr value]
  | expr (.paren inner) => [expr inner]
  | expr (.selector base _ _) => [expr base]
  | expr (.index base indices _) => expr base :: indices.map expr
  | expr (.slice base low high limit _) => [expr base, expr low, expr high, expr limit]
  | expr (.typeAssert base type) => [expr base, expr type]
  | expr (.call (.mk fn args _ _ _)) => expr fn :: args.map expr
  | expr (.star inner) => [expr inner]
  | expr (.unary _ operand) => [expr operand]
  | expr (.binary _ left right) => [expr left, expr right]
  | expr (.arrayType length element) => [expr length, expr element]
  | expr (.structType fields) => fields.map field
  | expr (.funcType params results) => params.map field ++ results.map field
  | expr (.interfaceType fields) => fields.map field
  | expr (.mapType key value) => [expr key, expr value]
  | expr (.chanType _ element) => [expr element]
  | expr (.ellipsis element) => [expr element]
  | field (.mk _ type) => [expr type]
  | stmt .absent => []
  | stmt (.expr value) => [expr value]
  | stmt (.assign left right) => left.map expr ++ right.map expr
  | stmt (.varDecl type values) => expr type :: values.map expr
  | stmt (.typeDecl type) => [expr type]
  | stmt (.returns values) => values.map expr
  | stmt (.spawn call) => [expr call]
  | stmt (.defers call) => [expr call]
  | stmt (.ifElse init condition body otherwise) =>
    stmt init :: expr condition :: (body.map stmt ++ [stmt otherwise])
  | stmt (.forLoop init condition post body) =>
    stmt init :: expr condition :: stmt post :: body.map stmt
  | stmt (.rangeLoop key value range body) =>
    expr key :: expr value :: expr range :: body.map stmt
  | stmt (.switch init subject clauses) => stmt init :: expr subject :: clauses.map stmt
  | stmt (.typeSwitch init assign clauses) => stmt init :: stmt assign :: clauses.map stmt
  | stmt (.caseClause values body) => values.map expr ++ body.map stmt
  | stmt (.select clauses) => clauses.map stmt
  | stmt (.commClause comm body) => stmt comm :: body.map stmt
  | stmt (.block body) => body.map stmt
  | stmt (.labeled s) => [stmt s]
  | stmt (.send channel value) => [expr channel, expr value]
  | stmt (.incDec operand) => [expr operand]
  | stmt .leaf => []

/-- The call that a part is, if it is one. -/
def call? : SyntaxNode → Option Call
  | expr (.call c) => some c
  | _ => none

theorem sizeOf_lt_of_mem_parts (node : SyntaxNode) :
    ∀ part ∈ node.parts, sizeOf part < sizeOf node := by
  unfold parts
  split
  -- In each form a part stands for itself or is an element of a list.
  all_goals simp [or_imp, forall_and]
  all_goals repeat' apply And.intro
  all_goals
    first
      | omega
      | (intro x hx
         have := List.sizeOf_lt_of_mem hx
         omega)

/-- The calls of a part. -/
def calls : SyntaxNode → List CallTree
  | expr e => e.calls
  | field (.mk _ type) => type.calls
  | stmt s => s.calls

theorem callsOf_exprs (es : List Expr) : Expr.callsOf es = (es.map expr).flatMap calls := by
  induction es with
  | nil => rfl
  | cons e es ih => rw [Expr.callsOf, ih]; rfl

theorem callsOf_fields (fs : List Field) : Field.callsOf fs = (fs.map field).flatMap calls := by
  induction fs with
  | nil => rfl
  | cons f fs ih =>
      obtain ⟨names, type⟩ := f
      rw [Field.callsOf, ih]
      rfl

theorem callsOf_stmts (ss : List Stmt) : Stmt.callsOf ss = (ss.map stmt).flatMap calls := by
  induction ss with
  | nil => rfl
  | cons s ss ih => rw [Stmt.callsOf, ih]; rfl

/-- A part that is no call has the calls of its own parts. -/
theorem calls_of_call?_eq_none {node : SyntaxNode} (h : node.call? = none) :
    node.calls = node.parts.flatMap calls := by
  unfold parts
  split
  all_goals
    simp_all [calls, call?, Expr.calls, Stmt.calls, ← callsOf_exprs, ← callsOf_fields,
      ← callsOf_stmts]

/-- A call stands over the calls of its parts. -/
theorem calls_of_call?_eq_some {node : SyntaxNode} {c : Call} (h : node.call? = some c) :
    node.calls = [.node c (node.parts.flatMap calls)] := by
  unfold call? at h
  split at h
  · obtain ⟨fn, args, spread, start, stop⟩ := c
    cases h
    simp [calls, parts, Expr.calls, Call.calls, callsOf_exprs]
  · cases h

end SyntaxNode

/-! ### Addresses -/

/-- The way from a part down to one inside it: which part to take at each step.  The order of
addresses is that of the text, and a part comes before those inside it. -/
abbrev Address := List Nat

namespace Address

/-- The addresses on the way, the innermost one first. -/
def above (a : Address) : List Address :=
  (List.range a.length).reverse.map a.take

@[simp] theorem above_nil : above [] = [] := rfl

theorem above_cons (i : Nat) (a : Address) : above (i :: a) = (above a).map (i :: ·) ++ [[]] := by
  unfold above
  rw [List.length_cons, List.range_succ_eq_map, List.reverse_cons, ← List.map_reverse,
    List.map_append, List.map_map, List.map_map]
  rfl

theorem above_concat (a : Address) (i : Nat) : above (a ++ [i]) = a :: above a := by
  unfold above
  rw [List.length_append, List.length_singleton, List.range_succ, List.reverse_append,
    List.reverse_singleton, List.singleton_append, List.map_cons, List.take_left]
  congr 1
  refine List.map_congr_left fun k hk => ?_
  have hk : k < a.length := by simpa using hk
  exact List.take_append_of_le_length (Nat.le_of_lt hk)

/-- What comes after an address on the way is what is above it. -/
theorem above_of_append {a b : Address} {front back : List Address}
    (h : above a = front ++ b :: back) : above b = back := by
  induction a using List.reverseRecOn generalizing front with
  | nil => simp at h
  | append_singleton a i ih =>
      rw [above_concat] at h
      cases front with
      | nil =>
          rw [List.nil_append, List.cons.injEq] at h
          rw [← h.1, h.2]
      | cons c front =>
          rw [List.cons_append, List.cons.injEq] at h
          exact ih h.2

/-- What is above an address comes before it. -/
theorem lt_of_mem_above {a b : Address} (h : b ∈ above a) : b < a := by
  induction a generalizing b with
  | nil => simp at h
  | cons i a ih =>
      rw [above_cons, List.mem_append, List.mem_singleton] at h
      rcases h with h | rfl
      · obtain ⟨c, hc, rfl⟩ := List.mem_map.mp h
        exact List.cons_lt_cons_iff.mpr (Or.inr ⟨rfl, ih hc⟩)
      · exact List.nil_lt_cons i a

end Address

/-- The calls around the part at an address, innermost first, if `callAt` tells where there
are calls. -/
def callsAround (callAt : Address → Option Call) (a : Address) : List Address :=
  a.above.filter fun b => (callAt b).isSome

/-- The calls around the innermost call around an address are the others around it. -/
theorem callsAround_of_cons {callAt : Address → Option Call} {a b : Address} {bs : List Address}
    (h : callsAround callAt a = b :: bs) : callsAround callAt b = bs := by
  obtain ⟨front, back, hsplit, -, -, hback⟩ := List.filter_eq_cons_iff.mp h
  unfold callsAround
  rw [Address.above_of_append hsplit, hback]

namespace SyntaxNode

/-- The part at an address. -/
def at? (node : SyntaxNode) : Address → Option SyntaxNode
  | [] => some node
  | i :: a => (node.parts[i]?).bind fun part => part.at? a

/-- The call at an address, if there is one. -/
def callAt? (node : SyntaxNode) (a : Address) : Option Call :=
  (node.at? a).bind call?

end SyntaxNode

/-- The call at an address below one of several parts. -/
def callBelow? (parts : List SyntaxNode) : Address → Option Call
  | [] => none
  | i :: a => (parts[i]?).bind fun part => part.callAt? a

theorem callBelow?_cons (parts : List SyntaxNode) (i : Nat) (a : Address) :
    callBelow? parts (i :: a) = (parts[i]?).bind fun part => part.callAt? a := rfl

theorem SyntaxNode.callAt?_nil (node : SyntaxNode) : node.callAt? [] = node.call? := rfl

theorem SyntaxNode.callAt?_cons (node : SyntaxNode) (i : Nat) (a : Address) :
    node.callAt? (i :: a) = callBelow? node.parts (i :: a) := by
  exact Option.bind_assoc _ _ _

/-! ### Lists of calls with their places -/

theorem CallTree.entriesOf_append (enclosing : List Nat) (next : Nat) (trees more : List CallTree) :
    entriesOf enclosing next (trees ++ more) =
      entriesOf enclosing next trees ++
        entriesOf enclosing (next + (entriesOf enclosing next trees).length) more := by
  induction trees generalizing next with
  | nil => simp [entriesOf]
  | cons tree trees ih =>
      rw [List.cons_append, entriesOf, entriesOf, ih, List.append_assoc, List.length_append,
        Nat.add_assoc]

/-- An entry tells the call at a place and, by their numbers among the places, the calls around
it; the numbers start at `next`, and further calls are around all places. -/
structure Tells (callAt : Address → Option Call) (places : List Address) (enclosing : List Nat)
    (next : Nat) (a : Address) (e : CallEntry) : Prop where
  call : callAt a = some e.call
  around : ∃ numbers : List Nat, e.enclosing = numbers.map (next + ·) ++ enclosing ∧
    numbers.map (places[·]?) = (callsAround callAt a).map some

/-- The places of the calls of a forest in order, and the list that is made of the forest. -/
structure Listed (callAt : Address → Option Call) (trees : List CallTree)
    (places : List Address) : Prop where
  sorted : places.Pairwise (· < ·)
  mem : ∀ a, a ∈ places ↔ (callAt a).isSome
  entries : ∀ enclosing next, List.Forall₂ (Tells callAt places enclosing next) places
    (CallTree.entriesOf enclosing next trees)

theorem callsAround_cons (callAt : Address → Option Call) (i : Nat) (a : Address) :
    callsAround callAt (i :: a) =
      (callsAround (fun b => callAt (i :: b)) a).map (i :: ·) ++
        if (callAt []).isSome then [[]] else [] := by
  unfold callsAround
  rw [Address.above_cons, List.filter_append, List.filter_map, List.filter_singleton,
    cond_eq_ite]
  rfl

section Below

variable {parts : List SyntaxNode} {node : SyntaxNode} {i : Nat} {a : Address}

theorem callBelow?_append_of_lt (more : List SyntaxNode) (h : i < parts.length) :
    callBelow? (parts ++ more) (i :: a) = callBelow? parts (i :: a) := by
  rw [callBelow?_cons, callBelow?_cons, List.getElem?_append_left h]

theorem callBelow?_length : callBelow? (parts ++ [node]) (parts.length :: a) = node.callAt? a := by
  rw [callBelow?_cons, List.getElem?_concat_length, Option.bind_some]

theorem exists_cons_of_callBelow? {c : Call} (h : callBelow? parts a = some c) :
    ∃ i b, a = i :: b ∧ i < parts.length := by
  cases a with
  | nil => cases h
  | cons i b =>
      refine ⟨i, b, rfl, ?_⟩
      by_contra hge
      rw [callBelow?_cons, List.getElem?_eq_none (Nat.le_of_not_lt hge)] at h
      cases h

/-- Below several parts the calls around a place are those inside its own part. -/
theorem callsAround_below (f : Address → Option Call)
    (h : ∀ b, f b = callBelow? parts (i :: b)) :
    callsAround (callBelow? parts) (i :: a) = (callsAround f a).map (i :: ·) := by
  rw [callsAround_cons, ← funext h]
  exact List.append_nil _

end Below

/-- Numbers of places stay what they are when more places follow. -/
theorem map_getElem?_append {places more as : List Address} {numbers : List Nat}
    (h : numbers.map (places[·]?) = as.map some) :
    numbers.map ((places ++ more)[·]?) = as.map some := by
  rw [← h]
  refine List.map_congr_left fun j hj => ?_
  have hmem : places[j]? ∈ as.map some := by
    rw [← h]
    exact List.mem_map_of_mem hj
  obtain ⟨a, -, ha⟩ := List.mem_map.mp hmem
  obtain ⟨hlt, -⟩ := List.getElem?_eq_some_iff.mp ha.symm
  exact List.getElem?_append_left hlt

namespace Tells

variable {parts : List SyntaxNode} {node : SyntaxNode} {places inner : List Address}
  {enclosing : List Nat} {next : Nat} {a : Address} {e : CallEntry}

/-- More parts after the others change nothing for these. -/
theorem append (h : Tells (callBelow? parts) places enclosing next a e) (more : List SyntaxNode)
    (further : List Address) :
    Tells (callBelow? (parts ++ more)) (places ++ further) enclosing next a e := by
  obtain ⟨i, b, rfl, hi⟩ := exists_cons_of_callBelow? h.call
  obtain ⟨numbers, hnumbers, hplaces⟩ := h.around
  refine ⟨(callBelow?_append_of_lt more hi).trans h.call, numbers, hnumbers, ?_⟩
  rw [callsAround_below (fun b => callBelow? parts (i :: b))
    fun b => (callBelow?_append_of_lt more hi).symm]
  rw [callsAround_below _ fun b => rfl] at hplaces
  exact map_getElem?_append hplaces

/-- The places in the last part come after those in the others. -/
theorem last (h : Tells node.callAt? inner enclosing (next + places.length) a e) :
    Tells (callBelow? (parts ++ [node])) (places ++ inner.map (parts.length :: ·)) enclosing next
      (parts.length :: a) e := by
  obtain ⟨numbers, hnumbers, hplaces⟩ := h.around
  refine ⟨callBelow?_length.trans h.call, numbers.map (places.length + ·), ?_, ?_⟩
  · rw [hnumbers, List.map_map]
    congr 1
    refine List.map_congr_left fun j _ => ?_
    exact Nat.add_assoc _ _ _
  · rw [callsAround_below node.callAt? fun b => callBelow?_length.symm, List.map_map]
    have := congrArg (List.map (Option.map (parts.length :: ·))) hplaces
    rw [List.map_map, List.map_map] at this
    rw [List.map_map]
    refine Eq.trans (List.map_congr_left fun j _ => ?_) this
    simp [List.getElem?_append_right]

/-- A part that is a call is around all places inside it. -/
theorem inside (h : Tells (callBelow? node.parts) places (next :: enclosing) (next + 1) a e)
    (hcall : node.call?.isSome = true) :
    Tells node.callAt? ([] :: places) enclosing next a e := by
  obtain ⟨i, b, rfl, hi⟩ := exists_cons_of_callBelow? h.call
  obtain ⟨numbers, hnumbers, hplaces⟩ := h.around
  refine ⟨(node.callAt?_cons i b).trans h.call, numbers.map (· + 1) ++ [0], ?_, ?_⟩
  · rw [hnumbers, List.map_append, List.map_map, List.append_assoc]
    congr 1
    refine List.map_congr_left fun j _ => ?_
    simp
    omega
  · rw [callsAround_cons, node.callAt?_nil, if_pos hcall, List.map_append, List.map_append,
      List.map_map]
    rw [callsAround_below (fun b => node.callAt? (i :: b)) fun b => node.callAt?_cons i b]
      at hplaces
    rw [← hplaces]
    rfl

end Tells

namespace Listed

variable {parts : List SyntaxNode} {node : SyntaxNode} {trees more : List CallTree}
  {places inner : List Address}

theorem nil : Listed (callBelow? []) [] [] := by
  refine ⟨List.Pairwise.nil, fun a => ?_, fun _ _ => List.Forall₂.nil⟩
  cases a with
  | nil => simp [callBelow?]
  | cons i a => simp [callBelow?]

theorem concat (h : Listed (callBelow? parts) trees places)
    (hnode : Listed node.callAt? more inner) :
    Listed (callBelow? (parts ++ [node])) (trees ++ more)
      (places ++ inner.map (parts.length :: ·)) := by
  have hplaces : ∀ a ∈ places, ∃ i b, a = i :: b ∧ i < parts.length := by
    intro a ha
    obtain ⟨c, hc⟩ := Option.isSome_iff_exists.mp ((h.mem a).mp ha)
    exact exists_cons_of_callBelow? hc
  refine ⟨?_, fun a => ?_, fun enclosing next => ?_⟩
  · refine List.pairwise_append.mpr ⟨h.sorted, ?_, ?_⟩
    · refine List.pairwise_map.mpr (hnode.sorted.imp fun hab => ?_)
      exact List.cons_lt_cons_iff.mpr (Or.inr ⟨rfl, hab⟩)
    · intro a ha b hb
      obtain ⟨i, a, rfl, hi⟩ := hplaces a ha
      obtain ⟨b, -, rfl⟩ := List.mem_map.mp hb
      exact List.cons_lt_cons_iff.mpr (Or.inl hi)
  · rw [List.mem_append, h.mem]
    cases a with
    | nil => simp [callBelow?]
    | cons i a =>
        rcases Nat.lt_trichotomy i parts.length with hi | rfl | hi
        · rw [callBelow?_append_of_lt _ hi]
          simp
          omega
        · rw [callBelow?_length, callBelow?_cons, List.getElem?_eq_none (Nat.le_refl _)]
          simp [hnode.mem]
        · have hlen : (parts ++ [node]).length ≤ i := by
            rw [List.length_append, List.length_singleton]
            exact hi
          rw [callBelow?_cons, callBelow?_cons, List.getElem?_eq_none (Nat.le_of_lt hi),
            List.getElem?_eq_none hlen]
          simp
          omega
  · have hfirst := h.entries enclosing next
    rw [CallTree.entriesOf_append, ← hfirst.length_eq]
    refine List.rel_append (hfirst.imp fun a e hae => hae.append _ _) ?_
    rw [List.forall₂_map_left_iff]
    exact (hnode.entries enclosing _).imp fun a e hae => hae.last

theorem call {c : Call} (h : Listed (callBelow? node.parts) trees places)
    (hcall : node.call? = some c) : Listed node.callAt? [.node c trees] ([] :: places) := by
  refine ⟨?_, fun a => ?_, fun enclosing next => ?_⟩
  · refine List.pairwise_cons.mpr ⟨fun a ha => ?_, h.sorted⟩
    cases a with
    | nil => simp [h.mem, callBelow?] at ha
    | cons i a => exact List.nil_lt_cons i a
  · rw [List.mem_cons, h.mem]
    cases a with
    | nil => simp [node.callAt?_nil, hcall]
    | cons i a => simp [node.callAt?_cons]
  · simp only [CallTree.entriesOf, CallTree.entries, List.append_nil]
    refine List.Forall₂.cons ⟨hcall, [], rfl, rfl⟩ ?_
    exact (h.entries _ _).imp fun a e hae => hae.inside (by rw [hcall]; rfl)

/-- A part that is no call has the calls below it. -/
theorem noCall (h : Listed (callBelow? node.parts) trees places) (hcall : node.call? = none) :
    Listed node.callAt? trees places := by
  have hsame : node.callAt? = callBelow? node.parts := by
    funext a
    cases a with
    | nil => exact hcall
    | cons i a => exact node.callAt?_cons i a
  rw [hsame]
  exact h

end Listed

/-- The calls below several parts, if those of each part are listed. -/
theorem exists_listed_below {parts : List SyntaxNode}
    (h : ∀ part ∈ parts, ∃ places, Listed part.callAt? part.calls places) :
    ∃ places, Listed (callBelow? parts) (parts.flatMap SyntaxNode.calls) places := by
  induction parts using List.reverseRecOn with
  | nil => exact ⟨[], Listed.nil⟩
  | append_singleton parts node ih =>
      obtain ⟨places, hplaces⟩ := ih fun part hpart => h part (List.mem_append_left _ hpart)
      obtain ⟨inner, hinner⟩ := h node (by simp)
      rw [List.flatMap_append, List.flatMap_singleton]
      exact ⟨_, hplaces.concat hinner⟩

/-- The calls of every part are listed.  The induction is on the size of the part. -/
theorem exists_listed (node : SyntaxNode) : ∃ places, Listed node.callAt? node.calls places := by
  induction hk : sizeOf node using Nat.strong_induction_on generalizing node with
  | _ k ih =>
    obtain ⟨places, hplaces⟩ := exists_listed_below fun part hpart =>
      ih _ (hk ▸ node.sizeOf_lt_of_mem_parts part hpart) part rfl
    cases hcall : node.call? with
    | none =>
        rw [SyntaxNode.calls_of_call?_eq_none hcall]
        exact ⟨places, hplaces.noCall hcall⟩
    | some c =>
        rw [SyntaxNode.calls_of_call?_eq_some hcall]
        exact ⟨_, hplaces.call hcall⟩

/-! ### The calls of a body -/

/-- A body as a part. -/
def SyntaxNode.body (body : List Stmt) : SyntaxNode :=
  .stmt (.block body)

theorem enumerateCalls_eq (body : List Stmt) :
    enumerateCalls body = CallTree.entriesOf [] 0 (SyntaxNode.body body).calls := by
  simp [enumerateCalls, SyntaxNode.body, SyntaxNode.calls, Stmt.calls]

/-- Without repetition the numbers of places are told by the places. -/
theorem eq_map_idxOf {places as : List Address} {numbers : List Nat} (hnd : places.Nodup)
    (h : numbers.map (places[·]?) = as.map some) : numbers = as.map (places.idxOf ·) := by
  induction numbers generalizing as with
  | nil =>
      have : as = [] := by simpa using h.symm
      rw [this]
      rfl
  | cons j numbers ih =>
      obtain ⟨a, as, rfl⟩ : ∃ a rest, as = a :: rest := by
        cases as with
        | nil => simp at h
        | cons a rest => exact ⟨a, rest, rfl⟩
      rw [List.map_cons, List.map_cons, List.cons.injEq] at h
      obtain ⟨hj, rfl⟩ := List.getElem?_eq_some_iff.mp h.1
      rw [List.map_cons, ← ih h.2, hnd.idxOf_getElem]

/-- The entry of the innermost call around a place stands earlier, and the calls around it are
the others around the place. -/
theorem enclosing_of_cons {callAt : Address → Option Call} {places : List Address}
    {entries : List CallEntry} (hsorted : places.Pairwise (· < ·))
    (hentries : List.Forall₂ (fun a e => callAt a = some e.call ∧
      e.enclosing.map (places[·]?) = (callsAround callAt a).map some) places entries)
    {i p : Nat} {ps : List Nat} {e : CallEntry} (he : entries[i]? = some e)
    (hp : e.enclosing = p :: ps) : p < i ∧ ∃ o, entries[p]? = some o ∧ o.enclosing = ps := by
  have hnd : places.Nodup := hsorted.imp fun h => ne_of_lt h
  obtain ⟨hi, rfl⟩ := List.getElem?_eq_some_iff.mp he
  have hi' : i < places.length := hentries.length_eq ▸ hi
  obtain ⟨-, haround⟩ := hentries.get hi' hi
  rw [List.get_eq_getElem, List.get_eq_getElem, hp, List.map_cons] at haround
  cases hcalls : callsAround callAt places[i] with
  | nil => simp [hcalls] at haround
  | cons b bs =>
      rw [hcalls, List.map_cons, List.cons.injEq] at haround
      obtain ⟨hp', hb⟩ := List.getElem?_eq_some_iff.mp haround.1
      have hbefore : places[p] < places[i] := by
        rw [hb]
        have : b ∈ callsAround callAt places[i] := by rw [hcalls]; exact List.mem_cons_self
        exact Address.lt_of_mem_above (List.mem_filter.mp this).1
      refine ⟨?_, ?_⟩
      · by_contra hle
        rcases Nat.lt_or_eq_of_le (Nat.le_of_not_lt hle) with hlt | rfl
        · exact lt_asymm hbefore (List.pairwise_iff_getElem.mp hsorted i p hi' hp' hlt)
        · exact lt_irrefl _ hbefore
      · have ho : p < entries.length := hentries.length_eq ▸ hp'
        obtain ⟨-, hother⟩ := hentries.get hp' ho
        rw [List.get_eq_getElem, List.get_eq_getElem, hb, callsAround_of_cons hcalls] at hother
        refine ⟨entries[p], List.getElem?_eq_getElem ho, ?_⟩
        rw [eq_map_idxOf hnd hother, eq_map_idxOf hnd haround.2]

/-- The places of the calls of a body. -/
theorem exists_places (body : List Stmt) :
    ∃ places : List Address, places.Pairwise (· < ·) ∧
      (∀ a, a ∈ places ↔ ∃ c, (SyntaxNode.body body).callAt? a = some c) ∧
      List.Forall₂ (fun a e => (SyntaxNode.body body).callAt? a = some e.call ∧
        e.enclosing.map (places[·]?) = (callsAround (SyntaxNode.body body).callAt? a).map some)
        places (enumerateCalls body) := by
  obtain ⟨places, h⟩ := exists_listed (SyntaxNode.body body)
  refine ⟨places, h.sorted, fun a => ?_, ?_⟩
  · rw [h.mem, Option.isSome_iff_exists]
  · rw [enumerateCalls_eq]
    refine (h.entries [] 0).imp fun a e hae => ⟨hae.call, ?_⟩
    obtain ⟨numbers, hnumbers, hplaces⟩ := hae.around
    have : e.enclosing = numbers := by simpa using hnumbers
    rw [this, hplaces]

/-- The calls around a call are calls of the body themselves. -/
theorem exists_entry_of_mem_enclosing {body : List Stmt} {e : CallEntry} {i : Nat}
    (he : e ∈ enumerateCalls body) (hi : i ∈ e.enclosing) :
    ∃ o, (enumerateCalls body)[i]? = some o := by
  obtain ⟨places, -, -, hentries⟩ := exists_places body
  obtain ⟨k, hk, rfl⟩ := List.mem_iff_getElem.mp he
  have hk' : k < places.length := hentries.length_eq ▸ hk
  obtain ⟨-, haround⟩ := hentries.get hk' hk
  have hmem := List.mem_map_of_mem (f := (places[·]?)) hi
  rw [List.get_eq_getElem] at haround
  rw [haround] at hmem
  obtain ⟨a, -, ha⟩ := List.mem_map.mp hmem
  obtain ⟨hlt, -⟩ := List.getElem?_eq_some_iff.mp ha.symm
  exact ⟨_, List.getElem?_eq_getElem (hentries.length_eq ▸ hlt)⟩

/--
**Every call of a body is listed once, in pre-order, with the calls around it.**  The places of
the entries are exactly the addresses at which there is a call, in increasing order; an entry
has the call at its place and, by their numbers, exactly the calls at the addresses above it,
innermost first.  So the calls around an entry, if there are any, are the call of an earlier
entry and the calls around that one.
-/
theorem enumerateCalls_preorder (body : List Stmt) :
    ∃ places : List Address,
      places.Pairwise (· < ·) ∧
      (∀ a, a ∈ places ↔ ∃ c, (SyntaxNode.body body).callAt? a = some c) ∧
      List.Forall₂ (fun a e => (SyntaxNode.body body).callAt? a = some e.call ∧
        e.enclosing.map (places[·]?) = (callsAround (SyntaxNode.body body).callAt? a).map some)
        places (enumerateCalls body) ∧
      ∀ (i : Nat) (e : CallEntry), (enumerateCalls body)[i]? = some e → e.enclosing ≠ [] →
        ∃ p o, p < i ∧ (enumerateCalls body)[p]? = some o ∧ e.enclosing = p :: o.enclosing := by
  obtain ⟨places, hsorted, hmem, hentries⟩ := exists_places body
  refine ⟨places, hsorted, hmem, hentries, fun i e he hne => ?_⟩
  obtain ⟨p, ps, hp⟩ := List.exists_cons_of_ne_nil hne
  obtain ⟨hlt, o, ho, rfl⟩ := enclosing_of_cons hsorted hentries he hp
  exact ⟨p, o, hlt, ho, hp⟩

end ThreadAffinity
