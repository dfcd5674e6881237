/-
A declared function whose whole body is handed to a dispatching function.

The body becomes that of a function literal, the only argument of a single call.  In the list
of calls that call comes first and every other one stands inside it, so the numbers of the
others grow by one and the new call stands at the outer end of what is around them.  The
dispatching function may become a member only now, so that members that are not declared can
have other numbers.
-/
import Mathlib.Data.Fin.Tuple.Take
import ThreadAffinity.Proofs.ProgramGraph
import ThreadAffinity.Proofs.Resolution
import ThreadAffinity.Proofs.Wrapping

namespace ThreadAffinity

/-- The call of a function on a function literal with the given body. -/
def Call.handing (fn : Expr) (body : List Stmt) (start stop : Pos) : Call :=
  .mk fn [.funcLiteral (.funcType [] []) body] false start stop

/-- The declaration with its body handed to a function. -/
def FuncDecl.handed (d : FuncDecl) (fn : Expr) (start stop : Pos) : FuncDecl :=
  { d with body := d.body.map fun body => [.expr (.call (.handing fn body start stop))] }

/-! ### The calls of such a body -/

/-- An entry of a body that has become part of one call. -/
def CallEntry.nested (e : CallEntry) : CallEntry where
  call := e.call
  enclosing := e.enclosing.map (· + 1) ++ [0]

mutual

theorem CallTree.entries_nested (enclosing : List Nat) (next : Nat) : (tree : CallTree) →
    tree.entries (enclosing.map (· + 1) ++ [0]) (next + 1) =
      (tree.entries enclosing next).map CallEntry.nested
  | .node call inner => by
      rw [entries, entries, List.map_cons]
      congr 1
      exact entriesOf_nested (next :: enclosing) (next + 1) inner

theorem CallTree.entriesOf_nested (enclosing : List Nat) (next : Nat) : (trees : List CallTree) →
    entriesOf (enclosing.map (· + 1) ++ [0]) (next + 1) trees =
      (entriesOf enclosing next trees).map CallEntry.nested
  | [] => rfl
  | tree :: trees => by
      rw [entriesOf, entriesOf, List.map_append]
      simp only [entries_nested enclosing next tree, List.length_map]
      congr 1
      rw [Nat.add_right_comm]
      exact entriesOf_nested enclosing _ trees

end

theorem calls_handed {d : FuncDecl} {fn : Expr} {body : List Stmt} {start stop : Pos}
    (hbody : d.body = some body) (hfn : fn.calls = []) :
    (d.handed fn start stop).calls =
      { call := .handing fn body start stop, enclosing := [] } :: d.calls.map CallEntry.nested := by
  have hforest : Stmt.callsOf [.expr (.call (.handing fn body start stop))] =
      [.node (.handing fn body start stop) (Stmt.callsOf body)] := by
    simp [Call.handing, Stmt.callsOf, Stmt.calls, Expr.calls, Call.calls, Expr.callsOf,
      Field.callsOf, hfn]
  unfold FuncDecl.calls FuncDecl.handed
  rw [hbody]
  show enumerateCalls _ = _ :: (enumerateCalls body).map _
  unfold enumerateCalls
  rw [hforest]
  simp only [CallTree.entriesOf, CallTree.entries, List.append_nil]
  congr 1
  exact CallTree.entriesOf_nested [] 0 _

namespace Program

/-! ### The two programs -/

/-- In the second program the calls of one declared member stand inside a new one; all else is
as in the first. -/
structure HandsOver (p q : Program) (root : Fin p.size) (c : Call) : Prop where
  funcs : p.declared.map (·.func) = q.declared.map (·.func)
  called : ∀ f ∈ p.called, f ∈ q.called
  declared : root.val < p.declared.length
  others : ∀ {i j}, SameMember p q i j → i ≠ root → q.members.get j = p.members.get i
  body : ∀ {j}, SameMember p q root j → (q.members.get j).calls =
    { call := c, enclosing := [] } :: (p.members.get root).calls.map CallEntry.nested

section Declared

variable {p q : Program} {before after : List ProgramMember} {m m' : ProgramMember} {c : Call}
  (hp : p.declared = before ++ m :: after) (hq : q.declared = before ++ m' :: after)

include hp hq

theorem called_of_declared
    (hcalls : m'.calls = { call := c, enclosing := [] } :: m.calls.map CallEntry.nested)
    {f : Func} (hf : f ∈ p.called) : f ∈ q.called := by
  have hbody : f ∈ m.calls.filterMap (·.call.callee?) →
      f ∈ m'.calls.filterMap (·.call.callee?) := by
    intro hf
    obtain ⟨e, he, hcallee⟩ := List.mem_filterMap.mp hf
    rw [hcalls]
    exact List.mem_filterMap.mpr
      ⟨e.nested, List.mem_cons_of_mem _ (List.mem_map_of_mem he), hcallee⟩
  unfold called at hf ⊢
  rw [hp, List.flatMap_append, List.flatMap_cons] at hf
  rw [hq, List.flatMap_append, List.flatMap_cons]
  simp only [List.mem_append] at hf ⊢
  exact hf.imp_right (Or.imp_left hbody)

/-- The members other than the one that differs. -/
theorem get_of_declared {i : Fin p.size} {j : Fin q.size} (hij : SameMember p q i j)
    (hne : i.val ≠ before.length) : q.members.get j = p.members.get i := by
  rcases Nat.lt_or_ge i.val p.declared.length with hi | hi
  · have hj := hij.declared hi
    have hi' : i.val < q.declared.length := by
      rw [hp, List.length_append, List.length_cons] at hi
      rw [hq, List.length_append, List.length_cons]
      exact hi
    have hget : p.declared[i.val]? = q.declared[i.val]? := by
      rw [hp, hq, List.getElem?_append, List.getElem?_append]
      split
      · rfl
      · obtain ⟨k, hk⟩ : ∃ k, i.val - before.length = k + 1 :=
          ⟨i.val - before.length - 1, by omega⟩
        rw [hk, List.getElem?_cons_succ, List.getElem?_cons_succ]
    rw [List.getElem?_eq_getElem hi, List.getElem?_eq_getElem hi'] at hget
    rw [get_of_lt hi, get_of_lt (hj ▸ hi')]
    simpa [hj] using (Option.some.inj hget).symm
  · exact (hij.external hi).2

theorem handsOver_of_declared {root : Fin p.size} (hroot : root.val = before.length)
    (hfunc : m'.func = m.func)
    (hcalls : m'.calls = { call := c, enclosing := [] } :: m.calls.map CallEntry.nested) :
    p.HandsOver q root c := by
  have hdeclared : root.val < p.declared.length := by rw [hp]; simp; omega
  refine ⟨?_, fun f => called_of_declared hp hq hcalls, hdeclared, ?_, ?_⟩
  · rw [hp, hq]
    simp [hfunc]
  · intro i j hij hne
    exact get_of_declared hp hq hij fun h => hne (Fin.ext (h.trans hroot.symm))
  · intro j hj
    have hjv := (hj.declared hdeclared).trans hroot
    have hm : p.members.get root = m := by
      rw [get_of_lt hdeclared]
      simp [hp, hroot]
    have hm' : q.members.get j = m' := by
      rw [get_of_lt (by rw [hq]; simp; omega)]
      simp [hq, hjv]
    rw [hm, hm', hcalls]

end Declared

theorem handsOver_build {before after : List FuncDecl} {d : FuncDecl} {index : TagIndex} {f : Func}
    {body : List Stmt} {fn : Expr} {start stop : Pos} (hfunc : d.func = some f)
    (hbody : d.body = some body) (hfn : fn.calls = [])
    {root : Fin (build (before ++ d :: after) index).size}
    (hroot : root.val = (declaredMembers before index).length) :
    (build (before ++ d :: after) index).HandsOver
      (build (before ++ d.handed fn start stop :: after) index) root
      (.handing fn body start stop) := by
  have hdeclared : ∀ d : FuncDecl, d.func = some f →
      (build (before ++ d :: after) index).declared =
        declaredMembers before index ++
          { func := f, decl := some d, tags := index.lookup f, calls := d.calls } ::
            declaredMembers after index := by
    intro d hd
    show declaredMembers _ _ = _
    unfold declaredMembers
    rw [List.filterMap_append, List.filterMap_cons, hd]
    rfl
  exact handsOver_of_declared (hdeclared d hfunc) (hdeclared (d.handed fn start stop) hfunc) hroot
    rfl (calls_handed hbody hfn)

/-! ### Their graphs -/

section Graphs

variable {p q : Program} {index : TagIndex} {place : Fin p.size ↪ Fin q.size} {root : Fin p.size}
  {c : Call} {d : Fin q.size} {t : Tag}

/-- The members of the first program, under their numbers in the second. -/
theorem HandsOver.exists_place (h : p.HandsOver q root c) (hp : p.Built index)
    (hq : q.Built index) : ∃ place : Fin p.size ↪ Fin q.size, ∀ i, SameMember p q i (place i) := by
  have hsame : ∀ i, ∃ j, SameMember p q i j := fun i =>
    exists_sameMember h.funcs hp hq i fun hi => by
      obtain ⟨e, -, hget⟩ := get_of_ge hi
      rw [hget]
      exact h.called _ ((hp.mem_external _).mp (List.get_mem _ e)).2.1
  choose place hplace using hsame
  refine ⟨⟨place, fun i i' heq => ?_⟩, hplace⟩
  exact (hplace i).injective hp (length_declared h.funcs) (heq ▸ hplace i')

theorem resolveCall?_of_mem (hp : p.Built index) (hq : q.Built index)
    (hfuncs : p.declared.map (·.func) = q.declared.map (·.func))
    (hplace : ∀ i, SameMember p q i (place i)) {i : Fin p.size} {e : CallEntry}
    (he : e ∈ (p.members.get i).calls) :
    q.resolveCall? e.call = (p.resolveCall? e.call).map place := by
  unfold resolveCall?
  cases hcallee : e.call.callee? with
  | none => rfl
  | some f =>
      refine resolve?_of_sameMember hfuncs hp hq hplace ?_
      rcases Nat.lt_or_ge i.val p.declared.length with hi | hi
      · rw [get_of_lt hi] at he
        exact List.mem_flatMap.mpr ⟨_, List.get_mem _ _, List.mem_filterMap.mpr ⟨e, he, hcallee⟩⟩
      · -- A member that is not declared has no calls.
        obtain ⟨x, -, hget⟩ := get_of_ge hi
        rw [hget, ((hp.mem_external _).mp (List.get_mem _ x)).1] at he
        cases he

/-- The members around a call, from the entries of a body that may start with more calls. -/
theorem filterMap_enclosing {m m' : ProgramMember} {k : Nat} {enclosing : List Nat}
    (hresolve : ∀ e ∈ m.calls, q.resolveCall? e.call = (p.resolveCall? e.call).map place)
    (hcalls : ∀ i, (m'.calls[i + k]?).map (·.call) = (m.calls[i]?).map (·.call)) :
    ((enclosing.map (· + k)).filterMap fun i => m'.calls[i]?.bind fun o => q.resolveCall? o.call) =
      (enclosing.filterMap fun i => m.calls[i]?.bind fun o => p.resolveCall? o.call).map place := by
  rw [List.filterMap_map, List.map_filterMap]
  congr 1
  funext i
  show (m'.calls[i + k]?.bind fun o => q.resolveCall? o.call) =
    (m.calls[i]?.bind fun o => p.resolveCall? o.call).map place
  have hi := hcalls i
  cases he : m.calls[i]? with
  | none =>
      rw [he, Option.map_none, Option.map_eq_none_iff] at hi
      rw [hi]
      rfl
  | some e =>
      rw [he, Option.map_some, Option.map_eq_some_iff] at hi
      obtain ⟨e', he', hcall⟩ := hi
      rw [he']
      show q.resolveCall? e'.call = (p.resolveCall? e.call).map place
      rw [hcall]
      exact hresolve e (List.mem_of_getElem? he)

/-- A member with the same calls. -/
theorem sites_same {m : ProgramMember}
    (hresolve : ∀ e ∈ m.calls, q.resolveCall? e.call = (p.resolveCall? e.call).map place) :
    m.calls.map (q.site m) = (m.calls.map (p.site m)).map (Site.carried place []) := by
  rw [List.map_map]
  refine List.map_congr_left fun e he => ?_
  show Site.mk _ _ = Site.mk _ _
  rw [hresolve e he, List.append_nil]
  congr 1
  have hzero : ((e.enclosing.map (· + 0)).filterMap fun i =>
      m.calls[i]?.bind fun o => q.resolveCall? o.call) = _ :=
    filterMap_enclosing hresolve fun _ => rfl
  rwa [show e.enclosing.map (· + 0) = e.enclosing from List.map_id _] at hzero

/-- A member whose calls stand inside a new one. -/
theorem sites_nested {m m' : ProgramMember}
    (hresolve : ∀ e ∈ m.calls, q.resolveCall? e.call = (p.resolveCall? e.call).map place)
    (hcalls : m'.calls = { call := c, enclosing := [] } :: m.calls.map CallEntry.nested)
    (hc : q.resolveCall? c = some d) :
    m'.calls.map (q.site m') =
      { callee := some d } :: (m.calls.map (p.site m)).map (Site.carried place [d]) := by
  have hmap : m'.calls.map (q.site m') =
      q.site m' { call := c, enclosing := [] } ::
        (m.calls.map CallEntry.nested).map (q.site m') := by
    conv_lhs => rw [hcalls]
    rfl
  rw [hmap, List.map_map, List.map_map]
  congr 1
  · show Site.mk (q.resolveCall? c) [] = _
    rw [hc]
  · refine List.map_congr_left fun e he => ?_
    show Site.mk _ _ = Site.mk _ _
    have houter : ([0].filterMap fun i =>
        m'.calls[i]?.bind fun o => q.resolveCall? o.call) = [d] := by
      rw [hcalls]
      show (q.resolveCall? c).toList = [d]
      rw [hc]
      rfl
    have hcall : q.resolveCall? e.nested.call = (p.resolveCall? e.call).map place := hresolve e he
    rw [hcall]
    congr 1
    show ((e.enclosing.map (· + 1) ++ [0]).filterMap _) = _
    rw [List.filterMap_append, houter]
    congr 1
    refine filterMap_enclosing hresolve fun i => ?_
    rw [hcalls, List.getElem?_cons_succ, List.getElem?_map, Option.map_map]
    rfl

theorem HandsOver.wraps (h : p.HandsOver q root c) (hp : p.Built index) (hq : q.Built index)
    (hplace : ∀ i, SameMember p q i (place i)) (hc : q.resolveCall? c = some d)
    (htags : (q.members.get d).tags = { dispatch := some t })
    (hcalls : (q.members.get d).calls = []) : p.graph.Wraps q.graph place root d t := by
  have hresolve : ∀ i, ∀ e ∈ (p.members.get i).calls,
      q.resolveCall? e.call = (p.resolveCall? e.call).map place :=
    fun i e he => resolveCall?_of_mem hp hq h.funcs hplace he
  refine ⟨?_, ?_, ?_, ?_, ?_⟩
  · intro i
    rw [p.tags_graph, q.tags_graph, hp.tags_get, hq.tags_get, (hplace i).func]
  · intro i hi
    rw [p.members_graph, q.members_graph, h.others (hplace i) hi]
    exact sites_same (hresolve i)
  · rw [p.members_graph, q.members_graph]
    exact sites_nested (hresolve root) (h.body (hplace root)) hc
  · rw [q.tags_graph, htags]
  · rw [q.members_graph, hcalls]
    rfl

theorem HandsOver.call?_carried (h : p.HandsOver q root c)
    (hplace : ∀ i, SameMember p q i (place i)) (s : SiteId p.size) :
    q.call? (s.carried place root) = p.call? s := by
  show ((q.members.get (place s.owner)).calls[if s.owner = root then s.index + 1 else s.index]?).map
    (·.call) = ((p.members.get s.owner).calls[s.index]?).map (·.call)
  by_cases hs : s.owner = root
  · rw [if_pos hs, hs, h.body (hplace root), List.getElem?_cons_succ, List.getElem?_map,
      Option.map_map]
    rfl
  · rw [if_neg hs, h.others (hplace s.owner) hs]

end Graphs

/--
**Handing a body to a dispatching function removes the violations it covers and no others.**
The members of the program stay what they are, and so do the calls of the body; of the
violations those are gone that lead to the thread of the dispatching function and start with a
call around which no call of the body dispatches.
-/
theorem violations_handed {before after : List FuncDecl} {r : FuncDecl} {index : TagIndex}
    {f : Func} {body : List Stmt} {fn : Expr} {start stop : Pos} {p q : Program}
    (hp : p = build (before ++ r :: after) index)
    (hq : q = build (before ++ r.handed fn start stop :: after) index)
    (hfunc : r.func = some f) (hbody : r.body = some body) (hfn : fn.calls = [])
    {root : Fin p.size} (hroot : root.val = (declaredMembers before index).length)
    {d : Fin q.size} {t : Tag} (hd : q.resolveCall? (.handing fn body start stop) = some d)
    (htags : (q.members.get d).tags = { dispatch := some t })
    (hcalls : (q.members.get d).calls = []) :
    ∃ place : Fin p.size ↪ Fin q.size,
      (∀ i, i.val < p.declared.length → (place i).val = i.val) ∧
      (∀ i, i ≠ root → q.members.get (place i) = p.members.get i) ∧
      (∀ s, q.call? (s.carried place root) = p.call? s) ∧
      q.graph.violations (place root) =
        ((p.graph.violations root).filter fun v =>
          v.chain.tag ≠ t || p.graph.dispatched v.chain.first).map
            (Violation.carried place root) := by
  subst hp hq
  have hbuilt := built_build (before ++ r :: after) index
  have hbuilt' := built_build (before ++ r.handed fn start stop :: after) index
  have hands : (build (before ++ r :: after) index).HandsOver
      (build (before ++ r.handed fn start stop :: after) index) root
      (.handing fn body start stop) := handsOver_build hfunc hbody hfn hroot
  obtain ⟨place, hplace⟩ := hands.exists_place hbuilt hbuilt'
  refine ⟨place, fun i => (hplace i).declared, fun i => hands.others (hplace i),
    hands.call?_carried hplace, ?_⟩
  exact (hands.wraps hbuilt hbuilt' hplace hd htags hcalls).violations_eq

/-- Declarations in which `draw` calls `load` of another thread, once directly, once inside a call
of `later`, which dispatches to a third thread, and once through `help`, which calls `save` of
that third thread too. -/
def easel : List FuncDecl :=
  [{ name := "load", func := some load, pos, body := some [] },
    { name := "save", func := some save, pos, body := some [] },
    { name := "later", func := some later, pos, body := some [] },
    { name := "help", func := some help, pos, body := some [call load [], call save []] }]
where
  load : Func := { id := 0, name := "load" }
  save : Func := { id := 1, name := "save" }
  later : Func := { id := 2, name := "later" }
  help : Func := { id := 3, name := "help" }
  draw : Func := { id := 4, name := "draw" }
  /-- Declared elsewhere. -/
  async : Func := { id := 5, name := "async" }
  pos : Pos := { line := 1, column := 1 }
  name (f : Func) : Expr := .ident f.name (some f)
  call (f : Func) (args : List Expr) : Stmt := .expr (.call (.mk (name f) args false pos pos))
  body : List Stmt :=
    [call load [], call later [.funcLiteral (.funcType [] []) [call load [], call save []]],
      call help []]
  root : FuncDecl := { name := "draw", func := some draw, pos, body := some body }
  index : TagIndex :=
    { directives := [(load, { affinity := some ⟨"Worker"⟩ }), (save, { affinity := some ⟨"Disk"⟩ }),
        (later, { dispatch := some ⟨"Disk"⟩ }), (draw, { affinity := some ⟨"Main"⟩ }),
        (async, { dispatch := some ⟨"Worker"⟩ })] }

/-- The program before its body is handed to `async`. -/
def easelProgram : Program :=
  build (easel ++ [easel.root]) easel.index

/-- The program afterwards. -/
def easelHanded : Program :=
  build (easel ++ [easel.root.handed (easel.name easel.async) easel.pos easel.pos]) easel.index

theorem easel_violations {g : CallGraph 5}
    (hg : g = ⟨#v[
      { tags := { affinity := some ⟨"Worker"⟩ } },
      { tags := { affinity := some ⟨"Disk"⟩ } },
      { tags := { dispatch := some ⟨"Disk"⟩ } },
      { sites := [{ callee := some 0 }, { callee := some 1 }] },
      { tags := { affinity := some ⟨"Main"⟩ }
        sites := [{ callee := some 0 }, { callee := some 2 },
          { callee := some 0, enclosing := [2] }, { callee := some 1, enclosing := [2] },
          { callee := some 3 }] }]⟩) :
    (g.violations 4).map (fun v => (v.chain.tag.text,
        v.chain.sites.map fun s => (s.owner.val, s.index))) =
      [("Worker", [(4, 0)]), ("Worker", [(4, 2)]), ("Worker", [(4, 4), (3, 0)]),
        ("Disk", [(4, 4), (3, 1)])] := by
  subst hg
  cbv

/-- The direct call of `load` and the one through `help` are covered, the one inside the call of
`later` is not. -/
theorem easel_handed :
    (easelProgram.graph.violations ⟨4, by decide⟩).map (fun v => (v.chain.tag.text,
        v.chain.sites.map fun s => (s.owner.val, s.index))) =
      [("Worker", [(4, 0)]), ("Worker", [(4, 2)]), ("Worker", [(4, 4), (3, 0)]),
        ("Disk", [(4, 4), (3, 1)])] ∧
    ∃ place : Fin easelProgram.size ↪ Fin easelHanded.size,
      easelHanded.graph.violations (place ⟨4, by decide⟩) =
        ((easelProgram.graph.violations ⟨4, by decide⟩).filter fun v =>
          v.chain.tag ≠ ⟨"Worker"⟩ || easelProgram.graph.dispatched v.chain.first).map
            (Violation.carried place ⟨4, by decide⟩) := by
  have hroot : (⟨4, by decide⟩ : Fin easelProgram.size).val =
      (declaredMembers easel easel.index).length := by decide
  have hd : easelHanded.resolveCall?
      (.handing (easel.name easel.async) easel.body easel.pos easel.pos) =
        some ⟨5, by decide⟩ := by decide
  obtain ⟨place, -, -, -, hviolations⟩ := violations_handed rfl rfl rfl rfl rfl hroot hd rfl rfl
  exact ⟨easel_violations (g := easelProgram.graph) rfl, place, hviolations⟩

end Program

end ThreadAffinity
