/-
The calls of a program that are resolved, and what they are resolved to.

Functions that are declared become members first; the tagged functions elsewhere become members
because the declared ones call them.  So whether a call is resolved could hang on what else is
called, and on the order.  It does not: for a call that a declared function makes, or that is
written around such a call, it is a matter of the function it calls alone.  Every call around
another one is itself among the calls of its body, which is why looking at those is enough.
-/
import ThreadAffinity.Proofs.Preorder
import ThreadAffinity.Proofs.Resolution

namespace ThreadAffinity

namespace Program

/-! ### The calls that are looked up -/

/-- A call that a declared function makes, or a call around such a one. -/
def Mentions (p : Program) (c : Call) : Prop :=
  ∃ m ∈ p.declared, ∃ e ∈ m.calls,
    e.call = c ∨ ∃ i ∈ e.enclosing, ∃ o, m.calls[i]? = some o ∧ o.call = c

theorem Mentions.exists_entry {p : Program} {c : Call} (h : p.Mentions c) :
    ∃ m ∈ p.declared, ∃ e ∈ m.calls, e.call = c := by
  obtain ⟨m, hm, e, he, rfl | ⟨i, -, o, ho, rfl⟩⟩ := h
  · exact ⟨m, hm, e, he, rfl⟩
  · exact ⟨m, hm, o, List.mem_of_getElem? ho, rfl⟩

theorem Mentions.mem_called {p : Program} {c : Call} {f : Func} (h : p.Mentions c)
    (hf : c.callee? = some f) : f ∈ p.called := by
  obtain ⟨m, hm, e, he, rfl⟩ := h.exists_entry
  exact List.mem_flatMap.mpr ⟨m, hm, List.mem_filterMap.mpr ⟨e, he, hf⟩⟩

/-! ### The declared members -/

section Declared

variable {decls : List FuncDecl} {index : TagIndex}

theorem map_func_declared_build :
    (build decls index).declared.map (·.func) = decls.filterMap (·.func) := by
  refine List.map_filterMap.trans (congrArg (decls.filterMap ·) (funext fun d => ?_))
  cases d.func <;> rfl

theorem exists_entry_of_mem_declared {m : ProgramMember} (hm : m ∈ (build decls index).declared)
    {e : CallEntry} (he : e ∈ m.calls) {i : Nat} (hi : i ∈ e.enclosing) :
    ∃ o, m.calls[i]? = some o := by
  obtain ⟨d, -, f, -, rfl⟩ := mem_declaredMembers.mp hm
  change e ∈ d.body.elim [] enumerateCalls at he
  change ∃ o, (d.body.elim [] enumerateCalls)[i]? = some o
  cases hbody : d.body with
  | none => simp [hbody] at he
  | some body => exact exists_entry_of_mem_enclosing (by simpa [hbody] using he) hi

end Declared

/-! ### One member for each function -/

section Built

variable {p : Program} {index : TagIndex}

theorem Built.nodup_members (hp : p.Built index) (hdeclared : (p.declared.map (·.func)).Nodup) :
    (p.members.map (·.func)).Nodup := by
  unfold members
  rw [List.map_append]
  refine hdeclared.append hp.nodup_external (List.disjoint_left.mpr fun f hf hf' => ?_)
  obtain ⟨d, hd, rfl⟩ := List.mem_map.mp hf
  obtain ⟨m, hm, hsame⟩ := List.mem_map.mp hf'
  exact ((hp.mem_external m).mp hm).2.2.1 d hd hsame.symm

/-- If no function is declared twice, a function is found where it is. -/
theorem Built.resolve?_eq_some_iff_func (hp : p.Built index)
    (hdeclared : (p.declared.map (·.func)).Nodup) {f : Func} {i : Fin p.size} :
    p.resolve? f = some i ↔ (p.members.get i).func = f := by
  rw [resolve?_eq_some_iff, and_iff_left_iff_imp]
  intro hi j hij hj
  have hmembers := List.inj_on_of_nodup_map (hp.nodup_members hdeclared) (List.get_mem _ j)
    (List.get_mem _ i) (hj.trans hi.symm)
  have hji : j = i :=
    List.nodup_iff_injective_get.mp ((hp.nodup_members hdeclared).of_map _) hmembers
  exact absurd hij (hji ▸ lt_irrefl j)

theorem Built.exists_mem_members_iff (hp : p.Built index) {f : Func} (hf : f ∈ p.called) :
    (∃ m ∈ p.members, m.func = f) ↔
      (∃ m ∈ p.declared, m.func = f) ∨ (index.lookup f).isEmpty = false := by
  constructor
  · rintro ⟨m, hm, rfl⟩
    rcases List.mem_append.mp hm with hm | hm
    · exact .inl ⟨m, hm, rfl⟩
    · exact .inr ((hp.mem_external m).mp hm).2.2.2
  · rintro (⟨m, hm, rfl⟩ | htagged)
    · exact ⟨m, List.mem_append_left _ hm, rfl⟩
    by_cases hdecl : ∃ m ∈ p.declared, m.func = f
    · obtain ⟨m, hm, rfl⟩ := hdecl
      exact ⟨m, List.mem_append_left _ hm, rfl⟩
    · have hnot : ∀ d ∈ p.declared, d.func ≠ f := fun d hd hfunc => hdecl ⟨d, hd, hfunc⟩
      have hmem := (hp.mem_external { func := f, tags := index.lookup f }).mpr
        ⟨rfl, hf, hnot, htagged⟩
      exact ⟨_, List.mem_append_right _ hmem, rfl⟩

theorem resolve?_isSome_iff {f : Func} :
    (p.resolve? f).isSome ↔ ∃ m ∈ p.members, m.func = f := by
  rw [← Option.ne_none_iff_isSome, ne_eq, resolve?_eq_none_iff]
  simp only [ne_eq, not_forall, not_not]
  constructor
  · rintro ⟨i, hi⟩
    exact ⟨_, List.get_mem _ i, hi⟩
  · rintro ⟨m, hm, hf⟩
    obtain ⟨i, rfl⟩ := List.mem_iff_get.mp hm
    exact ⟨i, hf⟩

end Built

/-! ### The member that a call is resolved to -/

/-- What is known of a member that is the function `f`, in the program of some declarations. -/
structure IsMemberOf (decls : List FuncDecl) (index : TagIndex) (f : Func) (m : ProgramMember) :
    Prop where
  func : m.func = f
  tags : m.tags = index.lookup f
  declared : ∀ d ∈ decls, d.func = some f → m.decl = some d ∧ m.calls = d.calls
  elsewhere : (∀ d ∈ decls, d.func ≠ some f) → m.decl = none ∧ m.calls = []

theorem isMemberOf_get {decls : List FuncDecl} {index : TagIndex}
    (hdistinct : (decls.filterMap (·.func)).Nodup) (i : Fin (build decls index).size) :
    IsMemberOf decls index ((build decls index).members.get i).func
      ((build decls index).members.get i) := by
  have hbuilt := built_build decls index
  have hnodup := hbuilt.nodup_members (map_func_declared_build ▸ hdistinct)
  refine ⟨rfl, hbuilt.tags_get i, fun d hd hfunc => ?_, fun hnot => ?_⟩
  · -- The member of that declaration is a member with the same function.
    obtain ⟨m, hm, hmember⟩ : ∃ m ∈ (build decls index).declared,
        m = { func := ((build decls index).members.get i).func, decl := some d,
              tags := index.lookup ((build decls index).members.get i).func, calls := d.calls } :=
      ⟨_, mem_declaredMembers.mpr ⟨d, hd, _, hfunc, rfl⟩, rfl⟩
    have hsame := List.inj_on_of_nodup_map hnodup (List.get_mem _ i)
      (List.mem_append_left _ hm) (congrArg ProgramMember.func hmember).symm
    rw [hmember] at hsame
    rw [hsame]
    exact ⟨rfl, rfl⟩
  · rcases List.mem_append.mp (List.get_mem (build decls index).members i) with hm | hm
    · obtain ⟨d, hd, f, hfunc, hmember⟩ := mem_declaredMembers.mp hm
      exact absurd (hfunc.trans (congrArg some (congrArg ProgramMember.func hmember).symm))
        (hnot d hd)
    · rw [((hbuilt.mem_external _).mp hm).1]
      exact ⟨rfl, rfl⟩

/--
**Calls are resolved completely and to one member for each function.**  If no function is
declared twice, then a call that is made in the program, or written around such a call, is
resolved exactly if it calls a function that is declared or has tags.  The member is then that
function, with its tags, and with the calls of its body if it is declared and none otherwise; no
other member is that function, and all calls of it are resolved to this member.  Every number in
the list of calls around a call is that of a call.
-/
theorem resolveCall?_build {decls : List FuncDecl} (index : TagIndex)
    (hdistinct : (decls.filterMap (·.func)).Nodup) {p : Program} (hp : p = build decls index) :
    (∀ m ∈ p.declared, ∀ e ∈ m.calls, ∀ i ∈ e.enclosing, ∃ o, m.calls[i]? = some o) ∧
    ∀ c, p.Mentions c →
      ((∃ i, p.resolveCall? c = some i) ↔ ∃ f, c.callee? = some f ∧
        ((∃ d ∈ decls, d.func = some f) ∨ (index.lookup f).isEmpty = false)) ∧
      ∀ i, p.resolveCall? c = some i → ∃ f, c.callee? = some f ∧
        IsMemberOf decls index f (p.members.get i) ∧
        (∀ j, (p.members.get j).func = f → j = i) ∧
        ∀ c', c'.callee? = some f → p.resolveCall? c' = some i := by
  subst hp
  have hbuilt := built_build decls index
  have hdeclared : ((build decls index).declared.map (·.func)).Nodup :=
    map_func_declared_build ▸ hdistinct
  refine ⟨fun m hm e he i hi => exists_entry_of_mem_declared hm he hi, fun c hc => ⟨?_, ?_⟩⟩
  · have hresolved : (∃ i, (build decls index).resolveCall? c = some i) ↔
        ∃ f, c.callee? = some f ∧ ((build decls index).resolve? f).isSome := by
      simp only [resolveCall?, Option.bind_eq_some_iff, Option.isSome_iff_exists]
      exact ⟨fun ⟨i, f, hf, hi⟩ => ⟨f, hf, i, hi⟩, fun ⟨f, hf, i, hi⟩ => ⟨i, f, hf, hi⟩⟩
    rw [hresolved]
    refine exists_congr fun f => and_congr_right fun hf => ?_
    rw [resolve?_isSome_iff, hbuilt.exists_mem_members_iff (hc.mem_called hf)]
    refine or_congr_left ?_
    calc (∃ m ∈ (build decls index).declared, m.func = f)
        ↔ f ∈ (build decls index).declared.map (·.func) := List.mem_map.symm
      _ ↔ f ∈ decls.filterMap (·.func) := by rw [map_func_declared_build]
      _ ↔ ∃ d ∈ decls, d.func = some f := List.mem_filterMap
  · intro i hi
    obtain ⟨f, hf, hresolve⟩ := Option.bind_eq_some_iff.mp hi
    have hfunc := (hbuilt.resolve?_eq_some_iff_func hdeclared).mp hresolve
    refine ⟨f, hf, hfunc ▸ isMemberOf_get hdistinct i, fun j hj => ?_, fun c' hf' => ?_⟩
    · have hj' := (hbuilt.resolve?_eq_some_iff_func hdeclared).mpr hj
      exact Option.some.inj (hj'.symm.trans hresolve)
    · exact Option.bind_eq_some_iff.mpr ⟨f, hf', hresolve⟩

/-- Declarations in which `draw` has `later` run a piece of code that calls `load`, which is
declared after it, and `print`, which is not declared and has no tag. -/
def sketch : List FuncDecl :=
  [{ name := "draw", func := some draw, pos, body := some
      [.expr (.call around)] },
    { name := "load", func := some load, pos, body := some [.expr (.call (call later []))] }]
where
  draw : Func := { id := 0, name := "draw" }
  load : Func := { id := 1, name := "load" }
  /-- Declared elsewhere. -/
  later : Func := { id := 2, name := "later" }
  /-- Declared elsewhere. -/
  print : Func := { id := 3, name := "print" }
  pos : Pos := { line := 1, column := 1 }
  call (f : Func) (args : List Expr) : Call := .mk (.ident f.name (some f)) args false pos pos
  around : Call := call later [.funcLiteral (.funcType [] []) [.expr (.call (call load [])),
    .expr (.call (call print []))]]
  index : TagIndex := { directives := [(later, { dispatch := some ⟨"Worker"⟩ })] }

/-- The program of these declarations. -/
def sketchProgram : Program :=
  build sketch sketch.index

/-- The call of `later` around that of `load` is resolved to the same member as the one in `load`,
and the call of `print` is not resolved. -/
theorem sketch_resolved :
    (∃ i, sketchProgram.resolveCall? sketch.around = some i ∧
      IsMemberOf sketch sketch.index sketch.later (sketchProgram.members.get i) ∧
      sketchProgram.resolveCall? (sketch.call sketch.later []) = some i) ∧
    ¬ ∃ i, sketchProgram.resolveCall? (sketch.call sketch.print []) = some i := by
  have hdistinct : (sketch.filterMap (·.func)).Nodup := by decide
  obtain ⟨-, hresolved⟩ := resolveCall?_build sketch.index hdistinct rfl
  have haround : sketchProgram.Mentions sketch.around :=
    ⟨_, .head _, ⟨sketch.call sketch.load [], [0]⟩, .tail _ (.head _),
      .inr ⟨0, .head _, ⟨sketch.around, []⟩, rfl, rfl⟩⟩
  have hprint : sketchProgram.Mentions (sketch.call sketch.print []) :=
    ⟨_, .head _, ⟨_, [0]⟩, .tail _ (.tail _ (.head _)), .inl rfl⟩
  constructor
  · obtain ⟨i, hi⟩ := (hresolved _ haround).1.mpr ⟨sketch.later, rfl, .inr rfl⟩
    obtain ⟨f, hf, hmember, -, hsame⟩ := (hresolved _ haround).2 i hi
    obtain rfl : sketch.later = f := Option.some.inj hf
    exact ⟨i, hi, hmember, hsame _ rfl⟩
  · intro hfound
    obtain ⟨f, hf, hfound⟩ := (hresolved _ hprint).1.mp hfound
    obtain rfl : sketch.print = f := Option.some.inj hf
    exact absurd hfound (by decide)

end Program

end ThreadAffinity
