/-
The members of a program, and the members that calls are resolved to.

A program has its declared functions as members and, after them, the tagged functions that
are called but not declared, each once.  So a function is found at its last declaration, or
else at the only member that it is.  If the same functions are declared in another program and
more is called there, then the members of the first one are members of the second, perhaps
under other numbers, and what is called in the first is resolved to the same members.
-/
import Mathlib.Data.List.FinRange
import Mathlib.Logic.Embedding.Basic
import ThreadAffinity.Program
import ThreadAffinity.Proofs.Distinct

namespace ThreadAffinity

namespace Program

/-! ### The members by number -/

section Members

variable {p : Program} {i : Fin p.size}

theorem get_of_lt (h : i.val < p.declared.length) :
    p.members.get i = p.declared.get ⟨i.val, h⟩ := by
  rw [List.get_eq_getElem, List.get_eq_getElem]
  unfold members
  rw [List.getElem_append_left h]

theorem get_of_ge (h : p.declared.length ≤ i.val) :
    ∃ j : Fin p.external.length, i.val = p.declared.length + j.val ∧
      p.members.get i = p.external.get j := by
  have hi : i.val < p.declared.length + p.external.length :=
    i.isLt.trans_eq List.length_append
  refine ⟨⟨i.val - p.declared.length, by omega⟩, by simp; omega, ?_⟩
  rw [List.get_eq_getElem, List.get_eq_getElem]
  unfold members
  rw [List.getElem_append_right h]

theorem exists_of_mem_external {m : ProgramMember} (h : m ∈ p.external) :
    ∃ i : Fin p.size, p.declared.length ≤ i.val ∧ p.members.get i = m := by
  obtain ⟨j, rfl⟩ := List.mem_iff_get.mp h
  have hlt : p.declared.length + j.val < p.size :=
    (Nat.add_lt_add_left j.isLt _).trans_eq List.length_append.symm
  refine ⟨⟨_, hlt⟩, Nat.le_add_right _ _, ?_⟩
  rw [List.get_eq_getElem, List.get_eq_getElem]
  unfold members
  rw [List.getElem_append_right (Nat.le_add_right _ _)]
  simp

theorem resolve?_eq_some_iff {f : Func} :
    p.resolve? f = some i ↔
      (p.members.get i).func = f ∧ ∀ j, i < j → (p.members.get j).func ≠ f := by
  have hlast : ∀ {i : Fin p.size}, p.resolve? f = some i →
      (p.members.get i).func = f ∧ ∀ j, i < j → (p.members.get j).func ≠ f := by
    intro i h
    obtain ⟨hi, before, after, hsplit, hbefore⟩ := List.find?_eq_some_iff_append.mp h
    refine ⟨beq_iff_eq.mp hi, fun j hij hj => ?_⟩
    have hsorted : (List.finRange p.size).reverse.Pairwise (· > ·) := by
      rw [List.pairwise_reverse]
      exact List.pairwise_lt_finRange p.size
    rw [hsplit, List.pairwise_append, List.pairwise_cons] at hsorted
    have hmem : j ∈ before ++ i :: after := by
      rw [← hsplit, List.mem_reverse]
      exact List.mem_finRange j
    -- The members that come later in the program come earlier in the search.
    rcases List.mem_append.mp hmem with hj' | hj'
    · have := hbefore j hj'
      rw [Bool.not_eq_true'] at this
      exact absurd hj (by simpa using this)
    · rcases List.mem_cons.mp hj' with rfl | hj'
      · exact absurd hij (lt_irrefl j)
      · exact absurd hij (not_lt_of_gt (hsorted.2.1.1 j hj'))
  refine ⟨hlast, ?_⟩
  rintro ⟨hi, hafter⟩
  have hsome : (p.resolve? f).isSome := by
    unfold resolve?
    rw [List.find?_isSome]
    exact ⟨i, by simp, beq_iff_eq.mpr hi⟩
  obtain ⟨j, hj⟩ := Option.isSome_iff_exists.mp hsome
  obtain ⟨hjf, hjafter⟩ := hlast hj
  rcases lt_trichotomy i j with hij | rfl | hji
  · exact absurd hjf (hafter j hij)
  · exact hj
  · exact absurd hi (hjafter i hji)

theorem resolve?_eq_none_iff {f : Func} :
    p.resolve? f = none ↔ ∀ i, (p.members.get i).func ≠ f := by
  unfold resolve?
  rw [List.find?_eq_none]
  refine ⟨fun h i hi => h i (by simp) (beq_iff_eq.mpr hi), fun h i _ hi => ?_⟩
  exact h i (beq_iff_eq.mp hi)

end Members

/-! ### The members of a program that is built -/

/-- The functions that the declared functions call. -/
def called (p : Program) : List Func :=
  p.declared.flatMap fun m => m.calls.filterMap (·.call.callee?)

/-- The members of a program for a tag index: each carries its tags, and the members that are not
declared are the tagged functions that are called and not declared, each once. -/
structure Built (p : Program) (index : TagIndex) : Prop where
  tags : ∀ m ∈ p.declared, m.tags = index.lookup m.func
  mem_external : ∀ m, m ∈ p.external ↔
    m = { func := m.func, tags := index.lookup m.func } ∧ m.func ∈ p.called ∧
      (∀ d ∈ p.declared, d.func ≠ m.func) ∧ (index.lookup m.func).isEmpty = false
  nodup_external : (p.external.map (·.func)).Nodup

theorem built_build (decls : List FuncDecl) (index : TagIndex) :
    (build decls index).Built index := by
  have houtside : ∀ f, f ∈ distinctBy id ((build decls index).called.filter fun f =>
      ! (build decls index).declared.any (·.func == f) && ! (index.lookup f).isEmpty) ↔
      f ∈ (build decls index).called ∧ (∀ d ∈ (build decls index).declared, d.func ≠ f) ∧
        (index.lookup f).isEmpty = false := by
    intro f
    rw [mem_distinctBy_id, List.mem_filter, Bool.and_eq_true, Bool.not_eq_true',
      Bool.not_eq_true', List.any_eq_false]
    simp only [beq_iff_eq]
  refine ⟨?_, ?_, ?_⟩
  · intro m hm
    obtain ⟨d, -, f, -, rfl⟩ := mem_declaredMembers.mp hm
    rfl
  · refine fun m => Iff.trans List.mem_map ⟨?_, ?_⟩
    · rintro ⟨f, hf, rfl⟩
      exact ⟨rfl, (houtside f).mp hf⟩
    · rintro ⟨hm, hout⟩
      exact ⟨m.func, (houtside m.func).mpr hout, hm.symm⟩
  · have hfuncs : (build decls index).external.map (·.func) =
        (distinctBy id ((build decls index).called.filter fun f =>
          ! (build decls index).declared.any (·.func == f) && ! (index.lookup f).isEmpty)).map id :=
      List.map_map
    rw [hfuncs, List.map_id]
    exact nodup_distinctBy_id _

section Built

variable {p : Program} {index : TagIndex}

theorem Built.tags_get (hp : p.Built index) (i : Fin p.size) :
    (p.members.get i).tags = index.lookup (p.members.get i).func := by
  rcases List.mem_append.mp (List.get_mem p.members i) with h | h
  · exact hp.tags _ h
  · exact congrArg ProgramMember.tags ((hp.mem_external _).mp h).1

/-- Two members that are the same function and not declared are one. -/
theorem Built.eq_of_func (hp : p.Built index) {i j : Fin p.size} (hi : p.declared.length ≤ i.val)
    (hj : p.declared.length ≤ j.val) (h : (p.members.get i).func = (p.members.get j).func) :
    i = j := by
  obtain ⟨a, hia, hgeti⟩ := get_of_ge hi
  obtain ⟨b, hjb, hgetj⟩ := get_of_ge hj
  rw [hgeti, hgetj] at h
  have hmembers := List.inj_on_of_nodup_map hp.nodup_external (List.get_mem _ a)
    (List.get_mem _ b) h
  have hab : a = b := List.nodup_iff_injective_get.mp (hp.nodup_external.of_map _) hmembers
  exact Fin.ext (by rw [hia, hjb, hab])

/-- A function is not both declared and not declared. -/
theorem Built.func_ne (hp : p.Built index) {i j : Fin p.size} (hi : i.val < p.declared.length)
    (hj : p.declared.length ≤ j.val) : (p.members.get i).func ≠ (p.members.get j).func := by
  obtain ⟨b, -, hgetj⟩ := get_of_ge hj
  rw [get_of_lt hi, hgetj]
  exact ((hp.mem_external _).mp (List.get_mem _ b)).2.2.1 _ (List.get_mem _ _)

end Built

/-! ### Programs that declare the same functions -/

/-- The same member in two programs: declared ones have the same number. -/
structure SameMember (p q : Program) (i : Fin p.size) (j : Fin q.size) : Prop where
  func : (q.members.get j).func = (p.members.get i).func
  declared : i.val < p.declared.length → j.val = i.val
  external : p.declared.length ≤ i.val →
    q.declared.length ≤ j.val ∧ q.members.get j = p.members.get i

section SameFunctions

variable {p q : Program} {index : TagIndex}

theorem length_declared (hfuncs : p.declared.map (·.func) = q.declared.map (·.func)) :
    p.declared.length = q.declared.length := by
  simpa using congrArg List.length hfuncs

theorem SameMember.symm (hlen : p.declared.length = q.declared.length) {i : Fin p.size}
    {j : Fin q.size} (h : SameMember p q i j) : SameMember q p j i := by
  rcases Nat.lt_or_ge i.val p.declared.length with hi | hi
  · have hj := h.declared hi
    exact ⟨h.func.symm, fun _ => hj.symm, fun hge => by omega⟩
  · obtain ⟨hj, hget⟩ := h.external hi
    exact ⟨h.func.symm, fun hlt => by omega, fun _ => ⟨hi, hget.symm⟩⟩

/-- A member that the other program declares or calls is one of its members. -/
theorem exists_sameMember (hfuncs : p.declared.map (·.func) = q.declared.map (·.func))
    (hp : p.Built index) (hq : q.Built index) (i : Fin p.size)
    (hcalled : p.declared.length ≤ i.val → (p.members.get i).func ∈ q.called) :
    ∃ j, SameMember p q i j := by
  rcases Nat.lt_or_ge i.val p.declared.length with hi | hi
  · have hj : i.val < q.declared.length := length_declared hfuncs ▸ hi
    have hlt : i.val < q.size :=
      Nat.lt_of_lt_of_le hj ((Nat.le_add_right _ _).trans_eq List.length_append.symm)
    refine ⟨⟨i.val, hlt⟩, ?_, fun _ => rfl, fun hge => absurd hi (Nat.not_lt.mpr hge)⟩
    have hget := congrArg (·[i.val]?) hfuncs
    simp only [List.getElem?_map, List.getElem?_eq_getElem hi, List.getElem?_eq_getElem hj,
      Option.map_some, Option.some.injEq] at hget
    have hj' : (⟨i.val, hlt⟩ : Fin q.size).val < q.declared.length := hj
    rw [get_of_lt hi, get_of_lt hj']
    exact hget.symm
  · have hcall := hcalled hi
    obtain ⟨e, -, hget⟩ := get_of_ge hi
    rw [hget] at hcall
    obtain ⟨hmember, -, hdecl, htag⟩ := (hp.mem_external _).mp (List.get_mem _ e)
    have hdecl' : ∀ d ∈ q.declared, d.func ≠ (p.external.get e).func := by
      intro d hd hfunc
      have hmem : d.func ∈ p.declared.map (·.func) := hfuncs ▸ List.mem_map_of_mem hd
      obtain ⟨d', hd', hsame⟩ := List.mem_map.mp hmem
      exact hdecl d' hd' (hsame.trans hfunc)
    obtain ⟨j, hj, hget'⟩ := exists_of_mem_external
      ((hq.mem_external _).mpr ⟨hmember, hcall, hdecl', htag⟩)
    exact ⟨j, by rw [hget', hget], fun hlt => absurd hlt (Nat.not_lt.mpr hi),
      fun _ => ⟨hj, by rw [hget', hget]⟩⟩

theorem SameMember.injective (hp : p.Built index) (hlen : p.declared.length = q.declared.length)
    {i i' : Fin p.size} {j : Fin q.size} (hi : SameMember p q i j) (hi' : SameMember p q i' j) :
    i = i' := by
  rcases Nat.lt_or_ge i.val p.declared.length with hd | he <;>
    rcases Nat.lt_or_ge i'.val p.declared.length with hd' | he'
  · exact Fin.ext ((hi.declared hd).symm.trans (hi'.declared hd'))
  · have := hi.declared hd
    have := (hi'.external he').1
    omega
  · have := hi'.declared hd'
    have := (hi.external he).1
    omega
  · exact hp.eq_of_func he he' (hi.func.symm.trans hi'.func)

/-- What a program calls is resolved to the same members in another one that declares the same
functions. -/
theorem resolve?_of_sameMember (hfuncs : p.declared.map (·.func) = q.declared.map (·.func))
    (hp : p.Built index) (hq : q.Built index) {place : Fin p.size → Fin q.size}
    (hplace : ∀ i, SameMember p q i (place i)) {f : Func} (hf : f ∈ p.called) :
    q.resolve? f = (p.resolve? f).map place := by
  have hlen := length_declared hfuncs
  have hback : ∀ j, (q.members.get j).func = f → ∃ i, SameMember p q i j := by
    intro j hj
    obtain ⟨i, hi⟩ := exists_sameMember hfuncs.symm hq hp j (fun _ => hj ▸ hf)
    exact ⟨i, hi.symm hlen.symm⟩
  cases hi : p.resolve? f with
  | none =>
      rw [resolve?_eq_none_iff] at hi
      rw [Option.map_none, resolve?_eq_none_iff]
      intro j hj
      obtain ⟨i, hij⟩ := hback j hj
      exact hi i (hij.func.symm.trans hj)
  | some i =>
      obtain ⟨hfi, hafter⟩ := resolve?_eq_some_iff.mp hi
      rw [Option.map_some, resolve?_eq_some_iff]
      refine ⟨(hplace i).func.trans hfi, fun j hij hj => ?_⟩
      obtain ⟨l, hl⟩ := hback j hj
      have hfl : (p.members.get l).func = f := hl.func.symm.trans hj
      -- The two members are both declared, or both not and then one.
      rcases Nat.lt_or_ge i.val p.declared.length with hd | he <;>
        rcases Nat.lt_or_ge l.val p.declared.length with hd' | he'
      · have := (hplace i).declared hd
        have := hl.declared hd'
        exact hafter l (by omega) hfl
      · exact hp.func_ne hd he' (hfi.trans hfl.symm)
      · exact hp.func_ne hd' he (hfl.trans hfi.symm)
      · have hsame := hq.eq_of_func ((hplace i).external he).1 (hl.external he').1
          ((hplace i).func.trans (hfi.trans hj.symm))
        exact absurd hij (hsame ▸ lt_irrefl _)

end SameFunctions

end Program

end ThreadAffinity
