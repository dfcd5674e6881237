/-
Going through a list with a step that can fail.

Such a run gives either all results or the first fault.  That settles what it gives, and also
when it makes no difference which of several values a step gets: either no step can tell its
values apart, or some step fails under all of them and no step before it can fail otherwise.
-/
import Mathlib.Logic.Function.Basic
import Mathlib.Tactic.Choose

namespace ThreadAffinity

variable {α β ε γ : Type}

theorem bind_eq_ok_iff {x : Except ε α} {f : α → Except ε β} {y : β} :
    x >>= f = .ok y ↔ ∃ a, x = .ok a ∧ f a = .ok y := by
  cases x with
  | error e => exact iff_of_false (by rintro ⟨⟩) (by rintro ⟨_, ⟨⟩, -⟩)
  | ok a =>
      constructor
      · exact fun h => ⟨a, rfl, h⟩
      · rintro ⟨_, ⟨⟩, h⟩
        exact h

theorem mapError_eq_ok_iff {ε' : Type} {x : Except ε α} {f : ε → ε'} {a : α} :
    x.mapError f = .ok a ↔ x = .ok a := by
  cases x with
  | error e => exact iff_of_false (by rintro ⟨⟩) (by rintro ⟨⟩)
  | ok b => exact ⟨by rintro ⟨⟩; rfl, by rintro ⟨⟩; rfl⟩

/-- A run succeeds if every step does, with the results of the steps. -/
theorem mapM_eq_ok_iff {f : α → Except ε β} {l : List α} {ys : List β} :
    l.mapM f = .ok ys ↔ l.map f = ys.map .ok := by
  induction l generalizing ys with
  | nil =>
      cases ys with
      | nil => exact iff_of_true rfl rfl
      | cons y ys => exact iff_of_false (by rintro ⟨⟩) (by simp)
  | cons a l ih =>
      rw [List.mapM_cons, List.map_cons]
      cases hstep : f a with
      | error e =>
          refine iff_of_false (by rintro ⟨⟩) ?_
          cases ys <;> simp
      | ok y =>
          cases ys with
          | nil =>
              refine iff_of_false ?_ (by simp)
              cases l.mapM f <;> rintro ⟨⟩
          | cons z zs =>
              rw [List.map_cons, List.cons.injEq, Except.ok.injEq, ← ih]
              cases l.mapM f with
              | error e => exact iff_of_false (by rintro ⟨⟩) (by rintro ⟨-, ⟨⟩⟩)
              | ok us =>
                  constructor
                  · rintro ⟨⟩
                    exact ⟨rfl, rfl⟩
                  · rintro ⟨rfl, ⟨⟩⟩
                    rfl

theorem exists_mapM_eq_ok {f : α → Except ε β} {l : List α} (h : ∀ a ∈ l, ∃ y, f a = .ok y) :
    ∃ ys, l.mapM f = .ok ys := by
  induction l with
  | nil => exact ⟨[], rfl⟩
  | cons a l ih =>
      obtain ⟨y, hy⟩ := h a List.mem_cons_self
      obtain ⟨ys, hys⟩ := ih fun b hb => h b (List.mem_cons_of_mem a hb)
      exact ⟨y :: ys, by rw [List.mapM_cons, hy, hys]; rfl⟩

theorem exists_of_mapM_eq_ok {f : α → Except ε β} {l : List α} {ys : List β}
    (h : l.mapM f = .ok ys) {a : α} (ha : a ∈ l) : ∃ y ∈ ys, f a = .ok y := by
  have hmem : f a ∈ ys.map .ok := by
    rw [← mapM_eq_ok_iff.mp h]
    exact List.mem_map_of_mem ha
  obtain ⟨y, hy, heq⟩ := List.mem_map.mp hmem
  exact ⟨y, hy, heq.symm⟩

/-- What can be read off a result as well as off what it came from is the same list for both. -/
theorem map_eq_of_mapM_eq_ok {δ : Type} {f : α → Except ε β} {l : List α} {ys : List β}
    {before : α → δ} {after : β → δ} (hstep : ∀ a ∈ l, ∀ y, f a = .ok y → after y = before a)
    (h : l.mapM f = .ok ys) : ys.map after = l.map before := by
  have hsteps := mapM_eq_ok_iff.mp h
  clear h
  induction l generalizing ys with
  | nil =>
      rw [List.map_nil, eq_comm, List.map_eq_nil_iff] at hsteps
      rw [hsteps, List.map_nil, List.map_nil]
  | cons a l ih =>
      rw [List.map_cons, eq_comm, List.map_eq_cons_iff] at hsteps
      obtain ⟨y, rest, rfl, hy, hrest⟩ := hsteps
      rw [List.map_cons, List.map_cons, hstep a List.mem_cons_self y hy.symm,
        ih (fun b hb => hstep b (List.mem_cons_of_mem a hb)) hrest.symm]

/-- A step that fails makes the run fail, with its fault if no step before it fails otherwise. -/
theorem mapM_eq_error {f : α → Except ε β} {before after : List α} {a : α} {e : ε}
    (hbefore : ∀ b ∈ before, ∀ e', f b = .error e' → e' = e) (ha : f a = .error e) :
    (before ++ a :: after).mapM f = .error e := by
  induction before with
  | nil => rw [List.nil_append, List.mapM_cons, ha]; rfl
  | cons b before ih =>
      have hrest := ih fun c hc => hbefore c (List.mem_cons_of_mem b hc)
      rw [List.cons_append, List.mapM_cons]
      cases hb : f b with
      | error e' => rw [hbefore b List.mem_cons_self e' hb]; rfl
      | ok y => rw [hrest]; rfl

theorem mapM_congr {f g : α → Except ε β} {l : List α} (h : ∀ a ∈ l, f a = g a) :
    l.mapM f = l.mapM g := by
  induction l with
  | nil => rfl
  | cons a l ih =>
      rw [List.mapM_cons, List.mapM_cons, h a List.mem_cons_self,
        ih fun b hb => h b (List.mem_cons_of_mem a hb)]

/-! ### Steps with several possible values -/

/-- It makes no difference which of its values each step gets: no step can tell its values
apart, or some step fails with one fault under all of them and no step before it can fail with
another. -/
def Settled (values : α → List β) (f : α → β → Except ε γ) (l : List α) : Prop :=
  (∀ a ∈ l, ∀ v ∈ values a, ∀ w ∈ values a, f a v = f a w) ∨
    ∃ before a after e, l = before ++ a :: after ∧ (∀ v ∈ values a, f a v = .error e) ∧
      ∀ b ∈ before, ∀ v ∈ values b, ∀ e', f b v = .error e' → e' = e

/-- A choice of one of its values for each step. -/
def IsChoice (values : α → List β) (l : List α) (g : α → β) : Prop :=
  ∀ a ∈ l, g a ∈ values a

/-- No choice can be told from another by what the run gives. -/
def Indistinct (values : α → List β) (f : α → β → Except ε γ) (l : List α) : Prop :=
  ∀ g g', IsChoice values l g → IsChoice values l g' →
    l.mapM (fun a => f a (g a)) = l.mapM (fun a => f a (g' a))

section Choices

variable {values : α → List β} {f : α → β → Except ε γ} {l : List α}

theorem IsChoice.update [DecidableEq α] {g : α → β} (hg : IsChoice values l g) {a : α} {v : β}
    (hv : v ∈ values a) : IsChoice values l (Function.update g a v) := by
  intro b hb
  by_cases hba : b = a
  · subst hba
    rwa [Function.update_self]
  · rw [Function.update_of_ne hba]
    exact hg b hb

/-- There is a choice under which all steps succeed that can succeed. -/
theorem exists_choice [Nonempty β] (f : α → β → Except ε γ) (hvalues : ∀ a ∈ l, values a ≠ []) :
    ∃ g, IsChoice values l g ∧
      ∀ a ∈ l, (∃ v ∈ values a, ∃ y, f a v = .ok y) → ∃ y, f a (g a) = .ok y := by
  have hbest : ∀ a, ∃ v, a ∈ l →
      v ∈ values a ∧ ((∃ v ∈ values a, ∃ y, f a v = .ok y) → ∃ y, f a v = .ok y) := by
    intro a
    by_cases hgood : ∃ v ∈ values a, ∃ y, f a v = .ok y
    · obtain ⟨v, hv, hok⟩ := hgood
      exact ⟨v, fun _ => ⟨hv, fun _ => hok⟩⟩
    · by_cases ha : a ∈ l
      · obtain ⟨v, hv⟩ := List.exists_mem_of_ne_nil _ (hvalues a ha)
        exact ⟨v, fun _ => ⟨hv, fun h => absurd h hgood⟩⟩
      · exact ⟨Classical.arbitrary β, fun h => absurd h ha⟩
  choose g hg using hbest
  exact ⟨g, fun a ha => (hg a ha).1, fun a ha => (hg a ha).2⟩

/-- A fault that a step has under another value shows if all steps before it succeed. -/
theorem mapM_update_eq_error [DecidableEq α] {g : α → β} {before after : List α} {a : α} {v : β}
    {e : ε} (hbefore : ∀ b ∈ before, ∃ y, f b (g b) = .ok y) (hnew : a ∉ before)
    (hv : f a v = .error e) :
    (before ++ a :: after).mapM (fun c => f c (Function.update g a v c)) = .error e := by
  refine mapM_eq_error (fun b hb e' he' => ?_) (by rw [Function.update_self, hv])
  have hba : b ≠ a := fun h => hnew (h ▸ hb)
  obtain ⟨y, hy⟩ := hbefore b hb
  rw [Function.update_of_ne hba, hy] at he'
  cases he'

theorem exists_first {p : α → Prop} (h : ∃ a ∈ l, p a) :
    ∃ before a after, l = before ++ a :: after ∧ p a ∧ ∀ b ∈ before, ¬ p b := by
  classical
  obtain ⟨a, ha, hp⟩ := h
  have hsome : (l.find? (p ·)).isSome := List.find?_isSome.mpr ⟨a, ha, by simpa using hp⟩
  obtain ⟨first, hfirst⟩ := Option.isSome_iff_exists.mp hsome
  obtain ⟨hp, before, after, hl, hbefore⟩ := List.find?_eq_some_iff_append.mp hfirst
  exact ⟨before, first, after, hl, by simpa using hp, by simpa using hbefore⟩

theorem Settled.indistinct (h : Settled values f l) : Indistinct values f l := by
  intro g g' hg hg'
  rcases h with hsame | ⟨before, a, after, e, rfl, ha, hbefore⟩
  · exact mapM_congr fun a ha => hsame a ha _ (hg a ha) _ (hg' a ha)
  · have hfail : ∀ {g : α → β}, IsChoice values (before ++ a :: after) g →
        (before ++ a :: after).mapM (fun a => f a (g a)) = .error e := by
      intro g hg
      refine mapM_eq_error ?_ (ha _ (hg a (by simp)))
      exact fun b hb e' he' => hbefore b hb _ (hg b (by simp [hb])) e' he'
    rw [hfail hg, hfail hg']

/-- If every step can succeed, the run can, and then no step can be changed. -/
theorem Indistinct.settled_of_succeeds (h : Indistinct values f l) {g : α → β}
    (hg : IsChoice values l g) (hok : ∀ a ∈ l, ∃ y, f a (g a) = .ok y) : Settled values f l := by
  classical
  obtain ⟨ys, hys⟩ := exists_mapM_eq_ok hok
  have hsame : ∀ a ∈ l, ∀ v ∈ values a, f a v = f a (g a) := by
    intro a ha v hv
    have hys' := (h _ _ hg (hg.update hv)).symm.trans hys
    have hmaps := (mapM_eq_ok_iff.mp hys').trans (mapM_eq_ok_iff.mp hys).symm
    simpa using List.map_inj_left.mp hmaps a ha
  left
  intro a ha v hv w hw
  rw [hsame a ha v hv, hsame a ha w hw]

/-- The first step that always fails decides: another fault up to there would show. -/
theorem Indistinct.settled_of_fails {before after : List α} {a : α}
    (h : Indistinct values f (before ++ a :: after)) {g : α → β}
    (hg : IsChoice values (before ++ a :: after) g) (hok : ∀ b ∈ before, ∃ y, f b (g b) = .ok y)
    (ha : ¬ ∃ v ∈ values a, ∃ y, f a v = .ok y) : Settled values f (before ++ a :: after) := by
  classical
  have hgood : ∀ b ∈ before, ∃ v ∈ values b, ∃ y, f b v = .ok y :=
    fun b hb => ⟨g b, hg b (by simp [hb]), hok b hb⟩
  have hnew : a ∉ before := fun hmem => ha (hgood a hmem)
  have hfault : ∀ v ∈ values a, ∃ e, f a v = .error e := by
    intro v hv
    cases he : f a v with
    | error e => exact ⟨e, rfl⟩
    | ok y => exact absurd ⟨v, hv, y, he⟩ ha
  obtain ⟨e, he⟩ := hfault (g a) (hg a (by simp))
  have hshows : ∀ {b front back v e'}, before ++ a :: after = front ++ b :: back →
      (∀ c ∈ front, ∃ y, f c (g c) = .ok y) → b ∉ front → v ∈ values b → f b v = .error e' →
      (before ++ a :: after).mapM (fun c => f c (g c)) = .error e' := by
    intro b front back v e' hl hfront hb hv he'
    rw [h _ _ hg (hg.update hv), hl]
    exact mapM_update_eq_error hfront hb he'
  have hrun := hshows rfl hok hnew (hg a (by simp)) he
  right
  refine ⟨before, a, after, e, rfl, fun v hv => ?_, fun b hb v hv e' he' => ?_⟩
  · obtain ⟨e', he'⟩ := hfault v hv
    have hrun' := hshows rfl hok hnew hv he'
    rw [hrun, Except.error.injEq] at hrun'
    rw [he', hrun']
  · obtain ⟨front, back, rfl, hfirst⟩ := List.eq_append_cons_of_mem hb
    have hrun' := hshows (List.append_assoc front (b :: back) (a :: after))
      (fun c hc => hok c (by simp [hc])) hfirst hv he'
    rw [hrun, Except.error.injEq] at hrun'
    exact hrun'.symm

/-- **The choice makes no difference exactly if the steps are settled.** -/
theorem indistinct_iff_settled [Nonempty β] (hvalues : ∀ a ∈ l, values a ≠ []) :
    Indistinct values f l ↔ Settled values f l := by
  refine ⟨fun h => ?_, Settled.indistinct⟩
  obtain ⟨g, hg, hgood⟩ := exists_choice f hvalues
  by_cases hfails : ∃ a ∈ l, ¬ ∃ v ∈ values a, ∃ y, f a v = .ok y
  · obtain ⟨before, a, after, rfl, ha, hbefore⟩ := exists_first hfails
    refine h.settled_of_fails hg (fun b hb => ?_) ha
    exact hgood b (by simp [hb]) (not_not.mp (hbefore b hb))
  · refine h.settled_of_succeeds hg fun a ha => ?_
    exact hgood a ha (by_contra fun hno => hfails ⟨a, ha, hno⟩)

end Choices

end ThreadAffinity
