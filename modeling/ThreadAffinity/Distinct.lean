/-
Keeping the first of several things that agree in a key.
-/
namespace ThreadAffinity

variable {α β : Type} [DecidableEq β]

/-- The elements whose key no earlier element has, in order. -/
def distinctBy (key : α → β) : List α → List α
  | [] => []
  | a :: as => a :: (distinctBy key as).filter (key · ≠ key a)

/-- Nothing is made up. -/
theorem mem_of_mem_distinctBy {key : α → β} {l : List α} {a : α} (h : a ∈ distinctBy key l) :
    a ∈ l := by
  induction l with
  | nil => exact h
  | cons b l ih =>
    rcases List.mem_cons.1 h with rfl | hmem
    · exact List.mem_cons_self
    · exact List.mem_cons_of_mem _ (ih (List.mem_filter.1 hmem).1)

/-- Every key is kept. -/
theorem exists_mem_distinctBy (key : α → β) {l : List α} {a : α} (h : a ∈ l) :
    ∃ b ∈ distinctBy key l, key b = key a := by
  induction l with
  | nil => simp at h
  | cons c l ih =>
    by_cases hc : key a = key c
    · exact ⟨c, List.mem_cons_self, hc.symm⟩
    · have hal : a ∈ l := by
        rcases List.mem_cons.1 h with rfl | hmem
        · exact absurd rfl hc
        · exact hmem
      obtain ⟨b, hb, hkey⟩ := ih hal
      refine ⟨b, List.mem_cons_of_mem _ (List.mem_filter.2 ⟨hb, ?_⟩), hkey⟩
      simpa [hkey] using hc

/-- No key is kept twice. -/
theorem pairwise_distinctBy (key : α → β) (l : List α) :
    (distinctBy key l).Pairwise (key · ≠ key ·) := by
  induction l with
  | nil => exact List.Pairwise.nil
  | cons a l ih =>
    refine List.pairwise_cons.2 ⟨?_, ih.filter _⟩
    intro b hb
    have := (List.mem_filter.1 hb).2
    simpa using Ne.symm (by simpa using this)

end ThreadAffinity
