/-
The first of each key.

`distinctBy` is written from the front of a list.  What is needed of it elsewhere is how it
grows at the end, where elements are added one after the other: a new element is kept if
its key is new, and nothing else changes.  The other facts follow from that one.
-/
import Mathlib.Data.List.Find
import Mathlib.Data.List.Induction
import Mathlib.Data.List.Nodup
import ThreadAffinity.Distinct

namespace ThreadAffinity

variable {α β γ : Type} [DecidableEq β]

theorem mem_map_distinctBy {key : α → β} {l : List α} {k : β} :
    k ∈ (distinctBy key l).map key ↔ k ∈ l.map key := by
  rw [List.mem_map, List.mem_map]
  constructor
  · intro h
    obtain ⟨a, ha, hk⟩ := h
    exact ⟨a, mem_of_mem_distinctBy ha, hk⟩
  · intro h
    obtain ⟨a, ha, rfl⟩ := h
    exact exists_mem_distinctBy key ha

theorem mem_distinctBy_id {l : List β} {b : β} : b ∈ distinctBy id l ↔ b ∈ l := by
  simpa using (mem_map_distinctBy : b ∈ (distinctBy id l).map id ↔ _)

/-- At the end of a list an element is kept if its key is new. -/
theorem distinctBy_concat (key : α → β) (l : List α) (a : α) :
    distinctBy key (l ++ [a]) =
      if key a ∈ l.map key then distinctBy key l else distinctBy key l ++ [a] := by
  induction l with
  | nil => simp [distinctBy]
  | cons b l ih =>
      rw [List.cons_append, distinctBy, distinctBy, ih, List.map_cons]
      by_cases hl : key a ∈ l.map key
      · rw [if_pos hl, if_pos (List.mem_cons_of_mem _ hl)]
      · rw [if_neg hl, List.filter_append]
        by_cases hb : key a = key b
        · rw [if_pos (by rw [hb]; exact List.mem_cons_self)]
          simp [hb]
        · rw [if_neg (by simp only [List.mem_cons, hb, hl, or_self, not_false_eq_true])]
          simp [hb]

theorem distinctBy_eq_self {key : α → β} {l : List α} (h : (l.map key).Nodup) :
    distinctBy key l = l := by
  induction l with
  | nil => rfl
  | cons a l ih =>
      rw [List.map_cons, List.nodup_cons] at h
      rw [distinctBy, ih h.2, List.filter_eq_self.mpr]
      intro b hb
      rw [decide_eq_true_eq]
      exact fun hba => h.1 (List.mem_map.mpr ⟨b, hb, hba⟩)

theorem nodup_map_distinctBy (key : α → β) (l : List α) :
    ((distinctBy key l).map key).Nodup :=
  List.pairwise_map.mpr (pairwise_distinctBy key l)

theorem nodup_distinctBy_id (l : List β) : (distinctBy id l).Nodup := by
  simpa using nodup_map_distinctBy id l

theorem distinctBy_sublist (key : α → β) (l : List α) : (distinctBy key l).Sublist l := by
  induction l with
  | nil => exact List.Sublist.refl _
  | cons a l ih => exact (List.filter_sublist.trans ih).cons_cons a

/-- What comes first with its key is first among all, and the first of all is kept. -/
theorem find?_distinctBy {key : α → β} {p : α → Bool}
    (hp : ∀ a b, key a = key b → p a = p b) (l : List α) :
    (distinctBy key l).find? p = l.find? p := by
  induction l with
  | nil => rfl
  | cons a l ih =>
      rw [distinctBy, List.find?_cons, List.find?_cons]
      cases ha : p a with
      | true => rfl
      | false =>
          rw [List.find?_filter, ← ih]
          refine List.find?_congr fun b _ => ?_
          cases hb : p b with
          | false => simp
          | true =>
              have hne : key b ≠ key a := by
                intro hba
                rw [hp b a hba, ha] at hb
                cases hb
              simp [hne]

theorem find?_key_of_mem {key : α → β} {l : List α} (hnd : (l.map key).Nodup) {a : α}
    (ha : a ∈ l) : l.find? (fun b => key b = key a) = some a := by
  cases hfind : l.find? (fun b => key b = key a) with
  | none => exact absurd (decide_eq_true rfl) (List.find?_eq_none.mp hfind a ha)
  | some b =>
      have hba : key b = key a := by simpa using List.find?_some hfind
      rw [List.inj_on_of_nodup_map hnd (List.mem_of_find?_eq_some hfind) ha hba]

theorem find?_of_mem_distinctBy {key : α → β} {l : List α} {a : α} (ha : a ∈ distinctBy key l) :
    l.find? (fun b => key b = key a) = some a := by
  have hsame : ∀ b c, key b = key c → decide (key b = key a) = decide (key c = key a) := by
    intro b c h
    rw [h]
  rw [← find?_distinctBy hsame l]
  exact find?_key_of_mem (nodup_map_distinctBy key l) ha

/-- In a list with an order the first of a key comes before all others of it. -/
theorem eq_or_of_mem_distinctBy {key : α → β} {R : α → α → Prop} {l : List α} {a b : α}
    (ha : a ∈ distinctBy key l) (hl : l.Pairwise R) (hb : b ∈ l) (hkey : key b = key a) :
    a = b ∨ R a b := by
  obtain ⟨-, before, after, rfl, hbefore⟩ :=
    List.find?_eq_some_iff_append.mp (find?_of_mem_distinctBy ha)
  rw [List.pairwise_append, List.pairwise_cons] at hl
  rcases List.mem_append.mp hb with hb | hb
  · have := hbefore b hb
    simp [hkey] at this
  · rcases List.mem_cons.mp hb with hb | hb
    · exact Or.inl hb.symm
    · exact Or.inr (hl.2.1.1 b hb)

theorem map_distinctBy (key : α → β) (l : List α) :
    (distinctBy key l).map key = distinctBy id (l.map key) := by
  induction l using List.reverseRecOn with
  | nil => rfl
  | append_singleton l a ih =>
      rw [distinctBy_concat, List.map_append, List.map_singleton, distinctBy_concat, List.map_id,
        ← ih]
      by_cases ha : key a ∈ l.map key
      · rw [if_pos ha, if_pos (show id (key a) ∈ _ from ha)]
      · rw [if_neg ha, if_neg (show id (key a) ∉ _ from ha), List.map_append, List.map_singleton]

theorem distinctBy_map {δ : Type} (key : α → β) (f : δ → α) (l : List δ) :
    distinctBy key (l.map f) = (distinctBy (fun a => key (f a)) l).map f := by
  induction l with
  | nil => rfl
  | cons a l ih =>
      rw [List.map_cons, distinctBy, distinctBy, ih, List.filter_map, List.map_cons]
      rfl

/-- To drop repetitions at the front beforehand makes no difference. -/
theorem distinctBy_append_left (key : α → β) (l r : List α) :
    distinctBy key (distinctBy key l ++ r) = distinctBy key (l ++ r) := by
  induction r using List.reverseRecOn with
  | nil =>
      rw [List.append_nil, List.append_nil]
      exact distinctBy_eq_self (nodup_map_distinctBy key l)
  | append_singleton r a ih =>
      have hkeys : key a ∈ (distinctBy key l ++ r).map key ↔ key a ∈ (l ++ r).map key := by
        rw [List.map_append, List.map_append, List.mem_append, List.mem_append,
          mem_map_distinctBy]
      rw [← List.append_assoc, ← List.append_assoc, distinctBy_concat, distinctBy_concat, ih]
      simp only [hkeys]

/-- Nor does it at the back, even by a finer key. -/
theorem distinctBy_append_map [DecidableEq γ] {δ : Type} {key : α → β} {fine : δ → γ} {f : δ → α}
    (hf : ∀ a b, fine a = fine b → key (f a) = key (f b)) (l : List α) (r : List δ) :
    distinctBy key (l ++ (distinctBy fine r).map f) = distinctBy key (l ++ r.map f) := by
  induction r using List.reverseRecOn with
  | nil => rfl
  | append_singleton r a ih =>
      have hkeys : key (f a) ∈ (l ++ (distinctBy fine r).map f).map key ↔
          key (f a) ∈ (l ++ r.map f).map key := by
        rw [← mem_map_distinctBy, ih, mem_map_distinctBy]
      rw [List.map_append, List.map_singleton, ← List.append_assoc, distinctBy_concat key,
        distinctBy_concat fine]
      by_cases ha : fine a ∈ r.map fine
      · have hback : key (f a) ∈ (l ++ r.map f).map key := by
          obtain ⟨b, hb, hba⟩ := List.mem_map.mp ha
          rw [List.map_append, List.mem_append, List.map_map]
          exact Or.inr (List.mem_map.mpr ⟨b, hb, hf b a hba⟩)
        rw [if_pos ha, if_pos hback, ih]
      · rw [if_neg ha, List.map_append, List.map_singleton, ← List.append_assoc,
          distinctBy_concat, ih]
        simp only [hkeys]

/-- Elements other than the first of their key may be taken away. -/
theorem distinctBy_filter {key : α → β} {q : α → Bool} {l : List α}
    (h : ∀ a ∈ distinctBy key l, q a = true) : distinctBy key (l.filter q) = distinctBy key l := by
  induction l using List.reverseRecOn with
  | nil => rfl
  | append_singleton l a ih =>
      rw [distinctBy_concat] at h ⊢
      have hl : ∀ b ∈ distinctBy key l, q b = true := by
        intro b hb
        refine h b ?_
        split
        · exact hb
        · exact List.mem_append_left _ hb
      have hkeys : key a ∈ (l.filter q).map key ↔ key a ∈ l.map key := by
        rw [← mem_map_distinctBy, ih hl, mem_map_distinctBy]
      rw [List.filter_append]
      by_cases ha : key a ∈ l.map key
      · rw [if_pos ha]
        cases hq : q a with
        | false => simp [hq, ih hl]
        | true => simp only [hq, List.filter_cons_of_pos, List.filter_nil, distinctBy_concat,
            if_pos (hkeys.mpr ha), ih hl]
      · rw [if_neg ha] at h ⊢
        have hq : q a = true := h a (by simp)
        rw [List.filter_cons_of_pos hq, List.filter_nil, distinctBy_concat,
          if_neg (fun hc => ha (hkeys.mp hc)), ih hl]

end ThreadAffinity
