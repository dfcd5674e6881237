/-
A specification as text is the text it was read from.

Reading cuts a text at its last dot and, if the part before it looks like a type, at the one
before.  Writing puts the dots back where they were, so nothing is lost but the blanks around.
-/
import ThreadAffinity.FunctionSpec
import ThreadAffinity.Proofs.Text

namespace ThreadAffinity.FunctionSpec

open Text

/-- The parts of an owner put together again. -/
theorem eq_of_splitOwner {owner package : List Char} {receiver : Option (List Char)}
    (h : splitOwner owner = (package, receiver)) :
    owner = receiver.elim package fun segment => package ++ '.' :: segment := by
  unfold splitOwner at h
  split at h
  · rename_i front segment hcut
    split at h
    · obtain ⟨rfl, rfl⟩ := Prod.mk.inj h
      exact (eq_of_cutLast_eq_some hcut).1
    · obtain ⟨rfl, rfl⟩ := Prod.mk.inj h
      rfl
  · obtain ⟨rfl, rfl⟩ := Prod.mk.inj h
    rfl

theorem toList_render_of_ofTrimmed {text : List Char} {s : FunctionSpec}
    (h : ofTrimmed text = .ok s) : s.render.toList = text := by
  unfold ofTrimmed at h
  split at h
  · cases h
  · split at h
    · rename_i owner name hcut
      split at h
      · cases h
      · obtain ⟨htext, -⟩ := eq_of_cutLast_eq_some hcut
        cases hsplit : splitOwner owner with
        | mk package receiver =>
            rw [hsplit] at h
            obtain rfl := Except.ok.inj h
            rw [htext, eq_of_splitOwner hsplit]
            cases receiver with
            | none => simp [render]
            | some segment => simp [render]
    · cases h

/-- A specification is written as the text it was read from, without the blanks around it. -/
theorem render_of_parse {text : String} {s : FunctionSpec} (h : parse text = .ok s) :
    s.render = trimmed text := by
  rw [← String.toList_inj, toList_trimmed]
  exact toList_render_of_ofTrimmed h

end ThreadAffinity.FunctionSpec
