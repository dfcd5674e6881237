/-
What messages can be told apart.

The diagnostics of a package differ in their wording: a call that enters another thread
directly is reported in words that no longer chain is reported in, an ignore directive without
names in words that no other report has, and no ignore directive like a directive at fault.
-/
import ThreadAffinity.Analysis

namespace ThreadAffinity

theorem append_ne_of_start {a b c : String} (h : ¬ a.toList <+: c.toList) : a ++ b ≠ c := by
  rintro rfl
  rw [String.toList_append] at h
  exact h (List.prefix_append _ _)

/-! ### Calls across threads -/

theorem Finding.message_eq_direct_iff {f : Finding} :
    f.message = "forbidden cross-thread invocation" ↔ f.route = none := by
  unfold message
  cases f.route with
  | none => exact iff_of_true rfl rfl
  | some calls =>
      have hstart : "forbidden cross-thread invocation: '" ++ calls ++ "'" =
          "forbidden cross-thread invocation: '" ++ (calls ++ "'") := String.append_assoc
      refine iff_of_false ?_ (by simp)
      show "forbidden cross-thread invocation: '" ++ calls ++ "'" ≠ _
      rw [hstart]
      exact append_ne_of_start (by decide)

/-! ### Ignore directives without use -/

/-- The report about an unused directive. -/
def UnusedIgnore.report (u : UnusedIgnore) : Diagnostic :=
  { pos := u.pos, message := u.message }

/-- A directive with names is reported in other words. -/
theorem UnusedIgnore.report_eq_iff {u : UnusedIgnore} {pos : Pos} :
    u.report = report { pos, checkers := [] } ↔ u = { pos, checkers := [] } := by
  refine ⟨fun h => ?_, fun h => h ▸ rfl⟩
  obtain ⟨place, names⟩ := u
  have hpos : place = pos := congrArg Diagnostic.pos h
  have hmessage : message { pos := place, checkers := names } =
      "unused threadctl:ignore directive" := congrArg Diagnostic.message h
  cases names with
  | nil => rw [hpos]
  | cons name names =>
      exact absurd hmessage (append_ne_of_start (by decide))

/-- Every report about an unused directive starts in the same way. -/
theorem UnusedIgnore.message_start (u : UnusedIgnore) : ['u', 'n', 'u'] <+: u.message.toList := by
  unfold message
  split
  · exact List.isPrefixOf_iff_prefix.mp (by decide)
  · rw [String.toList_append]
    exact (List.isPrefixOf_iff_prefix.mp (by decide)).trans (List.prefix_append _ _)

theorem DirectiveLint.Fault.message_ne (fault : Fault) (u : UnusedIgnore) :
    fault.message ≠ u.message := by
  -- No fault is worded like that, so what it starts with is no start of the report.
  have hother : ∀ a b : String, 3 ≤ a.toList.length → ¬ ['u', 'n', 'u'] <+: a.toList →
      a ++ b ≠ u.message := by
    intro a b hlength hstart
    refine append_ne_of_start fun h => hstart ?_
    exact List.prefix_of_prefix_length_le u.message_start h hlength
  have hquoted : ∀ s rest, Text.quoted s ++ rest ≠ u.message := by
    intro s rest heq
    have hstart := u.message_start
    rw [← heq, String.toList_append, Text.quoted, String.toList_ofList, List.cons_append] at hstart
    exact absurd (List.cons_prefix_cons.mp hstart).1 (by decide)
  cases fault with
  | unknown _ => exact hother "unknown directive " _ (by decide) (by decide)
  | missingTag _ => exact hquoted _ _
  | duplicate d =>
      have hstart : message (.duplicate d) = "duplicate " ++ (_ ++ _) := String.append_assoc
      rw [hstart]
      exact hother "duplicate " _ (by decide) (by decide)
  | noCallback f d =>
      have hstart : message (.noCallback f d) = "function " ++ (_ ++ _) :=
        String.append_assoc.trans (String.append_assoc.trans String.append_assoc)
      rw [hstart]
      exact hother "function " _ (by decide) (by decide)
  | misplaced _ => exact hquoted _ _

end ThreadAffinity
