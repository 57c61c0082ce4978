import Confinement.Process.Children
import Confinement.Proofs.Text.Decimal
import Confinement.Proofs.Text.Split
import Confinement.Proofs.Text.Words

/-!
# Start times behind any command name

The fields of a line of counters hold no closing parenthesis, so they are found behind the last one
whatever stands before it. A process may therefore choose its command name as it likes, also so that
it looks like further fields: the start time that is read is the twentieth field of the line.
-/

namespace Confinement

variable {text : String} {fields : List (List Char)}

theorem startTime?_of_not_mem {line : String} (h : ')' ∉ line.toList) : startTime? line = none := by
  rw [startTime?, Text.cutLast_eq_none_iff.mpr h]
  rfl

/-- What stands before the last closing parenthesis is not read. -/
theorem startTime?_append (head : String) (h : ')' ∉ text.toList) :
    startTime? (head ++ ")" ++ text) =
      (Text.words text.toList)[fieldsBeforeStart]?.bind (Text.unsigned? UInt64.size) := by
  have hline : (head ++ ")" ++ text).toList = head.toList ++ ')' :: text.toList := by simp
  rw [startTime?, hline, Text.cutLast_append h]
  rfl

/-- The field for the start time is read as an unsigned number of 64 bits. -/
theorem startTime?_of_spaced (head : String) (h : Text.Spaced fields text.toList)
    (hfields : ∀ field ∈ fields, ')' ∉ field) :
    startTime? (head ++ ")" ++ text) =
      fields[fieldsBeforeStart]?.bind (Text.unsigned? UInt64.size) := by
  have hclosing : ')' ∉ text.toList := h.not_mem (by decide) hfields
  rw [startTime?_append head hclosing, Text.words_eq_iff.mpr h]

/-- A line without a closing parenthesis has no start time. Where fields without one, with white
space between them, stand behind a closing parenthesis, `head` may be any text: the process number
and any command name. If there are fewer than twenty fields no start time is read. Otherwise it is
the number below 2⁶⁴ that the twentieth one writes in decimal digits behind at most one plus sign,
and if this field writes no such number there is none. -/
theorem startTime?_is_twentieth_field :
    (∀ line : String, ')' ∉ line.toList → startTime? line = none) ∧
    ∀ (head text : String) (fields : List (List Char)), Text.Spaced fields text.toList →
      (∀ field ∈ fields, ')' ∉ field) →
      (fields.length < 20 → startTime? (head ++ ")" ++ text) = none) ∧
      ∀ field, fields[19]? = some field → ∀ ticks,
        startTime? (head ++ ")" ++ text) = some ticks ↔
          Text.Writes 1 field ticks ∧ ticks < UInt64.size := by
  refine ⟨fun _ => startTime?_of_not_mem, fun head text fields h hfields => ?_⟩
  have hread := startTime?_of_spaced head h hfields
  refine ⟨fun hfew => ?_, fun field hfield ticks => ?_⟩
  · have hmissing : fields[fieldsBeforeStart]? = none :=
      List.getElem?_eq_none (Nat.le_of_lt_succ hfew)
    rw [hread, hmissing, Option.bind_none]
  · have hstart : fields[fieldsBeforeStart]? = some field := hfield
    rw [hread, hstart, Option.bind_some]
    exact Text.unsigned?_eq_some_iff

/-- The fields of a process whose start time is 987654. -/
def counters : String := " S 1 1234 1234 0 -1 4194560 100 0 0 0 5 6 0 0 20 0 4 0 987654 1000"

/-- The name `qemu) S 1 1 (kvm)`, which imitates fields, does not hide the start time. -/
theorem startTime?_imitating_name :
    Text.Spaced (Text.words counters.toList) counters.toList ∧
      (∀ field ∈ Text.words counters.toList, ')' ∉ field) ∧
      (Text.words counters.toList)[19]? = some "987654".toList ∧
      startTime? ("1234 (qemu) S 1 1 (kvm)" ++ ")" ++ counters) = some 987654 := by
  have hspaced : Text.Spaced (Text.words counters.toList) counters.toList :=
    Text.words_eq_iff.mp rfl
  have hfields : ∀ field ∈ Text.words counters.toList, ')' ∉ field := by decide
  have hfield : (Text.words counters.toList)[19]? = some "987654".toList := by decide
  have hnumber : Text.unsigned? UInt64.size "987654".toList = some 987654 := by decide
  have hwrites := Text.unsigned?_eq_some_iff.mp hnumber
  obtain ⟨-, hbehind⟩ := startTime?_is_twentieth_field
  obtain ⟨-, hread⟩ := hbehind "1234 (qemu) S 1 1 (kvm)" counters _ hspaced hfields
  exact ⟨hspaced, hfields, hfield, (hread _ hfield 987654).mpr hwrites⟩

end Confinement
