import DreamBerd.Clause.Read
import Mathlib.Data.List.Induction

/-!
# Indentation

The blanks at the start of a line are checked behind a line break. Of the tokens before, the check
remembers only whether it has just passed a line break, and a line break at the start of a line is taken
for what the line holds. So of several line breaks in a row every second one starts no line
(`startsLine_eq`), and a badly indented line is refused if and only if an odd number of line breaks comes
right before it (`checkIndent_fails_iff`). Behind an empty line the indentation is free
(`empty_line_hides_indentation`).
-/

namespace DreamBerd

namespace Clause

variable {src : Source} {atStart : Bool} {t : Token} {ts : List Token}

def misaligned (t : Token) : Bool := t.isBlank && indentWidth t % 3 != 0

def startsLine (atStart : Bool) (passed : List Token) : Bool :=
  passed.foldl (fun atStart t => !atStart && t.is .newline) atStart

def lineBreaks (passed : List Token) : Nat := (passed.reverse.takeWhile (·.is .newline)).length

/-! ## One token -/

theorem checkIndent_cons :
    checkIndent src atStart (t :: ts) =
      if atStart && misaligned t then .error (src.atToken .badIndent t)
      else checkIndent src (startsLine atStart [t]) ts := by
  cases atStart <;> rfl

theorem startsLine_concat :
    startsLine atStart (ts ++ [t]) = (!startsLine atStart ts && t.is .newline) := by
  rw [startsLine, List.foldl_append]
  rfl

theorem lineBreaks_concat :
    lineBreaks (ts ++ [t]) = if t.is .newline then lineBreaks ts + 1 else 0 := by
  rw [lineBreaks, List.reverse_concat, List.takeWhile_cons]
  split <;> rfl

/-! ## Many tokens -/

theorem startsLine_eq (ts : List Token) : startsLine false ts = (lineBreaks ts % 2 == 1) := by
  induction ts using List.reverseRecOn with
  | nil => rfl
  | append_singleton ts t ih =>
    rw [startsLine_concat, lineBreaks_concat, ih]
    cases t.is .newline with
    | false => simp
    | true =>
      rcases Nat.mod_two_eq_zero_or_one (lineBreaks ts) with even | odd
      · simp [Nat.add_mod, even]
      · simp [Nat.add_mod, odd]

theorem checkIndent_append {xs ys : List Token} :
    checkIndent src atStart (xs ++ ys) =
      checkIndent src atStart xs >>= fun _ => checkIndent src (startsLine atStart xs) ys := by
  induction xs generalizing atStart with
  | nil => rfl
  | cons x xs ih =>
    rw [List.cons_append, checkIndent_cons, checkIndent_cons, ih]
    split <;> rfl

theorem exists_misaligned_of_error (refused : checkIndent src atStart ts = .error f) :
    ∃ before t after, ts = before ++ t :: after ∧ misaligned t = true ∧
      startsLine atStart before = true ∧ checkIndent src atStart before = .ok () ∧
      f = src.atToken .badIndent t := by
  induction ts generalizing atStart with
  | nil => cases refused
  | cons t ts ih =>
    rw [checkIndent_cons] at refused
    split at refused
    · rename_i here
      obtain ⟨starts, bad⟩ := Bool.and_eq_true_iff.mp here
      cases refused
      exact ⟨[], t, ts, rfl, bad, starts, rfl, rfl⟩
    · rename_i fine
      obtain ⟨before, t', after, rfl, bad, starts, passes, rfl⟩ := ih refused
      refine ⟨t :: before, t', after, rfl, bad, starts, ?_, rfl⟩
      rw [checkIndent_cons, if_neg fine, passes]

theorem error_of_misaligned {before after : List Token} (bad : misaligned t = true)
    (starts : startsLine atStart before = true) :
    ∃ f, checkIndent src atStart (before ++ t :: after) = .error f := by
  rw [checkIndent_append, starts, checkIndent_cons, bad]
  cases checkIndent src atStart before with
  | error f => exact ⟨f, rfl⟩
  | ok => exact ⟨_, rfl⟩

/-- A text is refused if and only if a misaligned blank comes right behind an odd number of line breaks.
The complaint is about the first one. -/
theorem checkIndent_fails_iff (src : Source) (ts : List Token) :
    ((∃ f, checkIndent src false ts = .error f) ↔
      ∃ before t after, ts = before ++ t :: after ∧ misaligned t = true ∧ lineBreaks before % 2 = 1) ∧
    ∀ f, checkIndent src false ts = .error f →
      ∃ before t after, ts = before ++ t :: after ∧ misaligned t = true ∧ lineBreaks before % 2 = 1 ∧
        checkIndent src false before = .ok () ∧ f = src.atToken .badIndent t := by
  have odd_iff : ∀ before, startsLine false before = true ↔ lineBreaks before % 2 = 1 := by
    intro before
    rw [startsLine_eq, beq_iff_eq]
  refine ⟨⟨?_, ?_⟩, ?_⟩
  · rintro ⟨f, refused⟩
    obtain ⟨before, t, after, split, bad, starts, -⟩ := exists_misaligned_of_error refused
    exact ⟨before, t, after, split, bad, (odd_iff before).mp starts⟩
  · rintro ⟨before, t, after, rfl, bad, odd⟩
    exact error_of_misaligned bad ((odd_iff before).mpr odd)
  · intro f refused
    obtain ⟨before, t, after, split, bad, starts, passes, fault⟩ := exists_misaligned_of_error refused
    exact ⟨before, t, after, split, bad, (odd_iff before).mp starts, passes, fault⟩

def behindEmptyLine : List Token :=
  [⟨.name, "x", 1, 0⟩, ⟨.bang, "!", 1, 1⟩, ⟨.newline, "\n", 2, 0⟩, ⟨.newline, "\n", 3, 0⟩,
    ⟨.whitespace, " ", 3, 1⟩, ⟨.name, "y", 3, 2⟩, ⟨.bang, "!", 3, 3⟩]

/-- With one of the two line breaks the text is refused. -/
theorem line_break_shows_indentation :
    ∃ f, checkIndent default false (behindEmptyLine.eraseIdx 3) = .error f :=
  (checkIndent_fails_iff default (behindEmptyLine.eraseIdx 3)).1.mpr
    ⟨behindEmptyLine.take 3, ⟨.whitespace, " ", 3, 1⟩, behindEmptyLine.drop 5, rfl, by decide, by decide⟩

/-- A line break comes right before a misaligned blank, and the text is not refused. -/
theorem empty_line_hides_indentation :
    (∃ before lineBreak t after, behindEmptyLine = before ++ lineBreak :: t :: after ∧
      lineBreak.is .newline = true ∧ misaligned t = true) ∧
    checkIndent default false behindEmptyLine = .ok () :=
  ⟨⟨_ :: _ :: _ :: [], _, _, _, rfl, by decide, by decide⟩, by rfl⟩

end Clause

end DreamBerd
