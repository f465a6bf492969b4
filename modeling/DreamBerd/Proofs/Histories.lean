import DreamBerd.Variable
import Mathlib.Data.List.Basic

/-!
# What a variable remembers of its assignments

An assignment puts its lifetime between those with less confidence and those with at least as much
(`Variable.assign_split`), and notes the value that it hides. `Variable.assignments_recorded` follows a
sequence of assignments: the lifetimes stay in order with the newest first among equals, and the values that
are noted are those that were current before each assignment that came to stand first.
-/

namespace DreamBerd.Variable

open List

variable {α : Type}

def InOrder (v : Variable α) : Prop := v.lifetimes.Pairwise fun l m => l.confidence ≤ m.confidence

/-- Assignments one after the other, with the values that were current just before each one whose lifetime
became the first. -/
inductive Assigns : Variable α → List (Lifetime α) → List α → Variable α → Prop
  | nil (v : Variable α) : Assigns v [] [] v
  | first {u v w : Variable α} {l : Lifetime α} {ls : List (Lifetime α)} {x : α} {xs : List α} :
    v.value = .ok x → v.assign l = .ok u → u.current = .ok l → Assigns u ls xs w →
    Assigns v (l :: ls) (x :: xs) w
  | behind {u v w : Variable α} {l : Lifetime α} {ls : List (Lifetime α)} {xs : List α} :
    v.assign l = .ok u → u.current ≠ .ok l → Assigns u ls xs w → Assigns v (l :: ls) xs w

variable {v : Variable α} {l : Lifetime α} {front back : List (Lifetime α)}

/-! ## One assignment -/

/-- A new lifetime parts those with less confidence from those with at least as much. -/
structure Parts (v : Variable α) (l : Lifetime α) (front back : List (Lifetime α)) : Prop where
  whole : v.lifetimes = front ++ back
  less : ∀ m ∈ front, m.confidence < l.confidence
  atLeast : ∀ m ∈ back, l.confidence ≤ m.confidence

theorem exists_parts (ordered : v.InOrder) (l : Lifetime α) :
    ∃ front back, v.Parts l front back ∧ positionFor l.confidence v.lifetimes = front.length := by
  let lower := fun m : Lifetime α => decide (m.confidence < l.confidence)
  have whole : v.lifetimes = v.lifetimes.takeWhile lower ++ v.lifetimes.dropWhile lower :=
    takeWhile_append_dropWhile.symm
  refine ⟨_, _, ⟨whole, fun m member => ?_, fun m member => ?_⟩, rfl⟩
  · exact of_decide_eq_true ((all_eq_true.mp all_takeWhile m member))
  · -- the first of the rest is no lower, and all others come after it
    have sorted : (v.lifetimes.dropWhile lower).Pairwise fun l m => l.confidence ≤ m.confidence :=
      List.Pairwise.sublist (dropWhile_sublist lower) ordered
    have stops := head?_dropWhile_not lower v.lifetimes
    cases rest : v.lifetimes.dropWhile lower with
    | nil => simp [rest] at member
    | cons h t =>
      rw [rest] at member sorted stops
      have bound : l.confidence ≤ h.confidence := by simpa [lower] using stops
      rcases mem_cons.mp member with rfl | later
      · exact bound
      · exact Int.le_trans bound ((pairwise_cons.mp sorted).1 m later)

theorem assign_split (nonempty : v.lifetimes ≠ []) (ordered : v.InOrder) (l : Lifetime α) :
    ∃ front back x, v.Parts l front back ∧ v.value = .ok x ∧ v.assign l = .ok { v with
      lifetimes := front ++ l :: back
      previous := v.previous ++ if front = [] then [x] else [] } := by
  obtain ⟨front, back, parts, position⟩ := exists_parts ordered l
  obtain ⟨h, t, lifetimes⟩ := exists_cons_of_ne_nil nonempty
  have value : v.value = .ok h.value := by
    rw [value, current, lifetimes]
    rfl
  refine ⟨front, back, h.value, parts, value, ?_⟩
  have spliced : spliceAt v.lifetimes front.length [l] = front ++ l :: back := by
    rw [spliceAt, parts.whole, take_left, drop_left, append_assoc]
    rfl
  rw [assign, position, insertAt, value, spliced]
  cases front with
  | nil => rfl
  | cons m front =>
    rw [if_neg (cons_ne_nil m front), append_nil]
    rfl

theorem Parts.inOrder (parts : v.Parts l front back) (ordered : v.InOrder) :
    (front ++ l :: back).Pairwise fun l m => l.confidence ≤ m.confidence := by
  rw [InOrder, parts.whole, pairwise_append] at ordered
  obtain ⟨inFront, inBack, across⟩ := ordered
  refine pairwise_append.mpr ⟨inFront, pairwise_cons.mpr ⟨parts.atLeast, inBack⟩, ?_⟩
  intro a before b after
  rcases mem_cons.mp after with rfl | later
  · exact Int.le_of_lt (parts.less a before)
  · exact across a before b later

/-- Among the lifetimes of one confidence, a new one comes first. -/
theorem Parts.filter_eq (parts : v.Parts l front back) (c : Int) :
    (front ++ l :: back).filter (·.confidence == c) =
      [l].filter (·.confidence == c) ++ v.lifetimes.filter (·.confidence == c) := by
  rw [parts.whole, filter_append, filter_append, ← singleton_append, filter_append]
  by_cases same : l.confidence = c
  · have none : front.filter (·.confidence == c) = [] := by
      rw [filter_eq_nil_iff]
      intro m member equal
      have lower := parts.less m member
      have := beq_iff_eq.mp equal
      omega
    rw [none, nil_append, nil_append]
  · have none : [l].filter (·.confidence == c) = [] := by simpa using same
    rw [none, nil_append, nil_append]

/-- The new lifetime is the first one exactly if no other has less confidence. -/
theorem Parts.current_eq_iff (parts : v.Parts l front back) (xs : List α) :
    current ⟨v.name, front ++ l :: back, xs⟩ = .ok l ↔ front = [] := by
  cases front with
  | nil => exact iff_of_true rfl rfl
  | cons m front =>
    refine iff_of_false (fun first => ?_) (cons_ne_nil m front)
    have same : m = l := Except.ok.inj first
    exact Int.ne_of_lt (parts.less m mem_cons_self) (congrArg Lifetime.confidence same)

/-! ## Sequences of assignments -/

/-- However a variable with lifetimes in order is assigned to, every assignment succeeds and the lifetimes stay
in order; among those of one confidence, the newest come first and the old ones last, in their order. All old
ones are there in their order, and one more for each assignment. The values that are noted are those that were
current before the assignments that came to stand first, in order. -/
theorem assignments_recorded (nonempty : v.lifetimes ≠ []) (ordered : v.InOrder)
    (ls : List (Lifetime α)) : ∃ w xs, Assigns v ls xs w ∧ w.InOrder ∧
      (∀ c, w.lifetimes.filter (·.confidence == c) =
        (ls.filter (·.confidence == c)).reverse ++ v.lifetimes.filter (·.confidence == c)) ∧
      v.lifetimes.Sublist w.lifetimes ∧ w.lifetimes.Perm (ls ++ v.lifetimes) ∧
      w.previous = v.previous ++ xs := by
  induction ls generalizing v with
  | nil => exact ⟨v, [], .nil v, ordered, fun _ => rfl, .refl _, .refl _, (append_nil _).symm⟩
  | cons l ls ih =>
    obtain ⟨front, back, x, parts, value, assigned⟩ := assign_split nonempty ordered l
    obtain ⟨w, xs, assigns, inOrder, equals, among, all, noted⟩ :=
      ih (v := ⟨v.name, front ++ l :: back, v.previous ++ if front = [] then [x] else []⟩) (by simp)
        (parts.inOrder ordered)
    have kept : v.lifetimes.Sublist (front ++ l :: back) := by
      rw [parts.whole]
      exact (sublist_cons_self l back).append_left front
    have added : (front ++ l :: back).Perm (l :: v.lifetimes) := by
      rw [parts.whole]
      exact perm_middle
    refine ⟨w, (if front = [] then [x] else []) ++ xs, ?_, inOrder, fun c => ?_, kept.trans among, ?_, ?_⟩
    · have first := parts.current_eq_iff (v.previous ++ if front = [] then [x] else [])
      by_cases least : front = []
      · rw [if_pos least]
        exact .first value assigned (first.mpr least) assigns
      · rw [if_neg least]
        exact .behind assigned (mt first.mp least) assigns
    · rw [equals, parts.filter_eq, ← append_assoc, ← singleton_append (l := ls), filter_append,
        reverse_append]
      congr 2
      by_cases same : l.confidence = c <;> simp [same]
    · exact (all.trans (added.append_left ls)).trans perm_middle
    · rw [noted, append_assoc]

def twoLifetimes : Variable Nat := ⟨"x", [⟨0, 10, 5, 1, true, true⟩, ⟨1, 30, 5, 3, true, true⟩], []⟩

/-- Of assignments with confidence 2, 1 and 0, the last two hide a value. -/
theorem assignments_recorded_three : twoLifetimes.lifetimes ≠ [] ∧ twoLifetimes.InOrder ∧
    ∃ w xs, Assigns twoLifetimes
      [⟨2, 20, 5, 2, true, true⟩, ⟨3, 11, 5, 1, true, true⟩, ⟨4, 9, 5, 0, true, true⟩] xs w ∧ w.InOrder ∧
      w.lifetimes.length = 5 ∧ w.previous = xs := by
  have ordered : twoLifetimes.InOrder := by
    unfold InOrder
    decide
  obtain ⟨w, xs, assigns, inOrder, -, -, all, noted⟩ := assignments_recorded (by decide) ordered
    [⟨2, 20, 5, 2, true, true⟩, ⟨3, 11, 5, 1, true, true⟩, ⟨4, 9, 5, 0, true, true⟩]
  exact ⟨by decide, ordered, w, xs, assigns, inOrder, all.length_eq, noted⟩

end DreamBerd.Variable
