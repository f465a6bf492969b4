import DreamBerd.Fault
import Mathlib.Data.List.Forall2

/-!
# Computations that may fail

What a computation of several steps has gone through when it succeeds, and where it stopped when it
fails.
-/

namespace DreamBerd

open List

variable {α β σ : Type} {x : Except Fault α} {f g : α → Except Fault β} {h : α → β} {b : β}
  {fault : Fault} {xs : List α} {ys : List β}

theorem bind_congr_ok (same : ∀ a, x = .ok a → f a = g a) : (x >>= f) = x >>= g := by
  cases x with
  | error e => rfl
  | ok a => exact same a rfl

theorem ok_bind : (.ok a >>= f) = f a := rfl

theorem bind_eq_ok_iff : (x >>= f) = .ok b ↔ ∃ a, x = .ok a ∧ f a = .ok b := by
  cases x with
  | error e | ok a => simp [bind, Except.bind]

theorem bind_eq_error_iff :
    (x >>= f) = .error fault ↔ x = .error fault ∨ ∃ a, x = .ok a ∧ f a = .error fault := by
  cases x with
  | error e | ok a => simp [bind, Except.bind]

theorem bind_eq_error_left (failed : x = .error fault) : (x >>= f) = .error fault :=
  bind_eq_error_iff.mpr (.inl failed)

theorem bind_eq_error_right (done : x = .ok a) (failed : f a = .error fault) :
    (x >>= f) = .error fault :=
  bind_eq_error_iff.mpr (.inr ⟨a, done, failed⟩)

/-- A last step that only returns something does not fail. -/
theorem bind_pure_eq_error_iff :
    (do return h (← x) : Except Fault β) = .error fault ↔ x = .error fault := by
  rw [bind_eq_error_iff]
  refine or_iff_left ?_
  rintro ⟨a, -, ⟨⟩⟩

theorem map_eq_error_iff : x.map h = .error fault ↔ x = .error fault := by
  cases x with
  | error e | ok a => simp [Except.map]

theorem map_eq_ok_iff : x.map h = .ok b ↔ ∃ a, x = .ok a ∧ h a = b := by
  cases x with
  | error e | ok a => simp [Except.map]

/-! ## Lists -/

theorem mapM_congr (same : ∀ x ∈ xs, f x = g x) : xs.mapM f = xs.mapM g := by
  induction xs with
  | nil => rfl
  | cons x xs ih =>
    rw [mapM_cons, mapM_cons, same x mem_cons_self,
      ih (forall_mem_cons.mp same).2]

theorem mapM_eq_ok_iff : xs.mapM f = .ok ys ↔ List.Forall₂ (fun x y => f x = .ok y) xs ys := by
  constructor
  · intro read
    induction xs generalizing ys with
    | nil =>
      cases read
      exact .nil
    | cons x xs ih =>
      rw [mapM_cons] at read
      obtain ⟨y, one, read⟩ := bind_eq_ok_iff.mp read
      obtain ⟨ys, more, ⟨⟩⟩ := bind_eq_ok_iff.mp read
      exact .cons one (ih more)
  · intro each
    induction each with
    | nil => rfl
    | cons one _ ih =>
      rw [mapM_cons, one, ih]
      rfl

theorem exists_of_forall₂ {R : α → β → Prop} (each : List.Forall₂ R xs ys) {x : α} (member : x ∈ xs) :
    ∃ y ∈ ys, R x y := by
  induction each with
  | nil => cases member
  | cons one _ ih =>
    rcases mem_cons.mp member with rfl | later
    · exact ⟨_, mem_cons_self, one⟩
    · obtain ⟨y, among, gives⟩ := ih later
      exact ⟨y, mem_cons_of_mem _ among, gives⟩

theorem exists_mem_of_mapM (read : xs.mapM f = .ok ys) {x : α} (member : x ∈ xs) :
    ∃ y ∈ ys, f x = .ok y :=
  exists_of_forall₂ (mapM_eq_ok_iff.mp read) member

theorem exists_of_mem_mapM (read : xs.mapM f = .ok ys) (member : y ∈ ys) : ∃ x ∈ xs, f x = .ok y :=
  exists_of_forall₂ (mapM_eq_ok_iff.mp read).flip member

theorem exists_mapM_eq_ok (each : ∀ x ∈ xs, ∃ y, f x = .ok y) : ∃ ys, xs.mapM f = .ok ys := by
  induction xs with
  | nil => exact ⟨[], rfl⟩
  | cons x xs ih =>
    obtain ⟨⟨y, one⟩, each⟩ := forall_mem_cons.mp each
    obtain ⟨ys, more⟩ := ih each
    exact ⟨y :: ys, mapM_eq_ok_iff.mpr (.cons one (mapM_eq_ok_iff.mp more))⟩

/-- A list is read from the left, so it fails as the first of its members that fails. -/
theorem mapM_eq_error_iff : xs.mapM f = .error fault ↔
    ∃ before x after, xs = before ++ x :: after ∧ (∀ b ∈ before, ∃ y, f b = .ok y) ∧
      f x = .error fault := by
  induction xs with
  | nil => simp [pure, Except.pure]
  | cons x xs ih =>
    rw [mapM_cons, bind_eq_error_iff]
    constructor
    · rintro (first | ⟨y, one, later⟩)
      · exact ⟨[], x, xs, rfl, fun _ none => absurd none not_mem_nil, first⟩
      · obtain ⟨before, x', after, rfl, read, failed⟩ := ih.mp (bind_pure_eq_error_iff.mp later)
        exact ⟨x :: before, x', after, rfl, forall_mem_cons.mpr ⟨⟨y, one⟩, read⟩, failed⟩
    · rintro ⟨before, x', after, whole, read, failed⟩
      cases before with
      | nil =>
        cases whole
        exact .inl failed
      | cons b before =>
        cases whole
        obtain ⟨⟨y, one⟩, read⟩ := forall_mem_cons.mp read
        have later := ih.mpr ⟨before, x', after, rfl, read, failed⟩
        exact .inr ⟨y, one, bind_pure_eq_error_iff.mpr later⟩

theorem foldlM_eq_error_iff {step : σ → α → Except Fault σ} :
    xs.foldlM step s = .error fault ↔
      ∃ before x after s', xs = before ++ x :: after ∧ before.foldlM step s = .ok s' ∧
        step s' x = .error fault := by
  induction xs generalizing s with
  | nil => simp [pure, Except.pure]
  | cons x xs ih =>
    rw [foldlM_cons, bind_eq_error_iff]
    constructor
    · rintro (first | ⟨s', taken, later⟩)
      · exact ⟨[], x, xs, s, rfl, rfl, first⟩
      · obtain ⟨before, y, after, s'', rfl, read, fails⟩ := ih.mp later
        exact ⟨x :: before, y, after, s'', rfl, bind_eq_ok_iff.mpr ⟨s', taken, read⟩, fails⟩
    · rintro ⟨before, y, after, s'', whole, read, fails⟩
      cases before with
      | nil =>
        cases whole
        cases read
        exact .inl fails
      | cons z before =>
        cases whole
        obtain ⟨s', taken, read⟩ := bind_eq_ok_iff.mp read
        exact .inr ⟨s', taken, ih.mpr ⟨before, y, after, s'', rfl, read, fails⟩⟩

end DreamBerd
