import DreamBerd.Row
import DreamBerd.Proofs.Failing
import DreamBerd.Proofs.Ledgers
import DreamBerd.Proofs.ShortestDecimal

/-!
# Numbers as indices

Two numbers are the same index if they stand for the same extent, whatever they are: `1`, `1.0` and
a true truth value find the same entry of a ledger. An index within bounds is a finite number, and
one that is a whole number is rounded to itself.
-/

namespace DreamBerd

open List Number

variable {i : Number} {what : String} {length : Nat} {x : Float} {k : Int}

namespace Number

variable {a b j c : Number} {x y : Extent} {n : Int} {xs ys : List Scalar}

/-! ## Equality -/

theorem extent?_of_whole? (whole : a.whole? = some n) : a.extent? = some (.finite n) := by
  cases a with
  | int m =>
    cases whole
    rfl
  | truth b =>
    cases whole
    cases b <;> rfl
  | real x | tuple xs => cases whole

theorem scalarEq_iff : a.scalarEq b = true ↔ ∃ e, a.extent? = some e ∧ b.extent? = some e := by
  unfold scalarEq
  split
  · rename_i m n left right
    rw [extent?_of_whole? left, extent?_of_whole? right]
    constructor
    · intro same
      rw [eq_of_beq same]
      exact ⟨_, rfl, rfl⟩
    · rintro ⟨e, one, other⟩
      cases one
      injection other with same
      injection same with same
      rw [Int.cast_injective same]
      exact beq_self_eq_true m
  · split
    · rename_i x y left right
      rw [left, right]
      constructor
      · intro same
        rw [eq_of_beq same]
        exact ⟨_, rfl, rfl⟩
      · rintro ⟨e, one, other⟩
        cases one
        cases other
        exact beq_self_eq_true x
    · rename_i missing
      constructor
      · intro same
        cases same
      · rintro ⟨e, left, right⟩
        exact absurd right (missing e e left)

theorem scalarEq_symm (same : a.scalarEq b = true) : b.scalarEq a = true := by
  obtain ⟨e, left, right⟩ := scalarEq_iff.mp same
  exact scalarEq_iff.mpr ⟨e, right, left⟩

theorem scalarEq_trans (first : a.scalarEq b = true) (second : b.scalarEq c = true) :
    a.scalarEq c = true := by
  obtain ⟨e, left, middle⟩ := scalarEq_iff.mp first
  obtain ⟨e', middle', right⟩ := scalarEq_iff.mp second
  rw [middle] at middle'
  exact scalarEq_iff.mpr ⟨e, left, middle' ▸ right⟩

theorem tupleEq_symm (same : tupleEq xs ys = true) : tupleEq ys xs = true := by
  induction xs generalizing ys with
  | nil =>
    cases ys with
    | nil => rfl
    | cons y ys => cases same
  | cons x xs ih =>
    cases ys with
    | nil => cases same
    | cons y ys =>
      rw [tupleEq, Bool.and_eq_true] at same ⊢
      exact ⟨scalarEq_symm same.1, ih same.2⟩

theorem tupleEq_trans {zs : List Scalar} (first : tupleEq xs ys = true)
    (second : tupleEq ys zs = true) : tupleEq xs zs = true := by
  induction xs generalizing ys zs with
  | nil =>
    cases ys with
    | nil => exact second
    | cons y ys => cases first
  | cons x xs ih =>
    cases ys with
    | nil => cases first
    | cons y ys =>
      cases zs with
      | nil => cases second
      | cons z zs =>
        rw [tupleEq, Bool.and_eq_true] at first second ⊢
        exact ⟨scalarEq_trans first.1 second.1, ih first.2 second.2⟩

theorem beq_iff :
    (a == b) = true ↔
      (∃ xs ys, a = tuple xs ∧ b = tuple ys ∧ tupleEq xs ys = true) ∨ a.scalarEq b = true := by
  show a.eq b = true ↔ _
  cases a <;> cases b <;> simp [eq, scalarEq, whole?, extent?]

instance : PartialEquivBEq Number where
  symm := by
    intro a b same
    rcases beq_iff.mp same with ⟨xs, ys, rfl, rfl, tuples⟩ | scalars
    · exact tupleEq_symm tuples
    · exact beq_iff.mpr (Or.inr (scalarEq_symm scalars))
  trans := by
    intro a b c first second
    rcases beq_iff.mp first with ⟨xs, ys, rfl, rfl, tuples⟩ | scalars
    · rcases beq_iff.mp second with ⟨_, zs, same, rfl, tuples'⟩ | scalars
      · cases same
        exact tupleEq_trans tuples tuples'
      · obtain ⟨e, none, -⟩ := scalarEq_iff.mp scalars
        cases none
    · rcases beq_iff.mp second with ⟨_, zs, rfl, rfl, -⟩ | scalars'
      · obtain ⟨e, -, none⟩ := scalarEq_iff.mp scalars
        cases none
      · exact beq_iff.mpr (Or.inr (scalarEq_trans scalars scalars'))

/-- A number that stands for an extent equals the numbers that stand for it too. -/
theorem beq_iff_extent? (extent : a.extent? = some e) : (a == b) = true ↔ b.extent? = some e := by
  rw [beq_iff, scalarEq_iff]
  constructor
  · rintro (⟨xs, ys, rfl, -, -⟩ | ⟨e', left, right⟩)
    · cases extent
    · rw [extent] at left
      cases left
      exact right
  · exact fun same => Or.inr ⟨e, extent, same⟩

/-! ## Order and bounds -/

theorem scalarLt_eq (left : a.extent? = some x) (right : b.extent? = some y) :
    a.scalarLt b = x.lt y := by
  unfold scalarLt
  split
  · rename_i m n wholeLeft wholeRight
    rw [extent?_of_whole? wholeLeft] at left
    rw [extent?_of_whole? wholeRight] at right
    cases left
    cases right
    exact decide_eq_decide.mpr Int.cast_lt.symm
  · rw [left, right]

theorem scalarLt_congr {k : Number} (extent : i.extent? = some x) (same : (k == j) = true) :
    i.scalarLt k = i.scalarLt j := by
  rcases beq_iff.mp same with ⟨xs, ys, rfl, rfl, -⟩ | scalars
  · have none : ∀ zs, i.scalarLt (tuple zs) = false := by
      intro zs
      unfold scalarLt
      split
      · rename_i whole
        cases whole
      · rw [extent]
        rfl
    rw [none, none]
  · obtain ⟨e, left, right⟩ := scalarEq_iff.mp scalars
    rw [scalarLt_eq extent left, scalarLt_eq extent right]

theorem Extent.lt_irrefl (x : Extent) : x.lt x = false := by
  cases x with
  | finite q => exact decide_eq_false (Rat.lt_irrefl)
  | negative => rfl
  | positive => rfl

theorem Extent.lt_asymm (less : x.lt y = true) : y.lt x = false := by
  cases x with
  | negative => cases y <;> rfl
  | finite p =>
    cases y with
    | negative => cases less
    | finite q => exact decide_eq_false (not_lt.mpr (of_decide_eq_true less).le)
    | positive => rfl
  | positive => cases y <;> cases less

theorem Extent.lt_total (notLess : x.lt y = false) (other : x ≠ y) : y.lt x = true := by
  cases x with
  | negative =>
    cases y with
    | negative => exact absurd rfl other
    | finite q | positive => cases notLess
  | finite p =>
    cases y with
    | negative => rfl
    | finite q =>
      have notBelow : ¬p < q := of_decide_eq_false notLess
      have different : q ≠ p := fun same => other (by rw [same])
      exact decide_eq_true (lt_of_le_of_ne (not_lt.mp notBelow) different)
    | positive => cases notLess
  | positive =>
    cases y with
    | negative => rfl
    | finite q => rfl
    | positive => exact absurd rfl other

theorem scalarLt_self (extent : i.extent? = some x) (same : (i == j) = true) :
    i.scalarLt j = false := by
  rw [scalarLt_eq extent ((beq_iff_extent? extent).mp same), Extent.lt_irrefl]

theorem ne_of_scalarLt (extent : i.extent? = some x) (less : i.scalarLt j = true) :
    (i == j) = false := by
  rw [Bool.eq_false_iff]
  intro same
  rw [scalarLt_self extent same] at less
  cases less

theorem scalarLt_asymm (extent : i.extent? = some x) (extent' : j.extent? = some y)
    (less : j.scalarLt i = true) : i.scalarLt j = false := by
  rw [scalarLt_eq extent' extent] at less
  rw [scalarLt_eq extent extent', Extent.lt_asymm less]

theorem scalarLt_of_ne (extent : i.extent? = some x) (extent' : j.extent? = some y)
    (other : (j == i) = false) (notAbove : i.scalarLt j = false) : j.scalarLt i = true := by
  rw [scalarLt_eq extent extent'] at notAbove
  rw [scalarLt_eq extent' extent]
  apply Extent.lt_total notAbove
  rintro rfl
  rw [(beq_iff_extent? extent').mpr extent] at other
  cases other

theorem lt_eq (left : a.extent? = some x) (right : b.extent? = some y) : a.lt b = .ok (x.lt y) := by
  rw [← scalarLt_eq left right]
  cases a with
  | tuple xs => cases left
  | _ =>
    cases b with
    | tuple ys => cases right
    | _ => rfl

theorem le_eq (left : a.extent? = some x) (right : b.extent? = some y) :
    a.le b = .ok (x.lt y || decide (x = y)) := by
  have same : a.eq b = decide (x = y) := by
    rw [Bool.eq_iff_iff, decide_eq_true_iff]
    have equal : a.eq b = true ↔ b.extent? = some x := beq_iff_extent? left
    rw [equal, right, Option.some_inj]
    exact eq_comm
  unfold le
  rw [lt_eq left right]
  cases x.lt y with
  | true => rfl
  | false =>
    rw [← same]
    rfl

theorem le_ne_true (nothing : i.extent? = none) : (int n).le i ≠ .ok true := by
  intro le
  cases i with
  | int m | truth b => cases nothing
  | tuple xs => cases le
  | real x =>
    have less : (int n).scalarLt (real x) = false := by
      unfold scalarLt
      rw [nothing]
      rfl
    have lt : (int n).lt (real x) = .ok false := congrArg Except.ok less
    unfold Number.le at le
    rw [lt] at le
    injection le with equal
    have extent : (real x).extent? = some (.finite n) := (beq_iff_extent? rfl).mp equal
    rw [nothing] at extent
    cases extent

theorem finite_le {p q : ℚ} :
    ((Extent.finite p).lt (.finite q) || decide (Extent.finite p = .finite q)) =
      decide (p ≤ q) := by
  simp [Extent.lt, le_iff_lt_or_eq]

theorem between_eq_true_iff : between a b c = .ok true ↔ a.le b = .ok true ∧ b.le c = .ok true := by
  unfold between
  cases below : a.le b with
  | error fault =>
    constructor
    · intro within
      cases within
    · rintro ⟨lower, -⟩
      cases lower
  | ok within =>
    cases within with
    | false =>
      constructor
      · intro within
        cases within
      · rintro ⟨lower, -⟩
        cases lower
    | true => exact ⟨fun upper => ⟨rfl, upper⟩, fun both => both.2⟩

theorem between_iff {low high : Int} :
    between (int low) i (int high) = .ok true ↔
      ∃ q : ℚ, i.extent? = some (.finite q) ∧ low ≤ q ∧ q ≤ high := by
  rw [between_eq_true_iff]
  cases extent : i.extent? with
  | none =>
    constructor
    · rintro ⟨below, -⟩
      exact absurd below (le_ne_true extent)
    · rintro ⟨q, finite, -⟩
      cases finite
  | some e =>
    have below : (int low).le i =
        .ok ((Extent.finite low).lt e || decide (Extent.finite low = e)) := le_eq rfl extent
    have above : i.le (int high) = .ok (e.lt (.finite high) || decide (e = .finite high)) :=
      le_eq extent rfl
    rw [below, above]
    cases e with
    | negative =>
      constructor
      · rintro ⟨lower, -⟩
        cases lower
      · rintro ⟨q, finite, -⟩
        cases finite
    | positive =>
      constructor
      · rintro ⟨-, upper⟩
        cases upper
      · rintro ⟨q, finite, -⟩
        cases finite
    | finite q =>
      rw [finite_le, finite_le, Except.ok.injEq, Except.ok.injEq, decide_eq_true_iff,
        decide_eq_true_iff]
      constructor
      · rintro ⟨lower, upper⟩
        exact ⟨q, rfl, lower, upper⟩
      · rintro ⟨q', same, within⟩
        cases same
        exact within

end Number

theorem checkBounds_iff :
    checkBounds what length i = .ok () ↔
      ∃ q : ℚ, i.extent? = some (.finite q) ∧ -1 ≤ q ∧ q ≤ length - 1 := by
  have bounds : between (.int (-1)) i (.int (length - 1)) = .ok true ↔
      ∃ q : ℚ, i.extent? = some (.finite q) ∧ ((-1 : Int) : ℚ) ≤ q ∧
        q ≤ ((length - 1 : Int) : ℚ) := between_iff
  push_cast at bounds
  rw [← bounds]
  unfold checkBounds
  cases between (.int (-1)) i (.int (length - 1)) with
  | error fault =>
    constructor
    · intro within
      cases within
    · intro within
      cases within
  | ok b =>
    cases b with
    | true => exact ⟨fun _ => rfl, fun _ => rfl⟩
    | false =>
      constructor
      · intro within
        cases within
      · intro within
        cases within

theorem checkBounds_succ (within : checkBounds what length i = .ok ()) :
    checkBounds what (length + 1) i = .ok () := by
  obtain ⟨q, extent, lower, upper⟩ := checkBounds_iff.mp within
  refine checkBounds_iff.mpr ⟨q, extent, lower, ?_⟩
  push_cast
  linarith

/-! ## Whole numbers -/

theorem Binary64.roundHalfEven_mul {n den : Nat} (positive : 0 < den) :
    roundHalfEven (n * den) den = n := by
  unfold roundHalfEven
  rw [Nat.mul_mod_left, Nat.mul_div_cancel n positive, if_pos (by omega)]

theorem Binary64.round?_of_toRat? (value : toRat? x = some (k : ℚ)) : round? x = some k := by
  unfold toRat? at value
  unfold round?
  cases shaped : shape x with
  | nan | infinite negative =>
    rw [shaped] at value
    cases value
  | finite negative m q =>
    rw [shaped] at value
    have positive : 0 < (ratio m q).2 := Decimal.ratio_pos
    dsimp only at value ⊢
    generalize (ratio m q).1 = num at value ⊢
    generalize (ratio m q).2 = den at value positive ⊢
    rw [Option.some_inj, Rat.mkRat_eq_div, div_eq_iff (by positivity)] at value
    have product : (if negative then -(num : Int) else num) = k * den := by exact_mod_cast value
    have magnitude : num = k.natAbs * den := by
      have same := congrArg Int.natAbs product
      rw [Int.natAbs_mul] at same
      split at same
      · rwa [Int.natAbs_neg, Int.natAbs_natCast] at same
      · rwa [Int.natAbs_natCast] at same
    rw [magnitude, roundHalfEven_mul positive, Option.some_inj]
    have den0 : (0 : Int) < den := by exact_mod_cast positive
    cases negative with
    | true =>
      have below : k * den ≤ 0 := by
        rw [← product]
        exact neg_nonpos.mpr (Int.natCast_nonneg num)
      have sign : k ≤ 0 := nonpos_of_mul_nonpos_left below den0
      rw [if_pos rfl]
      omega
    | false =>
      have above : 0 ≤ k * den := by
        rw [← product]
        exact Int.natCast_nonneg num
      have sign : 0 ≤ k := nonneg_of_mul_nonneg_left above den0
      rw [if_neg Bool.false_ne_true]
      omega

theorem Number.toRat?_of_extent? {q : ℚ} (extent : (real x).extent? = some (.finite q)) :
    Binary64.toRat? x = some q := by
  rw [extent?] at extent
  unfold extentOfFloat? at extent
  split at extent
  · cases extent
  · rename_i negative _
    cases negative <;> cases extent
  · obtain ⟨p, value, same⟩ := Option.map_eq_some_iff.mp extent
    cases same
    exact value

theorem Number.round_of_extent? (extent : i.extent? = some (.finite k)) : i.round = .ok k := by
  have whole : ∀ {n : Int}, i.whole? = some n → n = k := by
    intro n isWhole
    rw [extent?_of_whole? isWhole] at extent
    injection extent with same
    injection same with same
    exact Int.cast_injective same
  cases i with
  | int n | truth b => exact congrArg Except.ok (whole rfl)
  | tuple xs => cases extent
  | real x =>
    have value : Binary64.toRat? x = some (k : ℚ) := toRat?_of_extent? extent
    rw [round, integral, Binary64.round?_of_toRat? value]

/-! ## Splices -/

section Splices

variable {α : Type} {xs v : List α} {a b n q : Nat} {w : α}

/-- A list whose elements from position `a` up to position `b` have given way to others. -/
def splice (xs : List α) (a b : Nat) (v : List α) : List α := xs.take a ++ v ++ xs.drop b

/-- The element at position `q` is carried to position `n`. -/
def Carries (a b length q n : Nat) : Prop := n < a ∧ n = q ∨ ∃ k, n = a + length + k ∧ q = b + k

theorem getElem?_splice_of_lt (inside : a ≤ xs.length) (before : n < a) :
    (splice xs a b v)[n]? = xs[n]? := by
  have short : n < (xs.take a).length := by rwa [length_take_of_le inside]
  rw [splice, append_assoc, getElem?_append_left short, getElem?_take_of_lt before]

theorem getElem?_splice_add (inside : a ≤ xs.length) (within : n < v.length) :
    (splice xs a b v)[a + n]? = v[n]? := by
  rw [splice, append_assoc, getElem?_append_right (by simp), length_take_of_le inside,
    Nat.add_sub_cancel_left, getElem?_append_left within]

theorem getElem?_splice_behind (inside : a ≤ xs.length) (n : Nat) :
    (splice xs a b v)[a + v.length + n]? = xs[b + n]? := by
  have length : (xs.take a ++ v).length = a + v.length := by
    rw [length_append, length_take_of_le inside]
  rw [splice, getElem?_append_right (by omega), length, Nat.add_sub_cancel_left, getElem?_drop]

theorem Carries.getElem?_splice (inside : a ≤ xs.length) (carries : Carries a b v.length q n) :
    (splice xs a b v)[n]? = xs[q]? := by
  rcases carries with ⟨before, rfl⟩ | ⟨k, rfl, rfl⟩
  · exact getElem?_splice_of_lt inside before
  · exact getElem?_splice_behind inside k

theorem splice_cases (a length n : Nat) :
    n < a ∨ (∃ k < length, n = a + k) ∨ ∃ k, n = a + length + k := by
  by_cases before : n < a
  · exact .inl before
  · by_cases within : n < a + length
    · exact .inr (.inl ⟨n - a, by omega, by omega⟩)
    · exact .inr (.inr ⟨n - (a + length), by omega⟩)

theorem carries_of_getElem?_splice (inside : a ≤ xs.length) (distinct : (xs ++ v).Nodup)
    (value : xs[q]? = some w) (found : (splice xs a b v)[n]? = some w) : Carries a b v.length q n := by
  obtain ⟨once, -, apart⟩ := nodup_append.mp distinct
  obtain ⟨bound, -⟩ := List.getElem?_eq_some_iff.mp value
  rcases splice_cases a v.length n with before | ⟨k, within, rfl⟩ | ⟨k, rfl⟩
  · rw [getElem?_splice_of_lt inside before, ← value] at found
    exact .inl ⟨before, ((getElem?_inj bound once).mp found.symm).symm⟩
  · rw [getElem?_splice_add inside within] at found
    exact absurd rfl (apart w (mem_of_getElem? value) w (mem_of_getElem? found))
  · rw [getElem?_splice_behind inside, ← value] at found
    exact .inr ⟨k, rfl, (getElem?_inj bound once).mp found.symm⟩

/-- And a new one only where it was put. -/
theorem eq_add_of_getElem?_splice (inside : a ≤ xs.length) (distinct : (xs ++ v).Nodup)
    (value : v[q]? = some w) (found : (splice xs a b v)[n]? = some w) : n = a + q := by
  obtain ⟨-, once, apart⟩ := nodup_append.mp distinct
  have new := mem_of_getElem? value
  rcases splice_cases a v.length n with before | ⟨k, within, rfl⟩ | ⟨k, rfl⟩
  · rw [getElem?_splice_of_lt inside before] at found
    exact absurd rfl (apart w (mem_of_getElem? found) w new)
  · rw [getElem?_splice_add inside within, ← value] at found
    rw [(getElem?_inj within once).mp found]
  · rw [getElem?_splice_behind inside] at found
    exact absurd rfl (apart w (mem_of_getElem? found) w new)

end Splices

end DreamBerd
