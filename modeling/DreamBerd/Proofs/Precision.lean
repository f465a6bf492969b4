import DreamBerd.Proofs.Contents
import DreamBerd.Proofs.Resemblance

/-!
# Four degrees of equality

Values that are equal in a more precise way are equal in the next one
(`Store.equalities_by_precision`).

The comparisons after conversion and by likeness begin with tests that look at no element. Up to
there one follows the other test by test (`Store.approxAtOnce_of_equalAtOnce`). Only objects are left
then, apart from values that are equal in no certain way, and objects are compared name by name.
-/

namespace DreamBerd

open List

/-! ## Zero -/

theorem Binary64.eq_zero_of_toRat? {x : Float} (zero : toRat? x = some 0) : x = 0.0 ∨ x = -0.0 := by
  unfold toRat? at zero
  cases shaped : shape x with
  | nan | infinite negative =>
    rw [shaped] at zero
    cases zero
  | finite negative m q =>
    rw [shaped] at zero
    have positive : (ratio m q).2 ≠ 0 := Nat.ne_of_gt Decimal.ratio_pos
    have empty : (ratio m q).1 = 0 := by
      rw [Option.some_inj, Rat.mkRat_eq_zero positive] at zero
      split at zero <;> omega
    have nothing : m = 0 := by
      unfold ratio at empty
      split at empty
      · rcases Nat.mul_eq_zero.mp empty with none | power
        · exact none
        · exact absurd power (Nat.ne_of_gt (Nat.two_pow_pos _))
      · exact empty
    obtain ⟨fits, -, -⟩ := shape_eq_finite shaped
    have least : q = minExponent := fits.normal.resolve_right (by omega)
    rw [← signed_assemble shaped, nothing, least]
    cases negative with
    | true => exact .inr (by decide)
    | false => exact .inl (by decide)

theorem Number.truthOf_of_beq_zero {n : Number} (zero : (n == .int 0) = true) :
    n.truthOf = .ok .no := by
  have extent : n.extent? = some (.finite 0) := (beq_iff_extent? rfl).mp (BEq.symm zero)
  cases n with
  | int k =>
    injection extent with same
    injection same with same
    rw [Int.cast_eq_zero.mp same]
    decide
  | real x =>
    rcases Binary64.eq_zero_of_toRat? (toRat?_of_extent? extent) with rfl | rfl
    · decide +kernel
    · decide +kernel
  | truth b =>
    cases b with
    | true => cases zero
    | false => decide
  | tuple xs => cases zero

/-- Whether a value has no certain truth and is not compared by what it consists of. -/
def Value.isVague : Value → Bool
  | boolean .maybe | keyword _ => true
  | _ => false

/-! ## Shares -/

namespace Ledger

variable {κ α : Type} [BEq κ] {x y : Ledger κ α}

theorem length_common (among : ∀ k ∈ x.keys, y.contains k = true) : (x.common y).length = x.size := by
  obtain ⟨entries⟩ := x
  show (entries.filterMap fun e => (y.get? e.1).map fun v => (e.2, v)).length = entries.length
  induction entries with
  | nil => rfl
  | cons e es ih =>
    obtain ⟨v, found⟩ := Option.isSome_iff_exists.mp (among e.1 mem_cons_self)
    rw [filterMap_cons, found]
    exact congrArg Nat.succ (ih (forall_mem_cons.mp among).2)

end Ledger

namespace Store

variable {s : Store} {a b : ValueRef} {k : Nat} {t answer : Truth} {v w : Value} {n m : Number}
  {α : Type} {f : ValueRef × ValueRef → Except Fault Truth} {R : ValueRef → ValueRef → Prop}
  {ts : List Truth} {x y : ScopeRef}

theorem unionSize_eq {κ : Type} [BEq κ] {x y : Ledger κ α}
    (back : ∀ k ∈ y.keys, x.contains k = true) : unionSize x y = x.size := by
  have none : y.keys.filter (fun k => !x.contains k) = [] := by
    rw [filter_eq_nil_iff]
    intro k member
    simp [back k member]
  rw [unionSize, none]
  rfl

theorem halves_of_yes (all : ∀ t ∈ ts, t = .yes) : halves ts = 2 * ts.length := by
  have each : ts = List.replicate ts.length .yes := eq_replicate_of_mem all
  generalize ts.length = n at each
  rw [each, halves, map_replicate]
  have sum : ∀ start, (List.replicate n 2).foldl (· + ·) start = start + 2 * n := by
    clear each all
    induction n with
    | zero => exact fun start => rfl
    | succ n ih =>
      intro start
      rw [replicate_succ, foldl_cons, ih]
      omega
  exact (sum 0).trans (Nat.zero_add _)

theorem enough_of_yes {share : Float} (all : ∀ t ∈ ts, t = .yes) (some : 0 < ts.length)
    (share_lt : share < 1.0) : enough ts ts.length share = .yes := by
  rw [enough, halves_of_yes all, Binary64.ofRatio_self (by omega)]
  exact ofBool_eq_yes_iff.mpr (decide_eq_true share_lt)

/-! ## Approximate equality -/

/-- A comparison that looks at what two values hold only if it is not decided before. -/
theorem answer_iff {first : Except Fault (Option Truth)} {rest : Except Fault Truth} :
    (do match ← first with
      | some t => return t
      | none => rest) = .ok t ↔ first = .ok (some t) ∨ first = .ok none ∧ rest = .ok t := by
  rw [bind_eq_ok_iff]
  constructor
  · rintro ⟨_ | u, asked, gives⟩
    · exact .inr ⟨asked, gives⟩
    · cases gives
      exact .inl asked
  · rintro (decided | ⟨undecided, gives⟩)
    · exact ⟨_, decided, rfl⟩
    · exact ⟨_, undecided, gives⟩

theorem approxIn_eq_ok_iff : s.approxIn (k + 1) a b = .ok t ↔
    s.approxAtOnce a b = .ok (some t) ∨ s.approxAtOnce a b = .ok none ∧
      s.approxInside (fun p => s.approxIn k p.1 p.2) (s.value a) (s.value b) = .ok t :=
  answer_iff

theorem equalIn_eq_ok_iff : s.equalIn (k + 1) a b = .ok t ↔
    s.equalAtOnce a b = .ok (some t) ∨ s.equalAtOnce a b = .ok none ∧
      s.equalInside (fun p => s.equalIn k p.1 p.2) (s.value a) (s.value b) = .ok t :=
  answer_iff

theorem approxInside_mono {g : ValueRef × ValueRef → Except Fault Truth}
    (further : ∀ p t, f p = .ok t → g p = .ok t) (done : s.approxInside f v w = .ok t) :
    s.approxInside g v w = .ok t := by
  have each : ∀ (ps : List (ValueRef × ValueRef)) (h : List Truth → Except Fault Truth),
      (ps.mapM f >>= h) = .ok t → (ps.mapM g >>= h) = .ok t := by
    intro ps h done
    obtain ⟨ts, read, done⟩ := bind_eq_ok_iff.mp done
    exact bind_eq_ok_iff.mpr ⟨ts, mapM_eq_ok_iff.mpr ((mapM_eq_ok_iff.mp read).imp further), done⟩
  unfold approxInside at done ⊢
  split at done
  · exact each _ _ done
  · exact each _ _ done
  · exact done
  · split at done
    · rwa [if_pos ‹_›]
    · rw [if_neg ‹_›]
      obtain ⟨ps, read, done⟩ := bind_eq_ok_iff.mp done
      exact bind_eq_ok_iff.mpr ⟨ps, read, each _ _ done⟩
  · exact done

/-- A comparison that ends, ends in the same way when it may go further down. -/
theorem approxIn_mono (done : s.approxIn k a b = .ok t) : s.approxIn (k + 1) a b = .ok t := by
  induction k generalizing a b t with
  | zero => cases done
  | succ k ih =>
    refine approxIn_eq_ok_iff.mpr ((approxIn_eq_ok_iff.mp done).imp_right fun undecided => ?_)
    exact ⟨undecided.1, approxInside_mono (fun _ _ => ih) undecided.2⟩

/-! ## Equality at once -/

theorem empty_of_toNumber (ordinary : Ordinary s v) (noString : isString v = false)
    (apart : countsAsNumber v = false) (number : v.toNumber = .ok n) :
    n = .int 0 ∧ v.truth = .ok .no ∧ isBoolean v = false := by
  cases ordinary with
  | number n => cases apart
  | string row members => cases noString
  | boolean t | undefined => cases apart
  | keyword word => cases number
  | list _ _ | map _ =>
    rw [Value.toNumber] at number
    split at number
    · rename_i empty
      cases number
      rw [Value.truth, empty]
      exact ⟨rfl, rfl, rfl⟩
    · cases number
  | object name distinct => cases number

theorem sameTruth_of_empty (ordinary : Ordinary s v) (noString : isString v = false)
    (apart : countsAsNumber v = false) (number : v.toNumber = .ok n) (same : (m == n) = true) :
    sameTruth (.number m) v = .ok true ∧ sameTruth v (.number m) = .ok true ∧
      isBoolean v = false := by
  obtain ⟨rfl, false, noBoolean⟩ := empty_of_toNumber ordinary noString apart number
  unfold sameTruth
  rw [false, Value.truth, Number.truthOf_of_beq_zero same]
  exact ⟨rfl, rfl, noBoolean⟩

theorem sameTruth_of_toNumber (left : Ordinary s v) (right : Ordinary s w)
    (strings : ¬(isString v || isString w) = true) (numbers : (isNumber v || isNumber w) = true)
    (apart : ¬(countsAsNumber v && countsAsNumber w) = true) (one : v.toNumber = .ok m)
    (other : w.toNumber = .ok n) (same : (m == n) = true) :
    sameTruth v w = .ok true ∧ (isBoolean v || isBoolean w) = false := by
  obtain ⟨noString, noString'⟩ := Bool.or_eq_false_iff.mp (Bool.eq_false_of_not_eq_true strings)
  rcases Bool.or_eq_true_iff.mp numbers with number | number
  · cases left with
    | number m =>
      cases one
      have apart : countsAsNumber w = false := Bool.eq_false_of_not_eq_true apart
      obtain ⟨truths, -, noBoolean⟩ := sameTruth_of_empty right noString' apart other same
      exact ⟨truths, noBoolean⟩
    | _ => cases number
  · cases right with
    | number n =>
      cases other
      have apart : countsAsNumber v = false := by simpa [countsAsNumber] using apart
      obtain ⟨-, truths, noBoolean⟩ := sameTruth_of_empty left noString apart one (BEq.symm same)
      exact ⟨truths, by rw [noBoolean]; rfl⟩
    | _ => cases number

theorem nearNumbers_of_beq (same : (m == n) = true) : nearNumbers m n = .ok .yes := by
  rw [nearNumbers, if_pos same]
  rfl

theorem approxAtOnce_of_equalAtOnce {answer : Option Truth} (left : Ordinary s (s.value a))
    (right : Ordinary s (s.value b)) (equal : s.equalAtOnce a b = .ok (some .yes))
    (near : s.approxAtOnce a b = .ok answer) : answer = some .yes := by
  unfold equalAtOnce at equal
  unfold approxAtOnce at near
  by_cases same : s.identical a b = true
  · rw [if_pos same] at near
    cases near
    rfl
  rw [if_neg same] at near
  -- from here on both ask the same, but where only one of the two values counts as a number
  by_cases strings : (isString (s.value a) || isString (s.value b)) = true
  · rw [if_pos strings] at equal near
    obtain ⟨t, one, equal⟩ := bind_eq_ok_iff.mp equal
    obtain ⟨u, other, equal⟩ := bind_eq_ok_iff.mp equal
    rw [one, other] at near
    injection equal with equal
    injection equal with equal
    have similar : Text.similarity t u = 1.0 := by
      rw [← eq_of_beq (ofBool_eq_yes_iff.mp equal), Text.similarity_self]
    cases near
    rw [similar]
    decide
  rw [if_neg strings] at equal near
  by_cases numbers : (isNumber (s.value a) || isNumber (s.value b)) = true
  · rw [if_pos numbers] at equal
    obtain ⟨m, one, equal⟩ := bind_eq_ok_iff.mp equal
    obtain ⟨n, other, equal⟩ := bind_eq_ok_iff.mp equal
    rw [one, other, numbers, Bool.true_and] at near
    injection equal with equal
    injection equal with equal
    have same : (m == n) = true := ofBool_eq_yes_iff.mp equal
    by_cases counted : (countsAsNumber (s.value a) && countsAsNumber (s.value b)) = true
    · rw [if_pos counted] at near
      change (nearNumbers m n >>= fun t => pure (some t)) = _ at near
      rw [nearNumbers_of_beq same] at near
      cases near
      rfl
    · obtain ⟨truths, noBoolean⟩ :=
        sameTruth_of_toNumber left right strings numbers counted one other same
      rw [if_neg counted, noBoolean, truths] at near
      cases near
      rfl
  · rw [if_neg numbers] at equal
    rw [Bool.eq_false_of_not_eq_true numbers] at near
    exact Except.ok.inj (near.symm.trans equal)

theorem approxIn_of_equalAtOnce (left : Ordinary s (s.value a)) (right : Ordinary s (s.value b))
    (equal : s.equalAtOnce a b = .ok (some .yes)) (near : s.approxIn (k + 1) a b = .ok t) :
    t = .yes := by
  rcases approxIn_eq_ok_iff.mp near with first | ⟨first, -⟩
  · exact Option.some.inj (approxAtOnce_of_equalAtOnce left right equal first)
  · cases approxAtOnce_of_equalAtOnce left right equal first

/-! ## Equality after conversion -/

theorem equalInside_object {n m : String} :
    s.equalInside f (.object n x) (.object m y) =
      (do allOf (fun p => s.approx p.1 p.2) (← s.commonMembers x y)) := rfl

def Matched (s : Store) : Value → Value → Prop
  | .list x _, .list y _ => x.items.isEmpty = y.items.isEmpty
  | .map x, .map y => x.isEmpty = y.isEmpty
  | .object _ x, .object _ y => ∀ name, (s.scope x).contains name = (s.scope y).contains name
  | _, _ => True

theorem answered_ne_none {x : Except Fault α} {y : Except Fault β} {f : α → β → Truth} :
    (do return some (f (← x) (← y))) ≠ Except.ok (none : Option Truth) := by
  intro same
  obtain ⟨u, -, same⟩ := bind_eq_ok_iff.mp same
  obtain ⟨v, -, ⟨⟩⟩ := bind_eq_ok_iff.mp same

theorem sameType_of_equalAtOnce (undecided : s.equalAtOnce a b = .ok none) : s.sameType a b = true := by
  unfold equalAtOnce at undecided
  dsimp only at undecided
  split at undecided
  · exact absurd undecided answered_ne_none
  split at undecided
  · exact absurd undecided answered_ne_none
  split at undecided
  · exact absurd undecided answered_ne_none
  obtain ⟨same, -, undecided⟩ := bind_eq_ok_iff.mp undecided
  cases typed : s.sameType a b with
  | true => rfl
  | false =>
    rw [typed] at undecided
    cases same <;> cases undecided

/-- Of two lists or two maps, equality after conversion looks at what they hold only if one is empty. -/
theorem equalAtOnce_eq {empty empty' : Bool} (left : s.value a = v) (right : s.value b = w)
    (truth : v.truth = .ok (.ofBool !empty)) (truth' : w.truth = .ok (.ofBool !empty'))
    (string : (isString v || isString w) = false) (number : (isNumber v || isNumber w) = false)
    (boolean : (isBoolean v || isBoolean w) = false) (typed : (v.typeName == w.typeName) = true) :
    s.equalAtOnce a b = .ok (if empty = empty' then some .yes else none) := by
  unfold equalAtOnce sameType sameTruth
  dsimp only
  rw [left, right, string, number, boolean, truth, truth', typed]
  cases empty <;> cases empty' <;> rfl

theorem of_equalAtOnce_eq_none (left : Ordinary s (s.value a)) (right : Ordinary s (s.value b))
    (matched : s.Matched (s.value a) (s.value b)) (undecided : s.equalAtOnce a b = .ok none) :
    (∃ u v, s.value a = .keyword u ∧ s.value b = .keyword v) ∨
      ∃ n m x y, s.value a = .object n x ∧ s.value b = .object m y := by
  have typed := eq_of_beq (sameType_of_equalAtOnce undecided)
  generalize va : s.value a = v, vb : s.value b = w at left right matched typed
  cases left <;> cases right
  case keyword.keyword => exact .inl ⟨_, _, rfl, rfl⟩
  case object.object => exact .inr ⟨_, _, _, _, rfl, rfl⟩
  case list.list | map.map =>
    rw [Matched] at matched
    rw [equalAtOnce_eq va vb rfl rfl rfl rfl rfl rfl, if_pos matched] at undecided
    cases undecided
  case string.string =>
    rw [equalAtOnce, va] at undecided
    exact absurd undecided answered_ne_none
  case number.number | boolean.boolean | undefined.undefined =>
    rw [equalAtOnce, va, vb] at undecided
    cases undecided
  all_goals simp [Value.typeName, Value.recordType?, RecordType.typeName] at typed

theorem approxInside_object {n m : String} (left : (s.scope x).Distinct) (right : (s.scope y).Distinct)
    (names : ∀ name, (s.scope x).contains name = (s.scope y).contains name)
    (each : ∀ p q, p ∈ (s.scope x).common (s.scope y) → s.valuesOf p = .ok q →
      ∀ t, f q = .ok t → t = .yes)
    (done : s.approxInside f (.object n x) (.object m y) = .ok t) : t = .yes := by
  rw [approxInside] at done
  split at done
  · cases done
    rfl
  rename_i full
  obtain ⟨ps, read, done⟩ := bind_eq_ok_iff.mp done
  obtain ⟨ts, compared, ⟨⟩⟩ := bind_eq_ok_iff.mp done
  have certain : ∀ t ∈ ts, t = .yes := by
    intro t member
    obtain ⟨q, among, gives⟩ := exists_of_mem_mapM compared member
    obtain ⟨p, among', gives'⟩ := exists_of_mem_mapM read among
    exact each p q among' gives' t gives
  have among : ∀ k ∈ (s.scope x).keys, (s.scope y).contains k = true := by
    intro k member
    rw [← names, left.contains_of_mem member]
  have back : ∀ k ∈ (s.scope y).keys, (s.scope x).contains k = true := by
    intro k member
    rw [names, right.contains_of_mem member]
  have length : ts.length = (s.scope x).size := by
    rw [← (mapM_eq_ok_iff.mp compared).length_eq, ← (mapM_eq_ok_iff.mp read).length_eq]
    exact Ledger.length_common among
  have some : 0 < ts.length := by
    rw [length, Nat.pos_iff_ne_zero]
    intro none
    have none' : (s.scope y).size = 0 := Nat.le_zero.mp (none ▸ right.size_le back)
    apply full
    rw [Ledger.isEmpty, Ledger.isEmpty, eq_nil_of_length_eq_zero none,
      eq_nil_of_length_eq_zero none']
    rfl
  rw [unionSize_eq back, ← length]
  exact enough_of_yes certain some (by decide)

theorem exists_extent_eq (s : Store) : ∃ k, s.extent = k + 1 :=
  ⟨_, (Nat.succ_pred_eq_of_pos (by simp [extent])).symm⟩

section Objects

variable {n m : String}

theorem equalAtOnce_object (left : s.value a = .object n x) (right : s.value b = .object m y) :
    s.equalAtOnce a b = .ok none := by
  rw [equalAtOnce, sameType, left, right]
  rfl

theorem approxAtOnce_object (left : s.value a = .object n x) (right : s.value b = .object m y) :
    s.approxAtOnce a b = .ok (if s.identical a b then some .yes else none) := by
  rw [approxAtOnce, sameType, left, right]
  split <;> rfl

theorem approxIn_object (left : s.value a = .object n x) (right : s.value b = .object m y)
    (one : (s.scope x).Distinct) (other : (s.scope y).Distinct)
    (names : ∀ name, (s.scope x).contains name = (s.scope y).contains name)
    (each : ∀ p q, p ∈ (s.scope x).common (s.scope y) → s.valuesOf p = .ok q →
      ∀ t, s.approxIn k q.1 q.2 = .ok t → t = .yes)
    (done : s.approxIn (k + 1) a b = .ok t) : t = .yes := by
  rcases approxIn_eq_ok_iff.mp done with decided | ⟨-, rest⟩
  · rw [approxAtOnce_object left right] at decided
    split at decided <;> cases decided
    rfl
  · rw [left, right] at rest
    exact approxInside_object one other names each rest

end Objects

theorem approx_of_equal (left : Ordinary s (s.value a)) (right : Ordinary s (s.value b))
    (matched : s.Matched (s.value a) (s.value b)) (equal : s.equal a b = .ok .yes)
    (near : s.approx a b = .ok t) : t = .yes := by
  obtain ⟨k, bound⟩ := s.exists_extent_eq
  rw [approx, bound] at near
  rcases equalIn_eq_ok_iff.mp equal with first | ⟨first, rest⟩
  · exact approxIn_of_equalAtOnce left right first near
  · rcases of_equalAtOnce_eq_none left right matched first with
      ⟨u, v, va, vb⟩ | ⟨n, m, x, y, va, vb⟩
    · rw [va] at rest
      cases rest
    · rw [va, vb] at matched
      rw [va, vb, equalInside_object, allOf_members_eq_yes_iff] at rest
      cases va ▸ left with
      | object _ one =>
        cases vb ▸ right with
        | object _ other =>
          refine approxIn_object va vb one other matched (fun p q among gives t done => ?_) near
          -- the members were compared with one level more for the equality after conversion
          have yes := (rest p among).of_valuesOf gives
          rw [approx, bound, approxIn_mono done] at yes
          exact Except.ok.inj yes

/-! ## From type and content to conversion -/

/-- No object that a value is built from has a maybe or a keyword among its own values. -/
def Definite (s : Store) (a : ValueRef) : Prop :=
  ∀ x name members, s.Holds a x → s.value x = .object name members →
    ∀ y, s.Inside y x → (s.value y).isVague = false

theorem text_string {row : CharRow} {members : ScopeRef} (held : s.value a = .string row members) :
    s.text a = .ok row.text := by
  obtain ⟨k, bound⟩ := s.exists_extent_eq
  rw [text, bound, textIn, held]

theorem isEmpty_eq_of_length_eq {xs ys : List α} (same : xs.length = ys.length) :
    xs.isEmpty = ys.isEmpty := by
  rw [Bool.eq_iff_iff, isEmpty_iff_length_eq_zero, isEmpty_iff_length_eq_zero, same]

theorem Agree.matched (left : Ordinary s v) (right : Ordinary s w) (agree : Agree s R v w) :
    s.Matched v w := by
  cases agree with
  | list m m' items => exact isEmpty_eq_of_length_eq items.length_eq
  | map entries =>
    cases left with
    | map one =>
      cases right with
      | map other =>
        have keys := ((rel_iff one other).mpr entries).1
        exact isEmpty_eq_of_length_eq (eq_of_beq (Bool.and_eq_true_iff.mp keys).1)
  | object name members => exact fun name => isSome_eq_of_rel (members name)
  | _ => trivial

theorem equalAtOnce_of_agree (left : Ordinary s (s.value a)) (right : Ordinary s (s.value b))
    (agree : Agree s R (s.value a) (s.value b)) :
    (s.value a).isVague = true ∨ s.equalAtOnce a b = .ok (some .yes) ∨
      ∃ name x y, s.value a = .object name x ∧ s.value b = .object name y := by
  have matched := agree.matched left right
  generalize va : s.value a = v, vb : s.value b = w at agree matched
  cases agree with
  | @number m n same =>
    refine .inr (.inl ?_)
    rw [equalAtOnce, va, vb]
    change Except.ok (some (Truth.ofBool (m == n))) = _
    rw [same]
    rfl
  | string m m' same =>
    refine .inr (.inl ?_)
    rw [equalAtOnce, va, text_string va, text_string vb, CharRow.text, CharRow.text, same]
    change Except.ok (some (Truth.ofBool _)) = _
    rw [beq_self_eq_true]
    rfl
  | boolean t =>
    rw [equalAtOnce, va, vb]
    cases t with
    | yes | no => exact .inr (.inl rfl)
    | maybe => exact .inl rfl
  | undefined =>
    rw [equalAtOnce, va, vb]
    exact .inr (.inl rfl)
  | keyword word => exact .inl rfl
  | list _ _ _ | map _ =>
    rw [Matched] at matched
    refine .inr (.inl ?_)
    rw [equalAtOnce_eq va vb rfl rfl rfl rfl rfl rfl, if_pos matched]
  | object name members => exact .inr (.inr ⟨name, _, _, rfl, rfl⟩)

theorem equalIn_of_vague (agree : Agree s R (s.value a) (s.value b))
    (vague : (s.value a).isVague = true) : s.equalIn (k + 1) a b = .ok .maybe := by
  generalize va : s.value a = v, vb : s.value b = w at agree vague
  cases agree with
  | boolean t =>
    cases t with
    | yes | no => cases vague
    | maybe =>
      have first : s.equalAtOnce a b = .ok (some .maybe) := by
        rw [equalAtOnce, va, vb]
        rfl
      exact equalIn_eq_ok_iff.mpr (.inl first)
  | keyword word =>
    have first : s.equalAtOnce a b = .ok none := by
      rw [equalAtOnce, sameType, va, vb]
      rfl
    refine equalIn_eq_ok_iff.mpr (.inr ⟨first, ?_⟩)
    rw [va]
    rfl
  | _ => cases vague

/-- Two values that are equal by type and content, where nothing but the values that are compared by
content occurs, and no vague value in an object. -/
structure Even (s : Store) (a b : ValueRef) : Prop where
  left : ∀ x, s.Holds a x → Ordinary s (s.value x)
  right : ∀ x, s.Holds b x → Ordinary s (s.value x)
  definite : s.Definite a
  equal : ∃ k, s.reallyIn k a b = .ok .yes

namespace Even

theorem agree (even : s.Even a b) :
    Agree s (fun x y => s.Inside x a ∧ s.Even x y) (s.value a) (s.value b) := by
  obtain ⟨left, right, definite, k, yes⟩ := even
  cases k with
  | zero => cases yes
  | succ k =>
    have agree := (reallyIn_eq_yes_iff (left a .refl) (right b .refl)).mp yes
    refine agree.imp (left a .refl) (right b .refl) fun x y below below' yes => ?_
    refine ⟨below, fun z holds => left z (holds.tail below),
      fun z holds => right z (holds.tail below'), fun z name members holds => ?_, k, yes⟩
    exact definite z name members (holds.tail below)

theorem members {name : String} (even : s.Even a b)
    (va : s.value a = .object name x) (vb : s.value b = .object name y) :
    (s.scope x).Distinct ∧ (s.scope y).Distinct ∧
      (∀ name, (s.scope x).contains name = (s.scope y).contains name) ∧
      ∀ p q, p ∈ (s.scope x).common (s.scope y) → s.valuesOf p = .ok q →
        s.Even q.1 q.2 ∧ (s.value q.1).isVague = false := by
  have agree := even.agree
  have left := even.left a .refl
  have right := even.right b .refl
  rw [va] at left agree
  rw [vb] at right agree
  cases left with
  | object _ one =>
    cases right with
    | object _ other =>
      cases agree with
      | object _ related =>
        refine ⟨one, other, fun name => isSome_eq_of_rel (related name), fun p q among gives => ?_⟩
        obtain ⟨below, even'⟩ := (((rel_iff one other).mpr related).2 p among).of_valuesOf gives
        exact ⟨even', even.definite a name x .refl va q.1 below⟩

theorem approxIn_eq_yes (even : s.Even a b) (certain : (s.value a).isVague = false)
    (done : s.approxIn k a b = .ok t) : t = .yes := by
  induction k generalizing a b t with
  | zero => cases done
  | succ k ih =>
    have left := even.left a .refl
    have right := even.right b .refl
    rcases equalAtOnce_of_agree left right even.agree with vague | equal | ⟨name, x, y, va, vb⟩
    · rw [certain] at vague
      cases vague
    · exact approxIn_of_equalAtOnce left right equal done
    · obtain ⟨one, other, names, each⟩ := even.members va vb
      refine approxIn_object va vb one other names (fun p q among gives t done => ?_) done
      obtain ⟨even', certain'⟩ := each p q among gives
      exact ih even' certain' done

theorem equal_eq (even : s.Even a b) (done : s.equal a b = .ok t) :
    t = if (s.value a).isVague then .maybe else .yes := by
  obtain ⟨k, bound⟩ := s.exists_extent_eq
  rw [Store.equal, bound] at done
  cases certain : (s.value a).isVague with
  | true =>
    rw [equalIn_of_vague even.agree certain] at done
    cases done
    rfl
  | false =>
    rcases equalAtOnce_of_agree (even.left a .refl) (even.right b .refl) even.agree with
      vague | equal | ⟨name, x, y, va, vb⟩
    · rw [certain] at vague
      cases vague
    · cases (equalIn_eq_ok_iff.mpr (.inl equal)).symm.trans done
      rfl
    · obtain ⟨-, -, -, each⟩ := even.members va vb
      have first := equalAtOnce_object va vb
      rw [equalIn_eq_ok_iff, first, va, vb] at done
      obtain ⟨-, done⟩ := done.resolve_left nofun
      obtain ⟨ps, read, done⟩ := bind_eq_ok_iff.mp done
      refine allOf_yes_of_each done fun q member u gives' => ?_
      obtain ⟨p, among, gives⟩ := exists_of_mem_mapM read member
      obtain ⟨even', certain'⟩ := each p q among gives
      exact even'.approxIn_eq_yes certain' gives'

end Even

/-! ## From identity to type and content -/

theorem eq_of_identical (ordinary : Ordinary s (s.value a)) (identical : s.identical a b = true) :
    a = b := by
  unfold Store.identical at identical
  cases held : s.value a with
  | bare d =>
    rw [held] at ordinary
    cases ordinary
  | _ =>
    rw [held] at identical
    simpa using identical

theorem sameContent_self (ordinary : Ordinary s v) (number : ∀ n, v = .number n → (n == n) = true) :
    s.sameContent v v = true := by
  cases ordinary with
  | number n => exact number n rfl
  | undefined => rfl
  | map distinct => exact (sameKeys_iff distinct distinct).mpr fun _ => rfl
  | object name distinct =>
    rw [sameContent, beq_self_eq_true, (sameKeys_iff distinct distinct).mpr fun _ => rfl]
    rfl
  | _ => exact beq_self_eq_true _

theorem eq_of_mem_elementPairs_self {ps : List (ValueRef × ValueRef)}
    (ordinary : Ordinary s v) (pairs : s.elementPairs v v = .ok ps) (member : p ∈ ps) : p.1 = p.2 := by
  cases ordinary with
  | list row members =>
    cases pairs
    exact (List.forall₂_iff_zip.mp (List.forall₂_same.mpr fun x _ => rfl)).2 member
  | map distinct =>
    cases pairs
    exact distinct.eq_of_mem_common member
  | object name distinct =>
    obtain ⟨q, among, gives⟩ := exists_of_mem_mapM (commonMembers_eq.symm.trans pairs) member
    obtain ⟨one, other⟩ := valuesOf_eq_ok_iff.mp gives
    rw [← distinct.eq_of_mem_common among, one] at other
    exact Except.ok.inj other
  | _ =>
    cases pairs
    cases member

theorem reallyIn_self (ordinary : ∀ x, s.Holds a x → Ordinary s (s.value x))
    (numbers : ∀ x n, s.Holds a x → s.value x = .number n → (n == n) = true)
    (done : s.reallyIn k a a = .ok t) : t = .yes := by
  induction k generalizing a t with
  | zero => cases done
  | succ k ih =>
    have self := ordinary a .refl
    rw [reallyIn_succ self self, if_pos (sameContent_self self fun n => numbers a n .refl)] at done
    obtain ⟨ps, pairs, done⟩ := bind_eq_ok_iff.mp done
    refine allOf_yes_of_each done fun p member u gives => ?_
    have below : s.Inside p.1 a := (mem_elements_of_mem_elementPairs pairs member).1
    rw [← eq_of_mem_elementPairs_self self pairs member] at gives
    exact ih (fun z holds => ordinary z (holds.tail below))
      (fun z n holds => numbers z n (holds.tail below)) gives

/-- The four equalities are ordered by precision, where all give an answer. What is identical is
equal by type and content, if every number in it equals itself. What is equal by type and content is
equal after conversion, but for maybes and keywords the answer is only maybe. What is equal after
conversion is approximately equal. -/
theorem equalities_by_precision {near loose strict : Truth}
    (left : ∀ x, s.Holds a x → Ordinary s (s.value x))
    (right : ∀ x, s.Holds b x → Ordinary s (s.value x)) (approx : s.approx a b = .ok near)
    (equal : s.equal a b = .ok loose) (really : s.really a b = .ok strict) :
    (s.identical a b = true → (∀ x n, s.Holds a x → s.value x = .number n → (n == n) = true) →
      strict = .yes) ∧
    (strict = .yes → s.Definite a → loose = if (s.value a).isVague then .maybe else .yes) ∧
    (loose = .yes → s.Matched (s.value a) (s.value b) → near = .yes) := by
  refine ⟨fun same numbers => ?_, fun yes definite => ?_, fun yes matched => ?_⟩
  · cases eq_of_identical (left a .refl) same
    exact reallyIn_self left numbers really
  · exact Even.equal_eq ⟨left, right, definite, _, yes ▸ really⟩ equal
  · exact approx_of_equal (left a .refl) (right b .refl) matched (yes ▸ equal) approx

/-- A store with two objects that have equal values under the same names, and lists in them that
hold a maybe. -/
def pointStore : Store :=
  { empty with
    values := #[.number (.int 1), .number (.real 1.0), .boolean .maybe,
      .list (.ofList [⟨0⟩, ⟨2⟩]) ⟨0⟩, .list (.ofList [⟨1⟩, ⟨2⟩]) ⟨0⟩, .object "Point" ⟨0⟩,
      .object "Point" ⟨1⟩]
    scopes := #[⟨[("x", .named "x" ⟨0⟩), ("marks", .named "marks" ⟨3⟩)]⟩,
      ⟨[("marks", .named "marks" ⟨4⟩), ("x", .named "x" ⟨1⟩)]⟩] }

theorem pointStore_ordinary (r : ValueRef) : Ordinary pointStore (pointStore.value r) := by
  obtain ⟨i⟩ := r
  rcases i with _ | _ | _ | _ | _ | _ | _ | i
  · exact .number _
  · exact .number _
  · exact .boolean _
  · exact .list _ _
  · exact .list _ _
  · exact .object _ ⟨by decide, by decide⟩
  · exact .object _ ⟨by decide, by decide⟩
  · exact .undefined

theorem pointStore_number (held : pointStore.value r = .number n) : (n == n) = true := by
  obtain ⟨i⟩ := r
  rcases i with _ | _ | _ | _ | _ | _ | _ | i
  · cases held
    decide
  · cases held
    decide
  all_goals cases held

theorem pointStore_definite (r : ValueRef) : pointStore.Definite r := by
  have first : ∀ y ∈ pointStore.elements (pointStore.value ⟨5⟩),
      (pointStore.value y).isVague = false := by decide
  have second : ∀ y ∈ pointStore.elements (pointStore.value ⟨6⟩),
      (pointStore.value y).isVague = false := by decide
  rintro ⟨i⟩ name members - held y below
  rcases i with _ | _ | _ | _ | _ | _ | _ | i
  · cases held
  · cases held
  · cases held
  · cases held
  · cases held
  · exact first y below
  · exact second y below
  · cases held

theorem pointStore_matched : pointStore.Matched (pointStore.value ⟨5⟩) (pointStore.value ⟨6⟩) := by
  have first : (pointStore.scope ⟨0⟩).Distinct := ⟨by decide, by decide⟩
  have second : (pointStore.scope ⟨1⟩).Distinct := ⟨by decide, by decide⟩
  exact (sameKeys_iff first second).mp (by decide)

/-- Two objects with equal values are equal in all ways but identity, and one of them in all ways to
itself. -/
theorem equalities_by_precision_points :
    (pointStore.identical ⟨5⟩ ⟨5⟩ = true ∧ pointStore.really ⟨5⟩ ⟨5⟩ = .ok .yes) ∧
    pointStore.identical ⟨5⟩ ⟨6⟩ = false ∧ pointStore.really ⟨5⟩ ⟨6⟩ = .ok .yes ∧
    pointStore.equal ⟨5⟩ ⟨6⟩ = .ok .yes ∧
    pointStore.Matched (pointStore.value ⟨5⟩) (pointStore.value ⟨6⟩) ∧
    pointStore.approx ⟨5⟩ ⟨6⟩ = .ok .yes := by
  have ordinary : ∀ a x, pointStore.Holds a x → Ordinary pointStore (pointStore.value x) :=
    fun _ x _ => pointStore_ordinary x
  obtain ⟨strict, itself⟩ : ∃ t, pointStore.really ⟨5⟩ ⟨5⟩ = .ok t := ⟨.yes, by decide⟩
  have really : pointStore.really ⟨5⟩ ⟨6⟩ = .ok .yes := by decide
  obtain ⟨loose, equal⟩ : ∃ t, pointStore.equal ⟨5⟩ ⟨6⟩ = .ok t := ⟨.yes, by decide⟩
  obtain ⟨near, approx⟩ : ∃ t, pointStore.approx ⟨5⟩ ⟨6⟩ = .ok t := ⟨.yes, by decide⟩
  obtain ⟨first, -, -⟩ := @equalities_by_precision pointStore ⟨5⟩ ⟨5⟩ .yes .yes strict (ordinary _)
    (ordinary _) (by decide) (by decide) itself
  obtain ⟨-, second, third⟩ :=
    equalities_by_precision (ordinary _) (ordinary _) approx equal really
  have certain : loose = .yes := second rfl (pointStore_definite ⟨5⟩)
  rw [first rfl fun _ _ _ => pointStore_number] at itself
  rw [third certain pointStore_matched] at approx
  rw [certain] at equal
  exact ⟨⟨rfl, itself⟩, by decide, really, equal, pointStore_matched, approx⟩

def maybeStore : Store := { empty with values := #[.boolean .maybe, .boolean .maybe] }

/-- Two maybes are equal by type and content, but it is maybe whether they are equal after
conversion. -/
theorem maybes_loosely_equal_maybe :
    (∀ x, Ordinary maybeStore (maybeStore.value x)) ∧ maybeStore.really ⟨0⟩ ⟨1⟩ = .ok .yes ∧
    maybeStore.equal ⟨0⟩ ⟨1⟩ = .ok .maybe ∧ maybeStore.approx ⟨0⟩ ⟨1⟩ = .ok .maybe := by
  refine ⟨fun r => ?_, by decide, by decide, by decide⟩
  obtain ⟨i⟩ := r
  rcases i with _ | _ | i
  · exact .boolean _
  · exact .boolean _
  · exact .undefined

end Store

end DreamBerd
