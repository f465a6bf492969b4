import DreamBerd.Proofs.Precision
import DreamBerd.Proofs.Worlds

/-!
# What the operators for equality and order say of lists and maps

Lists and maps have an equality by content, `===`, and an order by size, `<`. The other operators are put
together from these two and from the truth of the values. For values whose order is a total one with the same
equality, numbers and strings among them, the operators fit together. Lists and maps of one size that are not
equal are each greater than the other, and a maybe is at most a maybe, but maybe less than it:
`Run.coherent_iff_untied`. Two lists or two maps are equal for `==` whatever they hold, since it looks at
their truth first and, if one is empty, at none of their elements: `Run.content_compared_iff`.
-/

namespace DreamBerd

open Store

/-! ## The answers of operators -/

namespace Run

variable {w w' : World} {token : Token} {op : Operator} {a b : ValueRef} {t u l g : Truth}

def Answers (w : World) (token : Token) (op : Operator) (a b : ValueRef) (t : Truth) : Prop :=
  ∃ r w', operate op token a b w = .ok r w' ∧ w'.store.value r = .boolean t

theorem Answers.unique (first : Answers w token op a b t) (second : Answers w token op a b u) : t = u := by
  obtain ⟨r, w', gives, value⟩ := first
  obtain ⟨r', w'', gives', value'⟩ := second
  cases gives.symm.trans gives'
  cases value.symm.trans value'
  rfl

theorem answers_of_eq (same : operate op token a b w = newTruth t w) : Answers w token op a b t := by
  refine ⟨_, _, same, ?_⟩
  show (w.store.values.push _)[w.store.values.size]?.getD .undefined = _
  rw [Array.getElem?_push_size, Option.getD_some]

theorem less_eq (less : lessOf (w.store.value a) (w.store.value b) = .ok l) :
    Run.less a b w = .ok l w := by
  refine (bind_ok rfl).trans ((bind_ok rfl).trans ?_)
  rw [less]
  rfl

theorem answers_less (token : Token) (less : lessOf (w.store.value a) (w.store.value b) = .ok l) :
    Answers w token .lt a b l ∧ Answers w token .ge a b l.not :=
  ⟨answers_of_eq (bind_ok (less_eq less)), answers_of_eq (bind_ok (less_eq less))⟩

theorem answers_atMost (token : Token) (same : w.store.really a b = .ok t)
    (less : lessOf (w.store.value a) (w.store.value b) = .ok l) :
    Answers w token .le a b (t.or l) ∧ Answers w token .gt a b (t.or l).not := by
  have most : atMost a b w = .ok (t.or l) w :=
    (bind_ok rfl).trans ((bind_ok (ofExcept_ok same)).trans (bind_ok (less_eq less)))
  exact ⟨answers_of_eq (bind_ok most), answers_of_eq (bind_ok most)⟩

theorem exists_really (most : atMost a b w = .ok t w') : ∃ u, w.store.really a b = .ok u := by
  obtain ⟨_, _, ⟨⟩, most⟩ := bind_eq_ok most
  obtain ⟨u, _, same, -⟩ := bind_eq_ok most
  exact ⟨u, (ofExcept_eq_ok same).1⟩

/-! ## Order -/

/-- The operators for order say the same of two values from either side, and do not say of both that they are
greater. -/
structure Coherent (w : World) (token : Token) (a b : ValueRef) : Prop where
  less : ∃ t, Answers w token .lt a b t ∧ Answers w token .gt b a t
  atMost : ∃ t, Answers w token .le a b t ∧ Answers w token .ge b a t
  greater : ¬(Answers w token .gt a b .yes ∧ Answers w token .gt b a .yes)

/-- Two values of one type that has an order; numbers are not NaN. -/
inductive Comparable : Value → Value → Prop
  | number {m n : Number} {x y : Number.Extent} : m.extent? = some x → n.extent? = some y →
    Comparable (.number m) (.number n)
  | string (x y : CharRow) (m m' : ScopeRef) : Comparable (.string x m) (.string y m')
  | boolean (t u : Truth) : Comparable (.boolean t) (.boolean u)
  | undefined : Comparable .undefined .undefined
  | list (x y : Row ValueRef) (m m' : ScopeRef) : Comparable (.list x m) (.list y m')
  | map (x y : Ledger MapKey ValueRef) : Comparable (.map x) (.map y)

/-- Lists and maps of one size are equal, and truth values are not both maybe. -/
def Untied (s : Store) (a b : ValueRef) : Prop :=
  match s.value a, s.value b with
  | .list x _, .list y _ =>
    x.items.length = y.items.length → s.really a b = .ok .yes ∧ s.really b a = .ok .yes
  | .map x, .map y => x.size = y.size → s.really a b = .ok .yes ∧ s.really b a = .ok .yes
  | .boolean t, .boolean u => ¬(t = .maybe ∧ u = .maybe)
  | _, _ => True

/-- The answers fit together if `l` and `g` are the order in both directions, and `t` and `u` the equality. -/
def Fits (l g t u : Truth) : Prop :=
  l = (u.or g).not ∧ t.or l = g.not ∧ ¬((t.or l).not = .yes ∧ (u.or g).not = .yes)

theorem coherent_iff (less : lessOf (w.store.value a) (w.store.value b) = .ok l)
    (more : lessOf (w.store.value b) (w.store.value a) = .ok g) :
    Coherent w token a b ↔
      ∃ t u, w.store.really a b = .ok t ∧ w.store.really b a = .ok u ∧ Fits l g t u := by
  obtain ⟨lt, -⟩ := answers_less token less
  obtain ⟨-, ge⟩ := answers_less token more
  constructor
  · rintro ⟨⟨_, lt', gt, w₁, gives, value⟩, ⟨_, ⟨_, w₂, gives', value'⟩, ge'⟩, never⟩
    obtain ⟨_, _, most, -⟩ := bind_eq_ok gives
    obtain ⟨_, _, most', -⟩ := bind_eq_ok gives'
    obtain ⟨u, same⟩ := exists_really most
    obtain ⟨t, same'⟩ := exists_really most'
    obtain ⟨le, greater⟩ := answers_atMost token same' less
    obtain ⟨-, greater'⟩ := answers_atMost token same more
    refine ⟨t, u, same', same, ?_, ?_, ?_⟩
    · exact (lt.unique lt').trans (Answers.unique ⟨_, _, gives, value⟩ greater')
    · exact (le.unique ⟨_, _, gives', value'⟩).trans (ge'.unique ge)
    · rintro ⟨one, other⟩
      exact never ⟨one ▸ greater, other ▸ greater'⟩
  · rintro ⟨t, u, same, same', one, other, never⟩
    obtain ⟨le, gt⟩ := answers_atMost token same less
    obtain ⟨-, gt'⟩ := answers_atMost token same' more
    exact ⟨⟨l, lt, one ▸ gt'⟩, ⟨_, le, other ▸ ge⟩,
      fun both => never ⟨gt.unique both.1, gt'.unique both.2⟩⟩

/-- The ways in which two values of a total order can stand to each other: whether the first is less, greater or
equal. -/
inductive Placed : Bool → Bool → Bool → Prop
  | less : Placed true false false
  | greater : Placed false true false
  | equal : Placed false false true

theorem Placed.fits {l g e : Bool} (placed : Placed l g e) :
    Fits (.ofBool l) (.ofBool g) (.ofBool e) (.ofBool e) := by
  unfold Fits
  cases placed <;> decide

theorem placed_of_linearOrder [LinearOrder α] (x y : α) :
    Placed (decide (x < y)) (decide (y < x)) (decide (x = y)) := by
  rcases lt_trichotomy x y with less | rfl | greater
  · rw [decide_eq_true less, decide_eq_false less.not_gt, decide_eq_false less.ne]
    exact .less
  · simpa using Placed.equal
  · rw [decide_eq_true greater, decide_eq_false greater.not_gt, decide_eq_false greater.ne']
    exact .greater

theorem placed_number {m n : Number} {x y : Number.Extent} (left : m.extent? = some x)
    (right : n.extent? = some y) : Placed (x.lt y) (y.lt x) (m == n) := by
  have same : (m == n) = decide (x = y) := by
    rw [Bool.eq_iff_iff, Number.beq_iff_extent? left, right]
    simp [eq_comm]
  rw [same]
  by_cases equal : x = y
  · subst equal
    rw [Number.Extent.lt_irrefl, decide_eq_true rfl]
    exact .equal
  · rw [decide_eq_false equal]
    cases less : x.lt y with
    | true =>
      rw [Number.Extent.lt_asymm less]
      exact .less
    | false =>
      rw [Number.Extent.lt_total less equal]
      exact .greater

theorem placed_string (x y : CharRow) :
    Placed (decide (x.text < y.text)) (decide (y.text < x.text)) (x.chars == y.chars) := by
  have same : (x.chars == y.chars) = decide (x.text = y.text) := by
    rw [Bool.eq_iff_iff, beq_iff_eq, decide_eq_true_iff]
    exact String.ofList_inj.symm
  rw [same]
  exact placed_of_linearOrder x.text y.text

theorem really_eq (s : Store) (a b : ValueRef) : ∃ k, s.really a b =
    s.reallyInside (fun p => s.reallyIn k p.1 p.2) (s.value a) (s.value b) := by
  obtain ⟨k, extent⟩ := s.exists_extent_eq
  exact ⟨k, by rw [really, extent, reallyIn]⟩

theorem coherent_iff_fits (less : lessOf (w.store.value a) (w.store.value b) = .ok l)
    (more : lessOf (w.store.value b) (w.store.value a) = .ok g) (same : w.store.really a b = .ok t)
    (same' : w.store.really b a = .ok u) : Coherent w token a b ↔ Fits l g t u := by
  rw [coherent_iff less more, same, same']
  constructor
  · rintro ⟨_, _, ⟨⟩, ⟨⟩, fits⟩
    exact fits
  · exact fun fits => ⟨t, u, rfl, rfl, fits⟩

/-- Where the order is one of sizes, values of one size have to be equal. -/
theorem coherent_iff_of_sizes {i j : Nat}
    (less : lessOf (w.store.value a) (w.store.value b) = .ok (.ofBool (i < j)))
    (more : lessOf (w.store.value b) (w.store.value a) = .ok (.ofBool (j < i)))
    (apart : i ≠ j → w.store.really a b = .ok .no ∧ w.store.really b a = .ok .no) :
    Coherent w token a b ↔
      (i = j → w.store.really a b = .ok .yes ∧ w.store.really b a = .ok .yes) := by
  by_cases tie : i = j
  · subst tie
    have fits_iff (t u : Truth) : Fits (.ofBool (i < i)) (.ofBool (i < i)) t u ↔ t = .yes ∧ u = .yes := by
      rw [decide_eq_false (Nat.lt_irrefl i)]
      unfold Fits
      cases t <;> cases u <;> decide
    rw [coherent_iff less more]
    constructor
    · rintro ⟨t, u, same, same', fits⟩ -
      obtain ⟨rfl, rfl⟩ := (fits_iff t u).mp fits
      exact ⟨same, same'⟩
    · intro both
      exact ⟨.yes, .yes, (both rfl).1, (both rfl).2, (fits_iff _ _).mpr ⟨rfl, rfl⟩⟩
  · obtain ⟨same, same'⟩ := apart tie
    have placed := placed_of_linearOrder i j
    rw [decide_eq_false tie] at placed
    exact iff_of_true ((coherent_iff_fits less more same same').mpr placed.fits) fun equal => absurd equal tie

theorem lessOf_number {m n : Number} {x y : Number.Extent} (left : m.extent? = some x)
    (right : n.extent? = some y) : lessOf (.number m) (.number n) = .ok (.ofBool (x.lt y)) := by
  simp [lessOf, Number.lt_eq left right, Value.typeName, Value.recordType?]

theorem lessOf_boolean (t u : Truth) : lessOf (.boolean t) (.boolean u) =
    .ok (if t = .maybe ∨ u = .maybe then .maybe else .ofBool (t == .no && u == .yes)) := by
  cases t <;> cases u <;> rfl

theorem reallyInside_list {s : Store} {f : ValueRef × ValueRef → Except Fault Truth} {x y : Row ValueRef}
    (m m' : ScopeRef) (other : x.items.length ≠ y.items.length) :
    s.reallyInside f (.list x m) (.list y m') = .ok .no :=
  if_neg (mt beq_iff_eq.mp other)

theorem reallyInside_map {s : Store} {f : ValueRef × ValueRef → Except Fault Truth}
    {x y : Ledger MapKey ValueRef} (other : x.size ≠ y.size) :
    s.reallyInside f (.map x) (.map y) = .ok .no := by
  have keys : ¬sameKeys x y = true := by simp [sameKeys, other]
  exact if_neg keys

/-- The operators for order fit together for two values of one type if and only if these are not tied: neither
lists or maps of one size that are not equal, nor both maybe. -/
theorem coherent_iff_untied (comparable : Comparable (w.store.value a) (w.store.value b)) :
    Coherent w token a b ↔ Untied w.store a b := by
  obtain ⟨k, same⟩ := really_eq w.store a b
  obtain ⟨k', same'⟩ := really_eq w.store b a
  have compare (v v' : Value) (left : w.store.value a = v) (right : w.store.value b = v') :
      lessOf (w.store.value a) (w.store.value b) = lessOf v v' ∧
        lessOf (w.store.value b) (w.store.value a) = lessOf v' v := by
    rw [left, right]
    exact ⟨rfl, rfl⟩
  unfold Untied
  generalize left : w.store.value a = v, right : w.store.value b = v' at comparable same same'
  obtain ⟨less, more⟩ := compare v v' left right
  cases comparable with
  | number extent extent' =>
    have placed := placed_number extent extent'
    rw [lessOf_number extent extent'] at less
    rw [lessOf_number extent' extent] at more
    refine iff_of_true ((coherent_iff_fits less more same ?_).mpr placed.fits) trivial
    rw [BEq.comm]
    exact same'
  | string x y m m' =>
    refine iff_of_true ((coherent_iff_fits less more same ?_).mpr (placed_string x y).fits) trivial
    rw [BEq.comm]
    exact same'
  | boolean t u =>
    rw [lessOf_boolean] at less more
    rw [coherent_iff_fits less more same same']
    show _ ↔ ¬(t = .maybe ∧ u = .maybe)
    unfold Fits
    cases t <;> cases u <;> decide
  | undefined => exact iff_of_true ((coherent_iff_fits less more same same').mpr Placed.equal.fits) trivial
  | list x y m m' =>
    exact coherent_iff_of_sizes less more fun other =>
      ⟨same.trans (reallyInside_list m m' other), same'.trans (reallyInside_list m' m other.symm)⟩
  | map x y =>
    exact coherent_iff_of_sizes less more fun other =>
      ⟨same.trans (reallyInside_map other), same'.trans (reallyInside_map other.symm)⟩

/-- Two numbers, a list of each, and two maps with one key. -/
def comparisonWorld : World :=
  { (default : World) with store := { empty with
    values := #[.number (.int 1), .number (.int 2), .list (.ofList [⟨0⟩]) ⟨0⟩, .list (.ofList [⟨1⟩]) ⟨0⟩,
      .map ⟨[(.text "k", ⟨0⟩)]⟩, .map ⟨[(.text "k", ⟨1⟩)]⟩] } }

/-- The operators fit together for the numbers 1 and 2, but not for the lists of one of them each. -/
theorem coherent_iff_untied_numbers :
    Comparable (comparisonWorld.store.value ⟨0⟩) (comparisonWorld.store.value ⟨1⟩) ∧
    Comparable (comparisonWorld.store.value ⟨2⟩) (comparisonWorld.store.value ⟨3⟩) ∧
    Coherent comparisonWorld default ⟨0⟩ ⟨1⟩ ∧ ¬Coherent comparisonWorld default ⟨2⟩ ⟨3⟩ := by
  have numbers : Comparable (comparisonWorld.store.value ⟨0⟩) (comparisonWorld.store.value ⟨1⟩) :=
    .number rfl rfl
  have lists : Comparable (comparisonWorld.store.value ⟨2⟩) (comparisonWorld.store.value ⟨3⟩) :=
    .list _ _ _ _
  have different : comparisonWorld.store.really ⟨2⟩ ⟨3⟩ = .ok .no := by decide
  refine ⟨numbers, lists, (coherent_iff_untied numbers).mpr trivial, (coherent_iff_untied lists).not.mpr ?_⟩
  intro untied
  cases different.symm.trans (untied rfl).1

/-! ## Equality after conversion -/

theorem answers_ee (equal : w.store.equal a b = .ok t) : Answers w token .ee a b t :=
  answers_of_eq ((bind_ok rfl).trans (bind_ok (ofExcept_ok equal)))

theorem answers_eee_iff : Answers w token .eee a b t ↔ w.store.really a b = .ok t := by
  have forward {u : Truth} (really : w.store.really a b = .ok u) : Answers w token .eee a b u :=
    answers_of_eq ((bind_ok rfl).trans (bind_ok (ofExcept_ok really)))
  refine ⟨fun answers => ?_, forward⟩
  obtain ⟨_, _, gives, -⟩ := id answers
  obtain ⟨_, _, ⟨⟩, gives⟩ := bind_eq_ok gives
  obtain ⟨u, _, compared, -⟩ := bind_eq_ok gives
  have really := (ofExcept_eq_ok compared).1
  rwa [answers.unique (forward really)]

end Run

namespace Store

variable {s : Store} {a b : ValueRef}

theorem equal_of_atOnce {empty empty' : Bool}
    (first : s.equalAtOnce a b = .ok (if empty = empty' then some .yes else none))
    (inside : empty ≠ empty' → ∀ f, s.equalInside f (s.value a) (s.value b) = .ok .yes) :
    s.equal a b = .ok .yes := by
  by_cases same : empty = empty'
  · rw [if_pos same] at first
    exact equalIn_eq_ok_iff.mpr (.inl first)
  · rw [if_neg same] at first
    exact equalIn_eq_ok_iff.mpr (.inr ⟨first, inside same _⟩)

theorem equal_list (left : s.value a = .list x m)
    (right : s.value b = .list y m') : s.equal a b = .ok .yes := by
  refine equal_of_atOnce (equalAtOnce_eq left right rfl rfl rfl rfl rfl rfl) fun other f => ?_
  have none : x.items.zip y.items = [] := by
    rw [List.zip_eq_nil_iff]
    grind
  rw [left, right, equalInside, none]
  rfl

theorem equal_map (left : s.value a = .map x) (right : s.value b = .map y) :
    s.equal a b = .ok .yes := by
  refine equal_of_atOnce (equalAtOnce_eq left right rfl rfl rfl rfl rfl rfl) fun other f => ?_
  have none : commonEntries x y = [] := by
    obtain ⟨xs⟩ := x
    obtain ⟨ys⟩ := y
    cases xs with
    | nil => rfl
    | cons e xs =>
      cases ys with
      | nil => simp [commonEntries, Ledger.get?, Ledger.find]
      | cons e' ys => exact absurd rfl other
  rw [left, right, equalInside, none]
  rfl

inductive Numeric (s : Store) : Value → Prop
  | list {row : Row ValueRef} (members : ScopeRef) : (∀ r ∈ row.items, ∃ n, s.value r = .number n) →
    Numeric s (.list row members)
  | map {entries : Ledger MapKey ValueRef} : entries.Distinct →
    (∀ e ∈ entries.entries, (∃ k, e.1 = .text k) ∧ ∃ n, s.value e.2 = .number n) → Numeric s (.map entries)

namespace Numeric

variable {v w : Value}

theorem ordinary (numeric : Numeric s v) : Ordinary s v := by
  cases numeric with
  | list members _ => exact .list _ members
  | map distinct _ => exact .map distinct

theorem number (numeric : Numeric s v) {r : ValueRef} (member : r ∈ s.elements v) :
    ∃ n, s.value r = .number n := by
  cases numeric with
  | list members numbers => exact numbers r member
  | map _ entries =>
    obtain ⟨e, among, rfl⟩ := List.mem_map.mp member
    exact (entries e among).2

theorem equal (left : Numeric s (s.value a)) (right : Numeric s (s.value b))
    (typed : (s.value a).typeName = (s.value b).typeName) : s.equal a b = .ok .yes := by
  generalize held : s.value a = v, held' : s.value b = w at left right typed
  cases left with
  | list members _ =>
    cases right with
    | list members' _ => exact equal_list held held'
    | map _ _ => simp [Value.typeName, Value.recordType?, RecordType.typeName] at typed
  | map _ _ =>
    cases right with
    | list members _ => simp [Value.typeName, Value.recordType?, RecordType.typeName] at typed
    | map _ _ => exact equal_map held held'

end Numeric

def EqualNumbers (s : Store) (u v : ValueRef) : Prop :=
  ∃ m n, s.value u = .number m ∧ s.value v = .number n ∧ (m == n) = true

theorem reallyIn_numbers (left : s.value a = .number m)
    (right : s.value b = .number n) : s.reallyIn (k + 1) a b = .ok .yes ↔ s.EqualNumbers a b := by
  have compared : s.reallyIn (k + 1) a b = .ok (.ofBool (m == n)) := by
    rw [reallyIn, left, right]
    rfl
  rw [compared, Except.ok.injEq, ofBool_eq_yes_iff]
  constructor
  · exact fun same => ⟨m, n, left, right, same⟩
  · rintro ⟨m', n', left', right', same⟩
    cases left.symm.trans left'
    cases right.symm.trans right'
    exact same

/-- Equality by type and content compares lists of numbers position by position, and maps key by key. -/
theorem really_iff_agree (left : Numeric s (s.value a)) (right : Numeric s (s.value b)) :
    s.really a b = .ok .yes ↔ Agree s s.EqualNumbers (s.value a) (s.value b) := by
  obtain ⟨k, extent⟩ : ∃ k, s.extent = k + 1 + 1 := ⟨s.extent - 2, by unfold extent; omega⟩
  rw [really, extent, reallyIn_eq_yes_iff left.ordinary right.ordinary]
  have numbers (u v : ValueRef) (one : u ∈ s.elements (s.value a)) (other : v ∈ s.elements (s.value b)) :
      s.reallyIn (k + 1) u v = .ok .yes ↔ s.EqualNumbers u v := by
    obtain ⟨m, held⟩ := left.number one
    obtain ⟨n, held'⟩ := right.number other
    exact reallyIn_numbers held held'
  constructor
  · exact fun agree => agree.imp left.ordinary right.ordinary fun u v one other =>
      (numbers u v one other).mp
  · exact fun agree => agree.imp left.ordinary right.ordinary fun u v one other =>
      (numbers u v one other).mpr

end Store

namespace Run

variable {w : World} {a b : ValueRef}

/-- Two lists of numbers, or two maps from strings to numbers, are equal for `==` whatever they hold. So it
compares their content if and only if they are equal for `===`, which does. -/
theorem content_compared_iff (token : Token) (left : w.store.Numeric (w.store.value a))
    (right : w.store.Numeric (w.store.value b)) (typed : w.store.sameType a b = true) :
    Answers w token .ee a b .yes ∧
      ((Answers w token .ee a b .yes ↔
          w.store.Agree w.store.EqualNumbers (w.store.value a) (w.store.value b)) ↔
        Answers w token .eee a b .yes) := by
  have yes : Answers w token .ee a b .yes := answers_ee (left.equal right (beq_iff_eq.mp typed))
  refine ⟨yes, ?_⟩
  rw [answers_eee_iff, really_iff_agree left right]
  exact ⟨fun compares => compares.mp yes, fun agree => iff_of_true yes agree⟩

/-- The maps from one key to 1 and to 2 are equal for `==`, but not for `===`. -/
theorem content_compared_iff_maps :
    comparisonWorld.store.Numeric (comparisonWorld.store.value ⟨4⟩) ∧
    comparisonWorld.store.Numeric (comparisonWorld.store.value ⟨5⟩) ∧
    comparisonWorld.store.sameType ⟨4⟩ ⟨5⟩ = true ∧ Answers comparisonWorld default .ee ⟨4⟩ ⟨5⟩ .yes ∧
    ¬Answers comparisonWorld default .eee ⟨4⟩ ⟨5⟩ .yes := by
  have first : comparisonWorld.store.Numeric (comparisonWorld.store.value ⟨4⟩) := by
    refine .map ⟨by decide, by decide⟩ fun e member => ?_
    obtain rfl := List.mem_singleton.mp member
    exact ⟨⟨_, rfl⟩, _, rfl⟩
  have second : comparisonWorld.store.Numeric (comparisonWorld.store.value ⟨5⟩) := by
    refine .map ⟨by decide, by decide⟩ fun e member => ?_
    obtain rfl := List.mem_singleton.mp member
    exact ⟨⟨_, rfl⟩, _, rfl⟩
  have different : comparisonWorld.store.really ⟨4⟩ ⟨5⟩ = .ok .no := by decide
  refine ⟨first, second, by decide, (content_compared_iff default first second (by decide)).1, ?_⟩
  rw [answers_eee_iff, different]
  rintro ⟨⟩

end Run

end DreamBerd
