import DreamBerd.Proofs.Indices

/-!
# The laws of arrays

After an assignment the index that was assigned should give the new element, and every other index
what it gave before. A row keeps the places of its indices beside its elements, but an assignment
works out a position of its own from the index. `Row.Aligned` says when the two agree.

* `Row.set_cases`: an assignment replaces an element or inserts one.
* `Row.lawful_iff_aligned`: the laws hold where the two positions agree, and only there.
* `Row.Level.aligned`: they agree as long as nothing was inserted.
-/

namespace DreamBerd.Row

open List Number

variable {α : Type} {r r' : Row α} {i j : Number} {x w : α} {n q : Nat} {e : Extent}

/-- The rows that assignments make out of fresh ones. -/
inductive Reachable : Row α → Prop
  | fresh (items : List α) : Reachable (ofList items)
  | assigned {r r' : Row α} {i : Option Number} {x : α} :
    Reachable r → r.set i x = .ok r' → Reachable r'

/-- The laws of arrays for an assignment of `x` to the index `i` that turned `r` into `r'`. -/
structure Lawful (r : Row α) (i : Number) (x : α) (r' : Row α) : Prop where
  written : r'.get (some i) = .ok x
  kept : ∀ (j : Number) (w : α), (j == i) = false → r.get (some j) = .ok w →
    r'.get (some j) = .ok w

/-- The index `j` can be read, and its element stands at position `q`. -/
@[mk_iff]
structure Stands (r : Row α) (j : Number) (q : Nat) : Prop where
  bounded : checkBounds "list" r.items.length j = .ok ()
  place : r.places.get? j = some ((q : Int) - 1)
  inside : q < r.items.length

/-- Writing at position `n` reaches the element of `i` and no other. An assignment also moves the
index `n` to the position after that. -/
structure Replaces (r : Row α) (i : Number) (n : Nat) : Prop where
  own : r.Stands i n
  next : ∀ j q, r.Stands j q → (j == .int n) = true → q = n + 1
  others : ∀ j q, r.Stands j q → (j == i) = false → (j == .int n) = false → q ≠ n

/-- Position `n` lies between the elements of the indices below `i` and of those above it. -/
structure Parts (r : Row α) (i : Number) (n : Nat) : Prop where
  inside : n ≤ r.items.length
  below : ∀ j q, r.Stands j q → j.scalarLt i = true → q < n
  above : ∀ j q, r.Stands j q → i.scalarLt j = true → n ≤ q

/-- The position that an assignment to `i` works out agrees with the places of the indices. -/
def Aligned (r : Row α) (i : Number) : Prop :=
  if r.places.contains i then ∃ m, i.round = .ok m ∧ r.Replaces i (m + 1).toNat
  else ∃ n, i.insertionPoint = .ok n ∧ r.Parts i n

/-! ## Reading -/

/-- No place lies in front of the first element. -/
def Low (r : Row α) : Prop := ∀ (j : Number) (p : Int), r.places.get? j = some p → -1 ≤ p

theorem atPosition?_natCast (xs : List α) (q : Nat) : atPosition? xs ((q : Int) - 1 + 1) = xs[q]? := by
  rw [Int.sub_add_cancel, atPosition?, if_pos (Int.natCast_nonneg q), Int.toNat_natCast]

theorem get_eq (r : Row α) (j : Number) :
    r.get (some j) = (do
      checkBounds "list" r.items.length j
      match r.places.get? j with
      | none => .error (.plain .noValueAtIndex)
      | some p =>
        match atPosition? r.items (p + 1) with
        | some x => return x
        | none => .error (.breakdown .position)) := rfl

theorem get_of_place (bounded : checkBounds "list" r.items.length j = .ok ())
    (place : r.places.get? j = some ((q : Int) - 1)) :
    r.get (some j) = match r.items[q]? with
      | some x => .ok x
      | none => .error (.breakdown .position) := by
  rw [get_eq, bounded, place, ← atPosition?_natCast]
  rfl

theorem get_eq_ok_iff (low : r.Low) :
    r.get (some j) = .ok w ↔ ∃ q, r.Stands j q ∧ r.items[q]? = some w := by
  constructor
  · intro read
    obtain ⟨_, bounded, read⟩ := bind_eq_ok_iff.mp read
    split at read
    · cases read
    · rename_i p place
      have least := low j p place
      obtain ⟨q, rfl⟩ : ∃ q : Nat, p = (q : Int) - 1 := ⟨(p + 1).toNat, by omega⟩
      rw [atPosition?_natCast] at read
      split at read
      · rename_i value
        cases read
        exact ⟨q, ⟨bounded, place, (List.getElem?_eq_some_iff.mp value).1⟩, value⟩
      · cases read
  · rintro ⟨q, ⟨bounded, place, -⟩, value⟩
    rw [get_of_place bounded place, value]

theorem Stands.unique (stands : r.Stands j q) (stands' : r.Stands j q') : q = q' := by
  have same := stands.place.symm.trans stands'.place
  injection same with same
  omega

theorem Stands.get_eq (low : r.Low) (stands : r.Stands j q) :
    ∃ w, r.items[q]? = some w ∧ r.get (some j) = .ok w := by
  refine ⟨_, getElem?_eq_getElem stands.inside, ?_⟩
  exact (get_eq_ok_iff low).mpr ⟨q, stands, getElem?_eq_getElem stands.inside⟩

/-! ## Writing -/

def replaced (r : Row α) (n : Nat) (x : α) : Row α := ⟨r.items.set n x, r.places.put (.int n) n⟩

def inserted (r : Row α) (i : Number) (n : Nat) (x : α) : Row α :=
  ⟨spliceAt r.items n [x], shiftAbove i 1 (r.places.put i ((n : Int) - 1))⟩

theorem set_eq (r : Row α) (i : Number) (x : α) :
    r.set (some i) x = (do
      checkBounds "list" r.items.length i
      if r.places.contains i then
        let m ← i.round
        if (m + 1).toNat < r.items.length then return r.replaced (m + 1).toNat x
        else .error (.breakdown .position)
      else
        let n ← i.insertionPoint
        return r.inserted i n x) := rfl

theorem set_cases (assigned : r.set (some i) x = .ok r') :
    checkBounds "list" r.items.length i = .ok () ∧
      (r.places.contains i = true ∧ (∃ m, i.round = .ok m ∧ (m + 1).toNat < r.items.length ∧
          r' = r.replaced (m + 1).toNat x) ∨
        r.places.contains i = false ∧ ∃ n, i.insertionPoint = .ok n ∧ r' = r.inserted i n x) := by
  rw [set_eq] at assigned
  obtain ⟨_, bounded, assigned⟩ := bind_eq_ok_iff.mp assigned
  refine ⟨bounded, ?_⟩
  split at assigned
  · rename_i known
    obtain ⟨m, rounded, assigned⟩ := bind_eq_ok_iff.mp assigned
    split at assigned
    · rename_i inside
      cases assigned
      exact Or.inl ⟨known, m, rounded, inside, rfl⟩
    · cases assigned
  · rename_i unknown
    obtain ⟨n, point, assigned⟩ := bind_eq_ok_iff.mp assigned
    cases assigned
    exact Or.inr ⟨Bool.eq_false_iff.mpr unknown, n, point, rfl⟩

/-! ## Places after an assignment -/

theorem get?_replaced (r : Row α) (n : Nat) (x : α) (j : Number) :
    (r.replaced n x).places.get? j =
      if int n == j then some (n : Int) else r.places.get? j :=
  Ledger.get?_put r.places (.int n) j n

theorem get?_inserted (extent : i.extent? = some e) (r : Row α) (n : Nat) (x : α) (j : Number) :
    (r.inserted i n x).places.get? j =
      (if i == j then some ((n : Int) - 1) else r.places.get? j).map
        fun p => if i.scalarLt j then p + 1 else p := by
  rw [← Ledger.get?_put]
  apply Ledger.get?_mapWithKey
  intro k same
  rw [scalarLt_congr extent same]

theorem low_ofList (items : List α) : (ofList items).Low := by
  intro j p place
  obtain ⟨k, member, -⟩ := Ledger.exists_mem_of_get? place
  obtain ⟨m, -, entry⟩ := mem_map.mp member
  cases entry
  omega

theorem Low.replaced (low : r.Low) (n : Nat) (x : α) : (r.replaced n x).Low := by
  intro j p place
  rw [get?_replaced] at place
  split at place
  · cases place
    omega
  · exact low j p place

theorem Low.inserted (extent : i.extent? = some e) (low : r.Low) (n : Nat) (x : α) :
    (r.inserted i n x).Low := by
  intro j p place
  rw [get?_inserted extent, Option.map_eq_some_iff] at place
  obtain ⟨p', place', rfl⟩ := place
  have least : -1 ≤ p' := by
    split at place'
    · cases place'
      omega
    · exact low j p' place'
  split <;> omega

theorem Low.set {i : Option Number} (low : r.Low) (assigned : r.set i x = .ok r') : r'.Low := by
  cases i with
  | none => cases assigned
  | some i =>
    obtain ⟨bounded, cases⟩ := set_cases assigned
    obtain ⟨q, extent, -⟩ := checkBounds_iff.mp bounded
    rcases cases with ⟨-, m, -, -, rfl⟩ | ⟨-, n, -, rfl⟩
    · exact low.replaced _ x
    · exact low.inserted extent n x

theorem Reachable.low (reachable : Reachable r) : r.Low := by
  induction reachable with
  | fresh items => exact low_ofList items
  | assigned _ assigned ih => exact ih.set assigned

/-! ## Positions after a replacement -/

theorem stands_replaced (other : (int n == j) = false) : (r.replaced n x).Stands j q ↔ r.Stands j q := by
  rw [stands_iff, stands_iff, get?_replaced, other, if_neg Bool.false_ne_true, Row.replaced, length_set]

theorem Stands.replaced_next (stands : r.Stands j (n + 1)) (next : (int n == j) = true) :
    (r.replaced n x).Stands j (n + 1) := by
  rw [stands_iff, get?_replaced, if_pos next, Row.replaced, length_set, Int.natCast_add, Int.natCast_one,
    Int.add_sub_cancel]
  exact ⟨stands.bounded, rfl, stands.inside⟩

theorem Stands.eq_of_next (stands : (r.replaced n x).Stands j q)
    (next : (int n == j) = true) : q = n + 1 := by
  have place := stands.place
  rw [get?_replaced, if_pos next] at place
  injection place with place
  omega

theorem next_ne (rounded : i.round = .ok m) : (int (m + 1).toNat == i) = false := by
  rw [Bool.eq_false_iff]
  intro same
  have extent : i.extent? = some (.finite ((m + 1).toNat : Int)) :=
    (beq_iff_extent? rfl).mp same
  have whole := round_of_extent? extent
  rw [rounded] at whole
  injection whole with whole
  omega

theorem Replaces.lawful (low : r.Low) (apart : (int n == i) = false)
    (replaces : r.Replaces i n) : Lawful r i x (r.replaced n x) := by
  have low' : (r.replaced n x).Low := low.replaced n x
  constructor
  · refine (get_eq_ok_iff low').mpr ⟨n, (stands_replaced apart).mpr replaces.own, ?_⟩
    exact getElem?_set_self replaces.own.inside
  · intro j w other read
    obtain ⟨q, stands, value⟩ := (get_eq_ok_iff low).mp read
    cases next : int n == j with
    | true =>
      have position : q = n + 1 := replaces.next j q stands (BEq.symm next)
      rw [position] at stands value
      refine (get_eq_ok_iff low').mpr ⟨n + 1, stands.replaced_next next, ?_⟩
      rw [Row.replaced, getElem?_set_ne (Nat.ne_of_lt (Nat.lt_succ_self n)), value]
    | false =>
      have distinct : q ≠ n := replaces.others j q stands other (by rw [BEq.comm, next])
      refine (get_eq_ok_iff low').mpr ⟨q, (stands_replaced next).mpr stands, ?_⟩
      rw [Row.replaced, getElem?_set_ne distinct.symm, value]

theorem Lawful.replaces (low : r.Low) (distinct : r.items.Nodup) (fresh : x ∉ r.items)
    (apart : (int n == i) = false) (lawful : Lawful r i x (r.replaced n x)) : r.Replaces i n := by
  have low' : (r.replaced n x).Low := low.replaced n x
  refine ⟨?own, ?next, ?others⟩
  case own =>
    obtain ⟨q, stands, value⟩ := (get_eq_ok_iff low').mp lawful.written
    have position : n = q := by
      by_contra other
      rw [Row.replaced, getElem?_set_ne other] at value
      exact fresh (mem_of_getElem? value)
    rw [position]
    exact (stands_replaced (position ▸ apart)).mp stands
  case next =>
    intro j q stands same
    have next : (int n == j) = true := BEq.symm same
    have other : (j == i) = false := by
      rwa [← BEq.congr_left next]
    obtain ⟨w, value, read⟩ := stands.get_eq low
    obtain ⟨q', stands', value'⟩ := (get_eq_ok_iff low').mp (lawful.kept j w other read)
    rw [stands'.eq_of_next next, Row.replaced,
      getElem?_set_ne (Nat.ne_of_lt (Nat.lt_succ_self n))] at value'
    exact (getElem?_inj stands.inside distinct).mp (value.trans value'.symm)
  case others =>
    intro j q stands other notNext position
    have next : (int n == j) = false := by rw [BEq.comm, notNext]
    obtain ⟨w, value, read⟩ := stands.get_eq low
    obtain ⟨q', stands', value'⟩ := (get_eq_ok_iff low').mp (lawful.kept j w other read)
    have same : q' = n := ((stands_replaced next).mp stands').unique (position ▸ stands)
    rw [same, Row.replaced, getElem?_set_self (position ▸ stands.inside)] at value'
    rw [← value'] at value
    exact fresh (mem_of_getElem? value)

/-! ## Positions after an insertion -/

theorem length_spliceAt (xs : List α) (n : Nat) (x : α) :
    (spliceAt xs n [x]).length = xs.length + 1 := by
  unfold spliceAt
  simp only [length_append, length_take, length_drop, length_singleton]
  omega

section Insertion

variable (extent : i.extent? = some e)

include extent

theorem stands_inserted (bounded : checkBounds "list" r.items.length i = .ok ())
    (inside : n ≤ r.items.length) : (r.inserted i n x).Stands i n := by
  have self : (i == i) = true := (beq_iff_extent? extent).mpr extent
  rw [stands_iff, get?_inserted extent, if_pos self, Option.map_some, scalarLt_self extent self,
    if_neg Bool.false_ne_true, inserted, length_spliceAt]
  exact ⟨checkBounds_succ bounded, rfl, Nat.lt_succ_of_le inside⟩

theorem Stands.inserted (stands : r.Stands j q) (other : (i == j) = false) :
    (r.inserted i n x).Stands j (if i.scalarLt j then q + 1 else q) := by
  rw [stands_iff, get?_inserted extent, other, if_neg Bool.false_ne_true, stands.place, Option.map_some,
    Row.inserted, length_spliceAt]
  have inside := stands.inside
  refine ⟨checkBounds_succ stands.bounded, congrArg some ?_, ?_⟩
  all_goals split <;> omega

theorem Stands.inserted_above (stands : r.Stands j q) (above : i.scalarLt j = true) :
    (r.inserted i n x).Stands j (q + 1) := by
  have moved : (r.inserted i n x).Stands j (if i.scalarLt j then q + 1 else q) :=
    stands.inserted extent (ne_of_scalarLt extent above)
  rwa [if_pos above] at moved

theorem Stands.inserted_below (stands : r.Stands j q) (below : j.scalarLt i = true) :
    (r.inserted i n x).Stands j q := by
  obtain ⟨p, extent', -⟩ := checkBounds_iff.mp stands.bounded
  have other : (i == j) = false := by
    rw [BEq.comm]
    exact ne_of_scalarLt extent' below
  have moved : (r.inserted i n x).Stands j (if i.scalarLt j then q + 1 else q) :=
    stands.inserted extent other
  rwa [scalarLt_asymm extent extent' below, if_neg Bool.false_ne_true] at moved

end Insertion

theorem Parts.lawful (low : r.Low) (bounded : checkBounds "list" r.items.length i = .ok ())
    (parts : r.Parts i n) : Lawful r i x (r.inserted i n x) := by
  obtain ⟨p, extent, -⟩ := checkBounds_iff.mp bounded
  have low' : (r.inserted i n x).Low := low.inserted extent n x
  constructor
  · refine (get_eq_ok_iff low').mpr ⟨n, stands_inserted extent bounded parts.inside, ?_⟩
    exact getElem?_splice_add (n := 0) parts.inside Nat.zero_lt_one
  · intro j w other read
    obtain ⟨q, stands, value⟩ := (get_eq_ok_iff low).mp read
    obtain ⟨p', extent', -⟩ := checkBounds_iff.mp stands.bounded
    cases above : i.scalarLt j with
    | true =>
      obtain ⟨k, rfl⟩ := Nat.exists_eq_add_of_le (parts.above j q stands above)
      refine (get_eq_ok_iff low').mpr ⟨n + k + 1, stands.inserted_above extent above, ?_⟩
      rw [← value, Nat.add_right_comm]
      exact getElem?_splice_behind parts.inside k
    | false =>
      have below := scalarLt_of_ne extent extent' other above
      refine (get_eq_ok_iff low').mpr ⟨q, stands.inserted_below extent below, ?_⟩
      exact (getElem?_splice_of_lt parts.inside (parts.below j q stands below)).trans value

theorem Lawful.inside (low : r.Low) (bounded : checkBounds "list" r.items.length i = .ok ())
    (lawful : Lawful r i x (r.inserted i n x)) : n ≤ r.items.length := by
  obtain ⟨p, extent, -⟩ := checkBounds_iff.mp bounded
  obtain ⟨q, ⟨-, place, inside⟩, -⟩ :=
    (get_eq_ok_iff (low.inserted extent n x)).mp lawful.written
  have self : (i == i) = true := (beq_iff_extent? extent).mpr extent
  rw [get?_inserted extent, if_pos self, Option.map_some, scalarLt_self extent self,
    if_neg Bool.false_ne_true] at place
  injection place with place
  rw [Row.inserted, length_spliceAt] at inside
  omega

theorem Lawful.parts (low : r.Low) (distinct : r.items.Nodup) (fresh : x ∉ r.items)
    (bounded : checkBounds "list" r.items.length i = .ok ())
    (lawful : Lawful r i x (r.inserted i n x)) : r.Parts i n := by
  obtain ⟨p, extent, -⟩ := checkBounds_iff.mp bounded
  have low' : (r.inserted i n x).Low := low.inserted extent n x
  have inside := lawful.inside low bounded
  have once : (r.items ++ [x]).Nodup := by
    rw [← concat_eq_append]
    exact distinct.concat fresh
  have carried {q k : Nat} {w : α} (value : r.items[q]? = some w)
      (found : (r.inserted i n x).items[k]? = some w) : k < n ∧ k = q ∨ n ≤ q ∧ k = q + 1 := by
    rcases carries_of_getElem?_splice inside once value found with before | ⟨m, rfl, rfl⟩
    · exact .inl before
    · exact .inr ⟨Nat.le_add_right n m, Nat.add_right_comm n 1 m⟩
  refine ⟨inside, ?below, ?above⟩
  case below =>
    intro j q stands below
    obtain ⟨p', extent', -⟩ := checkBounds_iff.mp stands.bounded
    obtain ⟨w, value, read⟩ := stands.get_eq low
    have other := ne_of_scalarLt extent' below
    obtain ⟨q', stands', value'⟩ := (get_eq_ok_iff low').mp (lawful.kept j w other read)
    rw [stands'.unique (stands.inserted_below extent below)] at value'
    have position := carried value value'
    omega
  case above =>
    intro j q stands above
    obtain ⟨w, value, read⟩ := stands.get_eq low
    have other : (j == i) = false := by
      rw [BEq.comm]
      exact ne_of_scalarLt extent above
    obtain ⟨q', stands', value'⟩ := (get_eq_ok_iff low').mp (lawful.kept j w other read)
    rw [stands'.unique (stands.inserted_above extent above)] at value'
    have position := carried value value'
    omega

/-! ## The laws -/

theorem Aligned.lawful (low : r.Low) (assigned : r.set (some i) x = .ok r')
    (aligned : r.Aligned i) : Lawful r i x r' := by
  obtain ⟨bounded, cases⟩ := set_cases assigned
  unfold Aligned at aligned
  rcases cases with ⟨known, m, rounded, -, rfl⟩ | ⟨unknown, n, point, rfl⟩
  · rw [if_pos known] at aligned
    obtain ⟨m', rounded', replaces⟩ := aligned
    rw [rounded] at rounded'
    cases rounded'
    exact replaces.lawful low (next_ne rounded)
  · rw [unknown] at aligned
    obtain ⟨n', point', parts⟩ := aligned
    rw [point] at point'
    cases point'
    exact parts.lawful low bounded

theorem Lawful.aligned (low : r.Low) (assigned : r.set (some i) x = .ok r') (distinct : r.items.Nodup)
    (fresh : x ∉ r.items) (lawful : Lawful r i x r') : r.Aligned i := by
  obtain ⟨bounded, cases⟩ := set_cases assigned
  unfold Aligned
  rcases cases with ⟨known, m, rounded, -, rfl⟩ | ⟨unknown, n, point, rfl⟩
  · rw [if_pos known]
    exact ⟨m, rounded, lawful.replaces low distinct fresh (next_ne rounded)⟩
  · rw [unknown]
    exact ⟨n, point, lawful.parts low distinct fresh bounded⟩

/-! ## Rows without insertions -/

/-- Every index has the place that a fresh row gives it. -/
def Level (r : Row α) : Prop :=
  ∀ (j : Number) (p : Int), r.places.get? j = some p → j.extent? = some (.finite p)

theorem level_ofList (items : List α) : (ofList items).Level := by
  intro j p place
  obtain ⟨k, member, same⟩ := Ledger.exists_mem_of_get? place
  obtain ⟨m, -, entry⟩ := mem_map.mp member
  cases entry
  exact (beq_iff_extent? rfl).mp same

theorem Level.eq_of_stands (level : r.Level) (stands : r.Stands j q) {k : Int}
    (extent : j.extent? = some (.finite k)) : (q : Int) = k + 1 := by
  have whole := level j _ stands.place
  rw [extent] at whole
  injection whole with whole
  injection whole with whole
  have same := Int.cast_injective whole
  omega

/-- As long as nothing was inserted, an index that a row has is written where it is read. -/
theorem Level.aligned (low : r.Low) (level : r.Level) (known : r.places.contains i = true)
    (assigned : r.set (some i) x = .ok r') : Aligned r i := by
  obtain ⟨p, place⟩ := Option.isSome_iff_exists.mp known
  have least := low i p place
  have extent := level i p place
  have rounded := round_of_extent? extent
  have inside : (p + 1).toNat < r.items.length := by
    rcases (set_cases assigned).2 with ⟨-, m, rounded', inside, -⟩ | ⟨unknown, -⟩
    · rw [rounded] at rounded'
      cases rounded'
      exact inside
    · rw [known] at unknown
      cases unknown
  obtain ⟨n, rfl⟩ : ∃ n : Nat, p = (n : Int) - 1 := ⟨(p + 1).toNat, by omega⟩
  rw [Int.sub_add_cancel] at inside
  rw [Aligned, if_pos known]
  refine ⟨_, rounded, ?_⟩
  rw [Int.sub_add_cancel]
  refine ⟨⟨(set_cases assigned).1, place, inside⟩, ?next, ?others⟩
  case next =>
    intro j q stands next
    have whole : j.extent? = some (.finite (n : Int)) :=
      (beq_iff_extent? rfl).mp (BEq.symm next)
    have position := level.eq_of_stands stands whole
    omega
  case others =>
    rintro j q stands other - rfl
    have whole := level j _ stands.place
    rw [(beq_iff_extent? whole).mpr extent] at other
    cases other

/-- An assignment whose position agrees with the places obeys the laws of arrays; and only such a
one does, if the elements of the row and the new one all differ. -/
theorem lawful_iff_aligned (reachable : Reachable r) (assigned : r.set (some i) x = .ok r') :
    (r.Aligned i → Lawful r i x r') ∧
      (r.items.Nodup → x ∉ r.items → Lawful r i x r' → r.Aligned i) :=
  ⟨fun aligned => aligned.lawful reachable.low assigned,
    fun distinct fresh lawful => lawful.aligned reachable.low assigned distinct fresh⟩

/-- A fresh row obeys the laws. After an insertion below it, an index is written at a position that
is no longer its own. -/
theorem insertion_breaks_laws : ∃ r r' r'' : Row Int,
    (ofList [10, 20, 30]).set (some (.int 1)) 99 = .ok r ∧
      Lawful (ofList [10, 20, 30]) (.int 1) 99 r ∧
      (ofList [10, 20, 30]).set (some (.real 0.5)) 25 = .ok r' ∧
      r'.set (some (.int 1)) 99 = .ok r'' ∧ ¬Lawful r' (.int 1) 99 r'' := by
  have fresh : Reachable (ofList [(10 : Int), 20, 30]) := .fresh _
  have inserted : (ofList [(10 : Int), 20, 30]).set (some (.real 0.5)) 25 = .ok
      ⟨[10, 20, 25, 30], ⟨[(.int (-1), -1), (.int 0, 0), (.int 1, 2), (.real 0.5, 1)]⟩⟩ := rfl
  have replaced : (ofList [(10 : Int), 20, 30]).set (some (.int 1)) 99 = .ok
      ⟨[10, 20, 99], ⟨[(.int (-1), -1), (.int 0, 0), (.int 1, 1), (.int 2, 2)]⟩⟩ := rfl
  refine ⟨_, _, _, replaced, ?_, inserted, rfl, ?_⟩
  · exact (lawful_iff_aligned fresh replaced).1
      ((level_ofList [10, 20, 30]).aligned fresh.low (by decide +kernel) replaced)
  · intro lawful
    have aligned :=
      (lawful_iff_aligned (fresh.assigned inserted) rfl).2 (by decide) (by decide) lawful
    rw [Aligned, if_pos (by decide +kernel)] at aligned
    obtain ⟨m, rounded, replaces⟩ := aligned
    cases rounded
    exact absurd replaces.own.place (by decide +kernel)

end DreamBerd.Row
