import DreamBerd.Proofs.ArrayLaws

/-!
# Adding and taking out elements

The integers from -1 on should be the indices of the elements of a list. A new element gets the greatest
index that was ever given and one more, and an element that is taken out leaves the indices as they are.
So the indices given after an element was taken out stand for elements too far in front. They cannot be
read as long as the list is shorter than it was before that: `Row.indexed_iff_shorter`.
-/

namespace DreamBerd

open List

theorem int_beq_int : (Number.int a == Number.int b) = true ↔ a = b :=
  beq_iff_eq (α := Int)

theorem greatestIndex_range {α : Type} (n : Nat) (f : Nat → α) :
    greatestIndex ⟨(List.range (n + 1)).map fun (i : Nat) => (.int ((i : Int) - 1), f i)⟩ =
      .ok (.int ((n : Int) - 1)) := by
  have greatest : ((List.range n).map fun (i : Nat) => Number.int (((i + 1 : Nat) : Int) - 1)).foldl
      (fun m x => if m.scalarLt x then x else m) (.int ((0 : Nat) - 1)) = .int ((n : Int) - 1) := by
    induction n with
    | zero => rfl
    | succ n ih =>
      have less : (Number.int ((n : Int) - 1)).scalarLt (.int (((n + 1 : Nat) : Int) - 1)) = true :=
        decide_eq_true (by omega)
      rw [range_succ, map_append, foldl_append, ih]
      exact if_pos less
  rw [greatestIndex, Ledger.keys, map_map, range_succ_eq_map, map_cons, map_map]
  exact congrArg Except.ok greatest

theorem checkBounds_int {what : String} {length : Nat} {k : Int} :
    checkBounds what length (.int k) = .ok () ↔ -1 ≤ k ∧ k ≤ length - 1 := by
  rw [checkBounds_iff]
  constructor
  · rintro ⟨q, same, bounds⟩
    cases same
    exact_mod_cast bounds
  · intro bounds
    exact ⟨k, rfl, by exact_mod_cast bounds⟩

namespace Row

variable {α : Type} {r r' : Row α} {x : α} {before : Option Nat} {n m : Nat} {p : Nat → Nat} {k : Int}

/-- The rows that come from a list by adding and taking out elements. `before` is the length right before
an element was taken out for the first time. -/
inductive Handled : Option Nat → Row α → Prop
  | fresh (items : List α) : Handled none (ofList items)
  | pushed {before : Option Nat} {r r' : Row α} {x : α} :
    Handled before r → r.push x = .ok r' → Handled before r'
  | popped {before : Option Nat} {r r' : Row α} {at? : Removal} {x : α} :
    Handled before r → r.pop at? = .ok (x, r') → Handled (before <|> some r.items.length) r'

/-- The integers that can be read are those from -1 on, one for each element, and each gives the element
at the position after it. -/
def Indexed (r : Row α) : Prop :=
  ∀ (k : Int) (x : α), r.get (some (.int k)) = .ok x ↔
    -1 ≤ k ∧ k ≤ r.items.length - 2 ∧ r.items[(k + 1).toNat]? = some x

/-- The indices are the first `n` integers from -1 on, and that of number `i` stands for position `p i`. -/
def Stocked (r : Row α) (n : Nat) (p : Nat → Nat) : Prop :=
  r.places.entries = (List.range n).map fun (i : Nat) => (.int ((i : Int) - 1), (p i : Int) - 1)

/-! ## Reading -/

theorem Stocked.get?_eq_some_iff (stocked : r.Stocked n p) {place : Int} :
    r.places.get? (.int k) = some place ↔ ∃ i < n, k = (i : Int) - 1 ∧ place = (p i : Int) - 1 := by
  have only {v : Int} (found : r.places.get? (.int k) = some v) :
      ∃ i < n, k = (i : Int) - 1 ∧ v = (p i : Int) - 1 := by
    obtain ⟨key, member, same⟩ := Ledger.exists_mem_of_get? found
    rw [stocked] at member
    obtain ⟨i, inside, entry⟩ := mem_map.mp member
    cases entry
    exact ⟨i, mem_range.mp inside, (int_beq_int.mp same).symm, rfl⟩
  refine ⟨only, ?_⟩
  rintro ⟨i, inside, rfl, rfl⟩
  have known : r.places.contains (.int ((i : Int) - 1)) = true := by
    refine Ledger.contains_eq_true_iff.mpr ⟨.int ((i : Int) - 1), ?_, int_beq_int.mpr rfl⟩
    rw [Ledger.keys, stocked, map_map]
    exact mem_map.mpr ⟨i, mem_range.mpr inside, rfl⟩
  obtain ⟨v, found⟩ := Option.isSome_iff_exists.mp known
  obtain ⟨j, -, same, rfl⟩ := only found
  obtain rfl : i = j := by omega
  exact found

theorem Stocked.low (stocked : r.Stocked n p) : r.Low := by
  intro j place found
  obtain ⟨key, member, -⟩ := Ledger.exists_mem_of_get? found
  rw [stocked] at member
  obtain ⟨i, -, entry⟩ := mem_map.mp member
  cases entry
  omega

/-- An index is read at the position that it stands for. -/
theorem Stocked.get_int_eq_ok_iff (stocked : r.Stocked n p) :
    r.get (some (.int k)) = .ok x ↔
      ∃ i < n, k = (i : Int) - 1 ∧ i ≤ r.items.length ∧ r.items[p i]? = some x := by
  rw [get_eq_ok_iff stocked.low]
  constructor
  · rintro ⟨q, stands, value⟩
    obtain ⟨i, inside, index, place⟩ := stocked.get?_eq_some_iff.mp stands.place
    obtain ⟨-, upper⟩ := checkBounds_int.mp stands.bounded
    obtain rfl : q = p i := by omega
    exact ⟨i, inside, index, by omega, value⟩
  · rintro ⟨i, inside, rfl, upper, value⟩
    refine ⟨p i, ⟨checkBounds_int.mpr (by omega), ?_, (List.getElem?_eq_some_iff.mp value).1⟩, value⟩
    exact stocked.get?_eq_some_iff.mpr ⟨i, inside, rfl, rfl⟩

/-! ## Adding and taking out -/

theorem stocked_ofList (items : List α) : (ofList items).Stocked items.length id := rfl

theorem push_cases (pushed : r.push x = .ok r') : ∃ greatest key,
    greatestIndex r.places = .ok greatest ∧ greatest.add (.int 1) = .ok key ∧
      r' = ⟨r.items ++ [x], r.places.put key ((r.items.length : Int) - 1)⟩ := by
  obtain ⟨greatest, found, pushed⟩ := bind_eq_ok_iff.mp pushed
  obtain ⟨key, added, pushed⟩ := bind_eq_ok_iff.mp pushed
  cases pushed
  exact ⟨greatest, key, found, added, rfl⟩

theorem pop_cases {at? : Removal} (popped : r.pop at? = .ok (x, r')) :
    r'.items.length + 1 = r.items.length ∧ r'.places = r.places := by
  cases at? with
  | last =>
    rw [Row.pop] at popped
    split at popped
    · rename_i last
      cases popped
      have some := length_pos_of_mem (mem_of_getLast? last)
      rw [length_dropLast]
      exact ⟨by omega, rfl⟩
    · cases popped
  | index i =>
    obtain ⟨n, -, popped⟩ := bind_eq_ok_iff.mp popped
    split at popped
    · rename_i found
      cases popped
      have inside := (List.getElem?_eq_some_iff.mp found).1
      rw [length_eraseIdx_of_lt inside]
      exact ⟨by omega, rfl⟩
    · cases popped

/-- A new element gets the next index, and this one stands for the end of the row. -/
theorem Stocked.push (stocked : r.Stocked n p) (pushed : r.push x = .ok r') :
    r'.items.length = r.items.length + 1 ∧ r'.Stocked (n + 1) (Function.update p n r.items.length) := by
  obtain ⟨greatest, key, found, added, rfl⟩ := push_cases pushed
  have key_eq : key = .int ((n : Int) - 1) := by
    rw [show r.places = ⟨_⟩ from congrArg Ledger.mk stocked] at found
    cases n with
    | zero => cases found
    | succ n =>
      rw [greatestIndex_range] at found
      cases found
      cases added
      exact congrArg Number.int (by dsimp only; omega)
  have new : r.places.get? key = none := by
    rw [Option.eq_none_iff_forall_ne_some, key_eq]
    intro place found
    obtain ⟨i, inside, index, -⟩ := stocked.get?_eq_some_iff.mp found
    omega
  have same : ∀ i ∈ List.range n, (Number.int ((i : Int) - 1), (p i : Int) - 1) =
      (.int ((i : Int) - 1), (Function.update p n r.items.length i : Int) - 1) := by
    intro i inside
    rw [Function.update_of_ne (mem_range.mp inside).ne]
  refine ⟨length_append, ?_⟩
  rw [Stocked, Ledger.entries_put_of_get?_eq_none new, stocked, range_succ, map_append,
    map_congr_left same, map_singleton, Function.update_self, key_eq]

/-! ## The course of a row -/

/-- What is known about the indices of a row, `before` being the length before the first element was taken
out: the indices below it stand for their own positions, and the later ones for positions in front. -/
inductive Tracks : Option Nat → Row α → Prop
  | whole {r : Row α} {p : Nat → Nat} (stocked : r.Stocked r.items.length p)
    (own : ∀ i < r.items.length, p i = i) : Tracks none r
  | shortened {m n : Nat} {r : Row α} {p : Nat → Nat} (stocked : r.Stocked n p)
    (more : r.items.length < n) (first : m ≤ n) (own : ∀ i < m, p i = i)
    (front : ∀ i < n, m ≤ i → p i < i) : Tracks (some m) r

theorem Tracks.push (tracks : Tracks before r) (pushed : r.push x = .ok r') : Tracks before r' := by
  cases tracks with
  | whole stocked own =>
    obtain ⟨length, stocked⟩ := stocked.push pushed
    rw [← length] at stocked
    refine .whole stocked fun i inside => ?_
    rcases Nat.lt_succ_iff_lt_or_eq.mp (length ▸ inside) with earlier | rfl
    · rw [Function.update_of_ne earlier.ne]
      exact own i earlier
    · exact Function.update_self ..
  | shortened stocked more first own front =>
    obtain ⟨length, stocked⟩ := stocked.push pushed
    refine .shortened stocked (by omega) (by omega) (fun i inside => ?_) fun i inside later => ?_
    · rw [Function.update_of_ne (by omega)]
      exact own i inside
    · rcases Nat.lt_succ_iff_lt_or_eq.mp inside with earlier | rfl
      · rw [Function.update_of_ne earlier.ne]
        exact front i earlier later
      · rwa [Function.update_self]

theorem Tracks.pop {at? : Removal} (tracks : Tracks before r) (popped : r.pop at? = .ok (x, r')) :
    Tracks (before <|> some r.items.length) r' := by
  obtain ⟨length, places⟩ := pop_cases popped
  cases tracks with
  | whole stocked own =>
    have same : r'.Stocked r.items.length _ := (congrArg Ledger.entries places).trans stocked
    exact .shortened same (by omega) le_rfl own fun i inside later => absurd later (by omega)
  | shortened stocked more first own front =>
    have same : r'.Stocked _ _ := (congrArg Ledger.entries places).trans stocked
    exact .shortened same (by omega) first own front

theorem Handled.tracks (handled : Handled before r) : Tracks before r := by
  induction handled with
  | fresh items => exact .whole (stocked_ofList items) fun _ _ => rfl
  | pushed _ pushed ih => exact ih.push pushed
  | popped _ popped ih => exact ih.pop popped

theorem Stocked.indexed (stocked : r.Stocked n p) (enough : r.items.length ≤ n)
    (own : ∀ i ≤ r.items.length, i < n → p i = i) : r.Indexed := by
  intro k x
  rw [stocked.get_int_eq_ok_iff]
  constructor
  · rintro ⟨i, inside, rfl, upper, value⟩
    rw [own i upper inside] at value
    have bound := (List.getElem?_eq_some_iff.mp value).1
    rw [Int.sub_add_cancel]
    exact ⟨by omega, by omega, value⟩
  · rintro ⟨least, most, value⟩
    refine ⟨(k + 1).toNat, by omega, by omega, by omega, ?_⟩
    rw [own _ (by omega) (by omega), value]

/-- After elements have been added and taken out, the integers from -1 on are the indices of the elements
if nothing was taken out, or if the list is shorter than it was before that, and in no other case. -/
theorem indexed_iff_shorter (handled : Handled before r) :
    r.Indexed ↔ ∀ length, before = some length → r.items.length < length := by
  cases handled.tracks with
  | whole stocked own =>
    exact iff_of_true (stocked.indexed le_rfl fun i _ => own i) (by rintro _ ⟨⟩)
  | shortened stocked more first own front =>
    constructor
    · rintro indexed _ ⟨⟩
      by_contra long
      -- The index behind the last one can be read: it stands for an element in front.
      have inside := front r.items.length more (by omega)
      have read := (stocked.get_int_eq_ok_iff (k := r.items.length - 1)).mpr
        ⟨r.items.length, more, rfl, le_rfl, getElem?_eq_getElem inside⟩
      have bounds := (indexed _ _).mp read
      omega
    · intro shorter
      have short := shorter _ rfl
      exact stocked.indexed (by omega) fun i upper _ => own i (by omega)

/-- The first element is taken out of a list, so that the other one has index -1 alone. Another element is
added: now index 1 can be read as well, and gives the last element, which has index 0 already. -/
theorem pop_then_push_not_indexed : ∃ r r' : Row Int,
    (ofList [10, 20]).pop (.index (some (.int (-1)))) = .ok (10, r) ∧ r.Indexed ∧
      r.push 30 = .ok r' ∧ r'.get (some (.int 1)) = .ok 30 ∧ ¬r'.Indexed := by
  have popped : (ofList [(10 : Int), 20]).pop (.index (some (.int (-1)))) = .ok
      (10, ⟨[20], ⟨[(.int (-1), -1), (.int 0, 0)]⟩⟩) := rfl
  have handled := (Handled.fresh [(10 : Int), 20]).popped popped
  refine ⟨_, _, popped, (indexed_iff_shorter handled).mpr ?_, rfl, rfl, ?_⟩
  · rintro _ ⟨⟩
    decide
  · intro indexed
    exact absurd ((indexed_iff_shorter (handled.pushed rfl)).mp indexed _ rfl) (by decide)

end Row

end DreamBerd
