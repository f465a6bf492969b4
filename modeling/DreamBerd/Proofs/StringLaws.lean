import DreamBerd.CharRow
import DreamBerd.Proofs.Indices

/-!
# The laws of arrays for strings

After an assignment the index that was assigned should give the new text, and every other index what it
gave before. An assignment makes a stretch of the characters give way to the text (`Edit.start` and
`Edit.stop`), which carries the characters behind it elsewhere, and shifts the places of the greater
indices. `CharRow.lawful_iff_carried` says that the laws hold where both come to the same, and only there.
An index that had a text gets all characters of the new one but the last behind its first character, not
all but the first, and no place is shifted by the length of the new text: `replacement_not_lawful`.
-/

namespace DreamBerd.CharRow

open List

variable {r r' : CharRow} {i j : Number} {v text further : List Char} {p : Int} {q n : Nat}
  {x : Number.Extent}

/-- The strings that assignments make out of fresh ones. -/
inductive Reachable : CharRow → Prop
  | fresh (chars : List Char) : Reachable (ofList chars)
  | assigned {r r' : CharRow} {i : Number} {v : List Char} :
    Reachable r → v ≠ [] → r.set i v = .ok r' → Reachable r'

/-- The laws of arrays for an assignment of `v` to the index `i` that turned `r` into `r'`. -/
structure Lawful (r : CharRow) (i : Number) (v : List Char) (r' : CharRow) : Prop where
  written : r'.get (some i) = .ok v
  kept : ∀ (j : Number) (text : List Char), (j == i) = false → r.get (some j) = .ok text →
    r'.get (some j) = .ok text

/-- The position of a place among `n` characters. Places in front of the first one count from the end. -/
def positionOf? (n : Nat) (p : Int) : Option Nat :=
  if 0 ≤ p + 1 then some (p + 1).toNat
  else if -(n : Int) ≤ p + 1 then some (p + 1 + n).toNat
  else none

/-- The index `j` can be read: it gives the character at position `q` with further ones behind it. -/
structure Stands (r : CharRow) (j : Number) (q : Nat) (further : List Char) : Prop where
  bounded : checkBounds "string" r.chars.length j = .ok ()
  place : ∃ p, r.places.get? j = some (p, further) ∧ positionOf? r.chars.length p = some q
  inside : q < r.chars.length

theorem get_eq_ok_iff : r.get (some j) = .ok text ↔
    ∃ q further c, r.Stands j q further ∧ r.chars[q]? = some c ∧ text = c :: further := by
  have character (p : Int) : atPosition? r.chars (p + 1) =
      (positionOf? r.chars.length p).bind fun q => r.chars[q]? := by
    unfold atPosition? positionOf?
    split <;> [rfl; split <;> rfl]
  constructor
  · intro read
    obtain ⟨_, bounded, read⟩ := bind_eq_ok_iff.mp read
    split at read
    · cases read
    · rename_i p further place
      rw [character] at read
      split at read
      · rename_i c found
        obtain ⟨q, position, value⟩ := Option.bind_eq_some_iff.mp found
        cases read
        exact ⟨q, further, c,
          ⟨bounded, ⟨p, place, position⟩, (List.getElem?_eq_some_iff.mp value).1⟩, value, rfl⟩
      · cases read
  · rintro ⟨q, further, c, ⟨bounded, ⟨p, place, position⟩, -⟩, value, rfl⟩
    refine bind_eq_ok_iff.mpr ⟨(), bounded, ?_⟩
    simp only [place, character, position, Option.bind_some, value]
    rfl

/-! ## Edits -/

/-- What an assignment does: the characters from `start` up to `stop` give way to the text, the index gets
a place and further characters, and the places of the indices above it are shifted. -/
structure Edit where
  start : Nat
  stop : Nat
  place : Int
  further : List Char
  shift : Int

/-- The edit of an index that has a text. -/
def replacement (r : CharRow) (p : Int) (further v : List Char) : Edit where
  start := cutPosition r.chars.length (p + 1)
  stop := cutPosition r.chars.length (p + 1 + further.length + 1)
  place := p
  further := if v.length > 1 then v.dropLast else []
  shift := -further.length

/-- The edit of an index that has none. -/
def insertion (r : CharRow) (n : Nat) (v : List Char) : Edit where
  start := min n r.chars.length
  stop := min n r.chars.length
  place := (n : Int) - 1
  further := v.drop 1
  shift := v.length

namespace Edit

variable {e : Edit}

/-- The string after an edit. -/
def apply (e : Edit) (r : CharRow) (i : Number) (v : List Char) : CharRow :=
  ⟨splice r.chars e.start e.stop v, shiftAbove i e.shift (r.places.put i (e.place, e.further))⟩

/-- The places of the indices after an edit are those of the characters that they should give. -/
structure Aligned (e : Edit) (r : CharRow) (i : Number) (v : List Char) : Prop where
  own : (e.apply r i v).Stands i e.start (v.drop 1)
  others : ∀ j q further, (j == i) = false → r.Stands j q further →
    ∃ q', (e.apply r i v).Stands j q' further ∧ Carries e.start e.stop v.length q q'

theorem get?_apply (extent : i.extent? = some x) (e : Edit) (r : CharRow) (j : Number) :
    (e.apply r i v).places.get? j =
      (if i == j then some (e.place, e.further) else r.places.get? j).map
        fun p => if i.scalarLt j then (p.1 + e.shift, p.2) else p := by
  rw [← Ledger.get?_put]
  apply Ledger.get?_mapWithKey
  intro k same
  rw [Number.scalarLt_congr extent same]

/-- The further characters of the index that is assigned are those that the edit gives it. -/
theorem further_eq_of_stands (extent : i.extent? = some x)
    (stands : (e.apply r i v).Stands i q further) : further = e.further := by
  obtain ⟨p, place, -⟩ := stands.place
  have self : (i == i) = true := (Number.beq_iff_extent? extent).mpr extent
  rw [get?_apply extent, if_pos self, Number.scalarLt_self extent self] at place
  cases place
  rfl

/-! ## The laws -/

theorem Aligned.lawful (some : v ≠ []) (start : e.start ≤ r.chars.length) (aligned : e.Aligned r i v) :
    Lawful r i v (e.apply r i v) := by
  constructor
  · obtain ⟨c, rest, rfl⟩ := exists_cons_of_ne_nil some
    refine get_eq_ok_iff.mpr ⟨e.start, rest, c, aligned.own, ?_, rfl⟩
    exact getElem?_splice_add (n := 0) start Nat.succ_pos'
  · intro j text other read
    obtain ⟨q, further, c, stands, value, rfl⟩ := get_eq_ok_iff.mp read
    obtain ⟨q', stands', carries⟩ := aligned.others j q further other stands
    exact get_eq_ok_iff.mpr ⟨q', further, c, stands', (carries.getElem?_splice start).trans value, rfl⟩

theorem aligned_of_lawful (distinct : (r.chars ++ v).Nodup) (start : e.start ≤ r.chars.length)
    (lawful : Lawful r i v (e.apply r i v)) : e.Aligned r i v := by
  constructor
  · obtain ⟨q, further, c, stands, value, rfl⟩ := get_eq_ok_iff.mp lawful.written
    obtain rfl : q = e.start := eq_add_of_getElem?_splice (q := 0) start distinct rfl value
    exact stands
  · intro j q further other stands
    have value := getElem?_eq_getElem stands.inside
    have read := get_eq_ok_iff.mpr ⟨q, further, _, stands, value, rfl⟩
    obtain ⟨q', further', c', stands', value', same⟩ := get_eq_ok_iff.mp (lawful.kept j _ other read)
    cases same
    exact ⟨q', stands', carries_of_getElem?_splice start distinct value value'⟩

end Edit

inductive Makes (r : CharRow) (i : Number) (v : List Char) : Edit → Prop
  | replaces {p : Int} {further : List Char} : r.places.get? i = some (p, further) →
    Makes r i v (r.replacement p further v)
  | inserts {n : Nat} : r.places.get? i = none → checkBounds "string" r.chars.length i = .ok () →
    i.insertionPoint = .ok n → Makes r i v (r.insertion n v)

theorem Makes.start_le {e : Edit} (makes : Makes r i v e) : e.start ≤ r.chars.length := by
  cases makes with
  | replaces _ =>
    show cutPosition _ _ ≤ _
    unfold cutPosition
    split <;> omega
  | inserts _ _ _ => exact Nat.min_le_right ..

theorem set_cases (assigned : r.set i v = .ok r') : ∃ e, Makes r i v e ∧ r' = e.apply r i v := by
  unfold set at assigned
  split at assigned
  · rename_i p place
    cases assigned
    exact ⟨_, .replaces place, rfl⟩
  · rename_i unknown
    obtain ⟨_, bounded, assigned⟩ := bind_eq_ok_iff.mp assigned
    obtain ⟨n, point, assigned⟩ := bind_eq_ok_iff.mp assigned
    cases assigned
    have same : spliceAt r.chars n v = splice r.chars (min n r.chars.length) (min n r.chars.length) v := by
      rcases Nat.le_total n r.chars.length with inside | outside
      · rw [Nat.min_eq_left inside]
        rfl
      · rw [Nat.min_eq_right outside, splice, spliceAt, take_of_length_le outside,
          drop_of_length_le outside, take_length, drop_length]
    rw [same]
    exact ⟨_, .inserts unknown bounded point, rfl⟩

def Numbered (r : CharRow) : Prop := ∀ k ∈ r.places.keys, ∃ x, k.extent? = some x

theorem Makes.extent {e : Edit} (numbered : r.Numbered) (makes : Makes r i v e) :
    ∃ x, i.extent? = some x := by
  cases makes with
  | replaces place =>
    obtain ⟨k, member, same⟩ := Ledger.exists_mem_of_get? place
    obtain ⟨x, extent⟩ := numbered k (mem_map.mpr ⟨_, member, rfl⟩)
    exact ⟨x, (Number.beq_iff_extent? extent).mp same⟩
  | inserts _ bounded _ =>
    obtain ⟨y, extent, -⟩ := checkBounds_iff.mp bounded
    exact ⟨_, extent⟩

theorem Reachable.numbered (reachable : Reachable r) : r.Numbered := by
  induction reachable with
  | fresh chars =>
    intro k member
    obtain ⟨entry, among, rfl⟩ := mem_map.mp member
    obtain ⟨m, -, rfl⟩ := mem_map.mp among
    exact ⟨_, rfl⟩
  | assigned _ _ assigned ih =>
    obtain ⟨e, makes, rfl⟩ := set_cases assigned
    intro k member
    rw [Edit.apply, shiftAbove, Ledger.keys, Ledger.mapWithKey, map_map] at member
    rcases Ledger.mem_keys_put member with rfl | old
    · exact makes.extent ih
    · exact ih k old

/-- An index that has a text does not get a longer one if its characters differ. -/
theorem replacement_not_lawful (numbered : r.Numbered) (known : r.places.contains i = true)
    (long : 1 < v.length) (distinct : v.Nodup) (assigned : r.set i v = .ok r') : ¬Lawful r i v r' := by
  intro lawful
  obtain ⟨e, makes, rfl⟩ := set_cases assigned
  obtain ⟨x, extent⟩ := makes.extent numbered
  obtain ⟨q, further, c, stands, -, rfl⟩ := get_eq_ok_iff.mp lawful.written
  have same := Edit.further_eq_of_stands extent stands
  cases makes with
  | replaces place =>
    cases further with
    | nil => cases Nat.lt_irrefl 1 long
    | cons d further =>
      obtain rfl : d = c := (List.cons.inj same).1
      exact (nodup_cons.mp distinct).1 mem_cons_self
  | inserts unknown _ _ =>
    rw [Ledger.contains, unknown] at known
    cases known

/-! ## Strings with one character for each index -/

/-- Every index has the place that a fresh string gives it, and no further characters. -/
def Level (r : CharRow) : Prop :=
  ∀ (j : Number) (p : Int) (further : List Char), r.places.get? j = some (p, further) →
    further = [] ∧ j.extent? = some (.finite p) ∧ 0 ≤ p + 1 ∧ p + 1 < r.chars.length

theorem level_ofList (chars : List Char) : (ofList chars).Level := by
  intro j p further place
  obtain ⟨k, member, same⟩ := Ledger.exists_mem_of_get? place
  obtain ⟨m, inside, entry⟩ := mem_map.mp member
  cases entry
  have bound := mem_range.mp inside
  have inside : (m : Int) - 1 + 1 < chars.length := by omega
  exact ⟨rfl, (Number.beq_iff_extent? rfl).mp same, by omega, inside⟩

theorem Level.stands_iff (level : r.Level) :
    r.Stands j q further ↔ r.places.get? j = some ((q : Int) - 1, []) ∧ further = [] := by
  constructor
  · rintro ⟨-, ⟨p, place, position⟩, -⟩
    obtain ⟨rfl, -, least, -⟩ := level j p further place
    rw [positionOf?, if_pos least] at position
    injection position with position
    obtain rfl : p = (q : Int) - 1 := by omega
    exact ⟨place, rfl⟩
  · rintro ⟨place, rfl⟩
    obtain ⟨-, extent, least, most⟩ := level j _ _ place
    have inside : q < r.chars.length := by omega
    refine ⟨checkBounds_iff.mpr ⟨_, extent, ?_⟩, ⟨_, place, ?_⟩, inside⟩
    · have upper : (q : ℚ) + 1 ≤ r.chars.length := by exact_mod_cast inside
      push_cast
      constructor <;> linarith [(Nat.cast_nonneg q : (0 : ℚ) ≤ q)]
    · rw [positionOf?, if_pos least, Int.sub_add_cancel, Int.toNat_natCast]

/-- In such a string a single character is written where it is read, and nothing else changes. -/
theorem Level.aligned (level : r.Level) (place : r.places.get? i = some (p, further)) (c : Char) :
    (r.replacement p further [c]).Aligned r i [c] ∧
      ((r.replacement p further [c]).apply r i [c]).Level := by
  obtain ⟨rfl, extent, least, most⟩ := level i p further place
  obtain ⟨a, rfl⟩ : ∃ a : Nat, p = (a : Int) - 1 := ⟨(p + 1).toNat, by omega⟩
  have edit : r.replacement ((a : Int) - 1) [] [c] = ⟨a, a + 1, (a : Int) - 1, [], 0⟩ := by
    simp only [replacement, cutPosition, length_nil]
    rw [if_neg (by omega), if_neg (by omega)]
    congr 1 <;> omega
  rw [edit]
  have places (j : Number) : (Edit.apply ⟨a, a + 1, (a : Int) - 1, [], 0⟩ r i [c]).places.get? j =
      r.places.get? j := by
    have own : (if i == j then some ((a : Int) - 1, []) else r.places.get? j) = r.places.get? j := by
      split
      · rename_i same
        rw [← place, Ledger.get?_congr same]
      · rfl
    rw [Edit.get?_apply extent, own]
    simp
  have level' : (Edit.apply ⟨a, a + 1, (a : Int) - 1, [], 0⟩ r i [c]).Level := by
    intro j p further found
    have length : (splice r.chars a (a + 1) [c]).length = r.chars.length := by
      simp only [splice, length_append, length_take, length_drop, length_singleton]
      omega
    rw [places] at found
    rw [Edit.apply, length]
    exact level j p further found
  refine ⟨⟨level'.stands_iff.mpr ⟨(places i).trans place, rfl⟩, ?_⟩, level'⟩
  intro j q further other stands
  obtain ⟨found, rfl⟩ := level.stands_iff.mp stands
  refine ⟨q, level'.stands_iff.mpr ⟨(places j).trans found, rfl⟩, ?_⟩
  rcases Nat.lt_trichotomy q a with before | rfl | behind
  · exact .inl ⟨before, rfl⟩
  · rw [(Number.beq_iff_extent? (level j _ _ found).2.1).mpr extent] at other
    cases other
  · obtain ⟨k, rfl⟩ := Nat.exists_eq_add_of_lt behind
    exact .inr ⟨k, Nat.add_right_comm a k 1, Nat.add_right_comm a k 1⟩

/-- The laws hold for an assignment if the places that it leaves are those to which the characters have
been carried, and only then if all characters differ. They do not hold if the index had a text and
gets a longer one of different characters. -/
theorem lawful_iff_carried (reachable : Reachable r) (some : v ≠ []) (assigned : r.set i v = .ok r') :
    ∃ e, Makes r i v e ∧ r' = e.apply r i v ∧ (e.Aligned r i v → Lawful r i v r') ∧
      ((r.chars ++ v).Nodup → Lawful r i v r' → e.Aligned r i v) ∧
      (r.places.contains i = true → 1 < v.length → v.Nodup → ¬Lawful r i v r') := by
  obtain ⟨e, makes, rfl⟩ := set_cases assigned
  refine ⟨e, makes, rfl, fun aligned => aligned.lawful some makes.start_le, ?_, ?_⟩
  · exact fun distinct lawful => Edit.aligned_of_lawful distinct makes.start_le lawful
  · exact fun known long distinct => replacement_not_lawful reachable.numbered known long distinct assigned

/-- A fresh string obeys the laws for a single character. If an index gets two, it gives the first one
twice. -/
theorem longer_text_breaks_laws : ∃ r r' : CharRow,
    (ofText "abc").set (.int 0) ['x'] = .ok r ∧ Lawful (ofText "abc") (.int 0) ['x'] r ∧
      (ofText "abc").set (.int 0) ['x', 'y'] = .ok r' ∧ r'.get (some (.int 0)) = .ok ['x', 'x'] ∧
      ¬Lawful (ofText "abc") (.int 0) ['x', 'y'] r' := by
  have fresh : Reachable (ofText "abc") := .fresh _
  have known : (ofText "abc").places.get? (.int 0) = some (0, []) := rfl
  obtain ⟨e, makes, -, lawful, -⟩ := lawful_iff_carried (i := .int 0) fresh (cons_ne_nil 'x' []) rfl
  obtain ⟨e', -, -, -, -, broken⟩ :=
    lawful_iff_carried (i := .int 0) fresh (cons_ne_nil 'x' ['y']) rfl
  refine ⟨_, _, rfl, lawful ?_, rfl, rfl, broken rfl (by decide) (by decide)⟩
  cases makes with
  | replaces place => exact ((level_ofList _).aligned place 'x').1
  | inserts unknown _ _ => cases known.symm.trans unknown

end DreamBerd.CharRow
