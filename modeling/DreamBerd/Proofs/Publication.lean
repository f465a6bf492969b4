import DreamBerd.Datum.Publish
import DreamBerd.Datum.Same
import DreamBerd.Proofs.DecimalText
import DreamBerd.Proofs.Failing
import DreamBerd.World.Describe

/-!
# Which values survive publication

A value survives if it can be published, read again, and is then equal to what it was. Numbers, truth
values, `undefined`, keywords and maps of such values do: `Datum.Portable`. Strings and lists do not,
wherever they stand in a value: they are published with the places of their indices, and a string or
list cannot be made from places that are given. Neither do integers that are too long to be written.
-/

namespace DreamBerd

open List Number Decimal

/-! ## Values -/

/-- The component is a number, and not the one that is none. -/
def Scalar.IsNumber : Scalar → Prop
  | .int _ => True
  | .real x => Binary64.shape x ≠ .nan

def Number.IsNumber : Number → Prop
  | .int _ => True
  | .real x => Binary64.shape x ≠ .nan
  | .truth _ => True
  | .tuple xs => ∀ x ∈ xs, x.IsNumber

/-- The component is not too long to be written. -/
def Scalar.IsShort : Scalar → Prop
  | .int n => n.natAbs < 10 ^ maxDigits
  | .real _ => True

def Number.IsShort : Number → Prop
  | .int n => n.natAbs < 10 ^ maxDigits
  | .real _ => True
  | .truth _ => True
  | .tuple xs => ∀ x ∈ xs, x.IsShort

namespace Datum

variable {d : Datum} {entries read fields : List (String × Datum)} {t : RecordType} {name type : String}
  {attributes js : List (String × Json)} {value j : Json} {n : Int} {ds : List Datum}
  {e : String × Datum} {x : Float}

def ofNumber (n : Number) : Datum := record .number [("value", n.datum)]

def ofMap (entries : List (String × Datum)) : Datum :=
  record .map [("self_dict", dict (entries.map fun e => (text e.1, e.2)))]

def ofItems (items : List Datum) (places members : Datum) : Datum :=
  record .list [("values", list items), ("indexer", places), ("namespace", members)]

def ofString (value : String) (places members : Datum) : Datum :=
  record .string [("value", text value), ("indexer", places), ("namespace", members)]

inductive Plain : Datum → Prop
  | number {n : Number} : n.IsNumber → Plain (ofNumber n)
  | boolean (t : Truth) : Plain (record .boolean [("value", t.datum)])
  | undefined : Plain (record .undefined [])
  | keyword (word : String) : Plain (record .keyword [("value", text word)])
  | string (row : CharRow) (members : Datum) : Plain (ofString row.text row.placesDatum members)
  | list (row : Row Datum) (members : Datum) :
    (∀ d ∈ row.items, Plain d) → Plain (ofItems row.items row.placesDatum members)
  | map {entries : List (String × Datum)} : (entries.map (·.1)).Nodup →
    (∀ e ∈ entries, Plain e.2) → Plain (ofMap entries)

inductive Portable : Datum → Prop
  | number {n : Number} : n.IsNumber → n.IsShort → Portable (ofNumber n)
  | boolean (t : Truth) : Portable (record .boolean [("value", t.datum)])
  | undefined : Portable (record .undefined [])
  | keyword (word : String) : Portable (record .keyword [("value", text word)])
  | map {entries : List (String × Datum)} : (entries.map (·.1)).Nodup →
    (∀ e ∈ entries, Portable e.2) → Portable (ofMap entries)

theorem Portable.plain (portable : Portable d) : Plain d := by
  induction portable with
  | number number _ => exact .number number
  | boolean t => exact .boolean t
  | undefined => exact .undefined
  | keyword word => exact .keyword word
  | map distinct _ ih => exact .map distinct ih

/-- The datum can be published and read again, and is then equal to what it was. -/
def Restored (d : Datum) : Prop :=
  ∃ j d', publish d = .ok j ∧ ofPublished j = .ok d' ∧ same d d' = true

/-! ## Reading what was published -/

def Returns (d : Datum) : Prop := ∃ j, publish d = .ok j ∧ ofPublished j = .ok d

/-! ## Numbers and truth values -/

theorem ofPublished_int : ofPublished (plainForm "int" value) = readInt value := rfl

theorem ofPublished_real : ofPublished (plainForm "float" value) = readReal value := rfl

theorem ofPublished_tuple {items : List Json} :
    ofPublished (plainForm "tuple" (.list items)) = (do return tuple (← readAll items)) := rfl

theorem ofPublished_dict {es : List (String × Json)} :
    ofPublished (plainForm "dict" (.object es)) = (do return dict (← readEntries es)) := rfl

theorem intText_eq (short : n.natAbs < 10 ^ maxDigits) : intText n = .ok (toString n) := by
  have fewer : ¬(n.natAbs.log2 ≥ 14284 ∧ n.natAbs ≥ 10 ^ maxDigits) :=
    fun long => absurd long.2 (not_le.mpr short)
  unfold intText
  simp only [Nat.pow_eq]
  rw [if_neg fewer]

theorem intText_error (long : ¬n.natAbs < 10 ^ maxDigits) : intText n = .error (.breakdown .value) := by
  have power : 2 ^ 14284 ≤ 10 ^ maxDigits := by decide +kernel
  have bits : 14284 ≤ n.natAbs.log2 := by
    rw [Nat.le_log2 (by
      omega)]
    omega
  have more : n.natAbs.log2 ≥ 14284 ∧ n.natAbs ≥ 10 ^ maxDigits :=
    ⟨bits, not_lt.mp long⟩
  unfold intText
  simp only [Nat.pow_eq]
  rw [if_pos more]

theorem returns_int (short : n.natAbs < 10 ^ maxDigits) : Returns (int n) := by
  refine ⟨plainForm "int" (.text (toString n)), ?_, ?_⟩
  · rw [publish, intText_eq short]
    rfl
  · rw [ofPublished_int, readInt, readInt?_toString short]

theorem returns_real (number : Binary64.shape x ≠ .nan) : Returns (real x) := by
  refine ⟨plainForm "float" (.text (ofFloat x)), by rw [publish], ?_⟩
  rw [ofPublished_real, readReal, readFloat?_ofFloat number]

theorem returns_truth (b : Bool) : Returns (truth b) := by
  refine ⟨plainForm "bool" (.text (if b then "True" else "False")), by rw [publish], ?_⟩
  cases b with
  | true => rfl
  | false => rfl

theorem returns_none : Returns none :=
  ⟨plainForm "NoneType" (.text "None"), by rw [publish], rfl⟩

theorem returns_text (s : String) : Returns (text s) :=
  ⟨plainForm "str" (.text s), by rw [publish], rfl⟩

theorem returns_all (all : ∀ d ∈ ds, Returns d) :
    ∃ js, publishAll ds = .ok js ∧ readAll js = .ok ds := by
  induction ds with
  | nil => exact ⟨[], rfl, rfl⟩
  | cons d ds ih =>
    obtain ⟨j, published, reads⟩ := all d mem_cons_self
    obtain ⟨js, publishedAll, readsAll⟩ := ih (forall_mem_cons.mp all).2
    refine ⟨j :: js, ?_, ?_⟩
    · rw [publishAll, published, publishedAll]
      rfl
    · rw [readAll, reads, readsAll]
      rfl

theorem returns_tuple (all : ∀ d ∈ ds, Returns d) : Returns (tuple ds) := by
  obtain ⟨js, publishedAll, readsAll⟩ := returns_all all
  refine ⟨plainForm "tuple" (.list js), ?_, ?_⟩
  · rw [publish, publishedAll]
    rfl
  · rw [ofPublished_tuple, readsAll]
    rfl

theorem returns_number {n : Number} (number : n.IsNumber) (short : n.IsShort) : Returns n.datum := by
  cases n with
  | int n => exact returns_int short
  | real x => exact returns_real number
  | truth b => exact returns_truth b
  | tuple xs =>
    apply returns_tuple
    intro d member
    obtain ⟨x, inside, rfl⟩ := mem_map.mp member
    cases x with
    | int n => exact returns_int (short _ inside)
    | real y => exact returns_real (number _ inside)

theorem returns_boolean (t : Truth) : Returns t.datum := by
  cases t with
  | yes => exact returns_truth true
  | no => exact returns_truth false
  | maybe => exact returns_none

/-! ## Maps and records -/

theorem returns_entries (all : ∀ e ∈ entries, Returns e.2) :
    ∃ js, publishEntries (entries.map fun e => (text e.1, e.2)) = .ok js ∧
      readEntries js = .ok (entries.map fun e => (text e.1, e.2)) := by
  induction entries with
  | nil => exact ⟨[], rfl, rfl⟩
  | cons e es ih =>
    obtain ⟨j, published, reads⟩ := all e mem_cons_self
    obtain ⟨js, publishedAll, readsAll⟩ := ih (forall_mem_cons.mp all).2
    refine ⟨(e.1, j) :: js, ?_, ?_⟩
    · rw [map_cons, publishEntries, published, publishedAll]
      rfl
    · rw [readEntries, reads, readsAll]
      rfl

theorem hasTextKeys_map (entries : List (String × Datum)) :
    hasTextKeys (entries.map fun e => (text e.1, e.2)) = true := by
  simp [hasTextKeys]

theorem returns_dict (all : ∀ e ∈ entries, Returns e.2) :
    Returns (dict (entries.map fun e => (text e.1, e.2))) := by
  obtain ⟨js, publishedAll, readsAll⟩ := returns_entries all
  refine ⟨plainForm "dict" (.object js), ?_, ?_⟩
  · rw [publish, if_pos (hasTextKeys_map entries), publishedAll]
    rfl
  · rw [ofPublished_dict, readsAll]
    rfl

/-- The attributes of a published record, as they are written. -/
def attributeForms (attributes : List (String × Json)) : List Json :=
  attributes.map fun a => .object [("name", .text a.1), ("value", a.2)]

theorem recordTypeOf_typeName (known : RecordType.published.contains t = true) :
    recordTypeOf (.text t.typeName) = .ok (some t) := by
  cases t with
  | lifetime => exact absurd known (by decide)
  | _ => rfl

theorem ofPublished_attributeForms :
    ofPublished (recordForm name attributes) = (do
      let type ← recordTypeOf (.text name)
      let read ← readAttributes (attributeForms attributes) []
      match type with
      | some t => make t read
      | Option.none => .error (.breakdown .name)) := rfl

theorem readAttributes_cons :
    readAttributes (attributeForms (a :: attributes)) read = (do
      let value ← ofPublished a.2
      readAttributes (attributeForms attributes) (putAttribute read (a.1, value))) := rfl

theorem returns_record (known : RecordType.published.contains t = true)
    (made : make t [(name, d)] = .ok (record t [(name, d)])) (returns : Returns d) :
    Returns (record t [(name, d)]) := by
  obtain ⟨j, published, reads⟩ := returns
  refine ⟨recordForm t.typeName [(name, j)], ?_, ?_⟩
  · rw [publish, if_pos known, publishFields, published]
    rfl
  · rwa [ofPublished_attributeForms, recordTypeOf_typeName known, readAttributes_cons, reads]

theorem returns_undefined : Returns (record .undefined []) :=
  ⟨recordForm "DreamberdUndefined" [], by rw [publish, publishFields]; rfl, rfl⟩

theorem Portable.returns (portable : Portable d) : Returns d := by
  induction portable with
  | number number short => exact returns_record rfl rfl (returns_number number short)
  | boolean t => exact returns_record rfl rfl (returns_boolean t)
  | undefined => exact returns_undefined
  | keyword word => exact returns_record rfl rfl (returns_text word)
  | map _ _ ih => exact returns_record rfl rfl (returns_dict ih)

/-! ## Equality -/

theorem extentOfFloat?_isSome (number : Binary64.shape x ≠ .nan) : ∃ e, extentOfFloat? x = some e := by
  unfold extentOfFloat?
  split
  · rename_i none
    exact absurd none number
  · exact ⟨_, rfl⟩
  · rename_i negative m q shaped
    simp [Binary64.toRat?, shaped]

theorem same_int (n : Int) : same (int n) (int n) = true := by
  rw [same]
  · show scalarEq (.int n) (.int n) = true
    simp [scalarEq, whole?]
  all_goals simp

theorem same_real (number : Binary64.shape x ≠ .nan) : same (real x) (real x) = true := by
  obtain ⟨e, extent⟩ := extentOfFloat?_isSome number
  rw [same]
  · show scalarEq (.real x) (.real x) = true
    simp [scalarEq, whole?, extent?, extent]
  all_goals simp

theorem same_truth (b : Bool) : same (truth b) (truth b) = true := by
  rw [same]
  · show scalarEq (.truth b) (.truth b) = true
    simp [scalarEq, whole?]
  all_goals simp

theorem same_text (s : String) : same (text s) (text s) = true := by
  simp [same, sameAtom, number?]

theorem sameAll_self (all : ∀ d ∈ ds, same d d = true) : sameAll ds ds = true := by
  induction ds with
  | nil => rw [sameAll]; rfl
  | cons d ds ih =>
    rw [sameAll]
    simp only [all d mem_cons_self]
    exact ih (forall_mem_cons.mp all).2

theorem same_number {n : Number} (number : n.IsNumber) : same n.datum n.datum = true := by
  cases n with
  | int n => exact same_int n
  | real x => exact same_real number
  | truth b => exact same_truth b
  | tuple xs =>
    rw [datum, same]
    apply sameAll_self
    intro d member
    obtain ⟨x, inside, rfl⟩ := mem_map.mp member
    cases x with
    | int n => exact same_int n
    | real y => exact same_real (number _ inside)

theorem same_record (equal : same d d = true) :
    same (record t [(name, d)]) (record t [(name, d)]) = true := by
  simp [same, sameFields, equal]

theorem sameAtom_text (s t : String) : sameAtom (text s) (text t) = (s == t) := by
  simp [sameAtom, number?]

theorem find?_entry (distinct : (entries.map (·.1)).Nodup) (member : e ∈ entries) :
    (entries.map fun e => (text e.1, e.2)).find? (fun f => sameAtom (text e.1) f.1) =
      some (text e.1, e.2) := by
  induction entries with
  | nil => cases member
  | cons x xs ih =>
    rw [map_cons, nodup_cons] at distinct
    rw [map_cons, find?_cons, sameAtom_text]
    rcases mem_cons.mp member with rfl | later
    · rw [beq_self_eq_true]
    · have other : e.1 ≠ x.1 := fun same => distinct.1 (same ▸ mem_map_of_mem later)
      rw [beq_eq_false_iff_ne.mpr other]
      exact ih distinct.2 later

theorem sameEntries_self (distinct : (entries.map (·.1)).Nodup) {some : List (String × Datum)}
    (inside : ∀ e ∈ some, e ∈ entries) (all : ∀ e ∈ entries, same e.2 e.2 = true) :
    sameEntries (some.map fun e => (text e.1, e.2)) (entries.map fun e => (text e.1, e.2)) = true := by
  induction some with
  | nil => rw [map_nil, sameEntries]
  | cons e es ih =>
    rw [map_cons, sameEntries, find?_entry distinct (inside e mem_cons_self)]
    simp only [all e (inside e mem_cons_self)]
    exact ih (forall_mem_cons.mp inside).2

theorem Portable.same_self (portable : Portable d) : same d d = true := by
  induction portable with
  | number number _ => exact same_record (same_number number)
  | boolean t =>
    apply same_record
    cases t with
    | yes => exact same_truth true
    | no => exact same_truth false
    | maybe => simp [Truth.datum, same, sameAtom, number?]
  | undefined => simp [same, sameFields]
  | keyword word => exact same_record (same_text word)
  | @map entries distinct _ ih =>
    apply same_record
    rw [same]
    simp only [beq_self_eq_true]
    exact sameEntries_self distinct (fun e member => member) ih

/-! ## What does not survive -/

/-- The datum cannot be published, or what is published cannot be read. -/
def Lost (d : Datum) : Prop :=
  ∀ j, publish d = .ok j → ∀ d', ofPublished j ≠ .ok d'

theorem publish_record (published : publish (record t fields) = .ok j) :
    RecordType.published.contains t = true ∧
      ∃ attributes, publishFields fields = .ok attributes ∧ j = recordForm t.typeName attributes := by
  rw [publish] at published
  split at published
  · rename_i known
    obtain ⟨attributes, done, rest⟩ := bind_eq_ok_iff.mp published
    cases rest
    exact ⟨known, attributes, done, rfl⟩
  · cases published

theorem publishFields_names (published : publishFields fields = .ok attributes) :
    attributes.map (·.1) = fields.map (·.1) := by
  induction fields generalizing attributes with
  | nil =>
    cases published
    rfl
  | cons f fs ih =>
    obtain ⟨j, -, more⟩ := bind_eq_ok_iff.mp published
    obtain ⟨js, done, rest⟩ := bind_eq_ok_iff.mp more
    cases rest
    rw [map_cons, map_cons, ih done]

theorem mem_putAttribute (named : name = a.1 ∨ name ∈ read.map (·.1)) :
    name ∈ (putAttribute read a).map (·.1) := by
  induction read with
  | nil => simpa [putAttribute] using named
  | cons b bs ih =>
    rw [putAttribute]
    split
    · rename_i same
      have equal : b.1 = a.1 := beq_iff_eq.mp same
      simpa [equal] using named
    · rw [map_cons, mem_cons]
      rw [map_cons, mem_cons] at named
      rcases named with new | first | later
      · exact Or.inr (ih (Or.inl new))
      · exact Or.inl first
      · exact Or.inr (ih (Or.inr later))

theorem readAttributes_names {all : List (String × Datum)}
    (done : readAttributes (attributeForms attributes) read = .ok all)
    (named : name ∈ read.map (·.1) ∨ name ∈ attributes.map (·.1)) : name ∈ all.map (·.1) := by
  induction attributes generalizing read with
  | nil =>
    cases done
    simpa using named
  | cons a as ih =>
    rw [readAttributes_cons] at done
    obtain ⟨value, -, rest⟩ := bind_eq_ok_iff.mp done
    apply ih rest
    rw [map_cons, mem_cons] at named
    rcases named with before | first | later
    · exact Or.inl (mem_putAttribute (Or.inr before))
    · exact Or.inl (mem_putAttribute (Or.inl first))
    · exact Or.inr later

theorem ofPublished_recordForm (known : RecordType.published.contains t = true)
    (done : ofPublished (recordForm t.typeName attributes) = .ok d) :
    ∃ read, readAttributes (attributeForms attributes) [] = .ok read ∧ make t read = .ok d := by
  rw [ofPublished_attributeForms, recordTypeOf_typeName known] at done
  exact bind_eq_ok_iff.mp done

theorem lost_record (name : String) (foreign : t.parameters.any (·.1 == name) = false)
    (named : name ∈ fields.map (·.1)) : Lost (record t fields) := by
  intro j published d done
  obtain ⟨known, attributes, written, rfl⟩ := publish_record published
  obtain ⟨read, got, made⟩ := ofPublished_recordForm known done
  rw [← publishFields_names written] at named
  obtain ⟨a, member, rfl⟩ := mem_map.mp (readAttributes_names got (Or.inr named))
  unfold make at made
  rw [if_neg] at made
  · cases made
  · rw [Bool.and_eq_true, not_and_or]
    left
    rw [all_eq_true]
    intro all
    rw [all a member] at foreign
    cases foreign

theorem publishAll_error (member : d ∈ ds) (failed : publish d = .error f)
    (js : List Json) : publishAll ds ≠ .ok js := by
  intro published
  induction ds generalizing js with
  | nil => cases member
  | cons e es ih =>
    obtain ⟨j, first, more⟩ := bind_eq_ok_iff.mp published
    obtain ⟨rest, later, -⟩ := bind_eq_ok_iff.mp more
    rcases mem_cons.mp member with rfl | inside
    · rw [failed] at first
      cases first
    · exact ih inside rest later

theorem publish_int_error (long : ¬n.natAbs < 10 ^ maxDigits) :
    publish (int n) = .error (.breakdown .value) := by
  rw [publish, intText_error long]
  rfl

theorem publish_number_error {n : Number} (long : ¬n.IsShort) (j : Json) : publish n.datum ≠ .ok j := by
  intro published
  cases n with
  | int n =>
    rw [datum, publish_int_error long] at published
    cases published
  | real x | truth b => exact long trivial
  | tuple xs =>
    rw [IsShort, not_forall] at long
    obtain ⟨x, long⟩ := long
    rw [not_forall] at long
    obtain ⟨inside, longPart⟩ := long
    obtain ⟨js, all, -⟩ := bind_eq_ok_iff.mp published
    cases x with
    | int n =>
      exact publishAll_error (mem_map_of_mem inside) (publish_int_error longPart) js all
    | real y => exact longPart trivial

theorem lost_number {n : Number} (long : ¬n.IsShort) : Lost (ofNumber n) := by
  intro j published
  obtain ⟨-, attributes, written, -⟩ := publish_record published
  obtain ⟨value, first, -⟩ := bind_eq_ok_iff.mp written
  exact absurd first (publish_number_error long value)

theorem publishEntries_mem (published : publishEntries (entries.map fun e => (text e.1, e.2)) = .ok js)
    (member : e ∈ entries) : ∃ j, (e.1, j) ∈ js ∧ publish e.2 = .ok j := by
  induction entries generalizing js with
  | nil => cases member
  | cons f fs ih =>
    obtain ⟨j, first, more⟩ := bind_eq_ok_iff.mp published
    obtain ⟨rest, later, done⟩ := bind_eq_ok_iff.mp more
    cases done
    rcases mem_cons.mp member with rfl | inside
    · exact ⟨j, mem_cons_self, first⟩
    · obtain ⟨j', listed, published'⟩ := ih later inside
      exact ⟨j', mem_cons_of_mem _ listed, published'⟩

theorem readEntries_mem {entries : List (Datum × Datum)} (done : readEntries js = .ok entries)
    (member : (k, j) ∈ js) : ∃ d, ofPublished j = .ok d := by
  induction js generalizing entries with
  | nil => cases member
  | cons f fs ih =>
    obtain ⟨d, first, more⟩ := bind_eq_ok_iff.mp done
    obtain ⟨rest, later, -⟩ := bind_eq_ok_iff.mp more
    rcases mem_cons.mp member with rfl | inside
    · exact ⟨d, first⟩
    · exact ih later inside

theorem lost_dict (member : e ∈ entries) (lost : Lost e.2) :
    Lost (dict (entries.map fun e => (text e.1, e.2))) := by
  intro j published d done
  rw [publish, if_pos (hasTextKeys_map entries)] at published
  obtain ⟨js, written, rest⟩ := bind_eq_ok_iff.mp published
  cases rest
  obtain ⟨j, listed, publishedValue⟩ := publishEntries_mem written member
  rw [ofPublished_dict] at done
  obtain ⟨read, got, -⟩ := bind_eq_ok_iff.mp done
  obtain ⟨d', readValue⟩ := readEntries_mem got listed
  exact lost j publishedValue d' readValue

theorem lost_map (member : e ∈ entries) (lost : Lost e.2) : Lost (ofMap entries) := by
  intro j published d done
  obtain ⟨known, attributes, written, rfl⟩ := publish_record published
  obtain ⟨value, first, more⟩ := bind_eq_ok_iff.mp written
  obtain ⟨_, _, rest⟩ := bind_eq_ok_iff.mp more
  cases rest
  obtain ⟨read, got, -⟩ := ofPublished_recordForm known done
  rw [readAttributes_cons] at got
  obtain ⟨d', readValue, -⟩ := bind_eq_ok_iff.mp got
  exact lost_dict member lost value first d' readValue

/-! ## The values that survive -/

theorem Plain.portable_or_lost (plain : Plain d) : Portable d ∨ Lost d := by
  induction plain with
  | @number n number =>
    by_cases short : n.IsShort
    · exact Or.inl (.number number short)
    · exact Or.inr (lost_number short)
  | boolean t => exact Or.inl (.boolean t)
  | undefined => exact Or.inl .undefined
  | keyword word => exact Or.inl (.keyword word)
  | string row members | list row members _ _ => exact Or.inr (lost_record "indexer" rfl (by simp))
  | @map entries distinct _ ih =>
    by_cases all : ∀ e ∈ entries, Portable e.2
    · exact Or.inl (.map distinct all)
    · rw [not_forall] at all
      obtain ⟨e, all⟩ := all
      rw [not_forall] at all
      obtain ⟨member, notPortable⟩ := all
      exact Or.inr (lost_map member ((ih e member).resolve_left notPortable))

/-- Of the values built from numbers, truth values, `undefined`, keywords, strings, lists and maps,
exactly the portable ones survive publication. -/
theorem restored_iff_portable {d : Datum} (plain : Plain d) : Restored d ↔ Portable d := by
  constructor
  · rintro ⟨j, d', published, read, -⟩
    refine plain.portable_or_lost.resolve_right ?_
    intro lost
    exact lost j published d' read
  · intro portable
    obtain ⟨j, published, reads⟩ := portable.returns
    exact ⟨j, d, published, reads, portable.same_self⟩

def greeting : Datum :=
  let items := [ofString "Hello world!" (CharRow.ofText "Hello world!").placesDatum (dict []),
    ofNumber (.real 123.45)]
  ofItems items (Row.ofList items).placesDatum (dict [])

def answer : Datum :=
  ofMap [("answer", ofNumber (.real 123.45)), ("sure", record .boolean [("value", none)])]

theorem shape_sample : Binary64.shape 123.45 ≠ .nan := by decide +kernel

theorem greeting_plain : Plain greeting := by
  apply Plain.list (Row.ofList _)
  intro d member
  rcases mem_cons.mp member with rfl | member
  · exact .string (.ofText "Hello world!") _
  · rw [mem_singleton.mp member]
    exact .number shape_sample

theorem answer_portable : Portable answer := by
  apply Portable.map (by decide)
  intro e member
  rcases mem_cons.mp member with rfl | member
  · exact .number shape_sample trivial
  · rw [mem_singleton.mp member]
    exact .boolean .maybe

theorem greeting_not_restored :
    Plain greeting ∧ ¬Restored greeting ∧ Plain answer ∧ Restored answer := by
  have answerPlain := answer_portable.plain
  refine ⟨greeting_plain, ?_, answerPlain, (restored_iff_portable answerPlain).mpr answer_portable⟩
  rw [restored_iff_portable greeting_plain]
  intro portable
  cases portable

end Datum

end DreamBerd
