import DreamBerd.Proofs.Parts
import DreamBerd.Proofs.Publication

/-!
# How reading published data fails

Reading a published datum goes from the outside to the inside and from the left to the right.
`Datum.ofPublished_object` says what it does with an object. It fails in two ways: with a complaint or
a value that cannot be used, which readers expect, and by breaking down otherwise.
`Datum.ofPublished_eq_breakdown_iff` gives the texts that break down: reading comes to a part, all
before it being read, and trips over the part itself.
-/

namespace DreamBerd

open List

variable {key : String} {items before after : List Json} {read : List (String × Datum)} {f : Fault}

def Fault.Expected (f : Fault) : Prop := f = .breakdown .value ∨ ∃ c, f = .plain c

namespace Datum

variable {j : Json} {entries : List (String × Json)} {type : String} {b : Breakdown}

/-! ## Reading step by step -/

theorem sizeOf_entry (found : entry key entries = .ok j) : sizeOf j < sizeOf entries := by
  unfold entry at found
  split at found
  · rename_i e finds
    cases found
    have smaller := sizeOf_lt_of_mem (mem_of_find?_eq_some finds)
    rw [Prod.mk.sizeOf_spec] at smaller
    omega
  · cases found

/-- A function that goes on to the first entry with a key reads what is found there. -/
theorem eq_entry_bind {g : List (String × Json) → Except Fault α}
    {h : Json → Except Fault α} (none : g [] = .error (.breakdown .key))
    (some : ∀ k j es, g ((k, j) :: es) = if k == key then h j else g es)
    (entries : List (String × Json)) : g entries = entry key entries >>= h := by
  induction entries with
  | nil => exact none
  | cons e es ih =>
    rw [some, entry, find?_cons]
    cases e.1 == key with
    | true => rfl
    | false => exact ih

def readAttribute (read : List (String × Datum)) : Json → Except Fault (List (String × Datum))
  | .object entries => do
    let name ← entry "name" entries
    let value ← ofPublished (← entry "value" entries)
    return putAttribute read (← attributeName name, value)
  | _ => .error (.breakdown .kind)

theorem readAttributes_eq : readAttributes items read = items.foldlM readAttribute read := by
  induction items generalizing read with
  | nil => rfl
  | cons item items ih =>
    rw [foldlM_cons]
    cases item with
    | object entries =>
      have value : givenDatum entries = entry "value" entries >>= ofPublished :=
        eq_entry_bind rfl (fun _ _ _ => rfl) entries
      simp only [readAttributes, readAttribute, value, bind_assoc, pure_bind, ih]
    | _ => rfl

theorem readAll_eq : readAll items = items.mapM ofPublished := by
  induction items with
  | nil => rfl
  | cons item items ih => rw [readAll, ih, mapM_cons]

theorem readEntries_eq : readEntries entries =
    entries.mapM fun e => do return (text e.1, ← ofPublished e.2) := by
  induction entries with
  | nil => rfl
  | cons e entries ih =>
    rw [readEntries, ih, mapM_cons, bind_assoc]
    rfl

def makeOf (attributes : List (String × Datum)) : Option RecordType → Except Fault Datum
  | some t => make t attributes
  | Option.none => .error (.breakdown .name)

def valueOf (type : String) (value : Json) : Except Fault Datum :=
  match type with
  | "list" => do return list (← itemsOf value)
  | "tuple" => do return tuple (← itemsOf value)
  | "dict" => do return dict (← entriesOf value)
  | _ => readAtom type value

theorem valueOf_atom {value : Json} (noList : type ≠ "list") (noTuple : type ≠ "tuple")
    (noDict : type ≠ "dict") : valueOf type value = readAtom type value := by
  unfold valueOf
  split
  · exact absurd rfl noList
  · exact absurd rfl noTuple
  · exact absurd rfl noDict
  · rfl

/-- An object is read as a record or as a plain datum, whichever it names first. -/
theorem ofPublished_object (entries : List (String × Json)) : ofPublished (.object entries) =
    if entries.any (·.1 == "dreamberd_obj_type") then do
      let type ← recordTypeOf (← entry "dreamberd_obj_type" entries)
      let attributes ← attributesOf (← entry "attributes" entries)
      makeOf attributes type
    else if entries.any (·.1 == "python_obj_type") then do
      match ← entry "python_obj_type" entries with
      | .text type =>
        if !plainTypes.contains type then .error (.plain (.unknownPlainType type))
        else if type == "NoneType" then return none
        else valueOf type (← entry "value" entries)
      | j => .error (.plain (.unknownPlainType (← (ofJson j).toText)))
    else .error (.plain .unknownForm) := by
  have attributes : givenAttributes entries = entry "attributes" entries >>= attributesOf :=
    eq_entry_bind rfl (fun _ _ _ => rfl) entries
  have value (type : String) : givenValue type entries = entry "value" entries >>= valueOf type :=
    eq_entry_bind rfl (fun _ _ _ => rfl) entries
  rw [ofPublished, attributes]
  simp only [value, bind_assoc]
  rfl

theorem ofPublished_refused (other : ∀ entries, j ≠ .object entries) :
    ofPublished j = .error (refuse j) := by
  cases j with
  | object entries => exact absurd rfl (other entries)
  | _ => rfl

/-! ## What reading trips over -/

def Lacks (key : String) (entries : List (String × Json)) : Prop := ∀ e ∈ entries, e.1 ≠ key

def DescribesRecord (entries : List (String × Json)) (t : Option RecordType) : Prop :=
  ∃ name, entry "dreamberd_obj_type" entries = .ok name ∧ recordTypeOf name = .ok t

structure DescribesPlain (entries : List (String × Json)) (type : String) : Prop where
  other : Lacks "dreamberd_obj_type" entries
  named : entry "python_obj_type" entries = .ok (.text type)
  known : type ∈ plainTypes
  holds : type ≠ "NoneType"

def isTable : Json → Bool
  | .list _ | .object _ => true
  | _ => false

def isScalar : Json → Bool
  | .null | .bool _ | .int _ | .real _ => true
  | _ => false

inductive AttributeTrips : Json → Breakdown → Prop
  | noObject {j : Json} (other : ∀ entries, j ≠ .object entries) : AttributeTrips j .kind
  | noName {entries : List (String × Json)} (lacks : Lacks "name" entries) :
    AttributeTrips (.object entries) .key
  | noValue {entries : List (String × Json)} {name : Json} (named : entry "name" entries = .ok name)
    (lacks : Lacks "value" entries) : AttributeTrips (.object entries) .key
  | noWord {entries : List (String × Json)} {name value : Json} {d : Datum}
    (named : entry "name" entries = .ok name) (table : isTable name = true)
    (given : entry "value" entries = .ok value) (read : ofPublished value = .ok d) :
    AttributeTrips (.object entries) .kind

/-- What stands in the place of a plain value without parts breaks down: a number that is none, or that
is too large, or a list or an object where a text is looked up. -/
inductive AtomTrips : String → Json → Breakdown → Prop
  | noNumber {type : String} {j : Json} (number : type = "int" ∨ type = "float")
    (other : j = .null ∨ isTable j = true) : AtomTrips type j .kind
  | infinite {x : Float} (endless : Binary64.truncate? x = Option.none) (number : x.isNaN = false) :
    AtomTrips "int" (.real x) .overflow
  | huge {n : Int} (large : Binary64.ofInt? n = Option.none) : AtomTrips "float" (.int n) .overflow
  | noWord {type : String} {j : Json} (word : type = "TokenType" ∨ type = "function")
    (table : isTable j = true) : AtomTrips type j .kind

/-- Reading breaks down at the JSON value itself, all its parts that are read before being read. -/
inductive Trips : Json → Breakdown → Prop
  | scalar {j : Json} (scalar : isScalar j = true) : Trips j .kind
  | mention {s : String} (mentions : mentionsForm s = true) : Trips (.text s) .kind
  | listing {items : List Json} (lists : listsForm items = true) : Trips (.list items) .kind
  | noAttributes {entries : List (String × Json)} {t : Option RecordType}
    (record : DescribesRecord entries t) (lacks : Lacks "attributes" entries) :
    Trips (.object entries) .key
  | noList {entries : List (String × Json)} {t : Option RecordType} {j : Json}
    (record : DescribesRecord entries t) (given : entry "attributes" entries = .ok j)
    (other : ∀ items, j ≠ .list items) (object : j ≠ .object []) (text : j ≠ .text "") :
    Trips (.object entries) .kind
  | member {entries : List (String × Json)} {t : Option RecordType} {before after : List Json}
    {a : Json} {read : List (String × Datum)} {b : Breakdown} (record : DescribesRecord entries t)
    (given : entry "attributes" entries = .ok (.list (before ++ a :: after)))
    (reads : before.foldlM readAttribute [] = .ok read) (trips : AttributeTrips a b) :
    Trips (.object entries) b
  /-- The attributes are not those that the record is made from. -/
  | unmade {entries : List (String × Json)} {t : RecordType} {j : Json}
    {attributes : List (String × Datum)} (record : DescribesRecord entries (some t))
    (given : entry "attributes" entries = .ok j) (reads : attributesOf j = .ok attributes)
    (fails : make t attributes = .error (.breakdown .kind)) : Trips (.object entries) .kind
  /-- No record of the type can be made. -/
  | abstract {entries : List (String × Json)} {j : Json} {attributes : List (String × Datum)}
    (record : DescribesRecord entries Option.none) (given : entry "attributes" entries = .ok j)
    (reads : attributesOf j = .ok attributes) : Trips (.object entries) .name
  | noValue {entries : List (String × Json)} {type : String} (plain : DescribesPlain entries type)
    (lacks : Lacks "value" entries) : Trips (.object entries) .key
  | noItems {entries : List (String × Json)} {type : String} {j : Json}
    (plain : DescribesPlain entries type) (sequence : type = "list" ∨ type = "tuple")
    (given : entry "value" entries = .ok j) (scalar : isScalar j = true) : Trips (.object entries) .kind
  | keys {entries es : List (String × Json)} {type : String} {e : String × Json}
    (plain : DescribesPlain entries type) (sequence : type = "list" ∨ type = "tuple")
    (given : entry "value" entries = .ok (.object (e :: es))) (mentions : mentionsForm e.1 = true) :
    Trips (.object entries) .kind
  | noTable {entries : List (String × Json)} {j : Json} (plain : DescribesPlain entries "dict")
    (given : entry "value" entries = .ok j) (other : ∀ es, j ≠ .object es) :
    Trips (.object entries) .field
  | atom {entries : List (String × Json)} {type : String} {j : Json} {b : Breakdown}
    (plain : DescribesPlain entries type) (given : entry "value" entries = .ok j)
    (trips : AtomTrips type j b) : Trips (.object entries) b

inductive ComesTo : Json → Json → Prop
  | here {j : Json} : ComesTo j j
  | member {entries a : List (String × Json)} {t : Option RecordType} {before after : List Json}
    {read : List (String × Datum)} {name value part : Json} (record : DescribesRecord entries t)
    (given : entry "attributes" entries = .ok (.list (before ++ .object a :: after)))
    (reads : before.foldlM readAttribute [] = .ok read) (named : entry "name" a = .ok name)
    (valued : entry "value" a = .ok value) (comes : ComesTo value part) :
    ComesTo (.object entries) part
  | item {entries : List (String × Json)} {type : String} {before after : List Json} {j part : Json}
    (plain : DescribesPlain entries type) (sequence : type = "list" ∨ type = "tuple")
    (given : entry "value" entries = .ok (.list (before ++ j :: after)))
    (reads : ∀ b ∈ before, ∃ d, ofPublished b = .ok d) (comes : ComesTo j part) :
    ComesTo (.object entries) part
  | value {entries before after : List (String × Json)} {key : String} {j part : Json}
    (plain : DescribesPlain entries "dict")
    (given : entry "value" entries = .ok (.object (before ++ (key, j) :: after)))
    (reads : ∀ b ∈ before, ∃ d, ofPublished b.2 = .ok d) (comes : ComesTo j part) :
    ComesTo (.object entries) part

theorem AtomTrips.ne_value (trips : AtomTrips type j b) : b ≠ .value := by
  cases trips <;> simp

theorem AttributeTrips.ne_value (trips : AttributeTrips j b) : b ≠ .value := by
  cases trips <;> simp

theorem Trips.ne_value (trips : Trips j b) : b ≠ .value := by
  cases trips with
  | member _ _ _ trips | atom _ _ trips => exact trips.ne_value
  | _ => simp

/-! ## Keys and types -/

section Objects

variable {t : Option RecordType}

theorem any_key_iff : entries.any (·.1 == key) = true ↔ ∃ j, entry key entries = .ok j := by
  unfold entry
  cases found : entries.find? (·.1 == key) with
  | none =>
    simp only [reduceCtorEq, exists_false, iff_false, Bool.not_eq_true]
    exact any_eq_false.mpr (find?_eq_none.mp found)
  | some e =>
    have member := mem_of_find?_eq_some found
    have named := find?_some found
    simp only [Except.ok.injEq, exists_eq', iff_true]
    exact any_eq_true.mpr ⟨e, member, named⟩

theorem entry_eq_error_iff : entry key entries = .error f ↔ f = .breakdown .key ∧ Lacks key entries := by
  unfold entry Lacks
  cases found : entries.find? (·.1 == key) with
  | none =>
    have lacks := find?_eq_none.mp found
    simp only [beq_iff_eq] at lacks
    simp only [Except.error.injEq, eq_comm]
    exact ⟨fun same => ⟨same, lacks⟩, And.left⟩
  | some e =>
    have member := mem_of_find?_eq_some found
    have named := find?_some found
    simp only [reduceCtorEq, false_iff, not_and, not_forall]
    exact fun _ => ⟨e, member, by simpa using named⟩

theorem Lacks.any_eq_false (lacks : Lacks key entries) : entries.any (·.1 == key) = false := by
  rw [List.any_eq_false]
  intro e member
  simpa using lacks e member

theorem recordTypeOf_error {name : Json} (failed : recordTypeOf name = .error f) : f.Expected := by
  unfold recordTypeOf at failed
  split at failed
  · split at failed
    · cases failed
    · split at failed
      · cases failed
      · cases failed
        exact Or.inr ⟨_, rfl⟩
  · cases failed
    exact Or.inr ⟨_, rfl⟩

theorem ofPublished_record (record : DescribesRecord entries t) :
    ofPublished (.object entries) = (do
      let attributes ← attributesOf (← entry "attributes" entries)
      makeOf attributes t) := by
  rcases record with ⟨name, named, typed⟩
  rw [ofPublished_object, if_pos (any_key_iff.mpr ⟨name, named⟩), named]
  show (recordTypeOf name >>= _) = _
  rw [typed]
  rfl

theorem ofPublished_plain (plain : DescribesPlain entries type) :
    ofPublished (.object entries) = (do valueOf type (← entry "value" entries)) := by
  have known : ¬(!plainTypes.contains type) = true := by simpa using plain.known
  have holds : ¬(type == "NoneType") = true := by simpa using plain.holds
  rw [ofPublished_object, plain.other.any_eq_false, if_neg Bool.false_ne_true,
    if_pos (any_key_iff.mpr ⟨_, plain.named⟩), plain.named]
  show (if _ then _ else _) = _
  rw [if_neg known, if_neg holds]

end Objects

/-! ## Texts of JSON values -/

mutual

theorem shown_ofJson : ∀ j, (ofJson j).shown = .error f → f = .breakdown .value
  | .null, failed | .bool _, failed | .real _, failed | .text _, failed => by
    cases failed
  | .int n, failed => by
    rw [ofJson, shown, Number.intText] at failed
    split at failed
    · cases failed
      rfl
    · cases failed
  | .list items, failed => by
    exact shownAll_ofJsonAll items (bind_pure_eq_error_iff.mp failed)
  | .object entries, failed => by
    exact shownEntries_ofJsonEntries entries (bind_pure_eq_error_iff.mp failed)

theorem shownAll_ofJsonAll :
    ∀ items, shownAll (ofJsonAll items) = .error f → f = .breakdown .value
  | [], failed => by
    cases failed
  | j :: js, failed => by
    rcases bind_eq_error_iff.mp failed with first | ⟨_, _, more⟩
    · exact shown_ofJson j first
    · exact shownAll_ofJsonAll js (bind_pure_eq_error_iff.mp more)

theorem shownEntries_ofJsonEntries :
    ∀ entries, shownEntries (ofJsonEntries entries) = .error f → f = .breakdown .value
  | [], failed => by
    cases failed
  | (k, j) :: es, failed => by
    rcases bind_eq_error_iff.mp failed with first | ⟨_, _, more⟩
    · cases first
    · rcases bind_eq_error_iff.mp more with second | ⟨_, _, more⟩
      · exact shown_ofJson j second
      · exact shownEntries_ofJsonEntries es (bind_pure_eq_error_iff.mp more)

end

theorem toText_ofJson (failed : (ofJson j).toText = .error f) : f = .breakdown .value :=
  shown_ofJson j (bind_pure_eq_error_iff.mp failed)

/-! ## The failures of reading -/

section Failures

variable {a : Json} {t : Option RecordType}

theorem make_error {t : RecordType} {attributes : List (String × Datum)}
    (failed : make t attributes = .error f) : f = .breakdown .kind := by
  unfold make at failed
  dsimp only at failed
  split at failed
  · have unfinished := bind_pure_eq_error_iff.mp failed
    unfold complete at unfinished
    split at unfinished
    · split at unfinished <;> cases unfinished
      rfl
    · split at unfinished <;> cases unfinished
      rfl
    · cases unfinished
  · cases failed
    rfl

theorem not_expected (other : b ≠ .value) : ¬(Fault.breakdown b).Expected := by
  rintro (value | ⟨c, ⟨⟩⟩)
  cases value
  exact other rfl

section Unexpected

variable (loud : ¬f.Expected)

include loud

theorem object_cases (failed : ofPublished (.object entries) = .error f) :
    (∃ t, DescribesRecord entries t) ∨ ∃ type, DescribesPlain entries type := by
  rw [ofPublished_object] at failed
  split at failed
  · rename_i some
    obtain ⟨name, named⟩ := any_key_iff.mp some
    rw [named, ok_bind] at failed
    rcases bind_eq_error_iff.mp failed with untyped | ⟨t, typed, -⟩
    · exact absurd (recordTypeOf_error untyped) loud
    · exact .inl ⟨t, name, named, typed⟩
  · rename_i other
    split at failed
    · rename_i some
      obtain ⟨name, named⟩ := any_key_iff.mp some
      rw [named, ok_bind] at failed
      cases name with
      | text type =>
        change (if _ then _ else if _ then _ else _) = _ at failed
        split at failed
        · cases failed
          exact absurd (.inr ⟨_, rfl⟩) loud
        · rename_i known
          split at failed
          · cases failed
          · rename_i holds
            refine .inr ⟨type, ?_, named, by simpa using known, by simpa using holds⟩
            exact fun e member key => other (any_eq_true.mpr ⟨e, member, by simpa using key⟩)
      | _ =>
        rcases bind_eq_error_iff.mp failed with unwritten | ⟨_, -, ⟨⟩⟩
        · exact absurd (.inl (toText_ofJson unwritten)) loud
        · exact absurd (.inr ⟨_, rfl⟩) loud
    · cases failed
      exact absurd (.inr ⟨_, rfl⟩) loud

theorem refuse_trips (other : ∀ entries, j ≠ .object entries) (refused : refuse j = f) :
    f = .breakdown .kind ∧ Trips j .kind := by
  subst refused
  cases j with
  | object entries => exact absurd rfl (other entries)
  | text s =>
    rw [refuse] at loud ⊢
    split at loud
    · rename_i mentions
      exact ⟨if_pos mentions, .mention mentions⟩
    · exact absurd (.inr ⟨_, rfl⟩) loud
  | list items =>
    rw [refuse] at loud ⊢
    split at loud
    · rename_i lists
      exact ⟨if_pos lists, .listing lists⟩
    · exact absurd (.inr ⟨_, rfl⟩) loud
  | _ => exact ⟨rfl, .scalar rfl⟩

theorem readInt_trips (failed : readInt j = .error f) : ∃ b, f = .breakdown b ∧ AtomTrips "int" j b := by
  cases j with
  | text s =>
    rw [readInt] at failed
    split at failed <;> cases failed
    exact absurd (.inl rfl) loud
  | int n | bool b => cases failed
  | real x =>
    have inner := bind_pure_eq_error_iff.mp failed
    rw [Number.integral] at inner
    split at inner <;> cases inner
    rename_i endless
    cases number : x.isNaN with
    | true =>
      rw [number] at loud
      exact absurd (.inl rfl) loud
    | false => exact ⟨_, rfl, .infinite endless number⟩
  | null =>
    cases failed
    exact ⟨_, rfl, .noNumber (.inl rfl) (.inl rfl)⟩
  | list items | object entries =>
    cases failed
    exact ⟨_, rfl, .noNumber (.inl rfl) (.inr rfl)⟩

theorem readReal_trips (failed : readReal j = .error f) :
    ∃ b, f = .breakdown b ∧ AtomTrips "float" j b := by
  cases j with
  | text s =>
    rw [readReal] at failed
    split at failed <;> cases failed
    exact absurd (.inl rfl) loud
  | real x | bool b => cases failed
  | int n =>
    have inner := bind_pure_eq_error_iff.mp failed
    rw [Number.floatOfInt] at inner
    split at inner <;> cases inner
    exact ⟨_, rfl, .huge ‹_›⟩
  | null =>
    cases failed
    exact ⟨_, rfl, .noNumber (.inr rfl) (.inl rfl)⟩
  | list items | object entries =>
    cases failed
    exact ⟨_, rfl, .noNumber (.inr rfl) (.inr rfl)⟩

theorem readWord_trips {find : String → Option Datum} {c : Complaint}
    (failed : readWord find c j = .error f) (word : type = "TokenType" ∨ type = "function") :
    ∃ b, f = .breakdown b ∧ AtomTrips type j b := by
  cases j with
  | text s =>
    rw [readWord] at failed
    split at failed <;> cases failed
    exact absurd (.inr ⟨_, rfl⟩) loud
  | list items | object entries =>
    cases failed
    exact ⟨_, rfl, .noWord word rfl⟩
  | _ =>
    cases failed
    exact absurd (.inr ⟨_, rfl⟩) loud

theorem readTruth_ne : readTruth j ≠ .error f := by
  unfold readTruth
  split
  · simp
  · simp
  · rintro ⟨⟩
    exact loud (.inr ⟨_, rfl⟩)

theorem readAtom_trips (atomic : type ∈ ["int", "float", "function", "str", "TokenType", "bool"])
    (failed : readAtom type j = .error f) : ∃ b, f = .breakdown b ∧ AtomTrips type j b := by
  simp only [mem_cons, not_mem_nil, or_false] at atomic
  rcases atomic with rfl | rfl | rfl | rfl | rfl | rfl
  · exact readInt_trips loud failed
  · exact readReal_trips loud failed
  · exact readWord_trips loud failed (.inr rfl)
  · exact absurd (.inl (toText_ofJson (bind_pure_eq_error_iff.mp failed))) loud
  · exact readWord_trips loud failed (.inl rfl)
  · exact absurd failed (readTruth_ne loud)

/-- Reading comes to a part that it trips over. -/
def Meets (j : Json) (f : Fault) : Prop := ∃ b part, f = .breakdown b ∧ ComesTo j part ∧ Trips part b

omit loud in
theorem Meets.here (trips : Trips j b) : Meets j (.breakdown b) := ⟨b, j, rfl, .here, trips⟩

omit loud in
theorem Meets.imp (meets : Meets j f)
    (comes : ∀ part, ComesTo j part → ComesTo j' part) : Meets j' f := by
  obtain ⟨b, part, broken, inside, trips⟩ := meets
  exact ⟨b, part, broken, comes part inside, trips⟩

section Inside

variable
  (inside : ∀ j', sizeOf j' < sizeOf (Json.object entries) → ofPublished j' = .error f → Meets j' f)

include inside

omit loud in
theorem meets_attribute (record : DescribesRecord entries t)
    (given : entry "attributes" entries = .ok (.list (before ++ a :: after)))
    (reads : before.foldlM readAttribute [] = .ok read) (failed : readAttribute read a = .error f) :
    Meets (.object entries) f := by
  cases a with
  | object es =>
    rcases bind_eq_error_iff.mp failed with noName | ⟨name, named, failed⟩
    · obtain ⟨rfl, lacks⟩ := entry_eq_error_iff.mp noName
      exact .here (.member record given reads (.noName lacks))
    rcases bind_eq_error_iff.mp failed with noValue | ⟨value, valued, failed⟩
    · obtain ⟨rfl, lacks⟩ := entry_eq_error_iff.mp noValue
      exact .here (.member record given reads (.noValue named lacks))
    rcases bind_eq_error_iff.mp failed with fails | ⟨d, read, failed⟩
    · have smaller := sizeOf_entry given
      have outer : sizeOf (Json.object es) < sizeOf (before ++ .object es :: after) :=
        sizeOf_lt_of_mem (by simp)
      have inner := sizeOf_entry valued
      rw [Json.list.sizeOf_spec] at smaller
      rw [Json.object.sizeOf_spec] at outer inside
      refine (inside value (by omega) fails).imp fun part comes => ?_
      exact .member record given reads named valued comes
    · have noWord := bind_pure_eq_error_iff.mp failed
      cases name with
      | list items | object es =>
        cases noWord
        exact .here (.member record given reads (.noWord named rfl valued read))
      | _ => cases noWord
  | _ =>
    cases failed
    exact .here (.member record given reads (.noObject (by simp)))

omit loud in
theorem meets_record (record : DescribesRecord entries t)
    (failed : ofPublished (.object entries) = .error f) : Meets (.object entries) f := by
  rw [ofPublished_record record] at failed
  rcases bind_eq_error_iff.mp failed with none | ⟨j, given, failed⟩
  · obtain ⟨rfl, lacks⟩ := entry_eq_error_iff.mp none
    exact .here (.noAttributes record lacks)
  rcases bind_eq_error_iff.mp failed with unread | ⟨attributes, reads, unmade⟩
  · unfold attributesOf at unread
    split at unread
    · rw [readAttributes_eq] at unread
      obtain ⟨before, a, after, read, rfl, reads, fails⟩ := foldlM_eq_error_iff.mp unread
      exact meets_attribute inside record given reads fails
    · cases unread
    · cases unread
    · rename_i noList noObject noText
      cases unread
      exact .here (.noList record given noList noObject noText)
  · cases t with
    | none =>
      cases unmade
      exact .here (.abstract record given reads)
    | some t =>
      obtain rfl := make_error unmade
      exact .here (.unmade record given reads unmade)

theorem meets_items (plain : DescribesPlain entries type)
    (sequence : type = "list" ∨ type = "tuple") (given : entry "value" entries = .ok j)
    (unread : itemsOf j = .error f) : Meets (.object entries) f := by
  cases j with
  | list items =>
    rw [itemsOf, readAll_eq] at unread
    obtain ⟨before, item, after, rfl, reads, fails⟩ := mapM_eq_error_iff.mp unread
    have smaller := sizeOf_entry given
    have inner : sizeOf item < sizeOf (before ++ item :: after) := sizeOf_lt_of_mem (by simp)
    rw [Json.list.sizeOf_spec] at smaller
    rw [Json.object.sizeOf_spec] at inside
    refine (inside item (by omega) fails).imp fun part comes => ?_
    exact .item plain sequence given reads comes
  | text s =>
    rw [itemsOf] at unread
    split at unread <;> cases unread
    exact absurd (.inr ⟨_, rfl⟩) loud
  | object es =>
    cases es with
    | nil => cases unread
    | cons e es =>
      rw [itemsOf, refuse] at unread
      split at unread <;> cases unread
      · exact .here (.keys plain sequence given ‹_›)
      · exact absurd (.inr ⟨_, rfl⟩) loud
  | _ =>
    cases unread
    exact .here (.noItems plain sequence given rfl)

omit loud in
theorem meets_entries (plain : DescribesPlain entries "dict") (given : entry "value" entries = .ok j)
    (unread : entriesOf j = .error f) : Meets (.object entries) f := by
  cases j with
  | object es =>
    rw [entriesOf, readEntries_eq] at unread
    obtain ⟨before, ⟨key, item⟩, after, rfl, reads, fails⟩ := mapM_eq_error_iff.mp unread
    have smaller := sizeOf_entry given
    have inner : sizeOf (key, item) < sizeOf (before ++ (key, item) :: after) :=
      sizeOf_lt_of_mem (by simp)
    rw [Json.object.sizeOf_spec] at smaller inside
    rw [Prod.mk.sizeOf_spec] at inner
    refine (inside item (by omega) (bind_pure_eq_error_iff.mp fails)).imp fun part comes => ?_
    refine .value plain given (fun b member => ?_) comes
    obtain ⟨y, done⟩ := reads b member
    obtain ⟨d, read, -⟩ := bind_eq_ok_iff.mp done
    exact ⟨d, read⟩
  | _ =>
    cases unread
    exact .here (.noTable plain given (by simp))

theorem meets_plain (plain : DescribesPlain entries type)
    (failed : ofPublished (.object entries) = .error f) : Meets (.object entries) f := by
  rw [ofPublished_plain plain] at failed
  rcases bind_eq_error_iff.mp failed with none | ⟨j, given, unread⟩
  · obtain ⟨rfl, lacks⟩ := entry_eq_error_iff.mp none
    exact .here (.noValue plain lacks)
  by_cases sequence : type = "list" ∨ type = "tuple"
  · refine meets_items loud inside plain sequence given ?_
    rcases sequence with rfl | rfl
    all_goals exact bind_pure_eq_error_iff.mp unread
  by_cases table : type = "dict"
  · subst table
    exact meets_entries inside plain given (bind_pure_eq_error_iff.mp unread)
  rw [not_or] at sequence
  rw [valueOf_atom sequence.1 sequence.2 table] at unread
  have known := plain.known
  have atomic : type ∈ ["int", "float", "function", "str", "TokenType", "bool"] := by
    simp only [plainTypes, mem_cons] at known ⊢
    have holds := plain.holds
    tauto
  obtain ⟨b, rfl, trips⟩ := readAtom_trips loud atomic unread
  exact .here (.atom plain given trips)

end Inside

theorem meets_of_error (failed : ofPublished j = .error f) : Meets j f := by
  induction size : sizeOf j using Nat.strongRecOn generalizing j with
  | ind n ih =>
    by_cases object : ∃ entries, j = .object entries
    · obtain ⟨entries, rfl⟩ := object
      have inside : ∀ j', sizeOf j' < sizeOf (Json.object entries) → ofPublished j' = .error f →
          Meets j' f := fun j' smaller fails => ih (sizeOf j') (size ▸ smaller) fails rfl
      rcases object_cases loud failed with ⟨t, record⟩ | ⟨type, plain⟩
      · exact meets_record inside record failed
      · exact meets_plain loud inside plain failed
    · have other : ∀ entries, j ≠ .object entries := fun entries same => object ⟨entries, same⟩
      rw [ofPublished_refused other] at failed
      obtain ⟨rfl, trips⟩ := refuse_trips loud other (Except.error.inj failed)
      exact .here trips

end Unexpected

/-! ## Tripping -/

theorem AtomTrips.valueOf_eq (trips : AtomTrips type j b) : valueOf type j = .error (.breakdown b) := by
  cases trips with
  | noNumber number other =>
    rcases number with rfl | rfl <;> cases j <;> simp_all [isTable] <;> rfl
  | infinite endless number =>
    show (do return int (← Number.integral Binary64.truncate? _)) = _
    rw [Number.integral, endless, number]
    rfl
  | huge large =>
    show (do return real (← Number.floatOfInt _)) = _
    rw [Number.floatOfInt, large]
    rfl
  | noWord word table =>
    rcases word with rfl | rfl <;> cases j <;> simp_all [isTable] <;> rfl

theorem AttributeTrips.readAttribute_eq (trips : AttributeTrips a b)
    (read : List (String × Datum)) : readAttribute read a = .error (.breakdown b) := by
  cases trips with
  | noObject other =>
    cases a with
    | object entries => exact absurd rfl (other entries)
    | _ => rfl
  | noName lacks => exact bind_eq_error_left (entry_eq_error_iff.mpr ⟨rfl, lacks⟩)
  | noValue named lacks =>
    refine bind_eq_error_right named ?_
    exact bind_eq_error_left (entry_eq_error_iff.mpr ⟨rfl, lacks⟩)
  | @noWord entries name value d named table given reads =>
    refine bind_eq_error_right named (bind_eq_error_right given ?_)
    refine bind_eq_error_right reads (bind_eq_error_left ?_)
    cases name with
    | list items | object es => rfl
    | _ => cases table

theorem attributesOf_eq_error
    (reads : before.foldlM readAttribute [] = .ok read) (fails : readAttribute read a = .error f) :
    attributesOf (.list (before ++ a :: after)) = .error f := by
  rw [attributesOf, readAttributes_eq]
  exact foldlM_eq_error_iff.mpr ⟨before, a, after, read, rfl, reads, fails⟩

theorem ofPublished_record_error (record : DescribesRecord entries t)
    (given : entry "attributes" entries = .ok j) (fails : (do makeOf (← attributesOf j) t) = .error f) :
    ofPublished (.object entries) = .error f := by
  rw [ofPublished_record record]
  exact bind_eq_error_right given fails

theorem ofPublished_plain_error (plain : DescribesPlain entries type)
    (given : entry "value" entries = .ok j) (fails : valueOf type j = .error f) :
    ofPublished (.object entries) = .error f := by
  rw [ofPublished_plain plain]
  exact bind_eq_error_right given fails

theorem valueOf_items (sequence : type = "list" ∨ type = "tuple") (fails : itemsOf j = .error f) :
    valueOf type j = .error f := by
  rcases sequence with rfl | rfl <;> exact bind_eq_error_left fails

theorem Trips.ofPublished_eq (trips : Trips j b) : ofPublished j = .error (.breakdown b) := by
  cases trips with
  | scalar scalar =>
    cases j with
    | text s | list items | object es => cases scalar
    | _ => rfl
  | mention mentions =>
    rw [ofPublished_refused (by simp), refuse, if_pos mentions]
  | listing lists =>
    rw [ofPublished_refused (by simp), refuse, if_pos lists]
  | noAttributes record lacks =>
    rw [ofPublished_record record]
    exact bind_eq_error_left (entry_eq_error_iff.mpr ⟨rfl, lacks⟩)
  | @noList entries t j record given other object text =>
    refine ofPublished_record_error record given (bind_eq_error_left ?_)
    unfold attributesOf
    split
    · exact absurd rfl (other _)
    · exact absurd rfl object
    · exact absurd rfl text
    · rfl
  | member record given reads trips =>
    refine ofPublished_record_error record given (bind_eq_error_left ?_)
    exact attributesOf_eq_error reads (trips.readAttribute_eq _)
  | unmade record given reads fails =>
    exact ofPublished_record_error record given (bind_eq_error_right reads fails)
  | abstract record given reads =>
    exact ofPublished_record_error record given (bind_eq_error_right reads rfl)
  | noValue plain lacks =>
    rw [ofPublished_plain plain]
    exact bind_eq_error_left (entry_eq_error_iff.mpr ⟨rfl, lacks⟩)
  | @noItems entries type j plain sequence given scalar =>
    refine ofPublished_plain_error plain given (valueOf_items sequence ?_)
    cases j with
    | text s | list items | object es => cases scalar
    | _ => rfl
  | keys plain sequence given mentions =>
    refine ofPublished_plain_error plain given (valueOf_items sequence ?_)
    rw [itemsOf, refuse, if_pos mentions]
  | @noTable entries j plain given other =>
    refine ofPublished_plain_error plain given (bind_eq_error_left ?_)
    cases j with
    | object es => exact absurd rfl (other es)
    | _ => rfl
  | atom plain given trips => exact ofPublished_plain_error plain given trips.valueOf_eq

theorem ComesTo.ofPublished_eq {part : Json} (comes : ComesTo j part)
    (failed : ofPublished part = .error f) : ofPublished j = .error f := by
  induction comes with
  | here => exact failed
  | member record given reads named valued _ ih =>
    refine ofPublished_record_error record given (bind_eq_error_left ?_)
    refine attributesOf_eq_error reads (bind_eq_error_right named ?_)
    exact bind_eq_error_right valued (bind_eq_error_left (ih failed))
  | item plain sequence given reads _ ih =>
    refine ofPublished_plain_error plain given (valueOf_items sequence ?_)
    rw [itemsOf, readAll_eq]
    exact mapM_eq_error_iff.mpr ⟨_, _, _, rfl, reads, ih failed⟩
  | value plain given reads _ ih =>
    refine ofPublished_plain_error plain given (bind_eq_error_left ?_)
    rw [entriesOf, readEntries_eq]
    refine mapM_eq_error_iff.mpr ⟨_, _, _, rfl, fun b member => ?_, bind_eq_error_left (ih failed)⟩
    obtain ⟨d, read⟩ := reads b member
    exact ⟨(text b.1, d), by rw [read]; rfl⟩

theorem ofPublished_eq_breakdown_iff :
    ofPublished j = .error (.breakdown b) ∧ b ≠ .value ↔ ∃ part, ComesTo j part ∧ Trips part b := by
  constructor
  · rintro ⟨failed, other⟩
    obtain ⟨_, part, ⟨⟩, comes, trips⟩ := meets_of_error (not_expected other) failed
    exact ⟨part, comes, trips⟩
  · rintro ⟨part, comes, trips⟩
    exact ⟨comes.ofPublished_eq trips.ofPublished_eq, trips.ne_value⟩

end Failures

end Datum

end DreamBerd
