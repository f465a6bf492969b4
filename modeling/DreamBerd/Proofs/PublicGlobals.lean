import DreamBerd.Program.Lasting
import DreamBerd.Proofs.Decoding
import DreamBerd.Proofs.Restoring

/-!
# Public variables at the start of a program

The list of public variables has a line for each, and the text of its value is published elsewhere.
A text that cannot be read as expected is warned about, and the others are given as if it were not
there. A text that breaks down otherwise stops the program before it has started: `loadPublic_spec`
says which texts do so, and what happens if there is none.
-/

namespace DreamBerd

open List

/-- An entry of the list of public variables: its line, and the three parts of the line. -/
structure PublicEntry where
  line : String
  name : String
  address : String
  digits : String
  confidence : Int
  visible : (Text.strip line).isEmpty = false
  parts : line.splitOn ";;;" = [name, address, digits]
  number : Decimal.readInt? digits = some confidence

namespace PublicEntry

variable (published : List (String × String)) (e : PublicEntry)

def textAt (path : String) : String := (published.find? (·.1 == path)).elim "" (·.2)

def text : String := textAt published ("serialized_objects/" ++ e.address)

def reading : Except Fault Datum :=
  match Json.read? (e.text published) with
  | none => .error (.breakdown .value)
  | some j => Datum.ofPublished j

def isGood : Bool := (e.reading published).isOk

/-- Reading the text of the value comes to a part that it trips over. -/
def StopsWith (b : Breakdown) : Prop :=
  ∃ j part, Json.read? (e.text published) = some j ∧ Datum.ComesTo j part ∧ Datum.Trips part b

/-- What is printed about the entry: nothing if it can be read. A type that is not known is shown. -/
def warning : String :=
  match e.reading published with
  | .ok _ => ""
  | .error (.plain (.unknownPlainType shown)) => shown ++ "\n" ++ Run.publicWarning e.name
  | .error _ => Run.publicWarning e.name

variable {published : List (String × String)} {e : PublicEntry} {b : Breakdown}

theorem StopsWith.reading_eq (stops : e.StopsWith published b) :
    e.reading published = .error (.breakdown b) ∧ b ≠ .value := by
  rcases stops with ⟨j, part, read, comes, trips⟩
  rw [reading, read]
  exact Datum.ofPublished_eq_breakdown_iff.mpr ⟨part, comes, trips⟩

theorem cases_of_not_stops (goesOn : ∀ b, ¬e.StopsWith published b) :
    (∃ d, e.reading published = .ok d) ∨ ∃ f, f.Expected ∧ e.reading published = .error f := by
  cases read : e.reading published with
  | ok d => exact Or.inl ⟨d, rfl⟩
  | error f =>
    refine Or.inr ⟨f, ?_, rfl⟩
    rw [reading] at read
    split at read
    · cases read
      exact Or.inl rfl
    · rename_i j text
      by_contra loud
      obtain ⟨b, part, rfl, comes, trips⟩ := Datum.meets_of_error loud read
      exact goesOn b ⟨j, part, text, comes, trips⟩

end PublicEntry

namespace Store

def withPublic (s : Store) (x : ScopeRef) (e : PublicEntry) (v : ValueRef) : Store :=
  s.withNew x e.name ⟨s.fresh, v, endlessLines, e.confidence, false, false⟩

end Store

namespace Run

variable {x : ScopeRef} {e : PublicEntry} {w : World} {s s' : Store}
  {published : List (String × String)} {f : Fault} {d : Datum} {v : ValueRef} {b : Breakdown}

theorem publicText_eq (path : String) :
    publicText path w = .ok (PublicEntry.textAt w.around.published path) w := rfl

theorem loadPublicLine_eq (x : ScopeRef) (e : PublicEntry) (w : World) :
    loadPublicLine x e.line w =
      tryCatch (loadPublicValue x e.name (e.text w.around.published) e.digits)
        (fun f => do
          match f with
          | .plain (.unknownPlainType shown) => emit (shown ++ "\n" ++ publicWarning e.name)
          | .plain _ | .breakdown .value => emit (publicWarning e.name)
          | f => throw f) w := by
  unfold loadPublicLine
  rw [e.parts]
  exact bind_ok (publicText_eq _)

theorem loadPublicValue_error (failed : e.reading w.around.published = .error f) :
    loadPublicValue x e.name (e.text w.around.published) e.digits w = .error f w := by
  unfold PublicEntry.reading at failed
  unfold loadPublicValue
  split at failed
  · rename_i none
    cases failed
    rw [none]
    rfl
  · rename_i j some
    rw [some]
    dsimp only
    rw [failed]
    rfl

theorem loadPublicLine_good (read : e.reading w.around.published = .ok d)
    (made : restore d w = .ok v { w with store := s }) :
    loadPublicLine x e.line w = .ok () { w with store := s.withPublic x e v } := by
  rw [loadPublicLine_eq]
  apply tryCatch_ok
  unfold PublicEntry.reading at read
  unfold loadPublicValue
  split at read
  · cases read
  · rename_i j some
    rw [some]
    dsimp only
    rw [bind_ok (ofExcept_ok read), bind_ok made, listedInt, e.number]
    rfl

theorem loadPublicLine_bad (expected : f.Expected) (failed : e.reading w.around.published = .error f) :
    loadPublicLine x e.line w =
      .ok () { w with output := w.output ++ e.warning w.around.published } := by
  rw [loadPublicLine_eq, tryCatch_error (loadPublicValue_error failed), PublicEntry.warning, failed]
  rcases expected with rfl | ⟨c, rfl⟩
  · rfl
  · cases c <;> rfl

theorem loadPublicLine_stops (stops : e.StopsWith w.around.published b) :
    loadPublicLine x e.line w = .error (.breakdown b) w := by
  rcases stops.reading_eq with ⟨failed, other⟩
  rw [loadPublicLine_eq, tryCatch_error (loadPublicValue_error failed)]
  cases b with
  | value => exact absurd rfl other
  | _ => rfl

/-! ## The lines of the list -/

theorem loadPublicLines_filter (x : ScopeRef) (lines : List String) :
    loadPublicLines x lines =
      loadPublicLines x (lines.filter fun line => !(Text.strip line).isEmpty) := by
  induction lines with
  | nil => rfl
  | cons line lines ih =>
    rw [loadPublicLines, ih]
    cases blank : (Text.strip line).isEmpty with
    | true =>
      rw [filter_cons_of_neg (by simp [blank])]
      rfl
    | false =>
      rw [filter_cons_of_pos (by simp [blank]), loadPublicLines, blank]

theorem loadPublicLines_cons (x : ScopeRef) (e : PublicEntry) (lines : List String) :
    loadPublicLines x (e.line :: lines) =
      (do loadPublicLine x e.line; loadPublicLines x lines) := by
  rw [loadPublicLines, e.visible]
  rfl

/-! ## What the list comes to -/

def MadeFrom (x : ScopeRef) (d : Datum) (v : ValueRef) (s : Store) : Prop :=
  ∃ before after : Store, after.Extends [x] s ∧
    ∀ w, w.store = before → restore d w = .ok v { w with store := after }

/-- The name is bound to a new variable of the entry, which holds the value that is published. -/
def BoundTo (x : ScopeRef) (e : PublicEntry) (d : Datum) (s s' : Store) : Prop :=
  ∃ r id v, (s'.scope x).get? e.name = some (.variable r) ∧ s.slots.size ≤ r.index ∧
    s'.variableOf r = ⟨e.name, [⟨id, v, endlessLines, e.confidence, false, false⟩], []⟩ ∧
    MadeFrom x d v s'

/-- Each name is bound to the last entry of the name that can be read; all other names stay. -/
structure Binds (published : List (String × String)) (x : ScopeRef) (entries : List PublicEntry)
    (s s' : Store) : Prop where
  bound : ∀ before e after d, entries = before ++ e :: after → e.reading published = .ok d →
    (∀ e' ∈ after, e'.name = e.name → e'.isGood published = false) → BoundTo x e d s s'
  other : ∀ name, (∀ e ∈ entries, e.name = name → e.isGood published = false) →
    (s'.scope x).get? name = (s.scope x).get? name

theorem binds_nil : Binds published x [] s s := by
  refine ⟨fun before e after d whole => ?_, fun _ _ => rfl⟩
  cases before <;> cases whole

variable {entries : List PublicEntry}

theorem Binds.cons_bad (bad : e.isGood published = false) (binds : Binds published x entries s s') :
    Binds published x (e :: entries) s s' := by
  refine ⟨fun before e' after d whole read alone => ?_, fun name none => ?_⟩
  · cases before with
    | nil =>
      cases whole
      rw [PublicEntry.isGood, read] at bad
      cases bad
    | cons _ before =>
      cases whole
      exact binds.bound before e' after d rfl read alone
  · exact binds.other name (forall_mem_cons.mp none).2

theorem Binds.cons_good (read : e.reading published = .ok d) (inside : x.index < s.scopes.size)
    (grown : s.Extends [] t) (made : ∀ w, w.store = s → restore d w = .ok v { w with store := t })
    (kept : (t.withPublic x e v).Extends [x] s')
    (binds : Binds published x entries (t.withPublic x e v) s') :
    Binds published x (e :: entries) s s' := by
  have good : e.isGood published = true := by
    rw [PublicEntry.isGood, read]
    rfl
  have here : ((t.withPublic x e v).scope x) =
      (s.scope x).put e.name (.variable ⟨t.slots.size⟩) := by
    have within : x.index < t.scopes.size := Nat.lt_of_lt_of_le inside grown.size
    rw [← grown.scopes x not_mem_nil inside]
    exact Store.scope_withScope within _
  refine ⟨fun before e' after d' whole read' alone => ?_, fun name none => ?_⟩
  · cases before with
    | nil =>
      cases whole
      rw [read] at read'
      cases read'
      refine ⟨⟨t.slots.size⟩, t.fresh, v, ?_, ?_, ?_, ?_⟩
      · rw [binds.other e.name alone, here, Ledger.get?_put_self]
      · exact grown.size_slots
      · rw [kept.variableOf_eq (by simp [Store.withPublic, Store.withNew])]
        simp [Store.withPublic, Store.withNew, Store.variableOf]
      · exact ⟨s, t, (t.extends_withNew x _ _).trans kept, made⟩
    | cons _ before =>
      cases whole
      rcases binds.bound before e' after d' rfl read' alone with ⟨r, id, v', found, new, holds, made'⟩
      have larger : t.slots.size ≤ (t.withPublic x e v).slots.size := (t.extends_withNew x _ _).size_slots
      have size := grown.size_slots
      exact ⟨r, id, v', found, by omega, holds, made'⟩
  · have apart : e.name ≠ name := by
      intro same
      rw [none e mem_cons_self same] at good
      cases good
    rw [binds.other name (forall_mem_cons.mp none).2, here,
      Ledger.get?_put_of_ne apart]

theorem loadPublicLines_ok (inside : x.index < s.scopes.size)
    (goesOn : ∀ e ∈ entries, ∀ b, ¬e.StopsWith published b) :
    ∃ s', s.Extends [x] s' ∧ Binds published x entries s s' ∧
      ∀ w, w.store = s → w.around.published = published →
        loadPublicLines x (entries.map (·.line)) w = .ok () { w with
          store := s'
          output := w.output ++ String.join (entries.map (·.warning published)) } ∧
        loadPublicLines x ((entries.filter (·.isGood published)).map (·.line)) w =
          .ok () { w with store := s' } := by
  induction entries generalizing s with
  | nil =>
    refine ⟨s, .refl s, binds_nil, fun w stored _ => ?_⟩
    subst stored
    exact ⟨congrArg (EStateM.Result.ok ()) (by simp), rfl⟩
  | cons e entries ih =>
    have later : ∀ e ∈ entries, ∀ b, ¬e.StopsWith published b :=
      (forall_mem_cons.mp goesOn).2
    rcases PublicEntry.cases_of_not_stops (goesOn e mem_cons_self) with
      ⟨d, read⟩ | ⟨f, expected, failed⟩
    · rcases grows_restore d s with ⟨v, t, grown, made⟩
      have bounded : x.index < (t.withPublic x e v).scopes.size :=
        Nat.lt_of_lt_of_le inside (Nat.le_trans grown.size (t.extends_withNew x _ _).size)
      rcases ih bounded later with ⟨s', kept, binds, loads⟩
      have whole : s.Extends [x] (t.withPublic x e v) :=
        (grown.mono (nil_subset _)).trans (t.extends_withNew x _ _)
      refine ⟨s', whole.trans kept, binds.cons_good read inside grown made kept, ?_⟩
      intro w stored same
      subst same
      have good : e.isGood w.around.published = true := by
        rw [PublicEntry.isGood, read]
        rfl
      have silent : e.warning w.around.published = "" := by
        rw [PublicEntry.warning, read]
      have first := loadPublicLine_good (x := x) read (made w stored)
      rcases loads { w with store := t.withPublic x e v } rfl rfl with ⟨all, fewer⟩
      rw [map_cons, map_cons, filter_cons_of_pos good, map_cons,
        loadPublicLines_cons, loadPublicLines_cons, bind_ok first, bind_ok first, all, fewer, silent]
      exact ⟨congrArg (EStateM.Result.ok ()) (by simp), rfl⟩
    · rcases ih inside later with ⟨s', kept, binds, loads⟩
      have bad : e.isGood published = false := by
        rw [PublicEntry.isGood, failed]
        rfl
      refine ⟨s', kept, binds.cons_bad bad, ?_⟩
      intro w stored same
      subst same
      have first := loadPublicLine_bad (x := x) expected failed
      have all := (loads { w with output := w.output ++ e.warning w.around.published } stored rfl).1
      rw [map_cons, map_cons, filter_cons_of_neg (by simp [bad]),
        loadPublicLines_cons, bind_ok first, all, (loads w stored rfl).2]
      exact ⟨congrArg (EStateM.Result.ok ()) (by simp [String.append_assoc]), rfl⟩

theorem loadPublicLines_append (x : ScopeRef) (lines more : List String) :
    loadPublicLines x (lines ++ more) = (do loadPublicLines x lines; loadPublicLines x more) := by
  induction lines with
  | nil => rfl
  | cons line lines ih =>
    rw [cons_append, loadPublicLines, ih, loadPublicLines]
    split
    · rw [bind_assoc]
    · rfl

theorem loadPublicLines_stops (before after : List PublicEntry) (inside : x.index < w.store.scopes.size)
    (goesOn : ∀ e' ∈ before, ∀ b, ¬e'.StopsWith w.around.published b)
    (stops : e.StopsWith w.around.published b) :
    ∃ w', loadPublicLines x ((before ++ e :: after).map (·.line)) w = .error (.breakdown b) w' := by
  rcases loadPublicLines_ok inside goesOn with ⟨s', -, -, loads⟩
  rw [map_append, map_cons, loadPublicLines_append, bind_ok (loads w rfl rfl).1,
    loadPublicLines_cons]
  exact ⟨_, bind_error (loadPublicLine_stops stops)⟩

def Lists (published : List (String × String)) (entries : List PublicEntry) : Prop :=
  ((PublicEntry.textAt published "public_globals.txt").splitOn "\n").filter
    (fun line => !(Text.strip line).isEmpty) = entries.map (·.line)

theorem loadPublic_eq (lists : Lists w.around.published entries) :
    loadPublic x w = loadPublicLines x (entries.map (·.line)) w := by
  unfold loadPublic
  rw [bind_ok (publicText_eq _), loadPublicLines_filter, lists]

theorem exists_first_of_mem {p : α → Prop} {xs : List α} (some : ∃ y ∈ xs, p y) :
    ∃ before y after, xs = before ++ y :: after ∧ (∀ z ∈ before, ¬p z) ∧ p y := by
  classical
  obtain ⟨x, member, holds⟩ := some
  obtain ⟨y, first⟩ := Option.isSome_iff_exists.mp
    (find?_isSome (p := fun y => decide (p y)) |>.mpr ⟨x, member, decide_eq_true holds⟩)
  obtain ⟨holds, before, after, whole, none⟩ := find?_eq_some_iff_append.mp first
  exact ⟨before, y, after, whole, fun z early => by simpa using none z early, of_decide_eq_true holds⟩

/-- What a list of public variables comes to, whatever texts are published. The start returns exactly
if reading no text comes to a part that it trips over; the first text that does so stops it. If it
returns, all that is printed is a warning about each text that cannot be read; each name is bound in the
scope to the value of its last entry that can be read, and no other name is; and apart from the warnings
the same is done by the lines of the entries that can be read. -/
theorem loadPublic_spec {entries : List PublicEntry} (inside : x.index < w.store.scopes.size)
    (lists : Lists w.around.published entries) :
    ((∃ w', loadPublic x w = .ok () w') ↔
      ∀ e ∈ entries, ∀ b, ¬e.StopsWith w.around.published b) ∧
    (∀ before e after b, entries = before ++ e :: after →
      (∀ e' ∈ before, ∀ b', ¬e'.StopsWith w.around.published b') →
      e.StopsWith w.around.published b → ∃ w', loadPublic x w = .error (.breakdown b) w') ∧
    ((∀ e ∈ entries, ∀ b, ¬e.StopsWith w.around.published b) →
      ∃ s, w.store.Extends [x] s ∧ Binds w.around.published x entries w.store s ∧
        loadPublic x w = .ok () { w with
          store := s
          output := w.output ++ String.join (entries.map (·.warning w.around.published)) } ∧
        loadPublicLines x ((entries.filter (·.isGood w.around.published)).map (·.line)) w =
          .ok () { w with store := s }) := by
  rw [loadPublic_eq lists]
  refine ⟨⟨?_, fun goesOn => ?_⟩, ?_, fun goesOn => ?_⟩
  · rintro ⟨w', done⟩ e member b stopped
    have some : ∃ e ∈ entries, ∃ b, e.StopsWith w.around.published b := ⟨e, member, b, stopped⟩
    obtain ⟨before, e', after, rfl, none, b', stopped'⟩ := exists_first_of_mem some
    obtain ⟨w'', failed⟩ := loadPublicLines_stops before after inside
      (fun e member b stopped => none e member ⟨b, stopped⟩) stopped'
    cases done.symm.trans failed
  · obtain ⟨s, -, -, loads⟩ := loadPublicLines_ok inside goesOn
    exact ⟨_, (loads w rfl rfl).1⟩
  · rintro before e after b rfl goesOn stops
    exact loadPublicLines_stops before after inside goesOn stops
  · obtain ⟨s, grown, binds, loads⟩ := loadPublicLines_ok inside goesOn
    exact ⟨s, grown, binds, loads w rfl rfl⟩

def publicWorld (texts : List (String × String)) : World :=
  { (default : World) with
    store := { Store.empty with scopes := #[.empty] }
    around := { (default : Surroundings) with published := texts } }

def soleEntry : PublicEntry where
  line := "x;;;1;;;1"
  name := "x"
  address := "1"
  digits := "1"
  confidence := 1
  visible := by decide
  parts := splitOn_parts ';' [';', ';'] ['x'] [['1'], ['1']] (by decide)
  number := by decide

theorem lists_soleEntry (texts : List (String × String)) :
    Lists (("public_globals.txt", "x;;;1;;;1") :: texts) [soleEntry] := by
  have whole : "x;;;1;;;1".splitOn "\n" = ["x;;;1;;;1"] := splitOn_char_of_not_mem (by decide)
  show ("x;;;1;;;1".splitOn "\n").filter _ = _
  rw [whole]
  rfl

theorem loadPublic_spec_missing_text :
    loadPublic ⟨0⟩ (publicWorld [("public_globals.txt", "x;;;1;;;1")]) =
      .ok () { publicWorld [("public_globals.txt", "x;;;1;;;1")] with output := publicWarning "x" } := by
  have inside : 0 < (publicWorld [("public_globals.txt", "x;;;1;;;1")]).store.scopes.size := by decide
  have goesOn : ∀ e ∈ [soleEntry], ∀ b, ¬e.StopsWith [("public_globals.txt", "x;;;1;;;1")] b := by
    intro e member b stops
    rw [mem_singleton.mp member] at stops
    rcases stops with ⟨j, part, read, -⟩
    cases read
  rcases (loadPublic_spec inside (lists_soleEntry [])).2.2 goesOn with ⟨s, -, -, done, fewer⟩
  -- No entry can be read, so the store is what it was.
  have same : (publicWorld [("public_globals.txt", "x;;;1;;;1")]).store = s := by
    have worlds := (EStateM.Result.ok.inj fewer).2
    exact congrArg World.store worlds
  rw [done, ← same]
  rfl

/-- A text that is a number stops the program: it is no object, so it names no form. -/
theorem public_number_stops_program :
    ∃ w', loadPublic ⟨0⟩ (publicWorld [("public_globals.txt", "x;;;1;;;1"),
      ("serialized_objects/1", "3")]) = .error (.breakdown .kind) w' := by
  have stops : soleEntry.StopsWith [("public_globals.txt", "x;;;1;;;1"),
      ("serialized_objects/1", "3")] .kind :=
    ⟨.int 3, .int 3, rfl, .here, .scalar rfl⟩
  rw [loadPublic_eq (lists_soleEntry _)]
  exact loadPublicLines_stops [] [] (by decide) (forall_mem_nil _) stops

end Run

end DreamBerd
