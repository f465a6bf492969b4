import DreamBerd.Proofs.Copies
import DreamBerd.Proofs.DecimalText
import DreamBerd.Proofs.PartRuns
import DreamBerd.Proofs.SourceNames

/-!
# Variables that outlast programs

A declaration with an infinite lifetime adds a line to the list of variables and a value under a new
address (`Record`, `Archives.declare`); nothing else that a program does touches the two
(`archives_program`). The next program reads the list: it cuts each line into the parts it was joined
from, as no part holds a semicolon, and copies the value at the address (`loadStoredLine_ok`). Each name
is bound to its last record, and no other name is bound (`Restores`).
-/

namespace DreamBerd

open List Text Store

open Run

variable {w u : World} {rs : List Record} {a : Surroundings} {r : Record}

variable {s s' : Store} {x : ScopeRef} {w' : World}

/-! ## Records -/

/-- A variable that has been written down, with the store at that time. -/
structure Record where
  name : String
  lifetime : Lifetime ValueRef
  address : Nat
  store : Store

namespace Record

/-- The parts of the line in the list of variables. -/
def fields (r : Record) : List String :=
  [r.name, toString r.address, storedTruth r.lifetime.canBeReset, storedTruth r.lifetime.canEditValue,
    toString r.lifetime.confidence]

def line (r : Record) : String := ";;;".intercalate r.fields

/-- What is found at the address. -/
def entry (r : Record) : String × Option Snapshot :=
  (toString r.address, r.store.written r.lifetime.value)

def archive : List Record → Option Archive
  | [] => none
  | rs => some ⟨some (String.join (rs.map fun r => r.line ++ "\n")), some (rs.map entry)⟩

end Record

/-- From the first world to the second one, the given variables are written down one after the other. -/
inductive Archives (w : World) : List Record → World → Prop
  | refl : Archives w [] w
  | aside {rs : List Record} {u u' : World} : Archives w rs u →
    u'.around.archive = u.around.archive → u'.around.nextAddress = u.around.nextAddress →
    Archives w rs u'
  | declared {rs : List Record} {u u' : World} {d : Declaration} {i : Interpreter} {c : Context}
    {v : ValueRef} {l : Lifetime ValueRef} : Archives w rs u' → d.Lasting i c v u l u' →
    Archives w (rs ++ [⟨d.name.text, l, u'.around.nextAddress, u'.store⟩])
      (leaves (archiveVariable d.name.text l) u')

namespace Archives

variable {w'' : World} {rs' : List Record}

theorem trans (first : Archives w rs w') (second : Archives w' rs' w'') :
    Archives w (rs ++ rs') w'' := by
  induction second with
  | refl => rwa [append_nil]
  | aside _ same next ih => exact ih.aside same next
  | declared _ lasting ih =>
    rw [← append_assoc]
    exact ih.declared lasting

theorem of_quiet (quiet : Quiet w w') : Archives w [] w' :=
  refl.aside quiet.archive quiet.nextAddress

theorem of_step (step : Change w w') : ∃ rs, Archives w rs w' := by
  cases step with
  | quiet quiet => exact ⟨[], of_quiet quiet⟩
  | exported => exact ⟨[], refl.aside rfl rfl⟩
  | archived lasting => exact ⟨_, refl.declared lasting⟩

/-- Every record takes an address. -/
theorem nextAddress_eq (archives : Archives w rs w') :
    w'.around.nextAddress = w.around.nextAddress + rs.length := by
  induction archives with
  | refl => rfl
  | aside _ _ next ih => exact next.trans ih
  | declared _ _ ih =>
    rw [leaves_archiveVariable, length_append, ← Nat.add_assoc, ← ih]
    rfl

end Archives

def Archiving (w w' : World) : Prop := ∃ rs, Archives w rs w'

instance : IsPreorder World Archiving where
  refl _ := ⟨[], .refl⟩
  trans _ _ _ := fun ⟨_, first⟩ ⟨_, second⟩ => ⟨_, first.trans second⟩

theorem Evolves.archiving (evolves : Evolves w w') : Archiving w w' := by
  induction evolves with
  | refl => exact ⟨[], .refl⟩
  | tail _ step ih =>
    obtain ⟨_, first⟩ := ih
    obtain ⟨_, second⟩ := Archives.of_step step
    exact ⟨_, first.trans second⟩

namespace Run

theorem archiving_of_evolves {x : Run α} (keeps : Keeps Evolves x) : Keeps Archiving x :=
  fun w => (keeps w).archiving

theorem archiving_openPart (source : Source) (importable : Ledger String ValueRef) :
    Keeps Archiving (openPart source importable) := by
  intro w
  have quiet := quiet_openPart source importable w
  exact ⟨[], Archives.refl.aside quiet.archive quiet.nextAddress⟩

theorem archiving_runParts (n : Nat) (d : Deliveries) (parts : List Program.Part) :
    Keeps Archiving (runParts (interpreter n) d parts) := by
  induction parts generalizing d with
  | nil => exact keeps_pure
  | cons p parts ih =>
    refine keeps_bind keeps_ofExcept fun clauses => ?_
    refine keeps_bind (archiving_of_evolves (keeps_loadCode clauses)) fun code => ?_
    refine keeps_bind (archiving_openPart _ _) fun x => ?_
    refine keeps_bind (archiving_of_evolves (evolves_runPart n x code)) fun _ => ?_
    exact keeps_bind keeps_get fun w => ih _

theorem archives_program (n : Nat) (text : String) (w : World) :
    ∃ rs, Archives w rs (leaves (program (interpreter n) text) w) := by
  have := framed_interpreter .steps trivial n
  have delivered : ∀ es, Keeps Evolves (deliverAll (interpreter n) es) := by
    intro es
    induction es with
    | nil => exact keeps_pure
    | cons e es ih =>
      exact keeps_bind (keeps_deliver (F := .steps) (q := ⟨0⟩)) fun _ => ih
  have whole : Keeps Archiving (program (interpreter n) text) := by
    refine keeps_bind (archiving_runParts n _ _) fun _ => archiving_of_evolves ?_
    refine keeps_bind keeps_emit fun _ => keeps_bind keeps_get fun v => ?_
    exact keeps_bind (keeps_modifyAround rfl rfl) fun _ => delivered _
  exact whole w

theorem declare_archives (lasts : d.lifetime = some "Infinity")
    (done : declare (interpreter n) c d v w = .ok () w') :
    ∃ l u, d.Lasting (interpreter n) c v w l u ∧ Evolves w u ∧
      archiveVariable d.name.text l u = .ok () w' := by
  have := framed_interpreter .steps trivial n
  obtain ⟨⟨r, l⟩, w₁, introduced, done⟩ := bind_eq_ok done
  obtain ⟨_, w₂, told, done⟩ := bind_eq_ok done
  obtain ⟨_, w₃, published, done⟩ := bind_eq_ok done
  have evolves : Evolves w w₃ := calc
    Evolves w w₁ := (keeps_introduce (F := .steps)).ok introduced
    Evolves _ w₂ := (keeps_tellNameWatchers (F := .steps)).ok told
    Evolves _ w₃ := keeps_publishDeclared.ok published
  rw [settle, lasts] at done
  exact ⟨l, w₃, declare_lasting lasts introduced told published, evolves, done⟩

end Run

/-- The record of a declaration that has been executed: the permissions are those that its modifiers gave
in its scopes, and the value is stored as the declaration left it. -/
structure Record.Of (r : Record) (d : Declaration) (c : Context) (v : ValueRef) (w w' : World) : Prop where
  name : r.name = d.name.text
  value : r.lifetime.value = v
  confidence : r.lifetime.confidence = d.confidence
  flags : ∃ w₁ w₂, isVar c.scopes (atPosition? d.modifiers (-2)) w = .ok r.lifetime.canBeReset w₁ ∧
    isVar c.scopes (atPosition? d.modifiers (-1)) w₁ = .ok r.lifetime.canEditValue w₂
  store : r.store = w'.store
  storable : unstorable? (r.store.describe v) = none

theorem Archives.declare (archives : Archives w rs u) (lasts : d.lifetime = some "Infinity")
    (done : Run.declare (interpreter n) c d v u = .ok () u') :
    ∃ more r, r.Of d c v u u' ∧ Archives w (rs ++ more ++ [r]) u' := by
  obtain ⟨l, m, lasting, evolves, written⟩ := declare_archives lasts done
  obtain ⟨more, before⟩ := evolves.archiving
  have after := (archives.trans before).declared lasting
  rw [leaves, written] at after
  refine ⟨more, _, ?_, after⟩
  rw [archiveVariable_eq, lasting.value] at written
  cases storable : unstorable? (m.store.describe v) with
  | none =>
    rw [storable] at written
    cases written
    exact ⟨rfl, lasting.value, lasting.confidence, lasting.flags, rfl, storable⟩
  | some b =>
    rw [storable] at written
    cases written

/-! ## The archive -/

structure Surroundings.Holds (a : Surroundings) (rs : List Record) : Prop where
  archive : a.archive = Record.archive rs
  apart : rs.Pairwise (·.address < ·.address)
  below : ∀ r ∈ rs, r.address < a.nextAddress

theorem Record.archive_append (rs : List Record) (r : Record) :
    archive (rs ++ [r]) = some ⟨some (String.join (rs.map fun r => r.line ++ "\n") ++ (r.line ++ "\n")),
      some (rs.map entry ++ [r.entry])⟩ := by
  cases rs with
  | nil => simp [archive]
  | cons r' rs => simp [archive, String.append_assoc]

theorem Surroundings.Holds.record (holds : a.Holds rs) (name : String)
    (l : Lifetime ValueRef) (s : Store) :
    (a.record name l (s.written l.value)).Holds (rs ++ [⟨name, l, a.nextAddress, s⟩]) := by
  have list : (a.archive.getD ⟨none, none⟩).list.getD "" =
      String.join (rs.map fun r => r.line ++ "\n") := by
    rw [holds.archive]
    cases rs <;> rfl
  have values : (a.archive.getD ⟨none, none⟩).values.getD [] = rs.map Record.entry := by
    rw [holds.archive]
    cases rs <;> rfl
  -- The address is new, so no value is taken out.
  have kept : (rs.map Record.entry).filter (·.1 != toString a.nextAddress) = rs.map Record.entry := by
    refine filter_eq_self.mpr fun e member => ?_
    obtain ⟨r, there, rfl⟩ := mem_map.mp member
    have below := holds.below r there
    have apart : toString r.address ≠ toString a.nextAddress :=
      fun same => Nat.ne_of_lt below (Nat.repr_inj.mp same)
    simpa [Record.entry] using apart
  refine ⟨?_, ?_, ?_⟩
  · rw [Record.archive_append, Surroundings.record]
    simp only [list, values, kept]
    rfl
  · exact pairwise_append.mpr ⟨holds.apart, pairwise_singleton _ _, by simpa using holds.below⟩
  · intro r member
    rcases mem_append.mp member with before | here
    · exact Nat.lt_succ_of_lt (holds.below r before)
    · rw [mem_singleton.mp here]
      exact Nat.lt_succ_self _

theorem Archives.holds (archives : Archives w rs w') (fresh : w.around.archive = none) :
    w'.around.Holds rs := by
  induction archives with
  | refl => exact ⟨fresh, .nil, forall_mem_nil _⟩
  | aside _ same next ih => exact ⟨same.trans ih.archive, ih.apart, next ▸ ih.below⟩
  | declared _ _ ih =>
    rw [leaves_archiveVariable]
    exact ih.record _ _ _

/-! ## Reading the list -/

namespace Text

variable {cs : List Char}

theorem unifyBreaks_eq (unified : '\r' ∉ cs) : unifyBreaks cs = cs := by
  fun_induction unifyBreaks cs with
  | case1 => rfl
  | case2 cs ih => exact absurd mem_cons_self unified
  | case3 c cs _ ih =>
    have other : c ≠ '\r' := fun same => unified (same ▸ mem_cons_self)
    rw [if_neg other, ih fun there => unified (mem_cons_of_mem c there)]

theorem lines_join {ls : List String} (whole : ∀ l ∈ ls, '\n' ∉ l.toList ∧ '\r' ∉ l.toList) :
    lines (String.join (ls.map (· ++ "\n"))) = ls ++ [""] := by
  have unified : '\r' ∉ (String.join (ls.map (· ++ "\n"))).toList := by
    simpa using fun l member => (whole l member).2
  rw [lines, unifyBreaks_eq unified, String.ofList_toList, splitOn_char]
  clear unified
  induction ls with
  | nil => rfl
  | cons l ls ih =>
    have first := (whole l mem_cons_self).1
    have rest := ih (forall_mem_cons.mp whole).2
    have whole : (String.join ((l :: ls).map (· ++ "\n"))).toList =
        l.toList ++ '\n' :: (String.join (ls.map (· ++ "\n"))).toList := by
      simp
    rw [whole, splitOn_append_cons_self_of_not_mem first, map_cons, rest,
      String.ofList_toList, cons_append]

theorem mem_trimChars {p : Char → Bool} (member : c ∈ cs) (stays : p c = false) :
    c ∈ trimChars p cs := by
  have drop : ∀ {ds : List Char}, c ∈ ds → c ∈ ds.dropWhile p := by
    intro ds member
    rw [← takeWhile_append_dropWhile (p := p) (l := ds)] at member
    rcases mem_append.mp member with taken | left
    · rw [mem_takeWhile_imp taken] at stays
      cases stays
    · exact left
  exact mem_reverse.mpr (drop (mem_reverse.mpr (drop member)))

end Text

namespace Record

/-- A record of a declaration in a file: its name can be read from a file, the number of its marks has
not too many digits, and its value can be stored. -/
structure Proper (r : Record) : Prop where
  name : ∃ text part ts t, part ∈ Program.parts text ∧ Source.tokens ⟨part.name, part.code⟩ = .ok ts ∧
    t ∈ ts ∧ t.kind = .name ∧ t.text = r.name
  confidence : r.lifetime.confidence.natAbs < 10 ^ Decimal.maxDigits
  storable : unstorable? (r.store.describe r.lifetime.value) = none

theorem Proper.written (proper : r.Proper) :
    r.entry = (toString r.address, some ⟨r.store, r.lifetime.value⟩) := by
  rw [entry, Store.written, proper.storable]

theorem Proper.plain (proper : r.Proper) : ∀ field ∈ r.fields, Plain field := by
  obtain ⟨text, part, ts, t, among, scanned, there, name, same⟩ := proper.name
  have first : Plain r.name := same ▸ plain_of_mem_parts among scanned there name
  have digits : ∀ {n : Nat} {c : Char}, c ∈ Nat.toDigits 10 n → c ≠ ';' ∧ c ≠ '\n' ∧ c ≠ '\r' := by
    intro n c member
    have digit := Decimal.isDigit_toDigits member
    refine ⟨?_, ?_, ?_⟩ <;>
    · rintro rfl
      exact absurd digit (by decide)
  have truth : ∀ b, Plain (storedTruth b) := by
    intro b
    cases b <;> exact ⟨by decide, by decide, by decide⟩
  have address : Plain (toString r.address) := by
    have all : (toString r.address).toList = Nat.toDigits 10 r.address := by simp
    rw [Text.Plain, all]
    exact ⟨fun there => (digits there).1 rfl, fun there => (digits there).2.1 rfl,
      fun there => (digits there).2.2 rfl⟩
  have confidence : Plain (toString r.lifetime.confidence) := by
    have all : ∀ c ∈ (toString r.lifetime.confidence).toList, c ≠ ';' ∧ c ≠ '\n' ∧ c ≠ '\r' := by
      intro c member
      rw [Decimal.toList_toString_int, mem_append] at member
      rcases member with sign | digit
      · split at sign
        · rw [mem_singleton.mp sign]
          decide
        · cases sign
      · exact digits digit
    exact ⟨fun there => (all _ there).1 rfl, fun there => (all _ there).2.1 rfl,
      fun there => (all _ there).2.2 rfl⟩
  intro field member
  simp only [fields, mem_cons, not_mem_nil, or_false] at member
  rcases member with rfl | rfl | rfl | rfl | rfl
  · exact first
  · exact address
  · exact truth _
  · exact truth _
  · exact confidence

theorem line_eq (r : Record) : r.line = String.ofList (r.name.toList ++
    (r.fields.tail.map String.toList).flatMap (";;;".toList ++ ·)) := by
  rw [← String.toList_inj, line]
  simp [fields]

theorem Proper.splitOn_line (proper : r.Proper) : r.line.splitOn ";;;" = r.fields := by
  have whole : ∀ cs ∈ r.fields.map String.toList, ';' ∉ cs := by
    intro cs member
    obtain ⟨field, among, rfl⟩ := mem_map.mp member
    exact (proper.plain field among).1
  have joined : (r.fields.map String.toList).map String.ofList = r.fields := by
    simp
  rw [line_eq]
  exact (splitOn_parts ';' [';', ';'] _ _ whole).trans joined

theorem Proper.line_whole (proper : r.Proper) : '\n' ∉ r.line.toList ∧ '\r' ∉ r.line.toList := by
  have parts : ∀ {c}, c ∈ r.line.toList → c = ';' ∨ ∃ field ∈ r.fields, c ∈ field.toList := by
    intro c there
    rw [line_eq, String.toList_ofList] at there
    rcases mem_append.mp there with first | later
    · exact .inr ⟨r.name, mem_cons_self, first⟩
    · simp only [mem_flatMap, mem_map, mem_append] at later
      obtain ⟨_, ⟨field, among, rfl⟩, separator | inside⟩ := later
      · exact .inl (by simpa using separator)
      · exact .inr ⟨field, mem_of_mem_tail among, inside⟩
  refine ⟨fun there => ?_, fun there => ?_⟩
  · rcases parts there with separator | ⟨field, among, inside⟩
    · cases separator
    · exact (proper.plain field among).2.1 inside
  · rcases parts there with separator | ⟨field, among, inside⟩
    · cases separator
    · exact (proper.plain field among).2.2 inside

theorem line_visible (r : Record) : (strip r.line).isEmpty = false := by
  have there : ';' ∈ (strip r.line).toList := by
    rw [strip, trimWhere, String.toList_ofList]
    refine mem_trimChars ?_ (by decide)
    rw [line_eq]
    simp [fields]
  cases blank : (strip r.line).isEmpty with
  | false => rfl
  | true =>
    rw [String.isEmpty_iff.mp blank] at there
    cases there

end Record

/-! ## Giving the variables back -/

/-- Bind a name to a variable with the given lifetime, apart from its tag. -/
def Store.withLasting (s : Store) (x : ScopeRef) (r : Record) (v : ValueRef) : Store :=
  s.withNew x r.name ⟨s.fresh, v, endlessLines, r.lifetime.confidence, r.lifetime.canBeReset,
    r.lifetime.canEditValue⟩

namespace Record

/-- The name is bound to a variable that has been written down: it has one lifetime, the value of which
is a copy of what the value was. -/
def RestoredTo (r : Record) (x : ScopeRef) (s : Store) : Prop :=
  ∃ slot tag v, (s.scope x).get? r.name = some (.variable slot) ∧
    s.variableOf slot = ⟨r.name, [⟨tag, v, endlessLines, r.lifetime.confidence,
      r.lifetime.canBeReset, r.lifetime.canEditValue⟩], []⟩ ∧
    IsCopy r.store r.lifetime.value s v

end Record

/-- Each name is bound to its last record, and all other names stay. -/
structure Restores (x : ScopeRef) (rs : List Record) (s s' : Store) : Prop where
  bound : ∀ before r after, rs = before ++ r :: after → (∀ r' ∈ after, r'.name ≠ r.name) →
    r.RestoredTo x s'
  other : ∀ name, (∀ r ∈ rs, r.name ≠ name) → (s'.scope x).get? name = (s.scope x).get? name

def Store.withRecord (s : Store) (x : ScopeRef) (r : Record) : Store :=
  let cells := r.store.found r.lifetime.value
  (s.withCopies r.store cells).withLasting x r ((Redirection.into s cells).value r.lifetime.value)

theorem Store.extends_withRecord (s : Store) (x : ScopeRef) (r : Record) :
    s.Extends [x] (s.withRecord x r) :=
  ((s.extends_withCopies _ _).mono (nil_subset _)).trans (extends_withNew _ x _ _)

theorem Store.scope_withRecord (inside : x.index < s.scopes.size) (r : Record) :
    (s.withRecord x r).scope x = (s.scope x).put r.name
      (.variable ⟨(s.withCopies r.store (r.store.found r.lifetime.value)).slots.size⟩) := by
  have copied := s.extends_withCopies r.store (r.store.found r.lifetime.value)
  rw [← copied.scopes x not_mem_nil inside, withRecord,
    Store.withLasting, scope_withNew (Nat.lt_of_lt_of_le inside copied.size)]

theorem Record.restoredTo (inside : x.index < s.scopes.size) (kept : (s.withRecord x r).Extends [x] s')
    (last : (s'.scope x).get? r.name = ((s.withRecord x r).scope x).get? r.name) :
    r.RestoredTo x s' := by
  let cells := r.store.found r.lifetime.value
  let f := Redirection.into s cells
  let t := s.withCopies r.store cells
  refine ⟨⟨t.slots.size⟩, t.fresh, f.value r.lifetime.value, ?_, ?_, f, cells,
    r.store.mem_found _, rfl, ?_⟩
  · rw [last, Store.scope_withRecord inside, Ledger.get?_put_self]
  · have size : (s.withRecord x r).slots.size = t.slots.size + 1 := Array.size_push _
    rw [kept.variableOf_eq (by rw [size]; exact Nat.lt_succ_self _)]
    simp [Store.withRecord, Store.withLasting, Store.withNew, Store.variableOf, t, f, cells]
  · refine (mirrors_withCopies s r.store _).extends
      ((extends_withNew _ x _ _).trans kept) fun y copied => ?_
    -- What is copied is new, and the scope of the names is not.
    obtain ⟨n, -, place⟩ : ∃ n, _ ∧ f.scope y = ⟨s.scopes.size + n⟩ :=
      exists_place copied (rfl : Cell.scope? (.scope y) = some y) _
    rw [mem_singleton]
    rintro rfl
    rw [place] at inside
    exact absurd inside (Nat.not_lt.mpr (Nat.le_add_right _ _))

theorem Restores.cons (inside : x.index < s.scopes.size) (kept : (s.withRecord x r).Extends [x] s')
    (restores : Restores x rs (s.withRecord x r) s') : Restores x (r :: rs) s s' := by
  refine ⟨fun before r' after whole last => ?_, fun name none => ?_⟩
  · cases before with
    | nil =>
      cases whole
      exact Record.restoredTo inside kept (restores.other _ last)
    | cons _ before =>
      cases whole
      exact restores.bound before r' after rfl last
  · rw [restores.other name (forall_mem_cons.mp none).2,
      scope_withRecord inside, Ledger.get?_put_of_ne (none r mem_cons_self)]

namespace Run

variable {values : List (String × Option Snapshot)}

theorem loadStoredLine_ok (proper : r.Proper)
    (found : values.find? (·.1 == toString r.address) = some r.entry) (w : World) :
    loadStoredLine x values r.line w = .ok () { w with store := w.store.withRecord x r } := by
  have truth : ∀ b, (storedTruth b != "False") = b := by
    intro b
    cases b <;> decide
  rw [loadStoredLine, proper.splitOn_line, Record.fields]
  dsimp only
  rw [found, proper.written]
  rw [listedInt, Decimal.readInt?_toString proper.confidence]
  rw [truth, truth]
  rfl

theorem loadStoredLines_ok (inside : x.index < s.scopes.size) (proper : ∀ r ∈ rs, r.Proper)
    (found : ∀ r ∈ rs, values.find? (·.1 == toString r.address) = some r.entry) :
    ∃ s', s.Extends [x] s' ∧ Restores x rs s s' ∧ ∀ w, w.store = s →
      loadStoredLines x values (rs.map (·.line) ++ [""]) w = .ok () { w with store := s' } := by
  induction rs generalizing s with
  | nil =>
    refine ⟨s, .refl s, ⟨fun before r after whole => ?_, fun _ _ => rfl⟩, fun w stored => ?_⟩
    · cases before <;> cases whole
    · subst stored
      rfl
  | cons r rs ih =>
    have grown := s.extends_withRecord x r
    obtain ⟨s', kept, restores, loads⟩ := ih (Nat.lt_of_lt_of_le inside grown.size)
      ((forall_mem_cons.mp proper).2)
      ((forall_mem_cons.mp found).2)
    refine ⟨s', grown.trans kept, ?_, fun w stored => ?_⟩
    · exact restores.cons inside kept
    · subst stored
      have first := loadStoredLine_ok (x := x) (proper r mem_cons_self)
        (found r mem_cons_self) w
      rw [map_cons, cons_append, loadStoredLines, r.line_visible]
      exact (bind_ok first).trans (loads _ rfl)

theorem find?_entry (apart : rs.Pairwise (·.address < ·.address)) (member : r ∈ rs) :
    (rs.map Record.entry).find? (·.1 == toString r.address) = some r.entry := by
  induction rs with
  | nil => cases member
  | cons r' rs ih =>
    obtain ⟨first, rest⟩ := pairwise_cons.mp apart
    rw [map_cons]
    rcases mem_cons.mp member with rfl | later
    · exact find?_cons_of_pos (by simp [Record.entry])
    · have other : toString r'.address ≠ toString r.address :=
        fun same => Nat.ne_of_lt (first r later) (Nat.repr_inj.mp same)
      rw [find?_cons_of_neg (by simpa [Record.entry] using other)]
      exact ih rest later

theorem loadStored_ok (holds : a.Holds rs) (proper : ∀ r ∈ rs, r.Proper)
    (kept : u.around.archive = a.archive) (inside : x.index < u.store.scopes.size) :
    ∃ s, loadStored x u = .ok () { u with store := s } ∧ u.store.Extends [x] s ∧
      Restores x rs u.store s := by
  obtain ⟨s, grown, restores, loads⟩ :=
    loadStoredLines_ok inside proper fun r member => find?_entry holds.apart member
  refine ⟨s, ?_, grown, restores⟩
  rw [holds.archive] at kept
  refine (bind_ok rfl).trans ?_
  rw [kept]
  cases rs with
  | nil => exact loads u rfl
  | cons r rs =>
    have lines : lines (String.join ((r :: rs).map fun r => r.line ++ "\n")) =
        (r :: rs).map (·.line) ++ [""] := by
      rw [← lines_join fun l member => ?_, map_map]
      · rfl
      · obtain ⟨r', among, rfl⟩ := mem_map.mp member
        exact (proper r' among).line_whole
    show loadStoredLines x _ (Text.lines _) u = _
    rw [lines]
    exact loads u rfl

/-- A world with the keywords of declarations and two numbers. -/
def counterWorld : World :=
  { World.bare .quiet ⟨Program.unnamed, "var var<Infinity> a = 1!"⟩ with
    store := { empty with
      values := #[.keyword "var", .keyword "const", .number (.int 1), .number (.int 2)]
      scopes := #[⟨[("var", .predefined ⟨0⟩), ("const", .predefined ⟨1⟩)]⟩] } }

def counterDeclaration (modifier : String) (confidence : Nat) : Declaration where
  name := ⟨.name, "a", 1, 22⟩
  modifiers := [⟨.name, modifier, 1, 2⟩, ⟨.name, "var", 1, 6⟩]
  lifetime := some "Infinity"
  expression := .source [⟨.name, "1", 1, 26⟩]
  debug := 0
  confidence := confidence

/-- A program that is run later, in what surrounds an earlier one. -/
def laterWorld (u : World) : World :=
  { World.bare u.around ⟨Program.unnamed, ""⟩ with store := { empty with scopes := #[.empty] } }

theorem counter_proper {confidence : Nat} (few : confidence < 10)
    (made : r.Of (counterDeclaration modifier confidence) c v u u') : r.Proper where
  name := by
    have lines : lines "a" = ["a"] := splitOn_char_of_not_mem (by decide)
    refine ⟨"a", ⟨Program.unnamed, "a"⟩, _, ⟨.name, "a", 1, 0⟩, ?_, by cbv, ?_, rfl, made.name.symm⟩
    · rw [Program.parts, lines]
      decide
    · decide
  confidence := by
    rw [made.confidence]
    exact Nat.lt_of_lt_of_le few (Nat.le_pow (by decide))
  storable := made.value ▸ made.storable

end Run

end DreamBerd
