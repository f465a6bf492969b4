import DreamBerd.Proofs.ArrayLaws
import DreamBerd.Proofs.Lines

/-!
# Which statement gives a variable its value

A variable keeps a lifetime for each value that it has been given, and the first one counts. A
declaration puts its lifetime in front of the first one that was given with as many marks, an
assignment in front of the first one that was given with at least as many.

* `Shows` is what has to be known of the lifetimes: the first one, a bound on their number and on the
  lines that they have left. `Shows.redeclare`, `Shows.assign` and `Shows.tick` are its steps.
* `Run.Stage` is what has to be known of the world: the name has its variable to itself, and nobody waits
  for it. `Run.Stage.runSteps` follows a sequence of statements and passing lines.
* `latest_reading` finds the statement that counts without going through the lifetimes, and
  `overloaded_value` compares it with the most recent one that has the most marks.
-/

namespace DreamBerd

open List Store Run

variable {shown : Reading} {n : Nat} {lines : Int} {scopes rest : List ScopeRef} {w w' : World}
  {name : String} {i : Interpreter} {c : Context} {x : ScopeRef} {d : Declaration} {resettable : Bool}
  {steps : List Step}

variable {marks : Nat} {u : ValueRef} {gifts : List (Nat × ValueRef)}

/-! ## Lifetimes -/

namespace Variable

variable {α : Type} {v : Variable α} {l h : Lifetime α} {t front back : List (Lifetime α)}

theorem insertAt_ok (some : v.lifetimes ≠ []) (whole : v.lifetimes = front ++ back) (l : Lifetime α) :
    ∃ v', v.insertAt front.length l = .ok v' ∧ v'.lifetimes = front ++ l :: back := by
  obtain ⟨h, t, lifetimes⟩ := exists_cons_of_ne_nil some
  have value : v.value = .ok h.value := by
    rw [value, current, lifetimes]
    rfl
  have spliced : spliceAt v.lifetimes front.length [l] = front ++ l :: back := by
    simp [spliceAt, whole]
  unfold insertAt
  rw [spliced, value]
  split <;> exact ⟨_, rfl, rfl⟩

def insertsAt (v : Variable α) (l : Lifetime α) (i : Nat) : Bool :=
  match v.lifetimes[i]? with
  | some old => old.confidence == l.confidence
  | none => i == v.lifetimes.length

theorem insertFrom_succ (l : Lifetime α) (n i : Nat) (v : Variable α) :
    insertFrom l (n + 1) i v =
      if v.insertsAt l i then v.insertAt i l >>= insertFrom l n (i + 1)
      else insertFrom l n (i + 1) v := rfl

theorem insertFrom_front (done : List (Lifetime α)) (n : Nat)
    (other : ∀ m ∈ front, m.confidence ≠ l.confidence)
    (lifetimes : v.lifetimes = done ++ (front ++ back)) :
    insertFrom l (front.length + n) done.length v = insertFrom l n (done.length + front.length) v := by
  induction front generalizing done with
  | nil => simp
  | cons m front ih =>
    rw [forall_mem_cons] at other
    have passed : v.insertsAt l done.length = false := by
      rw [insertsAt, lifetimes, getElem?_append_right (Nat.le_refl _), Nat.sub_self]
      exact beq_false_of_ne other.1
    have rest := ih (done ++ [m]) other.2 (by simp [lifetimes])
    rw [length_append, length_singleton] at rest
    rw [length_cons, Nat.add_right_comm, insertFrom_succ, passed, if_neg Bool.false_ne_true, rest,
      Nat.add_assoc done.length, Nat.add_comm 1]

theorem insertFrom_back (first : ∀ m, back.head? = some m → ¬¬m.confidence = l.confidence) (n k : Nat)
    (lifetimes : v.lifetimes = front ++ (List.replicate k l ++ back)) (some : v.lifetimes ≠ []) :
    ∃ v', insertFrom l n (front.length + k) v = .ok v' ∧
      v'.lifetimes = front ++ (List.replicate (k + n) l ++ back) := by
  induction n generalizing v k with
  | zero => exact ⟨v, rfl, lifetimes⟩
  | succ n ih =>
    have here : v.insertsAt l (front.length + k) = true := by
      have behind : v.lifetimes[front.length + k]? = back.head? := by
        rw [lifetimes, getElem?_append_right (Nat.le_add_right _ _), Nat.add_sub_cancel_left,
          getElem?_append_right (by simp), length_replicate, Nat.sub_self, head?_eq_getElem?]
      rw [insertsAt, behind]
      cases back with
      | nil => simp [lifetimes]
      | cons m back => exact beq_iff_eq.mpr (not_not.mp (first m rfl))
    obtain ⟨v₁, inserted, spliced⟩ :=
      insertAt_ok some (lifetimes.trans (append_assoc _ _ _).symm) l
    rw [length_append, length_replicate] at inserted
    have lifetimes₁ : v₁.lifetimes = front ++ (List.replicate (k + 1) l ++ back) := by
      rw [spliced, replicate_succ']
      simp
    obtain ⟨v', inserts, lifetimes'⟩ := ih (k + 1) lifetimes₁ (by simp [lifetimes₁])
    refine ⟨v', ?_, by rw [lifetimes', Nat.add_right_comm, Nat.add_assoc]⟩
    rwa [insertFrom_succ, if_pos here, inserted]

theorem redeclare_eq (nonempty : v.lifetimes ≠ []) (whole : v.lifetimes = front ++ back)
    (other : ∀ m ∈ front, ¬m.confidence = l.confidence)
    (first : ∀ m, back.head? = some m → ¬¬m.confidence = l.confidence) :
    ∃ v', v.redeclare l = .ok v' ∧
      v'.lifetimes = front ++ (List.replicate (back.length + 1) l ++ back) := by
  obtain ⟨v', inserts, lifetimes⟩ := insertFrom_back first (back.length + 1) 0 whole nonempty
  refine ⟨v', ?_, by rw [lifetimes, Nat.zero_add]⟩
  have passes := insertFrom_front [] (back.length + 1) other whole
  rw [redeclare, whole, length_append]
  exact passes.trans (by rw [length_nil, Nat.zero_add]; exact inserts)

theorem exists_split (v : Variable α) (p : Lifetime α → Prop) [DecidablePred p] :
    ∃ front back, v.lifetimes.takeWhile (decide <| p ·) = front ∧ v.lifetimes = front ++ back ∧
      (∀ m ∈ front, p m) ∧ ∀ m, back.head? = some m → ¬p m := by
  refine ⟨_, _, rfl, takeWhile_append_dropWhile.symm, fun m member => ?_, fun m head => ?_⟩
  · simpa using mem_takeWhile_imp member
  · have same := head?_dropWhile_not (decide <| p ·) v.lifetimes
    rw [head] at same
    simpa using same

theorem assign_ok (nonempty : v.lifetimes ≠ []) (l : Lifetime α) :
    ∃ front back v', v.assign l = .ok v' ∧ v.lifetimes = front ++ back ∧
      v'.lifetimes = front ++ l :: back ∧ (∀ m ∈ front, m.confidence < l.confidence) ∧
      ∀ m, back.head? = some m → ¬m.confidence < l.confidence := by
  obtain ⟨front, back, taken, whole, less, first⟩ := v.exists_split (·.confidence < l.confidence)
  obtain ⟨v', inserted, lifetimes⟩ := insertAt_ok nonempty whole l
  refine ⟨front, back, v', ?_, whole, lifetimes, less, first⟩
  rw [assign, positionFor, taken, inserted]

theorem tick_lifetimes (lasting : ∀ m ∈ v.lifetimes, (v.lifetimes.length : Int) < m.linesLeft) :
    v.tick.lifetimes = v.lifetimes.map fun m =>
      { m with linesLeft := m.linesLeft - (v.lifetimes.filter (·.tag == m.tag)).length } := by
  unfold tick clearOutdated
  rw [filter_eq_self]
  intro m member
  obtain ⟨old, among, rfl⟩ := mem_map.mp member
  have lines := lasting old among
  have copies : (v.lifetimes.filter (·.tag == old.tag)).length ≤ v.lifetimes.length :=
    length_filter_le _ _
  simp only [bne_iff_ne]
  omega

end Variable

/-- The value that is read from a variable, the marks it was given with, and whether the variable can
be set. -/
structure Reading where
  value : ValueRef
  marks : Nat
  resettable : Bool
  deriving DecidableEq

/-- The first lifetime of the variable gives the reading; there are at most `n` lifetimes, and each
has at least `lines` lines left. -/
structure Shows (v : Variable ValueRef) (shown : Reading) (n : Nat) (lines : Int) : Prop where
  first : ∃ h t, v.lifetimes = h :: t ∧ h.value = shown.value ∧ h.confidence = shown.marks ∧
    h.canBeReset = shown.resettable
  length : v.lifetimes.length ≤ n
  lasting : ∀ m ∈ v.lifetimes, lines ≤ m.linesLeft

namespace Shows

variable {v : Variable ValueRef} {l : Lifetime ValueRef}

/-- A new lifetime, once or more often, in front of the first one that `p` does not hold of. -/
theorem insert {front back : List (Lifetime ValueRef)} {p : Lifetime ValueRef → Prop} [Decidable P]
    (shows : Shows v shown n lines) (confidence : l.confidence = (marks : Int))
    (lasts : lines ≤ l.linesLeft) (whole : v.lifetimes = front ++ back) (before : ∀ m ∈ front, p m)
    (first : ∀ m, back.head? = some m → ¬p m)
    (inserted : v'.lifetimes = front ++ (List.replicate (k + 1) l ++ back))
    (counts : ∀ h : Lifetime ValueRef, h.confidence = shown.marks → (¬p h ↔ P))
    (room : v.lifetimes.length + (k + 1) ≤ n') :
    Shows v' (if P then ⟨l.value, marks, l.canBeReset⟩ else shown) n' lines := by
  obtain ⟨h, t, lifetimes, value, marked, reset⟩ := shows.first
  have head := lifetimes.symm.trans whole
  refine ⟨?_, ?_, ?_⟩
  · cases front with
    | nil =>
      have here : P := (counts h marked).mp (first h (by rw [← nil_append back, ← head]; rfl))
      rw [if_pos here]
      exact ⟨l, _, inserted, rfl, confidence, rfl⟩
    | cons m front =>
      obtain ⟨rfl, -⟩ := List.cons.inj head
      rw [if_neg fun here => (counts h marked).mpr here (before h mem_cons_self)]
      exact ⟨h, _, inserted, value, marked, reset⟩
  · rw [whole, length_append] at room
    simp only [inserted, length_append, length_replicate]
    omega
  · intro m member
    have old := shows.lasting m
    rw [whole, mem_append] at old
    rw [inserted, mem_append, mem_append] at member
    rcases member with before | copy | after
    · exact old (.inl before)
    · rwa [eq_of_mem_replicate copy]
    · exact old (.inr after)

theorem nonempty (shows : Shows v shown n lines) : v.lifetimes ≠ [] := by
  obtain ⟨h, t, lifetimes, -⟩ := shows.first
  simp [lifetimes]

theorem redeclare (shows : Shows v shown n lines) (confidence : l.confidence = (marks : Int))
    (lasts : lines ≤ l.linesLeft) :
    ∃ v', v.redeclare l = .ok v' ∧
      Shows v' (if marks = shown.marks then ⟨l.value, marks, l.canBeReset⟩ else shown) (2 * n + 1)
        lines := by
  obtain ⟨front, back, -, whole, other, first⟩ := v.exists_split (¬·.confidence = l.confidence)
  obtain ⟨v', declared, lifetimes⟩ := Variable.redeclare_eq shows.nonempty whole other first
  refine ⟨v', declared, shows.insert confidence lasts whole other first lifetimes ?_ ?_⟩
  · intro h marked
    rw [not_not, marked, confidence, Int.ofNat_inj, eq_comm]
  · have bound := shows.length
    have part := congrArg List.length whole
    rw [length_append] at part
    omega

theorem assign (shows : Shows v shown n lines) (confidence : l.confidence = (marks : Int))
    (lasts : lines ≤ l.linesLeft) :
    ∃ v', v.assign l = .ok v' ∧
      Shows v' (if marks ≤ shown.marks then ⟨l.value, marks, l.canBeReset⟩ else shown) (n + 1)
        lines := by
  obtain ⟨front, back, v', assigned, whole, lifetimes, less, first⟩ := Variable.assign_ok shows.nonempty l
  refine ⟨v', assigned, shows.insert (k := 0) confidence lasts whole less first lifetimes ?_ ?_⟩
  · intro h marked
    rw [not_lt, marked, confidence, Int.ofNat_le]
  · exact Nat.succ_le_succ shows.length

theorem tick (shows : Shows v shown n lines) (enough : (n : Int) < lines) :
    Shows v.tick shown n (lines - n) := by
  obtain ⟨h, t, lifetimes, value, marked, reset⟩ := shows.first
  have bound := shows.length
  have older := Variable.tick_lifetimes fun m member => by
    have lasts := shows.lasting m member
    omega
  refine ⟨?_, ?_, ?_⟩
  · rw [older, lifetimes]
    exact ⟨_, _, map_cons, value, marked, reset⟩
  · rwa [older, length_map]
  · intro m member
    rw [older] at member
    obtain ⟨old, among, rfl⟩ := mem_map.mp member
    have lasts := shows.lasting old among
    have copies : (v.lifetimes.filter (·.tag == old.tag)).length ≤ v.lifetimes.length :=
      length_filter_le _ _
    dsimp only
    omega

end Shows

/-! ## Keywords -/

/-- A token stands for a keyword, through a name that is no variable. -/
structure Means (s : Store) (scopes : List ScopeRef) (t : Token) (word : String) : Prop where
  plain : '.' ∉ t.text.toList
  found : ∃ e y v, s.innermost t.text scopes = some (e, y) ∧ (∀ r, e ≠ .variable r) ∧
    s.entryValue e = .ok v ∧ s.value v = .keyword word

namespace Means

variable {s s' : Store} {t : Token} {word : String}

theorem congr (means : Means s scopes t word) (values : s'.values = s.values)
    (names : ∀ e y, (∀ r, e ≠ .variable r) → s.innermost t.text scopes = some (e, y) →
      s'.innermost t.text scopes = some (e, y)) : Means s' scopes t word := by
  obtain ⟨e, y, v, found, other, value, keyword⟩ := means.found
  refine ⟨means.plain, e, y, v, names e y other found, other, ?_, ?_⟩
  · rcases e with u | ⟨n, u⟩ | r
    · exact value
    · exact value
    · exact absurd rfl (other r)
  · rwa [Store.value, values]

theorem isVar_ok (means : Means w.store scopes t word) :
    isVar scopes (some t) w = .ok (word == "var") w := by
  obtain ⟨e, y, v, found, -, value, keyword⟩ := means.found
  have named : lookup scopes t.text w = .ok (some e) w :=
    lookup_ok (by rw [lookup_eq means.plain, found, Option.map_some])
  have kept : valueOfToken scopes t w = .ok v w := by
    refine (bind_ok named).trans ?_
    refine (bind_ok (entryValue_ok value)).trans ?_
    refine (Run.bind_ok Run.value_ok).trans ?_
    rw [keyword]
    rfl
  refine (bind_ok kept).trans ?_
  refine (Run.bind_ok Run.value_ok).trans ?_
  rw [keyword]
  by_cases same : word = "var"
  · subst same
    rfl
  · have other : (word == "var") = false := by simpa using same
    rw [other]
    simp [same]
    rfl

end Means

theorem Run.Passed.innermost {xs : List ScopeRef} (passed : Passed xs w w')
    (distinct : ∀ y ∈ scopes, (w.store.scope y).keys.Nodup) (other : ∀ r, e ≠ .variable r)
    (found : w.store.innermost name scopes = some (e, y)) :
    w'.store.innermost name scopes = some (e, y) := by
  induction scopes with
  | nil => cases found
  | cons z scopes ih =>
    obtain ⟨gone, thinner, named⟩ := passed.thinned z
    rw [Store.innermost] at found ⊢
    cases here : (w.store.scope z).get? name with
    | none =>
      rw [here] at found
      have none : (w'.store.scope z).get? name = none := by
        rw [Ledger.get?_eq_none_iff] at here ⊢
        rw [thinner]
        exact fun member => here ((Ledger.keys_foldl_erase_subset gone _).subset member)
      rw [none]
      exact ih ((forall_mem_cons.mp distinct).2) found
    | some e' =>
      rw [here] at found
      cases found
      have stays : name ∉ gone := by
        intro member
        obtain ⟨r, among⟩ := named name member
        have isVariable := Ledger.get?_of_mem (distinct y mem_cons_self) among
        rw [here, Option.some.injEq] at isVariable
        exact other r isVariable
      rw [thinner, Ledger.get?_foldl_erase stays, here]

/-! ## Steps -/

/-- A step in the life of a variable: a declaration, whose modifiers say whether the variable can be
set, an assignment, or a line that passes. -/
inductive Step where
  | declare (d : Declaration) (resettable : Bool) (v : ValueRef)
  | assign (a : Assignment) (v : ValueRef)
  | pass

def Step.run (i : Interpreter) (c : Context) : Step → Run Unit
  | declare d _ v => Run.declare i c d v
  | assign a v => Run.assign i c a [] v
  | pass => tick c.scopes

def runSteps (i : Interpreter) (c : Context) : List Step → Run Unit
  | [] => return ()
  | s :: steps => do
    s.run i c
    runSteps i c steps

structure PlainDeclaration (s : Store) (scopes : List ScopeRef) (name : String) (d : Declaration)
    (resettable : Bool) : Prop where
  name_eq : d.name.text = name
  silent : d.debug = 0
  lifetime : d.lifetime = none
  modifiers : ∃ m n word word', d.modifiers = [m, n] ∧ m.text ≠ name ∧ n.text ≠ name ∧
    Means s scopes m word ∧ Means s scopes n word' ∧ resettable = (word == "var")

/-- A step about the name as it is written with exclamation marks. -/
def Step.Plain (s : Store) (scopes : List ScopeRef) (name : String) : Step → Prop
  | declare d resettable _ => PlainDeclaration s scopes name d resettable
  | assign a _ => a.name.text = name ∧ a.debug = 0
  | pass => True

namespace Run

variable {r : VariableRef} {l : Lifetime ValueRef} {v : ValueRef}

def declaredLifetime (w : World) (d : Declaration) (v : ValueRef) (lines : Int)
    (resettable editable : Bool) : Lifetime ValueRef :=
  ⟨w.store.fresh, v, lines, d.confidence, resettable, editable⟩

def afterFresh (w : World) : World :=
  { w with store := { w.store with fresh := w.store.fresh + 1 } }

/-- The number of lines that a declaration says its variable is to last. -/
inductive Counts : Option String → Int → Prop
  | endless : Counts none endlessLines
  | lines {s : String} {c : Char} {n : Int} : s.toList.getLast? = some c → Text.isDigit c = true →
    Decimal.readInt? s = some n → Counts (some s) n

structure CountedDeclaration (s : Store) (scopes : List ScopeRef) (name : String) (d : Declaration)
    (lines : Int) (resettable : Bool) : Prop where
  name_eq : d.name.text = name
  silent : d.debug = 0
  lifetime : Counts d.lifetime lines
  modifiers : ∃ m n word word', d.modifiers = [m, n] ∧ Means s scopes m word ∧ Means s scopes n word' ∧
    resettable = (word == "var")

theorem counted_of_plain {s : Store} (declares : PlainDeclaration s scopes name d resettable) :
    CountedDeclaration s scopes name d endlessLines resettable := by
  obtain ⟨m, n, word, word', modifiers, -, -, means, means', reset⟩ := declares.modifiers
  exact ⟨declares.name_eq, declares.silent, declares.lifetime ▸ .endless,
    m, n, word, word', modifiers, means, means', reset⟩

/-- A declaration for a number of lines sets no timer, and it stores nothing. -/
theorem Counts.spec (counts : Counts d.lifetime lines) :
    linesOf d.lifetime w = .ok lines w ∧ settle d r l = pure () := by
  unfold settle
  generalize d.lifetime = lifetime at counts ⊢
  cases counts with
  | endless => exact ⟨rfl, rfl⟩
  | @lines s _ _ last digit read =>
    have counted : isTemporal s = pure false := by
      rw [isTemporal, last]
      dsimp only
      rw [digit]
      rfl
    have finite : s ≠ "Infinity" := by
      rintro rfl
      cases last
      cases digit
    constructor
    · rw [linesOf, counted, read]
      rfl
    · simp only [counted]
      rfl

/-- The variable of the name is held by the innermost scope and by no other, nobody watches it and no
statement waits for it. -/
structure Stage (c : Context) (x : ScopeRef) (name : String) (r : VariableRef) (w : World) : Prop
    extends Owned w.store c.scopes x name r where
  unawaited : w.part.vigils.get? (name, x) = none
  unwatchedName : Unwatched w c.boards (.name name)
  unwatched : Unwatched w c.boards (.variable r)

theorem Stage.of_owned (stage : Stage c x name r w) (namesOnly : NamesOnly w w')
    (owned : Owned w'.store c.scopes x name r) : Stage c x name r w' := by
  refine ⟨owned, ?_, ?_, ?_⟩
  · rw [namesOnly.part]
    exact stage.unawaited
  all_goals
    unfold Unwatched
    rw [namesOnly.boards]
  · exact stage.unwatchedName
  · exact stage.unwatched

theorem Stage.withSlots (stage : Stage c x name r w) (namesOnly : NamesOnly w w')
    (scopes : w'.store.scopes = w.store.scopes) (size : w'.store.slots.size = w.store.slots.size) :
    Stage c x name r w' := by
  have same : w'.store.scope = w.store.scope := by
    funext y
    rw [Store.scope, Store.scope, scopes]
  exact stage.of_owned namesOnly
    ⟨size ▸ stage.inside, same ▸ stage.distinct, same ▸ stage.bound, same ▸ stage.only⟩

def KeepsKeywords (c : Context) (name : String) (w w' : World) : Prop :=
  ∀ t word, t.text ≠ name → Means w.store c.scopes t word → Means w'.store c.scopes t word

theorem keepsKeywords_of_scopes (namesOnly : NamesOnly w w')
    (scopes : w'.store.scopes = w.store.scopes) : KeepsKeywords c name w w' := by
  intro t word _ means
  have same : w'.store.innermost t.text c.scopes = w.store.innermost t.text c.scopes :=
    Store.innermost_congr fun y _ => by rw [Store.scope, Store.scope, scopes]
  exact means.congr namesOnly.values fun e y _ found => same.trans found

theorem Stage.pass (stage : Stage c x name r w) (nodup : c.scopes.Nodup) (member : x ∈ c.scopes)
    (shows : Shows (w.store.variableOf r) shown n lines) (enough : (n : Int) < lines) :
    ∃ w', tick c.scopes w = .ok () w' ∧ Stage c x name r w' ∧ KeepsKeywords c name w w' ∧
      Shows (w'.store.variableOf r) shown n (lines - n) := by
  have older := shows.tick enough
  obtain ⟨w', ticks, passed, becomesOlder, stays⟩ := tick_owned nodup member stage.toOwned
  rw [if_neg older.nonempty] at stays
  have owned := stage.passed passed stays
  refine ⟨w', ticks, stage.of_owned passed.namesOnly owned, ?_, becomesOlder ▸ older⟩
  intro t word _ means
  exact means.congr passed.namesOnly.values fun e y other found =>
    passed.innermost stage.distinct other found

theorem bindVariable_bound {new : Variable ValueRef}
    (bound : (w.store.scope x).get? name = some (.variable r))
    (declared : (w.store.variableOf r).redeclare l = .ok new) :
    bindVariable x name l (afterFresh w) = .ok r (withLifetime w r new) := by
  refine (bind_ok scope_ok).trans ?_
  have found : ((afterFresh w).store.scope x).get? name = some (.variable r) := bound
  rw [found]
  exact (bind_ok (ofExcept_ok declared)).trans rfl

/-- The name has not been declared in the innermost scope, nobody watches it and no statement waits for
it. -/
structure Start (c : Context) (x : ScopeRef) (name : String) (w : World) : Prop where
  exists_scope : x.index < w.store.scopes.size
  distinct : ∀ y ∈ c.scopes, (w.store.scope y).keys.Nodup
  known : ∀ y ∈ c.scopes, ∀ k r, (k, .variable r) ∈ (w.store.scope y).entries →
    r.index < w.store.slots.size
  new : (w.store.scope x).get? name = none
  unawaited : w.part.vigils.get? (name, x) = none
  unwatchedName : Unwatched w c.boards (.name name)
  unwatched : Unwatched w c.boards (.variable ⟨w.store.slots.size⟩)

def withBinding (w : World) (x : ScopeRef) (name : String) (l : Lifetime ValueRef) : World :=
  { w with store := w.store.withNew x name l }

theorem bindVariable_new (new : (w.store.scope x).get? name = none) :
    bindVariable x name l (afterFresh w) =
      .ok ⟨w.store.slots.size⟩ (withBinding w x name l) := by
  refine (bind_ok scope_ok).trans ?_
  have none : ((afterFresh w).store.scope x).get? name = none := new
  rw [none]
  rfl

theorem Start.stage (start : Start c x name w) (member : x ∈ c.scopes) :
    Stage c x name ⟨w.store.slots.size⟩ (withBinding w x name l) := by
  have own : (withBinding w x name l).store.scope x = _ := scope_withNew start.exists_scope
  have others {y : ScopeRef} (other : y ≠ x) :
      (withBinding w x name l).store.scope y = w.store.scope y := scope_withScope_of_ne other _
  have absent : name ∉ (w.store.scope x).keys := Ledger.get?_eq_none_iff.mp start.new
  have added := Ledger.entries_put_of_not_mem (v := .variable ⟨w.store.slots.size⟩) absent
  refine ⟨⟨?_, ?_, ?_, ?_⟩, start.unawaited, start.unwatchedName, start.unwatched⟩
  · simp [withBinding, withNew]
  · intro y member
    by_cases same : y = x
    · subst same
      rw [own]
      exact Ledger.nodup_keys_put (start.distinct y member) absent
    · rw [others same]
      exact start.distinct y member
  · rw [own, Ledger.get?_put_self]
  · intro y member k among
    by_cases same : y = x
    · subst same
      rw [own, added] at among
      rcases mem_append.mp among with old | new
      · exact absurd (start.known y member k _ old) (Nat.lt_irrefl _)
      · cases mem_singleton.mp new
        exact ⟨rfl, rfl⟩
    · rw [others same] at among
      exact absurd (start.known y member k _ among) (Nat.lt_irrefl _)

section Statements

variable (plain : '.' ∉ name.toList) (innermost : c.scopes = x :: rest)

include plain innermost

theorem declare_eq (declares : CountedDeclaration w.store c.scopes name d lines resettable) :
    ∃ editable, declare i c d v w = (do
        let r ← bindVariable x name (declaredLifetime w d v lines resettable editable)
        tellVigil i c (name, x) v
        tellNameWatchers i c name r v)
      (afterFresh w) := by
  obtain ⟨m, n, word, word', modifiers, means, means', rfl⟩ := declares.modifiers
  refine ⟨word' == "var", ?_⟩
  have whole : nameParts d.name.text = [d.name.text] := nameParts_of_plain (declares.name_eq ▸ plain)
  have prepared : prepare c d w =
      .ok (w.store.fresh, lines, word == "var", word' == "var") (afterFresh w) := by
    unfold prepare
    rw [modifiers, whole]
    refine (bind_ok means.isVar_ok).trans ((bind_ok means'.isVar_ok).trans ?_)
    exact (bind_ok (declares.lifetime.spec (r := ⟨0⟩) (l := default)).1).trans rfl
  have quiet : debugDeclaration (x :: rest) 0 d.name [m, n] d.lifetime d.expression v = pure () := rfl
  unfold declare introduce bindDeclared
  simp only [bind_assoc]
  rw [bind_ok prepared, declares.name_eq, declares.silent, publishDeclared, modifiers, innermost]
  simp only [bind_assoc, pure_bind, quiet]
  refine congrFun (congrArg _ (funext fun r => congrArg _ (funext fun _ => ?_))) _
  rw [(declares.lifetime.spec (w := w)).2]
  exact bind_pure_unit

theorem Stage.assign (stage : Stage c x name r w) (named : a.name.text = name) (silent : a.debug = 0)
    (shows : Shows (w.store.variableOf r) shown n lines) (permitted : shown.resettable = true)
    (lasts : lines ≤ endlessLines) :
    ∃ w', assign i c a [] v w = .ok () w' ∧ Stage c x name r w' ∧ KeepsKeywords c name w w' ∧
      Shows (w'.store.variableOf r)
        (if a.confidence ≤ shown.marks then ⟨v, a.confidence, shown.resettable⟩ else shown) (n + 1)
        lines := by
  obtain ⟨h, t, lifetimes, -, -, reset⟩ := shows.first
  have current : (w.store.variableOf r).current = .ok h := by
    rw [Variable.current, lifetimes]
  obtain ⟨new, assigned, showsNew⟩ := shows.assign (l := assignedLifetime w h a.confidence v) rfl lasts
  have found : w.store.innermost a.name.text c.scopes = some (.variable r, x) := by
    rw [innermost, named]
    exact innermost_cons stage.bound
  have namesOnly : NamesOnly w (withLifetime w r new) := rfl
  have stage' : Stage c x name r (withLifetime w r new) :=
    stage.withSlots namesOnly rfl (by simp [withLifetime, withVariable])
  refine ⟨withLifetime w r new, ?_, stage', keepsKeywords_of_scopes namesOnly rfl, ?_⟩
  · rw [assign_eq (named ▸ plain) silent found current (reset ▸ permitted) assigned, named]
    rw [bind_ok (tellVigil_unawaited stage'.unawaited)]
    exact tellVariableWatchers_unwatched stage'.unwatched
  · have value : (withLifetime w r new).store.variableOf r = new :=
      variableOf_withVariable stage.inside new
    rwa [value, ← reset]

theorem Stage.redeclare (stage : Stage c x name r w)
    (declares : CountedDeclaration w.store c.scopes name d lines resettable) :
    ∃ editable, ∀ new, (w.store.variableOf r).redeclare
        (declaredLifetime w d v lines resettable editable) = .ok new →
      declare i c d v w = .ok () (withLifetime w r new) ∧ Stage c x name r (withLifetime w r new) ∧
        (withLifetime w r new).store.variableOf r = new := by
  obtain ⟨editable, start⟩ := declare_eq plain innermost declares
  refine ⟨editable, fun new declared => ?_⟩
  have stage' : Stage c x name r (withLifetime w r new) :=
    stage.withSlots rfl rfl (by simp [withLifetime, withVariable])
  refine ⟨?_, stage', variableOf_withVariable stage.inside new⟩
  refine start.trans ((bind_ok (bindVariable_bound stage.bound declared)).trans ?_)
  refine (bind_ok (tellVigil_unawaited stage'.unawaited)).trans ?_
  exact tellNameWatchers_unwatched stage'.unwatchedName

theorem Stage.declare (stage : Stage c x name r w)
    (declares : PlainDeclaration w.store c.scopes name d resettable)
    (shows : Shows (w.store.variableOf r) shown n lines) (lasts : lines ≤ endlessLines) :
    ∃ w', declare i c d v w = .ok () w' ∧ Stage c x name r w' ∧ KeepsKeywords c name w w' ∧
      Shows (w'.store.variableOf r)
        (if d.confidence = shown.marks then ⟨v, d.confidence, resettable⟩ else shown) (2 * n + 1)
        lines := by
  obtain ⟨editable, goesOn⟩ := stage.redeclare plain innermost (counted_of_plain declares)
  obtain ⟨new, declared, showsNew⟩ :=
    shows.redeclare (l := declaredLifetime w d v endlessLines resettable editable) rfl lasts
  obtain ⟨done, stage', value⟩ := goesOn new declared
  exact ⟨_, done, stage', keepsKeywords_of_scopes rfl rfl, value.symm ▸ showsNew⟩

theorem Start.declare (start : Start c x name w)
    (declares : PlainDeclaration w.store c.scopes name d resettable) :
    ∃ w' r, declare i c d v w = .ok () w' ∧ Stage c x name r w' ∧ KeepsKeywords c name w w' ∧
      Shows (w'.store.variableOf r) ⟨v, d.confidence, resettable⟩ 1 endlessLines := by
  obtain ⟨editable, begin⟩ := declare_eq plain innermost (counted_of_plain declares)
  have stage : Stage c x name ⟨w.store.slots.size⟩
      (withBinding w x name (declaredLifetime w d v endlessLines resettable editable)) :=
    start.stage (by simp [innermost])
  refine ⟨_, _, ?_, stage, ?_, ?_⟩
  · refine begin.trans ((bind_ok (bindVariable_new start.new)).trans ?_)
    refine (bind_ok (tellVigil_unawaited stage.unawaited)).trans ?_
    exact tellNameWatchers_unwatched stage.unwatchedName
  · intro t word other means
    refine means.congr rfl fun e y _ found => (innermost_congr fun y _ => ?_).trans found
    by_cases same : y = x
    · subst same
      rw [withBinding, scope_withNew start.exists_scope, Ledger.get?_put_of_ne (Ne.symm other)]
    · exact congrArg (Ledger.get? · t.text) (scope_withScope_of_ne same _)
  · have value : (withBinding w x name (declaredLifetime w d v endlessLines resettable editable)).store.variableOf
        ⟨w.store.slots.size⟩ = ⟨name, [declaredLifetime w d v endlessLines resettable editable], []⟩ := by
      simp [withBinding, withNew, Store.variableOf]
    rw [value]
    refine ⟨⟨_, [], rfl, rfl, rfl, rfl⟩, Nat.le_refl 1, ?_⟩
    intro m member
    rw [mem_singleton.mp member]
    exact Int.le_refl _

end Statements

end Run

/-! ## What is read -/

namespace Reading

def after (shown : Reading) : Step → Reading
  | .declare d resettable v =>
    if d.confidence = shown.marks then ⟨v, d.confidence, resettable⟩ else shown
  | .assign a v =>
    if a.confidence ≤ shown.marks then ⟨v, a.confidence, shown.resettable⟩ else shown
  | .pass => shown

/-- Whether the variable can be set wherever a step sets it. -/
def Permitted : Reading → List Step → Prop
  | _, [] => True
  | shown, .assign a v :: steps =>
    shown.resettable = true ∧ Permitted (shown.after (.assign a v)) steps
  | shown, s :: steps => Permitted (shown.after s) steps

end Reading

/-- How many lifetimes there can be after the steps if there are `n` before them. -/
def room : Nat → List Step → Nat
  | n, [] => n
  | n, .declare .. :: steps => room (2 * n + 1) steps
  | n, .assign .. :: steps => room (n + 1) steps
  | n, .pass :: steps => room n steps

def passes : List Step → Nat
  | [] => 0
  | .pass :: steps => passes steps + 1
  | _ :: steps => passes steps

theorem le_room (n : Nat) (steps : List Step) : n ≤ room n steps := by
  induction steps generalizing n with
  | nil => exact Nat.le_refl n
  | cons s steps ih =>
    cases s with
    | declare d resettable v => exact Nat.le_trans (by omega) (ih (2 * n + 1))
    | assign a v => exact Nat.le_trans (Nat.le_succ n) (ih (n + 1))
    | pass => exact ih n

def Reads (s : Store) (scopes : List ScopeRef) (name : String) (v : ValueRef) : Prop :=
  ∃ e, s.lookup scopes name = .ok (some e) ∧ s.entryValue e = .ok v

section Runs

variable {r : VariableRef}

theorem Step.Plain.keep (keeps : KeepsKeywords c name w w') {s : Step}
    (plain : s.Plain w.store c.scopes name) : s.Plain w'.store c.scopes name := by
  cases s with
  | declare d resettable v =>
    obtain ⟨m, n, word, word', modifiers, other, other', means, means', reset⟩ :=
      PlainDeclaration.modifiers plain
    exact { plain with modifiers := ⟨m, n, word, word', modifiers, other, other',
      keeps m word other means, keeps n word' other' means', reset⟩ }
  | assign a v => exact plain
  | pass => trivial

variable (plain : '.' ∉ name.toList) (innermost : c.scopes = x :: rest)

include plain innermost

theorem Run.Stage.reads (stage : Stage c x name r w)
    (shows : Shows (w.store.variableOf r) shown n lines) :
    Reads w.store c.scopes name shown.value := by
  refine ⟨.variable r, ?_, ?_⟩
  · rw [lookup_eq plain, innermost, innermost_cons stage.bound]
    rfl
  · obtain ⟨h, t, lifetimes, value, -, -⟩ := shows.first
    rw [Store.entryValue, Variable.value, Variable.current, lifetimes, ← value]
    rfl

theorem Run.Stage.runSteps (stage : Stage c x name r w) (nodup : c.scopes.Nodup)
    (written : ∀ s ∈ steps, s.Plain w.store c.scopes name) (permitted : shown.Permitted steps)
    (shows : Shows (w.store.variableOf r) shown n lines) (lasts : lines ≤ endlessLines)
    (enough : ((passes steps * room n steps : Nat) : Int) < lines) :
    ∃ w', DreamBerd.runSteps i c steps w = .ok () w' ∧
      Reads w'.store c.scopes name (steps.foldl Reading.after shown).value := by
  induction steps generalizing w shown n lines with
  | nil => exact ⟨w, rfl, stage.reads plain innermost shows⟩
  | cons s steps ih =>
    have first := written s mem_cons_self
    have others {w' : World} (keeps : KeepsKeywords c name w w') :
        ∀ s ∈ steps, s.Plain w'.store c.scopes name := fun s member =>
      (written s (mem_cons_of_mem _ member)).keep keeps
    cases s with
    | declare d resettable v =>
      obtain ⟨w₁, done, stage₁, keeps, shows₁⟩ :=
        stage.declare plain innermost first shows lasts
      obtain ⟨w', rest, reads⟩ := ih stage₁ (others keeps) permitted shows₁ lasts enough
      exact ⟨w', (bind_ok done).trans rest, reads⟩
    | assign a v =>
      obtain ⟨w₁, done, stage₁, keeps, shows₁⟩ :=
        stage.assign plain innermost first.1 first.2 shows permitted.1 lasts
      obtain ⟨w', rest, reads⟩ := ih stage₁ (others keeps) permitted.2 shows₁ lasts enough
      exact ⟨w', (bind_ok done).trans rest, reads⟩
    | pass =>
      have bound : n ≤ room n steps := le_room n steps
      have total : (passes steps + 1) * room n steps = passes steps * room n steps + room n steps :=
        Nat.succ_mul _ _
      rw [passes, room] at enough
      obtain ⟨w₁, done, stage₁, keeps, shows₁⟩ :=
        stage.pass nodup (by simp [innermost]) shows (by omega)
      obtain ⟨w', rest, reads⟩ := ih stage₁ (others keeps) permitted shows₁ (by omega) (by omega)
      exact ⟨w', (bind_ok done).trans rest, reads⟩

theorem Run.Start.runSteps {v : ValueRef} (start : Start c x name w) (nodup : c.scopes.Nodup) (declares : PlainDeclaration w.store c.scopes name d resettable)
    (written : ∀ s ∈ steps, s.Plain w.store c.scopes name)
    (permitted : Reading.Permitted ⟨v, d.confidence, resettable⟩ steps)
    (lasting : ((passes steps * room 1 steps : Nat) : Int) < endlessLines) :
    ∃ w', DreamBerd.runSteps i c (.declare d resettable v :: steps) w = .ok () w' ∧
      Reads w'.store c.scopes name
        (steps.foldl Reading.after ⟨v, d.confidence, resettable⟩).value := by
  obtain ⟨w₁, r, done, stage, keeps, shows⟩ := start.declare plain innermost declares
  have others : ∀ s ∈ steps, s.Plain w₁.store c.scopes name := fun s member =>
    (written s member).keep keeps
  obtain ⟨w', rest, reads⟩ :=
    stage.runSteps plain innermost nodup others permitted shows (Int.le_refl _) lasting
  exact ⟨w', (bind_ok done).trans rest, reads⟩

end Runs

/-! ## The statement that counts -/

def given : List Step → List (Nat × ValueRef)
  | [] => []
  | .declare d _ v :: steps => (d.confidence, v) :: given steps
  | .assign a v :: steps => (a.confidence, v) :: given steps
  | .pass :: steps => given steps

def latest (marks : Nat) : List (Nat × ValueRef) → Option ValueRef
  | [] => none
  | (m, v) :: gifts => (latest marks gifts).or (if m = marks then some v else none)

/-- The fewest marks among those given and those of the assignments. -/
def fewest : Nat → List Step → Nat
  | m, [] => m
  | m, .assign a _ :: steps => fewest (min m a.confidence) steps
  | m, _ :: steps => fewest m steps

def greatest (gifts : List (Nat × ValueRef)) : Nat := gifts.foldl (fun m g => max m g.1) 0

theorem latest_skip {v v' : ValueRef} (other : m' ≠ m)
    (counts : latest marks ((m, v) :: gifts) = some u) :
    latest marks ((m, v) :: (m', v') :: gifts) = some u := by
  rw [latest] at counts ⊢
  rw [latest]
  cases later : latest marks gifts with
  | some u' =>
    rwa [later] at counts
  | none =>
    rw [later] at counts
    split at counts
    · rename_i same
      rwa [if_neg (same ▸ other), if_pos same]
    · cases counts

theorem latest_reading (shown : Reading) (steps : List Step) :
    latest (fewest shown.marks steps) ((shown.marks, shown.value) :: given steps) =
      some (steps.foldl Reading.after shown).value := by
  induction steps generalizing shown with
  | nil => simp [latest, fewest, given]
  | cons s steps ih =>
    cases s with
    | pass => exact ih shown
    | declare d resettable v =>
      show latest (fewest shown.marks steps)
        ((shown.marks, shown.value) :: (d.confidence, v) :: given steps) = _
      rw [foldl_cons, Reading.after]
      by_cases same : d.confidence = shown.marks
      · have later := ih ⟨v, d.confidence, resettable⟩
        rw [if_pos same, latest, ← same, later, Option.some_or]
      · rw [if_neg same]
        exact latest_skip same (ih shown)
    | assign a v =>
      show latest (fewest (min shown.marks a.confidence) steps)
        ((shown.marks, shown.value) :: (a.confidence, v) :: given steps) = _
      rw [foldl_cons, Reading.after]
      by_cases most : a.confidence ≤ shown.marks
      · have later := ih ⟨v, a.confidence, shown.resettable⟩
        rw [if_pos most, latest, Nat.min_eq_right most, later, Option.some_or]
      · rw [if_neg most, Nat.min_eq_left (Nat.le_of_not_le most)]
        exact latest_skip (fun same => most (Nat.le_of_eq same)) (ih shown)

theorem mem_of_latest (counts : latest marks gifts = some u) : (marks, u) ∈ gifts := by
  induction gifts with
  | nil => cases counts
  | cons g gifts ih =>
    rw [latest, Option.or_eq_some_iff] at counts
    rcases counts with later | ⟨-, own⟩
    · exact mem_cons_of_mem _ (ih later)
    · split at own
      · rename_i same
        cases own
        exact same ▸ mem_cons_self
      · cases own

theorem marks_of_latest {marks' : Nat} (distinct : (gifts.map (·.2)).Nodup)
    (counts : latest marks gifts = some u) (counts' : latest marks' gifts = some u) :
    marks = marks' := by
  have same := inj_on_of_nodup_map distinct (mem_of_latest counts) (mem_of_latest counts') rfl
  exact congrArg (·.1) same

/-- A name that is declared, and then declared and assigned any number of times in one scope, stands
for the value of the most recent statement among those with the fewest marks, where the further
declarations do not count for what is the fewest. That is the most recent statement with the most marks
only if there are no fewer. -/
theorem overloaded_value {i : Interpreter} {c : Context} {x : ScopeRef} {rest : List ScopeRef}
    {name : String} {w : World} {d : Declaration} {resettable : Bool} {v : ValueRef} {steps : List Step}
    (plain : '.' ∉ name.toList) (scopes : c.scopes = x :: rest) (nodup : c.scopes.Nodup)
    (start : Run.Start c x name w) (declares : PlainDeclaration w.store c.scopes name d resettable)
    (written : ∀ s ∈ steps, s.Plain w.store c.scopes name)
    (permitted : Reading.Permitted ⟨v, d.confidence, resettable⟩ steps)
    (lasting : ((passes steps * room 1 steps : Nat) : Int) < endlessLines) :
    ∃ w' u, runSteps i c (.declare d resettable v :: steps) w = .ok () w' ∧
      Reads w'.store c.scopes name u ∧
      latest (fewest d.confidence steps) (given (.declare d resettable v :: steps)) = some u ∧
      (((given (.declare d resettable v :: steps)).map (·.2)).Nodup →
        (latest (greatest (given (.declare d resettable v :: steps)))
            (given (.declare d resettable v :: steps)) = some u ↔
          greatest (given (.declare d resettable v :: steps)) = fewest d.confidence steps)) := by
  obtain ⟨w', runs, reads⟩ :=
    start.runSteps plain scopes nodup declares written permitted lasting
  have counts := latest_reading ⟨v, d.confidence, resettable⟩ steps
  refine ⟨w', _, runs, reads, counts, fun distinct => ⟨?_, ?_⟩⟩
  · intro counts'
    exact marks_of_latest distinct counts' counts
  · intro same
    rw [same]
    exact counts

/-! ## Two names -/

def keywordWorld : World :=
  { (default : World) with store := { empty with
    values := #[.keyword "const", .keyword "var"]
    scopes := #[⟨[("const", .predefined ⟨0⟩), ("var", .predefined ⟨1⟩)]⟩] } }

def keywordContext : Context := ⟨[⟨0⟩], ⟨0⟩, []⟩

def nameToken (text : String) : Token := ⟨.name, text, 1, 0⟩

def declaresName (modifier : String) (marks : Nat) : Declaration :=
  ⟨nameToken "name", [nameToken modifier, nameToken modifier], none, .source [], 0, marks⟩

def assignsName (marks : Nat) : Assignment := ⟨nameToken "name", .source [], 0, [], marks⟩

theorem start_keywordWorld : Start keywordContext ⟨0⟩ "name" keywordWorld := by
  refine ⟨by decide, ?_, ?_, by decide, rfl, ?_, ?_⟩
  · intro y member
    rw [mem_singleton.mp member]
    decide
  · intro y member k r among
    rw [mem_singleton.mp member] at among
    rcases mem_cons.mp among with isConst | later
    · cases isConst
    · cases mem_singleton.mp later
  · intro b none
    cases none
  · intro b none
    cases none

theorem means_const : Means keywordWorld.store keywordContext.scopes (nameToken "const") "const" :=
  ⟨by decide, .predefined ⟨0⟩, ⟨0⟩, ⟨0⟩, rfl, fun r => nofun, rfl, rfl⟩

theorem means_var : Means keywordWorld.store keywordContext.scopes (nameToken "var") "var" :=
  ⟨by decide, .predefined ⟨1⟩, ⟨0⟩, ⟨1⟩, rfl, fun r => nofun, rfl, rfl⟩

theorem plainDeclaration_const (marks : Nat) : PlainDeclaration keywordWorld.store
    keywordContext.scopes "name" (declaresName "const" marks) false :=
  ⟨rfl, rfl, rfl, _, _, "const", "const", rfl, by decide, by decide, means_const, means_const, rfl⟩

theorem plainDeclaration_var (marks : Nat) : PlainDeclaration keywordWorld.store
    keywordContext.scopes "name" (declaresName "var" marks) true :=
  ⟨rfl, rfl, rfl, _, _, "var", "var", rfl, by decide, by decide, means_var, means_var, rfl⟩

/-- Two marks, an assignment with three that stays behind, one with a single mark that counts, and a
declaration with a single mark, which counts as well. -/
theorem overloaded_value_assigned : ∃ w' u, runSteps (interpreter 0) keywordContext
      [.declare (declaresName "var" 2) true ⟨2⟩, .pass, .assign (assignsName 3) ⟨3⟩, .pass,
        .assign (assignsName 1) ⟨4⟩, .pass, .declare (declaresName "var" 1) true ⟨5⟩] keywordWorld =
        .ok () w' ∧
      Reads w'.store keywordContext.scopes "name" u ∧ u = ⟨5⟩ := by
  have written : ∀ s ∈ [Step.pass, .assign (assignsName 3) ⟨3⟩, .pass, .assign (assignsName 1) ⟨4⟩,
      .pass, .declare (declaresName "var" 1) true ⟨5⟩],
      s.Plain keywordWorld.store keywordContext.scopes "name" := by
    simp [Step.Plain, assignsName, nameToken, plainDeclaration_var]
  obtain ⟨w', u, runs, reads, counts, -⟩ := overloaded_value (i := interpreter 0) (by decide) rfl
    (by decide) start_keywordWorld (plainDeclaration_var 2) written ⟨rfl, rfl, trivial⟩ (by decide)
  exact ⟨w', u, runs, reads, Option.some.inj (counts.symm.trans (by decide))⟩

/-- Of `Lu` with two marks, `Luke` with one and `Lu or Luke` with nine, all constant, the name stands
for `Lu`, though the most recent statement has the most marks. -/
theorem most_marks_do_not_count : ∃ w', runSteps (interpreter 0) keywordContext
      [.declare (declaresName "const" 2) false ⟨2⟩, .pass, .declare (declaresName "const" 1) false ⟨3⟩,
        .pass, .declare (declaresName "const" 9) false ⟨4⟩] keywordWorld = .ok () w' ∧
      Reads w'.store keywordContext.scopes "name" ⟨2⟩ ∧
      latest 9 (given [.declare (declaresName "const" 2) false ⟨2⟩, .pass,
        .declare (declaresName "const" 1) false ⟨3⟩, .pass,
        .declare (declaresName "const" 9) false ⟨4⟩]) = some ⟨4⟩ := by
  have written : ∀ s ∈ [Step.pass, .declare (declaresName "const" 1) false ⟨3⟩, .pass,
      .declare (declaresName "const" 9) false ⟨4⟩],
      s.Plain keywordWorld.store keywordContext.scopes "name" := by
    simp [Step.Plain, plainDeclaration_const]
  obtain ⟨w', runs, reads⟩ := start_keywordWorld.runSteps (i := interpreter 0) (v := ⟨2⟩) (by decide)
    rfl (by decide) (plainDeclaration_const 2) written trivial (by decide)
  exact ⟨w', runs, reads, by decide⟩

end DreamBerd
