import DreamBerd.Proofs.Overloading
import Mathlib.Logic.Function.Iterate

/-!
# How long lifetimes last

Every line takes one from the lines that a lifetime has left, and a lifetime goes when it has none left. By
`Run.lifetimes_expire` this holds on schedule, however many lifetimes a variable has, as long as they are
not copies of each other: copies share their lines, and each of them takes one. A declaration makes copies
if the variable has a lifetime with as many marks (`Variable.redeclare_eq`), and its own lifetime then
misses the line on which it should go, or goes too early: `Run.declared_lifetime`.
-/

namespace DreamBerd

open List

namespace Variable

variable {α : Type} {v : Variable α} {l : Lifetime α} {k m : Nat}

/-! ## Distinct lifetimes -/

/-- What is left of a variable after `k` lines if all goes well. -/
def after (v : Variable α) (k : Nat) : Variable α :=
  { v with lifetimes := (v.lifetimes.filter fun l => (k : Int) < l.linesLeft).map fun l =>
    { l with linesLeft := l.linesLeft - k } }

/-- The variable has lifetimes, no two of them are copies, and all have lines left. -/
structure Timely (v : Variable α) : Prop where
  nonempty : v.lifetimes ≠ []
  distinct : (v.lifetimes.map (·.tag)).Nodup
  lines : ∀ l ∈ v.lifetimes, 1 ≤ l.linesLeft

theorem length_filter_tag (distinct : (v.lifetimes.map (·.tag)).Nodup) (member : l ∈ v.lifetimes) :
    (v.lifetimes.filter (·.tag == l.tag)).length = 1 := by
  have once := count_eq_one_of_mem distinct (mem_map_of_mem member)
  rwa [List.count, countP_map, countP_eq_length_filter] at once

theorem tick_eq_after (distinct : (v.lifetimes.map (·.tag)).Nodup)
    (lines : ∀ l ∈ v.lifetimes, 1 ≤ l.linesLeft) : v.tick = v.after 1 := by
  have older : (v.lifetimes.map fun l =>
      { l with linesLeft := l.linesLeft - (v.lifetimes.filter (·.tag == l.tag)).length }) =
      v.lifetimes.map fun l => { l with linesLeft := l.linesLeft - 1 } := by
    apply map_congr_left
    intro l member
    rw [length_filter_tag distinct member]
    rfl
  unfold tick clearOutdated after
  rw [older, filter_map]
  congr 2
  apply filter_congr
  intro l member
  have positive := lines l member
  rw [Bool.eq_iff_iff]
  simp only [Function.comp_apply, bne_iff_ne, decide_eq_true_eq]
  omega

theorem after_after (v : Variable α) (j k : Nat) : (v.after j).after k = v.after (j + k) := by
  unfold after
  rw [filter_map, filter_filter, map_map]
  congr 1
  rw [filter_congr]
  · apply map_congr_left
    simp only [Function.comp_apply, Lifetime.mk.injEq, and_true, true_and]
    omega
  · intro l _
    rw [Bool.eq_iff_iff]
    simp only [Function.comp_apply, Bool.and_eq_true, decide_eq_true_eq]
    omega

/-- After `k` lines, the lifetimes that had more are left, in order and with `k` lines less. -/
theorem Timely.tick_iterate (timely : v.Timely) (k : Nat) : tick^[k] v = v.after k := by
  induction k with
  | zero =>
    have all : v.lifetimes.filter (fun l => ((0 : Nat) : Int) < l.linesLeft) = v.lifetimes := by
      rw [filter_eq_self]
      intro l member
      have positive := timely.lines l member
      exact decide_eq_true (by omega)
    rw [after, all]
    simp
  | succ k ih =>
    rw [Function.iterate_succ_apply', ih, tick_eq_after, after_after]
    · have tags : (v.after k).lifetimes.map (·.tag) =
          (v.lifetimes.filter fun l => (k : Int) < l.linesLeft).map (·.tag) := by
        rw [after, map_map]
        rfl
      rw [tags]
      exact timely.distinct.sublist (filter_sublist.map _)
    · intro l member
      obtain ⟨old, among, rfl⟩ := mem_map.mp member
      have more := of_decide_eq_true (mem_filter.mp among).2
      dsimp only
      omega

/-! ## Copies -/

theorem tick_of_nil (nothing : v.lifetimes = []) : v.tick = v := by
  obtain ⟨name, lifetimes, previous⟩ := v
  cases nothing
  rfl

theorem filter_tick (tag : Nat) : v.tick.lifetimes.filter (·.tag == tag) =
    ((v.lifetimes.filter (·.tag == tag)).map fun l =>
      { l with linesLeft := l.linesLeft - (v.lifetimes.filter (·.tag == tag)).length }).filter
        (·.linesLeft != 0) := by
  unfold tick clearOutdated
  rw [filter_comm, filter_map]
  congr 1
  apply map_congr_left
  intro l member
  have same : l.tag = tag := beq_iff_eq.mp (mem_filter.mp member).2
  rw [same]

theorem filter_tick_iterate (copies : v.lifetimes.filter (·.tag == l.tag) = List.replicate m l)
    (positive : 1 ≤ l.linesLeft) (t : Nat) : (tick^[t] v).lifetimes.filter (·.tag == l.tag) =
      if ∀ j ≤ t, (m * j : Int) ≠ l.linesLeft then
        List.replicate m { l with linesLeft := l.linesLeft - m * t } else [] := by
  induction t with
  | zero =>
    rw [if_pos fun j none => by obtain rfl := Nat.le_zero.mp none; simp; omega]
    simpa using copies
  | succ t ih =>
    rw [Function.iterate_succ_apply', filter_tick, ih]
    by_cases earlier : ∀ j ≤ t, (m * j : Int) ≠ l.linesLeft
    · have left : l.linesLeft - m * t - m = l.linesLeft - m * (t + 1 : Nat) := by
        push_cast
        ring
      rw [if_pos earlier, map_replicate, length_replicate, filter_replicate, left]
      by_cases now : (m * (t + 1 : Nat) : Int) = l.linesLeft
      · rw [if_neg (by simp [← now]), if_neg fun never => never (t + 1) le_rfl now]
      · rw [if_pos (by simp only [bne_iff_ne]; omega), if_pos]
        intro j upTo
        rcases Nat.le_succ_iff.mp upTo with before | rfl
        · exact earlier j before
        · exact now
    · rw [if_neg earlier, if_neg fun never => earlier fun j before => never j (Nat.le_succ_of_le before)]
      rfl

end Variable

namespace Run

variable {w w' : World} {scopes xs : List ScopeRef} {x : ScopeRef} {name : String} {r : VariableRef}

/-! ## Passing lines -/

def passLines (scopes : List ScopeRef) : Nat → Run Unit
  | 0 => return ()
  | k + 1 => do
    passLines scopes k
    tick scopes

theorem passLines_owned (nodup : scopes.Nodup) (member : x ∈ scopes)
    (owned : Owned w.store scopes x name r) (nonempty : (w.store.variableOf r).lifetimes ≠ []) (k : Nat) :
    ∃ w', passLines scopes k w = .ok () w' ∧ (∃ xs, Passed xs w w') ∧
      w'.store.variableOf r = Variable.tick^[k] (w.store.variableOf r) ∧
      (w'.store.scope x).get? name =
        if (w'.store.variableOf r).lifetimes = [] then none else some (.variable r) := by
  induction k with
  | zero => exact ⟨w, rfl, ⟨[], .nil w⟩, rfl, by rw [if_neg nonempty, owned.bound]⟩
  | succ k ih =>
    obtain ⟨w₁, passes, ⟨xs, passed⟩, age, named⟩ := ih
    rw [Function.iterate_succ_apply', ← age]
    by_cases gone : (w₁.store.variableOf r).lifetimes = []
    · -- No scope holds the variable any longer, and it has nothing left that could get older.
      rw [if_pos gone] at named
      obtain ⟨w', ticks, passed'⟩ := passScopes_passed scopes.reverse w₁
      have absent : ∀ y ∈ scopes.reverse, Absent r (w₁.store.scope y).entries := by
        intro y among j held
        obtain ⟨rfl, rfl⟩ :=
          owned.only y (mem_reverse.mp among) j (passed.entries_subset y held)
        exact Ledger.get?_eq_none_iff.mp named (mem_map.mpr ⟨_, held, rfl⟩)
      have same := passed'.untouched r absent
      refine ⟨w', (bind_ok passes).trans ticks,
        ⟨_, passed.trans passed'⟩, same.trans (Variable.tick_of_nil gone).symm, ?_⟩
      obtain ⟨names, thinner, -⟩ := passed'.thinned x
      rw [same, if_pos gone, thinner, Ledger.get?_eq_none_iff]
      intro among
      exact Ledger.get?_eq_none_iff.mp named ((Ledger.keys_foldl_erase_subset names _).subset among)
    · rw [if_neg gone] at named
      obtain ⟨w', ticks, passed', age', named'⟩ := tick_owned nodup member (owned.passed passed named)
      exact ⟨w', (bind_ok passes).trans ticks, ⟨_, passed.trans passed'⟩, age', age' ▸ named'⟩

theorem Passed.get?_eq (passed : Passed xs w w') (distinct : (w.store.scope x).keys.Nodup)
    (other : ∀ r, (w.store.scope x).get? name ≠ some (.variable r)) :
    (w'.store.scope x).get? name = (w.store.scope x).get? name := by
  obtain ⟨gone, thinner, named⟩ := passed.thinned x
  rw [thinner]
  refine Ledger.get?_foldl_erase fun member => ?_
  obtain ⟨r, among⟩ := named name member
  exact other r (Ledger.get?_of_mem distinct among)

theorem passLines_passed (scopes : List ScopeRef) (k : Nat) (w : World) :
    ∃ w' xs, passLines scopes k w = .ok () w' ∧ Passed xs w w' := by
  induction k with
  | zero => exact ⟨w, [], rfl, .nil w⟩
  | succ k ih =>
    obtain ⟨w₁, xs, passes, passed⟩ := ih
    obtain ⟨w', ticks, passed'⟩ := passScopes_passed scopes.reverse w₁
    exact ⟨w', _, (bind_ok passes).trans ticks, passed.trans passed'⟩

/-- The variables of the scopes have one name each, and lifetimes that are not copies of each other. -/
structure Scheduled (s : Store) (scopes : List ScopeRef) : Prop where
  nodup : scopes.Nodup
  owned : ∀ x ∈ scopes, (s.scope x).keys.Nodup ∧ ∀ name r, (s.scope x).get? name = some (.variable r) →
    Owned s scopes x name r ∧ (s.variableOf r).Timely

/-- After `k` lines a variable has the lifetimes that had more lines left, in their order and with `k` lines
less, and its name is forgotten if and only if there are none. All other names are as they were. -/
theorem lifetimes_expire (scheduled : Scheduled w.store scopes) (k : Nat) :
    ∃ w', passLines scopes k w = .ok () w' ∧ ∀ x ∈ scopes, ∀ name,
      (∀ r, (w.store.scope x).get? name = some (.variable r) →
        w'.store.variableOf r = (w.store.variableOf r).after k ∧
        (w'.store.scope x).get? name =
          if ((w.store.variableOf r).after k).lifetimes = [] then none else some (.variable r)) ∧
      ((∀ r, (w.store.scope x).get? name ≠ some (.variable r)) →
        (w'.store.scope x).get? name = (w.store.scope x).get? name) := by
  obtain ⟨w', xs, passes, passed⟩ := passLines_passed scopes k w
  refine ⟨w', passes, fun x member name => ⟨fun r bound => ?_, ?_⟩⟩
  · obtain ⟨owned, timely⟩ := (scheduled.owned x member).2 name r bound
    obtain ⟨w'', passes', -, age, named⟩ :=
      passLines_owned scheduled.nodup member owned timely.nonempty k
    cases passes.symm.trans passes'
    rw [timely.tick_iterate] at age
    exact ⟨age, age ▸ named⟩
  · exact passed.get?_eq (scheduled.owned x member).1

/-- A variable with a lifetime of one line and one of three, and a name that is no variable. -/
def timedWorld : World :=
  { (default : World) with store := { Store.empty with
    slots := #[⟨"x", [⟨0, ⟨0⟩, 1, 2, true, true⟩, ⟨1, ⟨0⟩, 3, 1, true, true⟩], []⟩]
    scopes := #[⟨[("x", .variable ⟨0⟩), ("y", .predefined ⟨0⟩)]⟩] } }

theorem scheduled_timedWorld : Scheduled timedWorld.store [⟨0⟩] := by
  refine ⟨nodup_singleton _, fun x member => ?_⟩
  obtain rfl := mem_singleton.mp member
  refine ⟨by decide, fun name r bound => ?_⟩
  have among := Ledger.mem_of_get? bound
  simp only [timedWorld, Store.scope, getElem?_toArray, getElem?_cons_zero, Option.getD_some,
    mem_cons, Prod.mk.injEq, Entry.variable.injEq, not_mem_nil, or_false, reduceCtorEq,
    and_false] at among
  obtain ⟨rfl, rfl⟩ := among
  refine ⟨⟨by decide, ?_, bound, ?_⟩, by decide, by decide, by decide⟩
  · intro y among
    obtain rfl := mem_singleton.mp among
    decide
  · intro y among k held
    obtain rfl := mem_singleton.mp among
    refine ⟨rfl, ?_⟩
    rcases mem_cons.mp held with same | later
    · exact (Prod.mk.inj same).1
    · cases mem_singleton.mp later

/-- After two lines the first lifetime is gone and the second has one line left; the other name stays. -/
theorem lifetimes_expire_second : Scheduled timedWorld.store [⟨0⟩] ∧
    ∃ w', passLines [⟨0⟩] 2 timedWorld = .ok () w' ∧
      (w'.store.variableOf ⟨0⟩).lifetimes = [⟨1, ⟨0⟩, 1, 1, true, true⟩] ∧
      (w'.store.scope ⟨0⟩).get? "x" = some (.variable ⟨0⟩) ∧
      (w'.store.scope ⟨0⟩).get? "y" = some (.predefined ⟨0⟩) := by
  obtain ⟨w', passes, names⟩ := lifetimes_expire scheduled_timedWorld 2
  obtain ⟨age, bound⟩ := (names ⟨0⟩ mem_cons_self "x").1 ⟨0⟩ rfl
  have other := (names ⟨0⟩ mem_cons_self "y").2 fun r => by rintro ⟨⟩
  exact ⟨scheduled_timedWorld, w', passes, congrArg Variable.lifetimes age, bound, other⟩

/-! ## Lifetimes that are declared -/

/-- The lifetime with the tag is among those of the variable as long as fewer than `n` lines pass, and no
longer. -/
def Lasts (scopes : List ScopeRef) (r : VariableRef) (tag : Nat) (n : Int) (w : World) : Prop :=
  ∀ t w', passLines scopes t w = .ok () w' →
    ((∃ m ∈ (w'.store.variableOf r).lifetimes, m.tag = tag) ↔ (t : Int) < n)

theorem exists_tag_iff {v : Variable ValueRef} {l : Lifetime ValueRef} {copies t : Nat}
    (copied : v.lifetimes.filter (·.tag == l.tag) = List.replicate (copies + 1) l)
    (positive : 1 ≤ l.linesLeft) :
    (∃ m ∈ (Variable.tick^[t] v).lifetimes, m.tag = l.tag) ↔
      ∀ j ≤ t, ((copies + 1 : Nat) * j : Int) ≠ l.linesLeft := by
  have some : (∃ m ∈ (Variable.tick^[t] v).lifetimes, m.tag = l.tag) ↔
      (Variable.tick^[t] v).lifetimes.filter (·.tag == l.tag) ≠ [] := by
    simp
  rw [some, Variable.filter_tick_iterate copied positive]
  split
  · exact iff_of_true (by simp) ‹_›
  · exact iff_of_false (by simp) ‹_›

theorem never_iff_lt_iff {copies : Nat} {n : Int} (positive : 1 ≤ n) :
    (∀ t : Nat, (∀ j ≤ t, ((copies + 1 : Nat) * j : Int) ≠ n) ↔ (t : Int) < n) ↔ copies = 0 := by
  obtain ⟨n, rfl⟩ := Int.eq_ofNat_of_zero_le (by omega : 0 ≤ n)
  constructor
  · intro schedule
    have last := (schedule n).not.mpr (by simp)
    push Not at last
    obtain ⟨j, upTo, now⟩ := last
    norm_cast at now
    have late : n ≤ j := by
      by_contra early
      exact (schedule j).mpr (by omega) j le_rfl (by exact_mod_cast now)
    obtain rfl : j = n := le_antisymm upTo late
    have one : (copies + 1) * j = 1 * j := by omega
    have := Nat.eq_of_mul_eq_mul_right (by omega) one
    omega
  · rintro rfl t
    constructor
    · intro never
      by_contra late
      exact never n (by omega) (by simp)
    · intro early j upTo
      push_cast
      omega

variable {c : Context} {rest : List ScopeRef} {d : Declaration} {resettable : Bool} {n : Int}

/-- A declaration of a name that has been declared keeps the lifetimes of its variable in their order and
puts its own between them, once for itself and once for each lifetime from the first one with as many marks
on. It is there once, and it lasts for the lines that it was given, if and only if no lifetime has as many
marks. -/
theorem declared_lifetime (i : Interpreter) (v : ValueRef) (stage : Stage c x name r w)
    (plain : '.' ∉ name.toList) (scopes : c.scopes = x :: rest) (nodup : c.scopes.Nodup)
    (declares : CountedDeclaration w.store c.scopes name d n resettable) (positive : 1 ≤ n)
    (nonempty : (w.store.variableOf r).lifetimes ≠ [])
    (fresh : ∀ m ∈ (w.store.variableOf r).lifetimes, m.tag ≠ w.store.fresh) :
    ∃ w', ∃ l : Lifetime ValueRef, ∃ front back, declare i c d v w = .ok () w' ∧
      l.value = v ∧ l.linesLeft = n ∧ l.confidence = d.confidence ∧
      (w.store.variableOf r).lifetimes = front ++ back ∧
      (w'.store.variableOf r).lifetimes = front ++ (List.replicate (back.length + 1) l ++ back) ∧
      (back = [] ↔ ∀ m ∈ (w.store.variableOf r).lifetimes, m.confidence ≠ d.confidence) ∧
      (Lasts c.scopes r l.tag n w' ↔
        ∀ m ∈ (w.store.variableOf r).lifetimes, m.confidence ≠ d.confidence) := by
  obtain ⟨editable, goesOn⟩ := stage.redeclare (i := i) (v := v) plain scopes declares
  generalize new_eq : declaredLifetime w d v n resettable editable = l at goesOn
  obtain ⟨tag, marks, lines⟩ : l.tag = w.store.fresh ∧ l.confidence = d.confidence ∧ l.linesLeft = n := by
    subst new_eq
    exact ⟨rfl, rfl, rfl⟩
  obtain ⟨front, back, -, whole, other, first⟩ :=
    (w.store.variableOf r).exists_split (¬·.confidence = l.confidence)
  obtain ⟨new, declared, lifetimes⟩ := Variable.redeclare_eq (l := l) nonempty whole other first
  obtain ⟨done, stage', value⟩ := goesOn new declared
  have alone : back = [] ↔ ∀ m ∈ (w.store.variableOf r).lifetimes, m.confidence ≠ d.confidence := by
    rw [whole, ← marks]
    constructor
    · rintro rfl
      simpa using other
    · intro all
      cases back with
      | nil => rfl
      | cons m back => exact absurd (all m (by simp)) (first m rfl)
  have copied : new.lifetimes.filter (·.tag == l.tag) = List.replicate (back.length + 1) l := by
    have none (part : List (Lifetime ValueRef)) (old : part ⊆ (w.store.variableOf r).lifetimes) :
        part.filter (·.tag == l.tag) = [] := by
      rw [filter_eq_nil_iff, tag]
      exact fun m member same => fresh m (old member) (beq_iff_eq.mp same)
    rw [lifetimes, filter_append, filter_append, none front (whole ▸ subset_append_left _ _),
      none back (whole ▸ subset_append_right _ _)]
    simp
  refine ⟨_, l, front, back, done, by subst new_eq; rfl, lines, marks, whole, value.symm ▸ lifetimes, alone, ?_⟩
  rw [← alone, ← length_eq_zero_iff, ← never_iff_lt_iff positive, Lasts]
  refine forall_congr' fun t => ?_
  obtain ⟨w', passes, -, age, -⟩ := passLines_owned nodup (scopes ▸ mem_cons_self) stage'.toOwned
    (value.symm ▸ by simp [lifetimes]) t
  have there := exists_tag_iff (t := t) copied (lines ▸ positive)
  rw [lines, ← value, ← age] at there
  rw [← there]
  constructor
  · exact fun all => all w' passes
  · intro schedule w'' passes'
    cases passes.symm.trans passes'
    exact schedule

def onceDeclared : World := withBinding keywordWorld ⟨0⟩ "name" ⟨0, ⟨0⟩, endlessLines, 1, true, true⟩

theorem counted_onceDeclared (marks : Nat) : CountedDeclaration onceDeclared.store keywordContext.scopes "name"
    { declaresName "var" marks with lifetime := some "3" } 3 true := by
  have means : Means onceDeclared.store keywordContext.scopes (nameToken "var") "var" :=
    ⟨by decide, .predefined ⟨1⟩, ⟨0⟩, ⟨1⟩, rfl, fun r => by rintro ⟨⟩, rfl, rfl⟩
  exact ⟨rfl, rfl, .lines rfl rfl (by decide), _, _, "var", "var", rfl, means, means, rfl⟩

/-- A declaration for three lines lasts for them with two marks, but not with one mark, as the name has been
declared with one: there are two copies of its lifetime then. -/
theorem declared_lifetime_marks : ∃ w₁ w₂ tag₁ tag₂,
    declare (interpreter 0) keywordContext { declaresName "var" 1 with lifetime := some "3" } ⟨1⟩
      onceDeclared = .ok () w₁ ∧
    (w₁.store.variableOf ⟨0⟩).lifetimes.length = 3 ∧ ¬Lasts [⟨0⟩] ⟨0⟩ tag₁ 3 w₁ ∧
    declare (interpreter 0) keywordContext { declaresName "var" 2 with lifetime := some "3" } ⟨1⟩
      onceDeclared = .ok () w₂ ∧
    (w₂.store.variableOf ⟨0⟩).lifetimes.length = 2 ∧ Lasts [⟨0⟩] ⟨0⟩ tag₂ 3 w₂ := by
  have stage : Stage keywordContext ⟨0⟩ "name" ⟨0⟩ onceDeclared :=
    start_keywordWorld.stage mem_cons_self
  have declared (marks : Nat) := declared_lifetime (interpreter 0) ⟨1⟩ stage (by decide) rfl
    (nodup_singleton _) (counted_onceDeclared marks) (by decide) (by decide) (by decide)
  obtain ⟨w₁, l₁, front₁, back₁, done₁, -, -, -, whole₁, lifetimes₁, alone₁, lasts₁⟩ := declared 1
  obtain ⟨w₂, l₂, front₂, back₂, done₂, -, -, -, whole₂, lifetimes₂, alone₂, lasts₂⟩ := declared 2
  have one : ¬∀ m ∈ (onceDeclared.store.variableOf ⟨0⟩).lifetimes, m.confidence ≠ (1 : Nat) := by decide
  have two : ∀ m ∈ (onceDeclared.store.variableOf ⟨0⟩).lifetimes, m.confidence ≠ (2 : Nat) := by decide
  have length₁ := congrArg List.length whole₁
  have length₂ := congrArg List.length whole₂
  have some₁ := length_pos_of_ne_nil (alone₁.not.mpr one)
  have none₂ := length_eq_zero_iff.mpr (alone₂.mpr two)
  rw [length_append] at length₁ length₂
  have old : (onceDeclared.store.variableOf ⟨0⟩).lifetimes.length = 1 := rfl
  refine ⟨w₁, w₂, l₁.tag, l₂.tag, done₁, ?_, lasts₁.not.mpr one, done₂, ?_, lasts₂.mpr two⟩
  · simp only [lifetimes₁, length_append, length_replicate]
    omega
  · simp only [lifetimes₂, length_append, length_replicate]
    omega

end Run

end DreamBerd
