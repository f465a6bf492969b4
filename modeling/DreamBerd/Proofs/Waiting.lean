import DreamBerd.Proofs.Vigils

/-!
# When a waiting statement goes on

A statement that waits for the next values of several variables goes on once, at the assignment to the
last of them. It goes on as the vigil of that one, so of the values that it waited for it finds this one
only: the others are in the scopes of the other vigils. A site leads to one vigil at a time, so of
several statements that wait for the same variable only the one that was reached last goes on.
-/

namespace DreamBerd

open List Run Store

variable {p : Wait} {w w' : World} {told : List (Site × ValueRef)} {s : Site} {u : Write}
  {r : VariableRef}

/-! ## What leaves a waiting statement alone -/

/-- Nothing has happened to the waiting statement between two worlds, and nothing new leads to it. -/
structure Harmless (p : Wait) (w w' : World) : Prop where
  waits : w'.store.waits[p.waiting]? = w.store.waits[p.waiting]?
  vigils : ∀ s ∈ p.sites, w'.store.vigils[p.number s]? = w.store.vigils[p.number s]?
  vigils_size : w.store.vigils.size ≤ w'.store.vigils.size
  entries : ∀ s ∈ p.sites, w'.part.vigils.get? s = w.part.vigils.get? s
  only : ∀ s n, w'.part.vigils.get? s = some n → p.Owns n → w.part.vigils.get? s = some n
  scopes : ∀ s ∈ p.sites, w'.store.scope (p.scope s) = w.store.scope (p.scope s)
  scopes_size : w.store.scopes.size ≤ w'.store.scopes.size

theorem Harmless.pending (harmless : Harmless p w w') (pending : Pending p told w) :
    Pending p told w' := by
  refine ⟨harmless.waits.trans pending.waits, ?_, ?_, ?_, ?_, ?_⟩
  · intro s member
    rw [harmless.vigils s member, pending.vigil s member]
  · intro s member
    rw [harmless.entries s member, pending.entry s member]
  · intro s n leads owns
    exact pending.only s n (harmless.only s n leads owns) owns
  · intro s member
    exact Nat.lt_of_lt_of_le (pending.inside s member) harmless.scopes_size
  · intro s member untold
    rw [harmless.scopes s member, pending.own s member untold]

def Gone (p : Wait) (w : World) : Prop := ∀ s n, w.part.vigils.get? s = some n → ¬p.Owns n

/-- What would happen if the statement went on makes no difference to an assignment once it is gone. -/
theorem Gone.run_eq (gone : Gone p w) (fits : u.Fits s r w)
    {resume : Context → Nat → Run Unit} (same : ∀ c n, ¬p.Owns n → resume c n = i.resume c n) :
    u.run { i with resume := resume } w = u.run i w := by
  obtain ⟨new, eq⟩ := Write.run_eq fits
  have tells : tellVigil { i with resume := resume } u.context s u.value (withLifetime w r new) =
      tellVigil i u.context s u.value (withLifetime w r new) :=
    tellVigil_congr fun n leads => same u.context n (gone s n leads)
  rw [eq, eq]
  exact bind_of_eq tells

/-! ## The assignment that completes a wait -/

/-- The assignment lets the statement go on as the vigil of its site, once: no site leads to it after
that. In the scopes of this vigil the value is found, and of the other sites nothing is. -/
structure GoesOn (p : Wait) (s : Site) (u : Write) (r : VariableRef) (w w' : World) : Prop where
  runs : ∀ i, u.run i w =
    (do i.resume u.context (p.number s)
        forgetVigil s
        tellVariableWatchers i u.context r u.value []) w'
  vigil : w'.store.vigils[p.number s]? = some (p.vigil s)
  once : Gone p (forgotten w' s)
  finds : Reads w'.store (p.vigil s).scopes (nextName s.1 s.2) u.value
  misses : ∀ s' ∈ p.sites, s' ≠ s → '.' ∉ s'.1.toList →
    w.store.innermost (nextName s'.1 s'.2) p.scopes = none →
      w'.store.lookup (p.vigil s).scopes (nextName s'.1 s'.2) = .ok none

section Steps

theorem Pending.again (pending : Pending p told w) (already : s ∈ told.map Prod.fst) (v : ValueRef) :
    Pending p (told ++ [(s, v)]) w := by
  have same (s' : Site) : s' ∈ (told ++ [(s, v)]).map Prod.fst ↔ s' ∈ told.map Prod.fst := by
    rw [mem_told_append, or_iff_left_of_imp]
    exact fun here => here ▸ already
  refine ⟨?_, pending.vigil, ?_, pending.only, pending.inside, ?_⟩
  · rw [pending.waits]
    exact congrArg some (filter_congr fun s' _ => decide_eq_decide.mpr (not_congr (same s')).symm)
  · intro s' member
    rw [pending.entry s' member]
    exact if_congr (same s').symm rfl rfl
  · intro s' member untold
    exact pending.own s' member fun before => untold ((same s').mpr before)

/-- An assignment that leaves something to wait for is recorded, whichever interpreter makes it. -/
theorem Pending.write (pending : Pending p told w) (distinct : p.sites.Nodup) (member : s ∈ p.sites)
    (fits : u.Fits s r w) (more : ∃ s' ∈ p.sites, s' ≠ s ∧ s' ∉ told.map Prod.fst) :
    ∃ w', (∀ i, u.run i w = .ok () w') ∧ Pending p (told ++ [(s, u.value)]) w' ∧
      Spares p.firstScope (· = r) w w' := by
  obtain ⟨new, eq⟩ := Write.run_eq fits
  have set := pending.withLifetime r new
  by_cases already : s ∈ told.map Prod.fst
  · have unawaited : (Run.withLifetime w r new).part.vigils.get? s = none := by
      rw [set.entry s member, if_pos already]
    refine ⟨_, fun i => ?_, set.again already u.value, spares_withLifetime _ r new⟩
    rw [eq i, bind_ok (tellVigil_unawaited unawaited)]
    exact tellVariableWatchers_unwatched fits.unwatched
  · obtain ⟨s', among, other, untold⟩ := more
    have waits : ¬(p.awaited (told ++ [(s, u.value)])).isEmpty = true := by
      intro empty
      have remains : s' ∈ p.awaited (told ++ [(s, u.value)]) :=
        Wait.mem_awaited.mpr ⟨among, fun now => (mem_told_append.mp now).elim untold other⟩
      rw [isEmpty_iff.mp empty] at remains
      cases remains
    have leads : (toldWorld p told s u.value (Run.withLifetime w r new)).part.vigils.get? s =
        some (p.number s) := set.leads member already
    refine ⟨_, fun i => ?_, set.tell member u.value,
      (spares_withLifetime _ r new).trans (spares_forgotten_toldWorld _)⟩
    have tells : Run.tellVigil i u.context s u.value (Run.withLifetime w r new) =
        .ok () (forgotten (toldWorld p told s u.value (Run.withLifetime w r new)) s) := by
      rw [set.tellVigil_eq distinct member already i u.context, if_neg waits]
      exact forgetVigil_ok leads
    rw [eq i, bind_ok tells]
    exact tellVariableWatchers_unwatched fits.unwatched

theorem mem_told_of_last (last : ∀ s' ∈ p.sites, s' ≠ s → s' ∈ told.map Prod.fst) (v : ValueRef) :
    ∀ s' ∈ p.sites, s' ∈ (told ++ [(s, v)]).map Prod.fst := by
  intro s' among
  by_cases same : s' = s
  · exact mem_told_append.mpr (.inr same)
  · exact mem_told_append.mpr (.inl (last s' among same))

theorem Pending.gone (pending : Pending p told w) (all : ∀ s ∈ p.sites, s ∈ told.map Prod.fst) :
    Gone p w := by
  intro s n leads owns
  have among := pending.only s n leads owns
  have entry := pending.entry s among
  rw [if_pos (all s among), leads] at entry
  cases entry

theorem Pending.goesOn (pending : Pending p told w) (distinct : p.sites.Nodup) (member : s ∈ p.sites)
    (untold : s ∉ told.map Prod.fst) (keeps : KeepsPresent p.kept) (fits : u.Fits s r w)
    (last : ∀ s' ∈ p.sites, s' ≠ s → s' ∈ told.map Prod.fst) : ∃ w', GoesOn p s u r w w' := by
  obtain ⟨new, eq⟩ := Write.run_eq fits
  have set := pending.withLifetime r new
  have all := mem_told_of_last last u.value
  have complete : (p.awaited (told ++ [(s, u.value)])).isEmpty = true := by
    rw [List.isEmpty_iff, List.eq_nil_iff_forall_not_mem]
    intro s' remains
    obtain ⟨among, untold'⟩ := Wait.mem_awaited.mp remains
    exact untold' (all s' among)
  have next := set.tell member u.value
  have own := set.scope_toldWorld member untold u.value
  refine ⟨toldWorld p told s u.value (Run.withLifetime w r new), ?_, next.vigil s member, next.gone all,
    ?_, ?_⟩
  · intro i
    have tells := set.tellVigil_eq (v := u.value) distinct member untold i u.context
    rw [if_pos complete] at tells
    rw [eq i, bind_of_eq tells, bind_assoc]
  · refine ⟨.named (nextName s.1 s.2) u.value, ?_, rfl⟩
    rw [lookup_eq (plain_nextName fits.plain s.2), Wait.vigil,
      innermost_cons (by rw [own, Ledger.get?_put_self])]
    rfl
  · intro s' among other plain unspelled
    have names : nextName s.1 s.2 ≠ nextName s'.1 s'.2 := fun same => other (nextName_inj same).symm
    have outer : (toldWorld p told s u.value (Run.withLifetime w r new)).store.innermost
        (nextName s'.1 s'.2) p.scopes = none := by
      rw [innermost_toldWorld names, ← unspelled]
      exact innermost_congr fun _ _ => rfl
    rw [lookup_eq (plain_nextName plain s'.2), Wait.vigil, innermost, own,
      Ledger.get?_put_of_ne names, keeps.get?_nextName]
    exact congrArg (fun found => Except.ok (found.map Prod.fst)) outer

end Steps

/-! ## Statements that wait for several variables -/

/-- What can happen from a world on in which a statement waits, as long as it goes on waiting:
assignments to its variables that leave one of them to wait for, and whatever leaves it alone. The sites
that have been assigned to are listed with the values, in their order. -/
inductive Course (p : Wait) (start : World) : List (Site × ValueRef) → World → Prop
  | reached : Course p start [] start
  | other {told : List (Site × ValueRef)} {w w' : World} :
      Course p start told w → Harmless p w w' → Course p start told w'
  | written {told : List (Site × ValueRef)} {w w' : World} {i : Interpreter} {u : Write} {s : Site}
      {r : VariableRef} :
      Course p start told w → s ∈ p.sites → u.Fits s r w →
      (∃ s' ∈ p.sites, s' ≠ s ∧ s' ∉ told.map Prod.fst) → u.run i w = .ok () w' →
        Course p start (told ++ [(s, u.value)]) w'

section Courses

variable {start : World}

theorem Course.pending (course : Course p start told w) (pending : Pending p [] start)
    (distinct : p.sites.Nodup) : Pending p told w := by
  induction course with
  | reached => exact pending
  | other _ harmless ih => exact harmless.pending ih
  | @written told w w' i u s r _ member fits more runs ih =>
    obtain ⟨w₁, done, next, -⟩ := ih.write distinct member fits more
    rw [done i] at runs
    cases runs
    exact next

/-- Something is left to wait for. -/
theorem Course.exists_untold (course : Course p start told w) (nonempty : p.sites ≠ []) :
    ∃ s ∈ p.sites, s ∉ told.map Prod.fst := by
  induction course with
  | reached =>
    obtain ⟨s, member⟩ := exists_mem_of_ne_nil p.sites nonempty
    exact ⟨s, member, not_mem_nil⟩
  | other _ _ ih => exact ih
  | written _ _ _ more _ _ =>
    obtain ⟨s', among, other, untold⟩ := more
    exact ⟨s', among, fun now => (mem_told_append.mp now).elim untold other⟩

theorem Course.untold_last (course : Course p start told w) (nonempty : p.sites ≠ [])
    (last : ∀ s' ∈ p.sites, s' ≠ s → s' ∈ told.map Prod.fst) : s ∉ told.map Prod.fst := by
  obtain ⟨s', among, untold⟩ := course.exists_untold nonempty
  by_cases same : s' = s
  · exact same ▸ untold
  · exact absurd (last s' among same) untold

end Courses

def firstTold (s : Site) (told : List (Site × ValueRef)) : Option ValueRef :=
  (told.find? (·.1 == s)).map (·.2)

theorem firstTold_append (untold : s ∉ told.map Prod.fst) (v : ValueRef) :
    firstTold s (told ++ [(s, v)]) = some v := by
  have none : told.find? (·.1 == s) = none := by
    rw [find?_eq_none]
    intro q member same
    exact untold (mem_map.mpr ⟨q, member, eq_of_beq same⟩)
  rw [firstTold, find?_append, none, find?_singleton, if_pos BEq.rfl]
  rfl

theorem GoesOn.finds_all_iff (goesOn : GoesOn p s u r w w') (distinct : p.sites.Nodup)
    (member : s ∈ p.sites) (untold : s ∉ told.map Prod.fst) (plain : ∀ s' ∈ p.sites, '.' ∉ s'.1.toList)
    (unspelled : ∀ s' ∈ p.sites, w.store.innermost (nextName s'.1 s'.2) p.scopes = none) :
    (∀ s' ∈ p.sites, ∃ v, firstTold s' (told ++ [(s, u.value)]) = some v ∧
      Reads w'.store (p.vigil s).scopes (nextName s'.1 s'.2) v) ↔ p.sites.length = 1 := by
  constructor
  · intro all
    have alone : ∀ s' ∈ p.sites, s' = s := by
      intro s' among
      by_contra other
      obtain ⟨v, -, e, finds, -⟩ := all s' among
      rw [goesOn.misses s' among other (plain s' among) (unspelled s' among)] at finds
      cases finds
    rw [eq_replicate_of_mem alone] at distinct ⊢
    have few := nodup_replicate.mp distinct
    have some := length_pos_of_mem member
    rw [length_replicate]
    omega
  · intro one s' among
    obtain ⟨only, single⟩ := length_eq_one_iff.mp one
    rw [single] at among member
    rw [mem_singleton.mp among, ← mem_singleton.mp member]
    exact ⟨u.value, firstTold_append untold u.value, goesOn.finds⟩

/-- A statement that asks for the next values of declared variables waits when it is reached. Whatever
the order in which they are assigned to, and however often, it goes on once, at the assignment that
leaves none of them to wait for: the assignments before that do not depend on the interpreter, and those
after it do not depend on what going on with the statement would do. When it goes on, it finds the value
of this last assignment. It does not find the first values of the other variables, so it finds all that
it waited for if and only if that is one. -/
theorem waiting_statement_goes_on_once {w : World} {c : Context} {f : Statement} {sites : List Site}
    (asks : Asks w c f sites) (clause : ClauseRef) (n : Nat) :
    ∃ p start, Run.Reached p w c clause n sites ∧
      (∀ i, Run.execute i c clause n f w = .ok none start) ∧
      Spares w.store.scopes.size (fun _ => False) w start ∧
      (∀ told w', Course p start told w' → ∀ s ∈ sites, ∀ u r, u.Fits s r w' →
        ((∃ s' ∈ sites, s' ≠ s ∧ s' ∉ told.map Prod.fst) →
          ∃ w'', (∀ i, u.run i w' = .ok () w'') ∧ Spares p.firstScope (· = r) w' w'') ∧
        ((∀ s' ∈ sites, s' ≠ s → s' ∈ told.map Prod.fst) →
          ∃ w'', GoesOn p s u r w' w'' ∧
            ((∀ s' ∈ sites, w'.store.innermost (nextName s'.1 s'.2) c.scopes = none) →
              ((∀ s' ∈ sites, ∃ v, firstTold s' (told ++ [(s, u.value)]) = some v ∧
                Reads w''.store (p.vigil s).scopes (nextName s'.1 s'.2) v) ↔ sites.length = 1)))) ∧
      ∀ w', Gone p w' → ∀ (u : Write) s r, u.Fits s r w' →
        ∀ (i : Interpreter) (resume : Context → Nat → Run Unit),
          (∀ c m, ¬p.Owns m → resume c m = i.resume c m) →
            u.run { i with resume := resume } w' = u.run i w' := by
  obtain ⟨p, start, reached, executes, pending, -, spares, -⟩ := execute_pending clause n asks
  refine ⟨p, start, reached, executes, spares, ?_, ?_⟩
  · obtain ⟨-, -, rfl, scopes, -, -, keeps⟩ := reached
    intro told w' course s member u r fits
    have now := course.pending pending asks.distinct
    constructor
    · intro more
      obtain ⟨w'', runs, -, spares⟩ := now.write asks.distinct member fits more
      exact ⟨w'', runs, spares⟩
    · intro last
      have untold := course.untold_last asks.nonempty last
      obtain ⟨w'', goesOn⟩ := now.goesOn asks.distinct member untold keeps fits last
      refine ⟨w'', goesOn, fun unspelled => ?_⟩
      rw [← scopes] at unspelled
      exact goesOn.finds_all_iff asks.distinct member untold
        (fun s' among => (asks.declared s' among).plain) unspelled
  · intro w' gone u s r fits i resume same
    exact gone.run_eq fits same

/-! ### Two variables -/

/-- A world with the keyword `next` and two variables. -/
def pairWorld : World :=
  { (default : World) with store := { empty with
    values := #[.keyword "next"]
    scopes := #[⟨[("next", .predefined ⟨0⟩), ("a", .variable ⟨0⟩), ("b", .variable ⟨1⟩)]⟩]
    slots := #[⟨"a", [⟨0, ⟨1⟩, endlessLines, 1, true, true⟩], []⟩,
      ⟨"b", [⟨1, ⟨2⟩, endlessLines, 1, true, true⟩], []⟩] } }

def nextOf (name : String) : Expr := .call (nameToken "next") [.value (nameToken name)]

def asksBoth : Statement :=
  .expression (.built 0 (.binary .add (nameToken "+") (nextOf "a") (nextOf "b"))) 0

def writesTo (name : String) (v : ValueRef) : Write :=
  ⟨keywordContext, ⟨nameToken name, .source [], 0, [], 1⟩, v⟩

section Pair

variable {name : String}

section

variable (spares : Spares 1 (fun _ => False) pairWorld w) (plain : '.' ∉ name.toList) (found : pairWorld.store.innermost name keywordContext.scopes = some (.variable r, ⟨0⟩))

include spares plain found

theorem nexts_pair
    :
    Nexts w.store keywordContext.scopes (nextOf name) [(name, ⟨0⟩)]
      (.value { nameToken name with text := nextName name ⟨0⟩ }) := by
  have known : ∀ y ∈ keywordContext.scopes, y.index < 1 := by decide
  refine .next ⟨.predefined ⟨0⟩, ?_, rfl⟩ ?_ plain ((spares.innermost known name).trans found)
  · rw [lookup_eq (by decide), spares.innermost known]
    rfl
  · rw [Store.value, spares.values]
    rfl

theorem declared_pair
    (lasts : (pairWorld.store.variableOf r).lifetimes ≠ []) :
    Declared w.store keywordContext.scopes (name, ⟨0⟩) := by
  refine ⟨plain, r, (spares.innermost (by decide) name).trans found, ?_⟩
  rwa [spares.slots r not_false]

end

theorem spares_refl (w : World) : Spares 1 (fun _ => False) w w :=
  ⟨rfl, rfl, fun _ _ => rfl, fun _ _ => rfl⟩

theorem asks_both : Asks pairWorld keywordContext asksBoth [("a", ⟨0⟩), ("b", ⟨0⟩)] := by
  have spares := spares_refl pairWorld
  refine ⟨?_, by simp, by decide, ?_, nofun⟩
  · have nextA : Nexts pairWorld.store keywordContext.scopes (nextOf "a") [("a", ⟨0⟩)] _ :=
      nexts_pair spares (by decide) rfl
    have nextB : Nexts pairWorld.store keywordContext.scopes (nextOf "b") [("b", ⟨0⟩)] _ :=
      nexts_pair spares (by decide) rfl
    have both : Nexts pairWorld.store keywordContext.scopes
        (.binary .add (nameToken "+") (nextOf "a") (nextOf "b")) _ _ := .binary nextA nextB
    refine .cons ?_ both .nil
    rfl
  · intro s member
    rcases mem_cons.mp member with rfl | later
    · exact declared_pair spares (by decide) rfl (by simp [pairWorld, Store.variableOf])
    · rw [mem_singleton.mp later]
      exact declared_pair spares (by decide) rfl (by simp [pairWorld, Store.variableOf])

theorem fits_a (v : ValueRef) : (writesTo "a" v).Fits ("a", ⟨0⟩) ⟨0⟩ pairWorld :=
  ⟨rfl, by decide, rfl, rfl, ⟨_, _, rfl, rfl⟩, nofun⟩

theorem fits_b (v : ValueRef) : (writesTo "b" v).Fits ("b", ⟨0⟩) ⟨1⟩ pairWorld :=
  ⟨rfl, by decide, rfl, rfl, ⟨_, _, rfl, rfl⟩, nofun⟩

theorem unspelled_pair : ∀ s ∈ [("a", (⟨0⟩ : ScopeRef)), ("b", ⟨0⟩)],
    pairWorld.store.innermost (nextName s.1 s.2) keywordContext.scopes = none := by
  intro s member
  rcases mem_cons.mp member with rfl | later
  · rfl
  · rw [mem_singleton.mp later]
    rfl

end Pair

/-- The statement `next a + next b` is reached, then `a` and then `b` are assigned to. -/
theorem waiting_statement_goes_on_once_pair : ∃ p start w w',
    (∀ i, Run.execute i keywordContext ⟨0⟩ 0 asksBoth pairWorld = .ok none start) ∧
    (∀ i, (writesTo "a" ⟨3⟩).run i start = .ok () w) ∧
    GoesOn p ("b", ⟨0⟩) (writesTo "b" ⟨4⟩) ⟨1⟩ w w' ∧
    ¬∀ s ∈ [("a", (⟨0⟩ : ScopeRef)), ("b", ⟨0⟩)], ∃ v,
      firstTold s [(("a", ⟨0⟩), ⟨3⟩), (("b", ⟨0⟩), ⟨4⟩)] = some v ∧
        Reads w'.store (p.vigil ("b", ⟨0⟩)).scopes (nextName s.1 s.2) v := by
  obtain ⟨p, start, reached, executes, spares, steps, -⟩ :=
    waiting_statement_goes_on_once asks_both ⟨0⟩ 0
  have known : ∀ y ∈ keywordContext.scopes, y.index < 1 := by decide
  have first : p.firstScope = 1 := reached.firstScope_eq
  have fitsA := (fits_a ⟨3⟩).keep spares not_false known
  have more : ∃ s' ∈ [("a", (⟨0⟩ : ScopeRef)), ("b", ⟨0⟩)],
      s' ≠ ("a", ⟨0⟩) ∧ s' ∉ ([] : List (Site × ValueRef)).map Prod.fst :=
    ⟨("b", ⟨0⟩), by simp, by decide, not_mem_nil⟩
  obtain ⟨w, runs, spares'⟩ := (steps [] start .reached ("a", ⟨0⟩) (by simp) _ _ fitsA).1 more
  rw [first] at spares'
  have course : Course p start [(("a", ⟨0⟩), ⟨3⟩)] w := by
    have sites := reached.sites_eq
    exact .written .reached (by simp [sites]) fitsA (sites ▸ more) (runs (interpreter 0))
  have fitsB := ((fits_b ⟨4⟩).keep spares not_false known).keep spares' (by decide) known
  have last : ∀ s' ∈ [("a", (⟨0⟩ : ScopeRef)), ("b", ⟨0⟩)], s' ≠ ("b", ⟨0⟩) →
      s' ∈ [((("a", ⟨0⟩), ⟨3⟩) : Site × ValueRef)].map Prod.fst := by decide
  obtain ⟨w', goesOn, all⟩ := (steps _ w course ("b", ⟨0⟩) (by simp) _ _ fitsB).2 last
  refine ⟨p, start, w, w', executes, runs, goesOn, fun finds => ?_⟩
  have unspelled : ∀ s' ∈ [("a", (⟨0⟩ : ScopeRef)), ("b", ⟨0⟩)],
      w.store.innermost (nextName s'.1 s'.2) keywordContext.scopes = none := by
    intro s' member
    rw [spares'.innermost known, spares.innermost known]
    exact unspelled_pair s' member
  exact absurd ((all unspelled).mp finds) (by decide)

/-- When `a` and then `b` have been assigned to, `next a + next b` goes on with the value of `b`, and
nothing is found under the name of the next value of `a`. -/
theorem earlier_next_value_not_found : ∃ p start w w',
    (∀ i, Run.execute i keywordContext ⟨0⟩ 0 asksBoth pairWorld = .ok none start) ∧
    (∀ i, (writesTo "a" ⟨3⟩).run i start = .ok () w) ∧
    GoesOn p ("b", ⟨0⟩) (writesTo "b" ⟨4⟩) ⟨1⟩ w w' ∧
    w'.store.lookup (p.vigil ("b", ⟨0⟩)).scopes (nextName "a" ⟨0⟩) = .ok none := by
  obtain ⟨p, start, reached, executes, pending, -, spares, -⟩ := execute_pending ⟨0⟩ 0 asks_both
  obtain ⟨-, -, sites, scopes, -, first, keeps⟩ := reached
  have known : ∀ y ∈ keywordContext.scopes, y.index < 1 := by decide
  have distinct : p.sites.Nodup := sites ▸ asks_both.distinct
  have fitsA := (fits_a ⟨3⟩).keep spares not_false known
  have more : ∃ s' ∈ p.sites, s' ≠ ("a", ⟨0⟩) ∧ s' ∉ ([] : List (Site × ValueRef)).map Prod.fst :=
    ⟨("b", ⟨0⟩), by simp [sites], by decide, not_mem_nil⟩
  obtain ⟨w, runs, next, spares'⟩ := pending.write distinct (by simp [sites]) fitsA more
  rw [first] at spares'
  have fitsB := ((fits_b ⟨4⟩).keep spares not_false known).keep spares' (by decide) known
  have last : ∀ s' ∈ p.sites, s' ≠ ("b", ⟨0⟩) →
      s' ∈ [((("a", ⟨0⟩), ⟨3⟩) : Site × ValueRef)].map Prod.fst := by
    rw [sites]
    decide
  obtain ⟨w', goesOn⟩ := next.goesOn distinct (by simp [sites]) (by decide) keeps fitsB last
  refine ⟨p, start, w, w', executes, runs, goesOn, ?_⟩
  refine goesOn.misses ("a", ⟨0⟩) (by simp [sites]) (by decide) (by decide) ?_
  rw [scopes, spares'.innermost known, spares.innermost known]
  exact unspelled_pair ("a", ⟨0⟩) (by simp)

/-! ## Statements that wait for the same variable -/

/-- Statements have been reached that wait for a site, the latest first, and whatever happened since has
left them alone. -/
inductive Queue (s : Site) : List Wait → World → Prop
  | start (w : World) : Queue s [] w
  | other {ps : List Wait} {w w' : World} :
      Queue s ps w → (∀ p ∈ ps, Harmless p w w') → Queue s ps w'
  | reached {ps : List Wait} {w w' : World} {p : Wait} {i : Interpreter} {c : Context} {f : Statement}
      {clause : ClauseRef} {n : Nat} :
      Queue s ps w → Asks w c f [s] → Reached p w c clause n [s] →
      execute i c clause n f w = .ok none w' → Pending p [] w' → Queue s (p :: ps) w'

/-- No site leads to the statement, and its vigils have been written down, so that none will. -/
structure Lost (p : Wait) (w : World) : Prop where
  gone : Gone p w
  written : p.firstVigil + p.sites.length ≤ w.store.vigils.size

theorem Lost.harmless (lost : Lost p w) (harmless : Harmless p w w') : Lost p w' :=
  ⟨fun s n leads owns => lost.gone s n (harmless.only s n leads owns) owns,
    Nat.le_trans lost.written harmless.vigils_size⟩

section Queues

variable {ps : List Wait} {q : Wait}

theorem Pending.written (pending : Pending q [] w) (alone : q.sites = [s]) :
    q.firstVigil + q.sites.length ≤ w.store.vigils.size := by
  have vigil := pending.vigil s (by simp [alone])
  obtain ⟨inside, -⟩ := Array.getElem?_eq_some_iff.mp vigil
  have number : q.number s = q.firstVigil := by simp [Wait.number, alone]
  rw [number] at inside
  rwa [alone]

theorem lost_of_reached {clause : ClauseRef} (reached : Reached p w c clause n [s])
    (pending : Pending p [] w') (others : ∀ s' ∉ [s], w'.part.vigils.get? s' = w.part.vigils.get? s')
    (written : q.firstVigil + q.sites.length ≤ w.store.vigils.size)
    (only : ∀ s' m, w.part.vigils.get? s' = some m → q.Owns m → s' = s) : Lost q w' := by
  have member : s ∈ p.sites := by simp [reached.sites_eq]
  have number : p.number s = w.store.vigils.size := by
    simp [Wait.number, reached.sites_eq, reached.firstVigil_eq]
  have grown : w.store.vigils.size < w'.store.vigils.size := by
    obtain ⟨inside, -⟩ := Array.getElem?_eq_some_iff.mp (pending.vigil s member)
    exact number ▸ inside
  refine ⟨?_, Nat.le_trans written (Nat.le_of_lt grown)⟩
  intro s' m leads owns
  by_cases same : s' = s
  · have entry := pending.leads member not_mem_nil
    rw [← same, leads, Option.some.injEq, same] at entry
    exact absurd owns.2 (by omega)
  · rw [others s' (by simpa using same)] at leads
    exact same (only s' m leads owns)

theorem Queue.lost (queue : Queue s ps w) : ∀ p rest, ps = p :: rest →
    (p.sites = [s] ∧ KeepsPresent p.kept ∧ Pending p [] w) ∧ ∀ q ∈ rest, Lost q w := by
  induction queue with
  | start w =>
    intro p rest whole
    cases whole
  | @other ps w w' _ harmless ih =>
    intro p rest whole
    obtain ⟨⟨sites, keeps, pending⟩, lost⟩ := ih p rest whole
    refine ⟨⟨sites, keeps, (harmless p (by simp [whole])).pending pending⟩, ?_⟩
    intro q member
    exact (lost q member).harmless (harmless q (by simp [whole, member]))
  | @reached ps w w' p i c f clause n _ asks reached executes pending ih =>
    intro p' rest whole
    obtain ⟨rfl, rfl⟩ := List.cons.inj whole
    refine ⟨⟨reached.sites_eq, reached.keeps, pending⟩, ?_⟩
    obtain ⟨-, w₁, -, executes', -, -, -, others⟩ := execute_pending clause n asks
    rw [executes' i] at executes
    cases executes
    intro q member
    cases ps with
    | nil => cases member
    | cons q₀ rest =>
      obtain ⟨⟨sites, -, waiting⟩, lost⟩ := ih q₀ rest rfl
      rcases mem_cons.mp member with rfl | earlier
      · refine lost_of_reached reached pending others (waiting.written sites) ?_
        intro s' m leads owns
        have among := waiting.only s' m leads owns
        rw [sites] at among
        exact mem_singleton.mp among
      · refine lost_of_reached reached pending others (lost q earlier).written ?_
        intro s' m leads owns
        exact absurd owns ((lost q earlier).gone s' m leads)

theorem Queue.goesOn (queue : Queue s (p :: ps) w) (fits : u.Fits s r w) :
    ∃ w', GoesOn p s u r w w' := by
  obtain ⟨⟨sites, keeps, pending⟩, -⟩ := queue.lost p ps rfl
  refine pending.goesOn (by simp [sites]) (by simp [sites]) not_mem_nil keeps fits ?_
  intro s' among other
  rw [sites] at among
  exact absurd (mem_singleton.mp among) other

end Queues

/-- Statements that wait for the next value of one variable can be reached in any number. The first
assignment to it goes on with the one that was reached last, once, and with no other: no site leads to
the others any more, and what going on with them would do makes no difference to an assignment. So it
goes on with all of them if and only if there is one. -/
theorem latest_waiting_statement_goes_on {s : Site} {ps : List Wait} {w : World} (queue : Queue s ps w) :
    (∀ c f clause n, Asks w c f [s] → ∃ p w', Run.Reached p w c clause n [s] ∧
      (∀ i, Run.execute i c clause n f w = .ok none w') ∧ Queue s (p :: ps) w' ∧ Numbered w' ∧
      Spares w.store.scopes.size (fun _ => False) w w') ∧
    ∀ p rest, ps = p :: rest → ∀ (u : Write) r, u.Fits s r w →
      ∃ w', GoesOn p s u r w w' ∧
        ((∀ q ∈ ps, q.Owns (p.number s)) ↔ rest = []) ∧
        ∀ q ∈ rest, Lost q w ∧
          ∀ (i : Interpreter) (resume : Context → Nat → Run Unit),
            (∀ c m, ¬q.Owns m → resume c m = i.resume c m) →
              u.run { i with resume := resume } w = u.run i w := by
  constructor
  · intro c f clause n asks
    obtain ⟨p, w', reached, executes, pending, numbered, spares, -⟩ :=
      execute_pending clause n asks
    exact ⟨p, w', reached, executes, queue.reached asks reached (executes (interpreter 0)) pending,
      numbered, spares⟩
  · intro p rest whole u r fits
    subst whole
    obtain ⟨w', goesOn⟩ := queue.goesOn fits
    obtain ⟨⟨sites, -, pending⟩, lost⟩ := queue.lost p rest rfl
    have member : s ∈ p.sites := by simp [sites]
    refine ⟨w', goesOn, ?_, ?_⟩
    · constructor
      · intro all
        rw [eq_nil_iff_forall_not_mem]
        intro q among
        have leads := pending.leads member not_mem_nil
        exact (lost q among).gone s _ leads (all q (mem_cons_of_mem p among))
      · intro none q among
        rw [none] at among
        rw [mem_singleton.mp among]
        exact Wait.owns_number member
    · intro q among
      exact ⟨lost q among, fun i resume same => (lost q among).gone.run_eq fits same⟩

/-! ### Two statements -/

def asksOne : Statement := .expression (.built 0 (nextOf "a")) 0

theorem asks_one (spares : Spares 1 (fun _ => False) pairWorld w) (numbered : Numbered w) :
    Asks w keywordContext asksOne [("a", ⟨0⟩)] := by
  refine ⟨?_, by simp, by simp, ?_, numbered⟩
  · have nextA : Nexts w.store keywordContext.scopes (nextOf "a") [("a", ⟨0⟩)] _ :=
      nexts_pair spares (by decide) rfl
    refine .cons ?_ nextA .nil
    rfl
  · intro s member
    rw [mem_singleton.mp member]
    exact declared_pair spares (by decide) rfl (by simp [pairWorld, Store.variableOf])

theorem asks_one_first : Asks pairWorld keywordContext asksOne [("a", ⟨0⟩)] :=
  asks_one (spares_refl pairWorld) nofun

theorem known_of_queue {ps : List Wait} (queue : Queue ("a", ⟨0⟩) (p :: ps) w) :
    ∀ y ∈ keywordContext.scopes, y.index < w.store.scopes.size := by
  obtain ⟨⟨sites, -, pending⟩, -⟩ := queue.lost p ps rfl
  intro y member
  rw [mem_singleton.mp member]
  exact Nat.lt_of_le_of_lt (Nat.zero_le _) (pending.inside ("a", ⟨0⟩) (by simp [sites]))

/-- Two statements `next a` are reached, then `a` is assigned to. -/
theorem latest_waiting_statement_goes_on_pair : ∃ p q w w',
    Queue ("a", ⟨0⟩) [q, p] w ∧ GoesOn q ("a", ⟨0⟩) (writesTo "a" ⟨3⟩) ⟨0⟩ w w' ∧ Lost p w ∧
      ¬∀ p' ∈ [q, p], p'.Owns (q.number ("a", ⟨0⟩)) := by
  obtain ⟨reach, -⟩ := latest_waiting_statement_goes_on (.start (s := ("a", ⟨0⟩)) pairWorld)
  obtain ⟨p, w₁, -, -, queue₁, numbered, spares⟩ := reach keywordContext asksOne ⟨0⟩ 0 asks_one_first
  obtain ⟨reach', -⟩ := latest_waiting_statement_goes_on queue₁
  obtain ⟨q, w, -, -, queue, -, spares'⟩ :=
    reach' keywordContext asksOne ⟨1⟩ 0 (asks_one spares numbered)
  have fits := ((fits_a ⟨3⟩).keep spares not_false (by decide)).keep spares' not_false
    (known_of_queue queue₁)
  obtain ⟨-, next⟩ := latest_waiting_statement_goes_on queue
  obtain ⟨w', goesOn, all, lost⟩ := next q [p] rfl _ _ fits
  exact ⟨p, q, w, w', queue, goesOn, (lost p (by simp)).1, fun every => by cases all.mp every⟩

/-- Of two statements `next a` only the second goes on when `a` is assigned to: the number that is gone
on with is not among those of the first, and no site leads to the first any more. -/
theorem earlier_statement_lost : ∃ p q w w',
    Queue ("a", ⟨0⟩) [q, p] w ∧ GoesOn q ("a", ⟨0⟩) (writesTo "a" ⟨3⟩) ⟨0⟩ w w' ∧ Lost p w ∧
      ¬p.Owns (q.number ("a", ⟨0⟩)) := by
  obtain ⟨p, w₁, reached, executes, pending, numbered, spares, -⟩ :=
    execute_pending ⟨0⟩ 0 asks_one_first
  have queue₁ : Queue ("a", ⟨0⟩) [p] w₁ :=
    (Queue.start pairWorld).reached asks_one_first reached (executes (interpreter 0)) pending
  have again := asks_one spares numbered
  obtain ⟨q, w, reached', executes', pending', -, spares', -⟩ := execute_pending ⟨1⟩ 0 again
  have queue : Queue ("a", ⟨0⟩) [q, p] w :=
    queue₁.reached again reached' (executes' (interpreter 0)) pending'
  have fits := ((fits_a ⟨3⟩).keep spares not_false (by decide)).keep spares' not_false
    (known_of_queue queue₁)
  obtain ⟨w', goesOn⟩ := queue.goesOn fits
  obtain ⟨⟨sites, -, waiting⟩, lost⟩ := queue.lost q [p] rfl
  refine ⟨p, q, w, w', queue, goesOn, lost p (by simp), ?_⟩
  exact (lost p (by simp)).gone _ _ (waiting.leads (by simp [sites]) not_mem_nil)

end DreamBerd
