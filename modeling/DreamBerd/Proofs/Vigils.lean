import DreamBerd.Proofs.Nexts

/-!
# Statements that keep vigil

A statement that asks for next values is not run when it is reached. It is written down once for each
site that it waits for, and each of these vigils has a scope of its own. `Wait` says where a statement
has been written down and `Pending` that it is waiting, with some of its sites told. Reaching a
statement makes it pending, whichever interpreter runs it, and telling a site either leaves it pending
or lets it go on.
-/

namespace DreamBerd

open List Store Ledger

variable {sites : List Site} {name : String} {v : ValueRef} {p : Wait} {told : List (Site × ValueRef)}
  {i : Interpreter} {r : VariableRef} {c : Context}

variable {w w' : World} {scopes : List ScopeRef} {s site : Site} {done rest : List Site}
  {old fresh : Nat} {touched : VariableRef → Prop} {clauses : Array (List Statement)}

/-! ## Worlds with other clauses -/

/-- The world with other clauses and another number to give out. -/
def reworked (w : World) (clauses : Array (List Statement)) (fresh : Nat) : World :=
  { w with store := { w.store with clauses, fresh } }

section Reworked

theorem innermost_reworked (name : String) :
    (reworked w clauses fresh).store.innermost name scopes = w.store.innermost name scopes :=
  innermost_congr fun _ _ => rfl

theorem member_reworked (e : Entry) (names : List String) :
    (reworked w clauses fresh).store.member e names = w.store.member e names := by
  induction names generalizing e with
  | nil => rfl
  | cons name names ih =>
    unfold member
    simp only [ih]
    rfl

theorem lookup_reworked (name : String) :
    (reworked w clauses fresh).store.lookup scopes name = w.store.lookup scopes name := by
  unfold Store.lookup
  simp only [innermost_reworked, member_reworked]

theorem Reads.reworked (reads : Reads w.store scopes name v) :
    Reads (reworked w clauses fresh).store scopes name v := by
  obtain ⟨e, finds, holds⟩ := reads
  refine ⟨e, (lookup_reworked name).trans finds, ?_⟩
  cases e <;> exact holds

mutual

theorem Nexts.reworked (nexts : Nexts w.store scopes e a e') :
    Nexts (reworked w clauses fresh).store scopes e a e' := by
  cases nexts with
  | value t => exact .value t
  | list items => exact .list items.reworked
  | index v n => exact .index v.reworked n.reworked
  | binary l r => exact .binary l.reworked r.reworked
  | unary e => exact .unary e.reworked
  | next reads keyword plain found =>
    exact .next reads.reworked keyword plain ((innermost_reworked _).trans found)
  | call reads notNext notAwait all => exact .call reads.reworked notNext notAwait all.reworked

theorem NextsAll.reworked {es es' : List Expr} (nexts : NextsAll w.store scopes es a es') :
    NextsAll (reworked w clauses fresh).store scopes es a es' := by
  cases nexts with
  | nil => exact .nil
  | cons e es => exact .cons e.reworked es.reworked

end

end Reworked

/-! ## What is left as it is -/

/-- The first scopes, the boards and the values are left as they are, and so are the variables apart
from those touched. -/
structure Spares (old : Nat) (touched : VariableRef → Prop) (w w' : World) : Prop where
  values : w'.store.values = w.store.values
  boards : w'.store.boards = w.store.boards
  scopes : ∀ y : ScopeRef, y.index < old → w'.store.scope y = w.store.scope y
  slots : ∀ r, ¬touched r → w'.store.variableOf r = w.store.variableOf r

theorem Spares.innermost (spares : Spares old touched w w') (known : ∀ y ∈ scopes, y.index < old)
    (name : String) : w'.store.innermost name scopes = w.store.innermost name scopes :=
  innermost_congr fun y member => by rw [spares.scopes y (known y member)]

theorem Spares.trans (first : Spares old touched w w')
    (second : Spares old touched w' w'') : Spares old touched w w'' := by
  refine ⟨second.values.trans first.values, second.boards.trans first.boards, ?_, ?_⟩
  · intro y inside
    rw [second.scopes y inside, first.scopes y inside]
  · intro r spared
    rw [second.slots r spared, first.slots r spared]

/-! ## Statements that ask for next values -/

def Expression.HasTree (source : Source) (tree : Expr) : Expression → Prop
  | .source tokens => Expr.ofTokens source tokens = .ok tree
  | .built _ t => t = tree

inductive NextsIn (w : World) (scopes : List ScopeRef) : List Expression → List Site → Prop
  | nil : NextsIn w scopes [] []
  | cons {e : Expression} {es : List Expression} {tree tree' : Expr} {a b : List Site} :
      e.HasTree w.part.source tree → Nexts w.store scopes tree a tree' → NextsIn w scopes es b →
        NextsIn w scopes (e :: es) (joined a b)

structure Declared (s : Store) (scopes : List ScopeRef) (site : Site) : Prop where
  plain : '.' ∉ site.1.toList
  found : ∃ r, s.innermost site.1 scopes = some (.variable r, site.2) ∧ (s.variableOf r).lifetimes ≠ []

/-- No site leads to a vigil that has not been written down. -/
def Numbered (w : World) : Prop := ∀ s n, w.part.vigils.get? s = some n → n < w.store.vigils.size

/-- The statement asks for the next values of declared variables. -/
structure Asks (w : World) (c : Context) (f : Statement) (sites : List Site) : Prop where
  nexts : NextsIn w c.scopes (Run.expressionsOf f) sites
  nonempty : sites ≠ []
  distinct : sites.Nodup
  declared : ∀ s ∈ sites, Declared w.store c.scopes s
  numbered : Numbered w

theorem Declared.reads {s : Store} (declared : Declared s scopes site) :
    ∃ v, Reads s scopes site.1 v := by
  obtain ⟨r, found, lifetimes⟩ := declared.found
  cases held : (s.variableOf r).lifetimes with
  | nil => exact absurd held lifetimes
  | cons l ls =>
    refine ⟨l.value, .variable r, ?_, ?_⟩
    · rw [lookup_eq declared.plain, found]
      rfl
    · rw [entryValue, Variable.value, Variable.current, held]
      rfl

theorem Declared.reworked (declared : Declared w.store scopes site) :
    Declared (reworked w clauses fresh).store scopes site := by
  obtain ⟨r, found, lifetimes⟩ := declared.found
  exact ⟨declared.plain, r, (innermost_reworked _).trans found, lifetimes⟩

theorem NextsIn.reworked {es : List Expression} (nexts : NextsIn w scopes es a) :
    NextsIn (reworked w clauses fresh) scopes es a := by
  induction nexts with
  | nil => exact .nil
  | cons tree asks _ ih => exact .cons tree asks.reworked ih

namespace Run

theorem treeOf_ok {tree : Expr} (holds : e.HasTree w.part.source tree) : treeOf e w = .ok tree w := by
  cases e with
  | source tokens => exact ofExcept_ok holds
  | built id built =>
    cases holds
    rfl

theorem replaceNextIn_ok {es : List Expression} (nexts : NextsIn w scopes es a) :
    ∃ fresh trees renamed, replaceNextIn scopes es w =
      .ok (trees, ⟨a, [], renamed⟩) (reworked w w.store.clauses fresh) := by
  induction es generalizing w a with
  | nil =>
    cases nexts
    exact ⟨w.store.fresh, [], [], rfl⟩
  | cons e es ih =>
    obtain _ | @⟨_, _, tree, tree', a, b, holds, asks, rest⟩ := nexts
    cases e with
    | built id t =>
      obtain ⟨renamed, done⟩ := replaceNext_ok asks
      obtain ⟨fresh, trees, renamed', done'⟩ := ih rest
      refine ⟨fresh, (id, tree') :: trees, renamed ++ renamed', ?_⟩
      refine (bind_ok rfl).trans ((bind_ok (treeOf_ok holds)).trans ?_)
      exact (bind_ok done).trans ((bind_ok done').trans rfl)
    | source tokens =>
      have asks' : Nexts (reworked w w.store.clauses (w.store.fresh + 1)).store scopes tree a tree' :=
        asks.reworked
      obtain ⟨renamed, done⟩ := replaceNext_ok asks'
      have rest' : NextsIn (reworked w w.store.clauses (w.store.fresh + 1)) scopes es b := rest.reworked
      obtain ⟨fresh, trees, renamed', done'⟩ := ih rest'
      refine ⟨fresh, (w.store.fresh, tree') :: trees, renamed ++ renamed', ?_⟩
      have built : treeOf (.source tokens) (reworked w w.store.clauses (w.store.fresh + 1)) =
          .ok tree (reworked w w.store.clauses (w.store.fresh + 1)) := treeOf_ok holds
      refine (bind_ok rfl).trans ((bind_ok built).trans ?_)
      exact (bind_ok done).trans ((bind_ok done').trans rfl)

theorem keepPreviousIn_ok {names : List String}
    (known : ∀ name ∈ names, ∃ v, Reads w.store scopes name v) (trees : List (Nat × Expr)) :
    ∃ es k, keepPreviousIn scopes names trees w = .ok (es, k) w ∧ KeepsPresent k.scope := by
  induction trees with
  | nil => exact ⟨[], ∅, rfl, keepsPresent_empty⟩
  | cons p trees ih =>
    obtain ⟨id, tree⟩ := p
    obtain ⟨tree', k, done, keeps⟩ := keepPrevious_ok known tree
    obtain ⟨es, k', done', keeps'⟩ := ih
    exact ⟨.built id tree' :: es, k ∪ k', (bind_ok done).trans ((bind_ok done').trans rfl),
      keeps.merge keeps'⟩

/-! ## Writing a statement down -/

end Run

/-- Where a waiting statement has been written down: what it is, the sites that it waits for, the
present values that it keeps and the scopes that it stands in, the number of the list of sites that
are still awaited, and the first of its vigils and of their scopes. -/
structure Wait where
  clause : ClauseRef
  form : Nat
  sites : List Site
  kept : Scope
  scopes : List ScopeRef
  waiting : Nat
  firstVigil : Nat
  firstScope : Nat

namespace Wait

def number (p : Wait) (s : Site) : Nat := p.firstVigil + p.sites.idxOf s

def scope (p : Wait) (s : Site) : ScopeRef := ⟨p.firstScope + p.sites.idxOf s⟩

def vigil (p : Wait) (s : Site) : Vigil := ⟨p.clause, p.form, p.waiting, p.scope s :: p.scopes, none⟩

def Owns (p : Wait) (n : Nat) : Prop := p.firstVigil ≤ n ∧ n < p.firstVigil + p.sites.length

def awaited (p : Wait) (told : List (Site × ValueRef)) : List Site :=
  p.sites.filter (· ∉ told.map Prod.fst)

theorem mem_awaited : s ∈ p.awaited told ↔ s ∈ p.sites ∧ s ∉ told.map Prod.fst := by
  rw [awaited, mem_filter, decide_eq_true_iff]

theorem owns_number (member : s ∈ p.sites) : p.Owns (p.number s) :=
  ⟨Nat.le_add_right _ _, Nat.add_lt_add_left (idxOf_lt_length_iff.mpr member) _⟩

theorem scope_ne (member : s ∈ p.sites) (other : s' ≠ s) : p.scope s' ≠ p.scope s := by
  intro same
  have positions : p.sites.idxOf s = p.sites.idxOf s' :=
    Nat.add_left_cancel (congrArg ScopeRef.index same).symm
  exact other ((idxOf_inj member).mp positions).symm

end Wait

/-- The world after a statement has been written down for one more site. -/
def withVigil (p : Wait) (w : World) (s : Site) : World :=
  { w with
    store := { w.store with
      scopes := w.store.scopes.push p.kept
      vigils := w.store.vigils.push
        ⟨p.clause, p.form, p.waiting, ⟨w.store.scopes.size⟩ :: p.scopes, none⟩ }
    part := { w.part with vigils := w.part.vigils.put s w.store.vigils.size } }

structure Pending (p : Wait) (told : List (Site × ValueRef)) (w : World) : Prop where
  waits : w.store.waits[p.waiting]? = some (p.awaited told)
  vigil : ∀ s ∈ p.sites, w.store.vigils[p.number s]? = some (p.vigil s)
  entry : ∀ s ∈ p.sites, w.part.vigils.get? s =
    if s ∈ told.map Prod.fst then none else some (p.number s)
  only : ∀ s n, w.part.vigils.get? s = some n → p.Owns n → s ∈ p.sites
  inside : ∀ s ∈ p.sites, (p.scope s).index < w.store.scopes.size
  own : ∀ s ∈ p.sites, s ∉ told.map Prod.fst → w.store.scope (p.scope s) = p.kept

theorem Pending.leads (pending : Pending p told w) (member : s ∈ p.sites)
    (untold : s ∉ told.map Prod.fst) : w.part.vigils.get? s = some (p.number s) := by
  rw [pending.entry s member, if_neg untold]

/-- The statement has been written down for the first of its sites. -/
structure Enrolled (p : Wait) (done : List Site) (w : World) : Prop where
  vigils_size : w.store.vigils.size = p.firstVigil + done.length
  scopes_size : w.store.scopes.size = p.firstScope + done.length
  vigil : ∀ s ∈ done, w.store.vigils[p.number s]? = some (p.vigil s)
  entry : ∀ s ∈ done, w.part.vigils.get? s = some (p.number s)
  only : ∀ s n, w.part.vigils.get? s = some n → p.firstVigil ≤ n → s ∈ done
  own : ∀ s ∈ done, w.store.scope (p.scope s) = p.kept

theorem idxOf_append_cons (absent : s ∉ done) : (done ++ s :: rest).idxOf s = done.length := by
  rw [idxOf_append_of_notMem absent, idxOf_cons_self, Nat.add_zero]

theorem Enrolled.step (enrolled : Enrolled p done w) (sites : p.sites = done ++ s :: rest)
    (distinct : p.sites.Nodup) : Enrolled p (done ++ [s]) (withVigil p w s) := by
  have absent : s ∉ done := by
    rw [sites] at distinct
    exact fun member => (nodup_append.mp distinct).2.2 s member s mem_cons_self rfl
  have position : p.sites.idxOf s = done.length := sites ▸ idxOf_append_cons absent
  have number : p.number s = w.store.vigils.size := by
    rw [Wait.number, position, enrolled.vigils_size]
  have scope : p.scope s = ⟨w.store.scopes.size⟩ := by
    rw [Wait.scope, position, enrolled.scopes_size]
  have before {s' : Site} (member : s' ∈ done) : p.sites.idxOf s' < done.length := by
    rw [sites, idxOf_append_of_mem member]
    exact idxOf_lt_length_iff.mpr member
  refine ⟨?_, ?_, ?_, ?_, ?_, ?_⟩
  · simp [withVigil, enrolled.vigils_size, Nat.add_assoc]
  · simp [withVigil, enrolled.scopes_size, Nat.add_assoc]
  · intro s' member
    show (w.store.vigils.push _)[p.number s']? = _
    rcases mem_append.mp member with old | new
    · have inside : p.number s' < w.store.vigils.size := by
        rw [enrolled.vigils_size]
        exact Nat.add_lt_add_left (before old) _
      rw [Array.getElem?_push_lt inside, ← Array.getElem?_eq_getElem, enrolled.vigil s' old]
    · rw [mem_singleton.mp new, number, Array.getElem?_push_size, Wait.vigil, scope]
  · intro s' member
    show (w.part.vigils.put s w.store.vigils.size).get? s' = _
    rcases mem_append.mp member with old | new
    · have other : s ≠ s' := fun same => absent (same ▸ old)
      rw [get?_put_of_ne other, enrolled.entry s' old]
    · rw [mem_singleton.mp new, get?_put_self, number]
  · intro s' n leads above
    by_cases same : s = s'
    · simp [same]
    · have leads' : w.part.vigils.get? s' = some n := by
        rw [← leads]
        exact (get?_put_of_ne same).symm
      exact mem_append_left _ (enrolled.only s' n leads' above)
  · intro s' member
    rcases mem_append.mp member with old | new
    · have inside : (p.scope s').index < w.store.scopes.size := by
        rw [enrolled.scopes_size]
        exact Nat.add_lt_add_left (before old) _
      rw [← enrolled.own s' old]
      show ((w.store.scopes.push p.kept)[(p.scope s').index]?).getD .empty =
        (w.store.scopes[(p.scope s').index]?).getD .empty
      rw [Array.getElem?_push_lt inside, Array.getElem?_eq_getElem inside]
    · rw [mem_singleton.mp new, scope]
      simp [withVigil, Store.scope]

theorem Enrolled.run (enrolled : Enrolled p done w) (sites : p.sites = done ++ rest)
    (distinct : p.sites.Nodup) : Enrolled p p.sites (rest.foldl (withVigil p) w) := by
  induction rest generalizing done w with
  | nil =>
    rw [append_nil] at sites
    rwa [sites]
  | cons s rest ih =>
    have next : p.sites = (done ++ [s]) ++ rest := by rw [sites, append_assoc]; rfl
    exact ih (enrolled.step sites distinct) next

theorem waits_foldl_withVigil (p : Wait) (sites : List Site) (w : World) :
    (sites.foldl (withVigil p) w).store.waits = w.store.waits := by
  induction sites generalizing w with
  | nil => rfl
  | cons s sites ih => rw [foldl_cons, ih]; rfl

theorem Enrolled.pending (enrolled : Enrolled p p.sites w)
    (waits : w.store.waits[p.waiting]? = some p.sites) : Pending p [] w := by
  refine ⟨?_, enrolled.vigil, ?_, ?_, ?_, ?_⟩
  · rw [waits, Wait.awaited]
    simp
  · intro s member
    rw [enrolled.entry s member]
    simp
  · exact fun s n leads owns => enrolled.only s n leads owns.1
  · intro s member
    rw [enrolled.scopes_size]
    exact Nat.add_lt_add_left (idxOf_lt_length_iff.mpr member) _
  · exact fun s member _ => enrolled.own s member

namespace Run

theorem settings_ok (plain : '.' ∉ s.1.toList)
    (found : w.store.innermost s.1 scopes = some (.variable r, s.2)) :
    settings scopes s.1 w = .ok (some (w.store.variableOf r).previous.length) w := by
  have finds : w.store.lookup scopes s.1 = .ok (some (.variable r)) := by
    rw [lookup_eq plain, found]
    rfl
  exact (bind_ok (lookup_ok finds)).trans rfl

def settingsOf (w : World) (scopes : List ScopeRef) (s : Site) : Option Nat :=
  match w.store.innermost s.1 scopes with
  | some (.variable r, _) => some (w.store.variableOf r).previous.length
  | _ => none

theorem settings_eq (declared : Declared w.store scopes s) :
    settings scopes s.1 w = .ok (settingsOf w scopes s) w := by
  obtain ⟨r, found, -⟩ := declared.found
  rw [settings_ok declared.plain found, settingsOf, found]

/-- Nothing has been set between the two looks at the variables. -/
theorem checkUnset_ok (declared : ∀ s ∈ sites, Declared w.store scopes s) :
    checkUnset scopes (sites.map fun s => (s, settingsOf w scopes s)) w = .ok () w := by
  refine (bind_ok (forIn_read ?_)).trans rfl
  intro q member
  obtain ⟨s, among, rfl⟩ := mem_map.mp member
  have here := declared s among
  obtain ⟨r, found, -⟩ := here.found
  have finds : w.store.lookup scopes s.1 = .ok (some (.variable r)) := by
    rw [lookup_eq here.plain, found]
    rfl
  refine (bind_ok (lookup_ok finds)).trans ((bind_ok (settings_eq here)).trans ?_)
  dsimp only
  rw [if_neg (by simp)]
  rfl

theorem enrol_eq (p : Wait) (sites : List Site) (plain : ∀ s ∈ sites, '.' ∉ s.1.toList) (w : World) :
    (forIn sites PUnit.unit fun s _ => do
      let x ← newScope p.kept
      let n := (← store).vigils.size
      modifyStore fun st => { st with
        vigils := st.vigils.push ⟨p.clause, p.form, p.waiting, x :: p.scopes, none⟩ }
      modifySection fun part => { part with vigils := part.vigils.put (lastPart s.1, s.2) n }
      pure (.yield PUnit.unit) : Run PUnit) w = .ok PUnit.unit (sites.foldl (withVigil p) w) := by
  induction sites generalizing w with
  | nil => rfl
  | cons s sites ih =>
    rw [foldl_cons, ← ih ((forall_mem_cons.mp plain).2)]
    refine forIn_cons_yield ?_
    rw [lastPart_eq (plain s mem_cons_self)]
    rfl

def withWaits (w : World) (sites : List Site) : World :=
  { w with store := { w.store with waits := w.store.waits.push sites } }

def waitIn (w : World) (clause : ClauseRef) (form : Nat) (sites : List Site) (kept : Scope)
    (scopes : List ScopeRef) : Wait :=
  ⟨clause, form, sites, (ofList []).merge kept, scopes, w.store.waits.size,
    w.store.vigils.size, w.store.scopes.size⟩

theorem keepVigil_eq {clause : ClauseRef} {form : Nat} {renamed : List (Token × Token)} {kept : Scope}
    (declared : ∀ s ∈ sites, Declared w.store scopes s) :
    keepVigil i clause form ⟨sites, [], renamed⟩ kept none scopes w =
      .ok () (sites.foldl (withVigil (waitIn w clause form sites kept scopes)) (withWaits w sites)) := by
  have reads : ∀ s ∈ sites, (do return (s, ← settings scopes s.1) : Run (Site × Option Nat)) w =
      .ok (s, settingsOf w scopes s) w := by
    intro s member
    exact (bind_ok (settings_eq (declared s member))).trans rfl
  have nothing {α β : Type} (g : α → Run β) : ([] : List α).mapM g w = .ok [] w := rfl
  unfold keepVigil
  refine (bind_ok (nothing _)).trans ((bind_ok (mapM_read reads)).trans ?_)
  refine (bind_ok rfl).trans ((bind_ok rfl).trans ((bind_ok (nothing _)).trans ?_))
  refine (bind_ok (checkUnset_ok declared)).trans ?_
  refine (bind_ok rfl).trans ((bind_ok rfl).trans ?_)
  have plain : ∀ s ∈ sites, '.' ∉ s.1.toList := fun s member => (declared s member).plain
  exact (bind_ok (enrol_eq (waitIn w clause form sites kept scopes) sites plain _)).trans rfl

variable {f : Statement}

theorem updateClause_ok (clause : ClauseRef) (n : Nat) (f : Statement) (renamed : List (Token × Token))
    (clauses : Array (List Statement)) (fresh : Nat) :
    ∃ clauses', updateClause clause n f renamed (reworked w clauses fresh) =
      .ok () (reworked w clauses' fresh) :=
  ⟨_, rfl⟩

theorem execute_eq (clause : ClauseRef) (n : Nat) (asks : Asks w c f sites) : ∃ clauses fresh kept renamed, KeepsPresent kept ∧
    ∀ i, execute i c clause n f w =
      (do keepVigil i clause n ⟨sites, [], renamed⟩ kept none c.scopes; return none)
        (reworked w clauses fresh) := by
  obtain ⟨fresh, trees, renamed, replaced⟩ := replaceNextIn_ok asks.nexts
  have known : ∀ name ∈ (⟨sites, [], renamed⟩ : Awaited).allNames,
      ∃ v, Reads (reworked w w.store.clauses fresh).store c.scopes name v := by
    intro name member
    rw [Awaited.allNames, append_nil] at member
    obtain ⟨s, among, rfl⟩ := mem_map.mp member
    exact (asks.declared s among).reworked.reads
  obtain ⟨es, k, kept, keeps⟩ := keepPreviousIn_ok known trees
  have waits : (!sites.isEmpty) = true := by simp [asks.nonempty]
  by_cases changed : (!es.isEmpty) = true
  · obtain ⟨clauses, updated⟩ := updateClause_ok clause n
      (withExpressions es (if (renamed ++ k.renamed).isEmpty then f
        else f.mapTokens (renameToken (renamed ++ k.renamed)))) (renamed ++ k.renamed)
      w.store.clauses fresh
    refine ⟨clauses, fresh, k.scope, renamed, keeps, fun i => ?_⟩
    refine (bind_ok replaced).trans ((bind_ok kept).trans ?_)
    dsimp only
    rw [if_pos changed, if_pos waits]
    exact bind_ok updated
  · refine ⟨w.store.clauses, fresh, k.scope, renamed, keeps, fun i => ?_⟩
    refine (bind_ok replaced).trans ((bind_ok kept).trans ?_)
    dsimp only
    rw [if_neg changed, if_pos waits]

structure Reached (p : Wait) (w : World) (c : Context) (clause : ClauseRef) (n : Nat)
    (sites : List Site) : Prop where
  clause_eq : p.clause = clause
  form_eq : p.form = n
  sites_eq : p.sites = sites
  scopes_eq : p.scopes = c.scopes
  firstVigil_eq : p.firstVigil = w.store.vigils.size
  firstScope_eq : p.firstScope = w.store.scopes.size
  keeps : KeepsPresent p.kept

theorem get?_foldl_withVigil (absent : s ∉ sites) (w : World) :
    (sites.foldl (withVigil p) w).part.vigils.get? s = w.part.vigils.get? s := by
  induction sites generalizing w with
  | nil => rfl
  | cons s' sites ih =>
    rw [mem_cons, not_or] at absent
    rw [foldl_cons, ih absent.2]
    exact get?_put_of_ne fun same => absent.1 same.symm

theorem spares_foldl_withVigil (p : Wait) (sites : List Site) (w : World) :
    Spares w.store.scopes.size (fun _ => False) w (sites.foldl (withVigil p) w) := by
  induction sites generalizing w with
  | nil => exact ⟨rfl, rfl, fun _ _ => rfl, fun _ _ => rfl⟩
  | cons s sites ih =>
    have rest := ih (withVigil p w s)
    refine ⟨rest.values, rest.boards, ?_, rest.slots⟩
    intro y inside
    have grown : (withVigil p w s).store.scopes.size = w.store.scopes.size + 1 := Array.size_push _
    rw [foldl_cons, rest.scopes y (by omega)]
    show ((w.store.scopes.push p.kept)[y.index]?).getD .empty = (w.store.scopes[y.index]?).getD .empty
    rw [Array.getElem?_push_lt inside, Array.getElem?_eq_getElem inside]

theorem execute_pending (clause : ClauseRef) (n : Nat) (asks : Asks w c f sites) : ∃ p w', Reached p w c clause n sites ∧
    (∀ i, execute i c clause n f w = .ok none w') ∧ Pending p [] w' ∧ Numbered w' ∧
    Spares w.store.scopes.size (fun _ => False) w w' ∧
    (∀ s ∉ sites, w'.part.vigils.get? s = w.part.vigils.get? s) := by
  obtain ⟨clauses, fresh, kept, renamed, keeps, eq⟩ := execute_eq clause n asks
  have declared : ∀ s ∈ sites, Declared (reworked w clauses fresh).store c.scopes s :=
    fun s member => (asks.declared s member).reworked
  let p := waitIn (reworked w clauses fresh) clause n sites kept c.scopes
  let start := withWaits (reworked w clauses fresh) sites
  have none : Enrolled p [] start := by
    refine ⟨rfl, rfl, ?_, ?_, ?_, ?_⟩
    · intro s member
      cases member
    · intro s member
      cases member
    · intro s n leads above
      exact absurd (asks.numbered s n leads) (Nat.not_lt.mpr above)
    · intro s member
      cases member
  have spares : Spares w.store.scopes.size (fun _ => False) w (sites.foldl (withVigil p) start) := by
    obtain ⟨values, boards, scopes, slots⟩ := spares_foldl_withVigil p sites start
    exact ⟨values, boards, scopes, slots⟩
  have enrolled : Enrolled p p.sites (sites.foldl (withVigil p) start) := none.run rfl asks.distinct
  refine ⟨p, sites.foldl (withVigil p) start, ⟨rfl, rfl, rfl, rfl, rfl, rfl, ?_⟩, ?_, ?_, ?_, spares, ?_⟩
  · exact KeepsPresent.merge keepsPresent_empty keeps
  · intro i
    exact (eq i).trans ((bind_ok (keepVigil_eq declared)).trans rfl)
  · refine enrolled.pending ?_
    rw [waits_foldl_withVigil]
    exact Array.getElem?_push_size
  · intro s m leads
    rw [enrolled.vigils_size]
    by_cases own : p.firstVigil ≤ m
    · have among := enrolled.only s m leads own
      have number := enrolled.entry s among
      rw [leads, Option.some.injEq] at number
      exact number ▸ (Wait.owns_number among).2
    · omega
  · intro s absent
    exact get?_foldl_withVigil absent start

end Run

/-! ## Telling a statement -/

namespace Run

def noteNext (w : World) (x : ScopeRef) (s : Site) (v : ValueRef) : World :=
  { w with store := w.store.withScope x (·.put (nextName s.1 s.2) (.named (nextName s.1 s.2) v)) }

def withNext (w : World) (x : ScopeRef) (s : Site) (v : ValueRef) (waiting : Nat)
    (rest : List Site) : World :=
  { w with store := { w.store.withScope x (·.put (nextName s.1 s.2) (.named (nextName s.1 s.2) v)) with
    waits := w.store.waits.setIfInBounds waiting rest } }

theorem tellVigil_eq {vigil : Vigil} {outer : List ScopeRef} (leads : w.part.vigils.get? s = some n)
    (found : w.store.vigils[n]? = some vigil) (scopes : vigil.scopes = x :: outer)
    (waits : w.store.waits[vigil.waiting]? = some sites) (awaited : s ∈ sites) :
    tellVigil i c s v w =
      (do if (sites.erase s).isEmpty then i.resume c n
          forgetVigil s)
        (withNext w x s v vigil.waiting (sites.erase s)) := by
  refine (bind_ok get_ok).trans ?_
  rw [leads]
  refine (bind_ok store_ok).trans ?_
  rw [found]
  dsimp only
  have kept : keepNext vigil s v w = .ok () (noteNext w x s v) := by
    rw [keepNext, scopes]
    rfl
  have stopped : stopWaiting vigil s (noteNext w x s v) =
      .ok (sites.erase s) (withNext w x s v vigil.waiting (sites.erase s)) := by
    have among : sites.contains s = true := by simp [awaited]
    refine (bind_ok store_ok).trans ?_
    rw [show (noteNext w x s v).store.waits[vigil.waiting]? = some sites from waits, Option.getD_some,
      if_pos among]
    rfl
  exact (bind_ok kept).trans (bind_ok stopped)

theorem tellVigil_congr {resume : Context → Nat → Run Unit}
    (same : ∀ n, w.part.vigils.get? s = some n → resume c n = i.resume c n) :
    tellVigil { i with resume := resume } c s v w = tellVigil i c s v w := by
  cases leads : w.part.vigils.get? s with
  | none => rw [tellVigil_unawaited leads, tellVigil_unawaited leads]
  | some n =>
    unfold tellVigil
    rw [bind_ok get_ok, bind_ok get_ok,
      leads]
    dsimp only
    rw [same n leads]

end Run

/-! ## Writing to an awaited variable -/

structure Write where
  context : Context
  assignment : Assignment
  value : ValueRef

namespace Write

def run (i : Interpreter) (u : Write) : Run Unit := Run.assign i u.context u.assignment [] u.value

/-- The assignment is to the variable of the site, which can be set and which nobody watches. -/
structure Fits (u : Write) (s : Site) (r : VariableRef) (w : World) : Prop where
  named : u.assignment.name.text = s.1
  plain : '.' ∉ s.1.toList
  silent : u.assignment.debug = 0
  found : w.store.innermost s.1 u.context.scopes = some (.variable r, s.2)
  settable : ∃ l ls, (w.store.variableOf r).lifetimes = l :: ls ∧ l.canBeReset = true
  unwatched : Run.Unwatched w u.context.boards (.variable r)

variable {u : Write}

theorem Fits.keep (fits : u.Fits s r w) (spares : Spares old touched w w') (spared : ¬touched r)
    (known : ∀ y ∈ u.context.scopes, y.index < old) : u.Fits s r w' := by
  refine ⟨fits.named, fits.plain, fits.silent, ?_, ?_, ?_⟩
  · rw [spares.innermost known]
    exact fits.found
  · rw [spares.slots r spared]
    exact fits.settable
  · unfold Run.Unwatched
    rw [spares.boards]
    exact fits.unwatched

theorem run_eq (fits : u.Fits s r w) :
    ∃ new, ∀ i, u.run i w =
      (do Run.tellVigil i u.context s u.value
          Run.tellVariableWatchers i u.context r u.value [])
        (Run.withLifetime w r new) := by
  obtain ⟨l, ls, lifetimes, permitted⟩ := fits.settable
  have current : (w.store.variableOf r).current = .ok l := by
    rw [Variable.current, lifetimes]
  have nonempty : (w.store.variableOf r).lifetimes ≠ [] := by simp [lifetimes]
  obtain ⟨-, -, new, assigned, -⟩ := Variable.assign_ok nonempty
    (Run.assignedLifetime w l u.assignment.confidence u.value)
  have found : w.store.innermost u.assignment.name.text u.context.scopes = some (.variable r, s.2) := by
    rw [fits.named]
    exact fits.found
  refine ⟨new, fun i => ?_⟩
  have eq := Run.assign_eq (i := i) (fits.named ▸ fits.plain) fits.silent found current permitted assigned
  rwa [fits.named] at eq

end Write

section Telling

theorem mem_told_append : s' ∈ (told ++ [(s, v)]).map Prod.fst ↔ s' ∈ told.map Prod.fst ∨ s' = s := by
  rw [map_append, mem_append]
  exact or_congr_right mem_singleton

theorem erase_awaited (distinct : p.sites.Nodup) :
    (p.awaited told).erase s = p.awaited (told ++ [(s, v)]) := by
  unfold Wait.awaited
  rw [(distinct.filter _).erase_eq_filter, filter_filter]
  apply filter_congr
  intro s' _
  rw [Bool.eq_iff_iff, Bool.and_eq_true, bne_iff_ne, decide_eq_true_iff, decide_eq_true_iff,
    mem_told_append, not_or]
  exact and_comm

theorem Pending.withLifetime (pending : Pending p told w) (r : VariableRef) (new : Variable ValueRef) :
    Pending p told (Run.withLifetime w r new) :=
  ⟨pending.waits, pending.vigil, pending.entry, pending.only, pending.inside, pending.own⟩

def toldWorld (p : Wait) (told : List (Site × ValueRef)) (s : Site) (v : ValueRef) (w : World) : World :=
  Run.withNext w (p.scope s) s v p.waiting (p.awaited (told ++ [(s, v)]))

def forgotten (w : World) (s : Site) : World :=
  { w with part := { w.part with vigils := w.part.vigils.erase s } }

theorem spares_withLifetime (old : Nat) (r : VariableRef) (new : Variable ValueRef) :
    Spares old (· = r) w (Run.withLifetime w r new) :=
  ⟨rfl, rfl, fun _ _ => rfl, fun _ other => variableOf_withVariable_of_ne other new⟩

theorem spares_forgotten_toldWorld (touched : VariableRef → Prop) :
    Spares p.firstScope touched w (forgotten (toldWorld p told s v w) s) := by
  refine ⟨rfl, rfl, ?_, fun _ _ => rfl⟩
  intro y inside
  have other : y ≠ p.scope s := by
    intro same
    rw [same] at inside
    exact absurd inside (Nat.not_lt.mpr (Nat.le_add_right _ _))
  exact scope_withScope_of_ne other _

theorem Pending.tellVigil_eq (pending : Pending p told w) (distinct : p.sites.Nodup)
    (member : s ∈ p.sites) (untold : s ∉ told.map Prod.fst) (i : Interpreter) (c : Context) :
    Run.tellVigil i c s v w =
      (do if (p.awaited (told ++ [(s, v)])).isEmpty then
            i.resume c (p.number s)
          Run.forgetVigil s)
        (toldWorld p told s v w) := by
  have leads := pending.leads member untold
  have awaited : s ∈ p.awaited told :=
    Wait.mem_awaited.mpr ⟨member, untold⟩
  have tells := Run.tellVigil_eq (i := i) (c := c) (v := v) leads (pending.vigil s member) rfl
    pending.waits awaited
  rwa [erase_awaited distinct] at tells

theorem Pending.tell (pending : Pending p told w) (member : s ∈ p.sites) (v : ValueRef) :
    Pending p (told ++ [(s, v)]) (forgotten (toldWorld p told s v w) s) := by
  have inBounds : p.waiting < w.store.waits.size := by
    obtain ⟨inside, -⟩ := Array.getElem?_eq_some_iff.mp pending.waits
    exact inside
  refine ⟨?_, pending.vigil, ?_, ?_, ?_, ?_⟩
  · exact Array.getElem?_setIfInBounds_self_of_lt inBounds
  · intro s' among
    show (w.part.vigils.erase s).get? s' = _
    by_cases same : s' = s
    · rw [same, get?_erase_self, if_pos (mem_told_append.mpr (.inr rfl))]
    · rw [get?_erase_of_ne (Ne.symm same), pending.entry s' among]
      exact if_congr (mem_told_append.trans (or_iff_left same)).symm rfl rfl
  · intro s' n leads owns
    change (w.part.vigils.erase s).get? s' = some n at leads
    by_cases same : s' = s
    · exact same ▸ member
    · rw [get?_erase_of_ne (Ne.symm same)] at leads
      exact pending.only s' n leads owns
  · intro s' among
    have size : (forgotten (toldWorld p told s v w) s).store.scopes.size = w.store.scopes.size :=
      Array.size_modify
    rw [size]
    exact pending.inside s' among
  · intro s' among untold
    obtain ⟨before, other⟩ := not_or.mp (mt mem_told_append.mpr untold)
    rw [← pending.own s' among before]
    exact scope_withScope_of_ne (Wait.scope_ne member other) _

theorem Pending.scope_toldWorld (pending : Pending p told w) (member : s ∈ p.sites)
    (untold : s ∉ told.map Prod.fst) (v : ValueRef) : (toldWorld p told s v w).store.scope (p.scope s) =
      p.kept.put (nextName s.1 s.2) (.named (nextName s.1 s.2) v) := by
  refine (scope_withScope (pending.inside s member) _).trans ?_
  rw [pending.own s member untold]

theorem innermost_toldWorld (other : nextName s.1 s.2 ≠ name) (scopes : List ScopeRef) :
    (toldWorld p told s v w).store.innermost name scopes = w.store.innermost name scopes := by
  refine innermost_congr fun y _ => ?_
  by_cases same : y = p.scope s
  · by_cases inside : y.index < w.store.scopes.size
    · rw [same] at inside ⊢
      refine (congrArg (get? · name) (scope_withScope inside _)).trans ?_
      exact get?_put_of_ne other
    · have absent : (toldWorld p told s v w).store.scopes.size ≤ y.index := by
        rw [toldWorld, Run.withNext, withScope, Array.size_modify]
        exact Nat.le_of_not_lt inside
      rw [scope, scope, Array.getElem?_eq_none absent,
        Array.getElem?_eq_none (Nat.le_of_not_lt inside)]
  · exact congrArg (get? · name) (scope_withScope_of_ne same _)

theorem forgetVigil_ok (leads : w.part.vigils.get? s = some n) :
    Run.forgetVigil s w = .ok () (forgotten w s) := by
  have contains : w.part.vigils.contains s = true := by
    rw [Ledger.contains, leads]
    rfl
  refine (Run.bind_ok Run.get_ok).trans ?_
  rw [if_pos contains]
  rfl

end Telling

end DreamBerd
