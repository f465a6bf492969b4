import DreamBerd.Interpreter.Block
import DreamBerd.Proofs.Ledgers
import DreamBerd.Proofs.Splitting

/-!
# Computations in a world

A computation takes a world to a result and a world. The lemmas of this module follow one through its
steps: what a bind and a loop come to, what changes to a store do to the scopes and the variables that
are read from it, what a name without points stands for, and what happens when nobody watches.
-/

namespace DreamBerd

open List

variable {α : Type} {name : String} {scopes : List ScopeRef} {handle : Fault → Run α}

theorem splitChars_of_not_mem {c : Char} {cs : List Char} (absent : c ∉ cs) : splitChars c cs = [cs] := by
  induction cs with
  | nil => rfl
  | cons d cs ih =>
    rw [mem_cons, not_or] at absent
    rw [splitChars, if_neg (Ne.symm absent.1), ih absent.2]

theorem nameParts_of_plain (plain : '.' ∉ name.toList) : nameParts name = [name] := by
  rw [nameParts, splitChars_of_not_mem plain, map_singleton, String.ofList_toList]

/-! ## Stores -/

namespace Store

variable {s : Store} {x y : ScopeRef} {r r' : VariableRef} {e : Entry} {n : Nat} {m : Run α}

def withVariable (s : Store) (r : VariableRef) (v : Variable ValueRef) : Store :=
  { s with slots := s.slots.setIfInBounds r.index v }

def withScope (s : Store) (x : ScopeRef) (f : Scope → Scope) : Store :=
  { s with scopes := s.scopes.modify x.index f }

theorem variableOf_withVariable (inside : r.index < s.slots.size) (v : Variable ValueRef) :
    (s.withVariable r v).variableOf r = v := by
  simp [variableOf, withVariable, inside]

theorem variableOf_withVariable_of_ne (other : r' ≠ r) (v : Variable ValueRef) :
    (s.withVariable r v).variableOf r' = s.variableOf r' := by
  have apart : r.index ≠ r'.index := fun same => other (by cases r; cases r'; cases same; rfl)
  simp [variableOf, withVariable, apart]

theorem scope_withScope (inside : x.index < s.scopes.size) (f : Scope → Scope) :
    (s.withScope x f).scope x = f (s.scope x) := by
  simp [scope, withScope, Array.getElem_modify, inside]

theorem scope_withScope_of_ne (other : y ≠ x) (f : Scope → Scope) :
    (s.withScope x f).scope y = s.scope y := by
  have apart : x.index ≠ y.index := fun same => other (by cases x; cases y; cases same; rfl)
  simp [scope, withScope, Array.getElem?_modify, apart]

/-- Bind a name to a new variable with one lifetime. -/
def withNew (s : Store) (x : ScopeRef) (name : String) (l : Lifetime ValueRef) : Store :=
  { s with
    slots := s.slots.push ⟨name, [l], []⟩
    scopes := s.scopes.modify x.index (·.put name (.variable ⟨s.slots.size⟩))
    fresh := s.fresh + 1 }

theorem scope_withNew (inside : x.index < s.scopes.size) :
    (s.withNew x name l).scope x = (s.scope x).put name (.variable ⟨s.slots.size⟩) :=
  scope_withScope inside _

theorem getElem?_of_grown {xs ys : Array α} (grown : xs.toList <+: ys.toList)
    (inside : n < xs.size) : ys[n]? = xs[n]? := by
  obtain ⟨more, whole⟩ := grown
  rw [← Array.getElem?_toList, ← Array.getElem?_toList, ← whole]
  exact getElem?_append_left (by simpa using inside)

theorem getElem?_eq_some_of_grown {xs ys : Array α} (grown : xs.toList <+: ys.toList)
    (there : xs[n]? = some a) : ys[n]? = some a :=
  (getElem?_of_grown grown (Array.getElem?_eq_some_iff.mp there).1).trans there

theorem lt_size_of_mem_entries {e : String × Entry} (member : e ∈ (s.scope x).entries) :
    x.index < s.scopes.size := by
  by_contra outside
  rw [scope, Array.getElem?_eq_none (Nat.le_of_not_lt outside)] at member
  cases member

theorem lookup_eq (plain : '.' ∉ name.toList) (scopes : List ScopeRef) :
    s.lookup scopes name = .ok ((s.innermost name scopes).map (·.1)) := by
  rw [lookup, nameParts_of_plain plain]

theorem lookupWithin_eq (plain : '.' ∉ name.toList) (found : s.innermost name scopes = some (e, x)) :
    s.lookupWithin scopes name = .ok (some e, some x) := by
  rw [lookupWithin, nameParts_of_plain plain]
  simp only [found]

theorem innermost_congr {s' : Store}
    (same : ∀ y ∈ scopes, (s'.scope y).get? name = (s.scope y).get? name) :
    s'.innermost name scopes = s.innermost name scopes := by
  induction scopes with
  | nil => rfl
  | cons y scopes ih =>
    rw [innermost, innermost, same y mem_cons_self,
      ih (forall_mem_cons.mp same).2]

theorem scope_of_innermost (found : s.innermost name scopes = some (e, x)) :
    (s.scope x).get? name = some e := by
  induction scopes with
  | nil => cases found
  | cons y scopes ih =>
    rw [innermost] at found
    split at found
    · rename_i here
      cases found
      exact here
    · exact ih found

theorem innermost_cons (found : (s.scope x).get? name = some e) :
    s.innermost name (x :: scopes) = some (e, x) := by
  rw [innermost, found]

end Store

namespace Run

variable {β σ : Type} {w w' : World} {v : ValueRef} {i : Interpreter} {c : Context} {r : VariableRef}
  {fault : Fault}

/-! ## Steps -/

def leaves (x : Run α) (w : World) : World :=
  match x w with
  | .ok _ w' => w'
  | .error _ w' => w'

theorem bind_ok {f : α → Run β} (done : m w = .ok a w') : (m >>= f) w = f a w' := by
  show EStateM.bind m f w = f a w'
  rw [EStateM.bind, done]

theorem bind_of_eq {f : α → Run β} (same : m w = m' w') : (m >>= f) w = (m' >>= f) w' := by
  show EStateM.bind m f w = EStateM.bind m' f w'
  rw [EStateM.bind, EStateM.bind, same]

theorem bind_error {f : α → Run β} (failed : m w = .error fault w') :
    (m >>= f) w = .error fault w' := by
  show EStateM.bind m f w = .error fault w'
  rw [EStateM.bind, failed]

theorem bind_eq_ok {f : α → Run β} (done : (m >>= f) w = .ok b w') :
    ∃ a v, m w = .ok a v ∧ f a v = .ok b w' := by
  cases first : m w with
  | ok a v => exact ⟨a, v, rfl, (bind_ok first).symm.trans done⟩
  | error fault v => cases (bind_error first).symm.trans done

theorem tryCatch_ok (done : m w = .ok a w') : tryCatch m handle w = .ok a w' := by
  show EStateM.tryCatch m handle w = .ok a w'
  rw [EStateM.tryCatch, done]

/-- What has been done before a failure stays done. -/
theorem tryCatch_error (failed : m w = .error fault w') : tryCatch m handle w = handle fault w' := by
  show EStateM.tryCatch m handle w = handle fault w'
  rw [EStateM.tryCatch, failed]
  rfl

theorem forIn_cons_yield {x : α} {xs : List α} {body : α → σ → Run (ForInStep σ)} {s s' : σ}
    (step : body x s w = .ok (.yield s') w') :
    (forIn (x :: xs) s body : Run σ) w = (forIn xs s' body : Run σ) w' := by
  rw [forIn_cons, bind_ok step]

theorem mapM_read {f : α → Run β} {g : α → β} {xs : List α}
    (reads : ∀ x ∈ xs, f x w = .ok (g x) w) : xs.mapM f w = .ok (xs.map g) w := by
  induction xs with
  | nil => rfl
  | cons x xs ih =>
    rw [mapM_cons, bind_ok (reads x mem_cons_self),
      bind_ok (ih (forall_mem_cons.mp reads).2)]
    rfl

theorem forIn_read {body : α → PUnit → Run (ForInStep PUnit)} {xs : List α}
    (reads : ∀ x ∈ xs, body x ⟨⟩ w = .ok (.yield ⟨⟩) w) : (forIn xs ⟨⟩ body : Run PUnit) w = .ok ⟨⟩ w := by
  induction xs with
  | nil => rfl
  | cons x xs ih =>
    rw [forIn_cons_yield (reads x mem_cons_self)]
    exact ih (forall_mem_cons.mp reads).2

theorem ofExcept_ok {r : Except Fault α} (done : r = .ok a) : ofExcept r w = .ok a w := by
  rw [done]
  rfl

theorem ofExcept_eq_ok {r : Except Fault α} (done : ofExcept r w = .ok a w') : r = .ok a ∧ w' = w := by
  cases r with
  | error fault => cases done
  | ok b =>
    cases done
    exact ⟨rfl, rfl⟩

theorem get_ok : (get : Run World) w = .ok w w := rfl

theorem store_ok : store w = .ok w.store w := rfl

theorem value_ok : value v w = .ok (w.store.value v) w := rfl

theorem scope_ok : scope x w = .ok (w.store.scope x) w := rfl

theorem variableOf_ok : variableOf r w = .ok (w.store.variableOf r) w := rfl

theorem lookup_ok {e : Option Entry} (found : w.store.lookup scopes name = .ok e) :
    lookup scopes name w = .ok e w :=
  ofExcept_ok found

theorem lookupWithin_ok {found : Option Entry × Option ScopeRef}
    (finds : w.store.lookupWithin scopes name = .ok found) : lookupWithin scopes name w = .ok found w :=
  ofExcept_ok finds

theorem entryValue_ok {e : Entry} (finds : w.store.entryValue e = .ok v) : entryValue e w = .ok v w :=
  ofExcept_ok finds

/-! ## Nobody watches -/

def Unwatched (w : World) (boards : List BoardRef) (key : WatchKey) : Prop :=
  ∀ b ∈ boards, ((w.store.boards[b.index]?).getD .empty).get? key = none

theorem watchersOf_eq_nil {boards : List BoardRef} {key : WatchKey}
    (unwatched : Unwatched w boards key) : watchersOf boards key w = .ok [] w := by
  have reads : ∀ b ∈ boards.reverse,
      (do return ((← board b).get? key).getD [] : Run (List Watcher)) w = .ok [] w := by
    intro b member
    have none := unwatched b (mem_reverse.mp member)
    show EStateM.Result.ok ((((w.store.boards[b.index]?).getD .empty).get? key).getD []) w = _
    rw [none]
    rfl
  unfold watchersOf
  rw [bind_ok (mapM_read reads)]
  exact congrArg (EStateM.Result.ok · w) (by simp)

theorem tellNameWatchers_unwatched (unwatched : Unwatched w c.boards (.name name)) :
    tellNameWatchers i c name r v w = .ok () w := by
  unfold tellNameWatchers
  rw [bind_ok (watchersOf_eq_nil unwatched)]
  rfl

theorem tellVariableWatchers_unwatched {visited : List Nat}
    (unwatched : Unwatched w c.boards (.variable r)) :
    tellVariableWatchers i c r v visited w = .ok () w := by
  unfold tellVariableWatchers
  rw [bind_ok (watchersOf_eq_nil unwatched)]
  rfl

theorem tellVigil_unawaited {site : Site} (unawaited : w.part.vigils.get? site = none) :
    tellVigil i c site v w = .ok () w := by
  unfold tellVigil
  rw [bind_ok get_ok, unawaited]
  rfl

/-! ## Assignments -/

def withLifetime (w : World) (r : VariableRef) (v : Variable ValueRef) : World :=
  { w with store := { w.store.withVariable r v with fresh := w.store.fresh + 1 } }

/-- The lifetime that an assignment gives: it lasts, and it can be changed as the one before. -/
def assignedLifetime (w : World) (now : Lifetime ValueRef) (confidence : Nat) (v : ValueRef) :
    Lifetime ValueRef :=
  ⟨w.store.fresh, v, endlessLines, confidence, now.canBeReset, now.canEditValue⟩

theorem lastPart_eq (plain : '.' ∉ name.toList) : lastPart name = name := by
  rw [lastPart, nameParts_of_plain plain]
  rfl

theorem assign_eq {x : ScopeRef} {now : Lifetime ValueRef}
    {new : Variable ValueRef} (plain : '.' ∉ a.name.text.toList) (silent : a.debug = 0)
    (found : w.store.innermost a.name.text c.scopes = some (.variable r, x))
    (current : (w.store.variableOf r).current = .ok now) (permitted : now.canBeReset = true)
    (assigned : (w.store.variableOf r).assign (assignedLifetime w now a.confidence v) = .ok new) :
    assign i c a [] v w =
      (do tellVigil i c (a.name.text, x) v; tellVariableWatchers i c r v [])
        (withLifetime w r new) := by
  have whole : assignWhole a.name a.confidence (.variable r) v w = .ok () (withLifetime w r new) := by
    refine (bind_ok variableOf_ok).trans ?_
    refine (bind_ok (ofExcept_ok current)).trans ?_
    have allowed : ¬(!now.canBeReset) = true := by simp [permitted]
    rw [if_neg allowed]
    refine (bind_ok rfl).trans ?_
    exact (bind_ok (ofExcept_ok assigned)).trans rfl
  have quiet : debugAssignment c.scopes a.debug a.name a.expression a.indexes [] v w = .ok () w := by
    rw [silent]
    rfl
  unfold assign
  rw [bind_ok (lookupWithin_ok (Store.lookupWithin_eq plain found)), lastPart_eq plain]
  refine (bind_ok quiet).trans ?_
  have set : assignEntry i c a (.variable r) [] v w = .ok [] (withLifetime w r new) := bind_ok whole
  exact (bind_ok set).trans rfl

end Run

end DreamBerd
