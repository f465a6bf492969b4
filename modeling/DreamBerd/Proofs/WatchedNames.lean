import DreamBerd.Proofs.Boards
import DreamBerd.Proofs.Firing
import Mathlib

/-!
# Watchers of names

A condition may mention a name that is not a variable yet. It is then watched under the name
(`name_mem_watchKeys`), and when the name is declared, its watchers are to be handed over to the variable.
This never works. A declaration first binds the name (`introduce`), to a variable that is new, so that no
board has watchers of it. Evaluating the condition of the first watcher changes nothing about this, by the
frame of the boards (`Posts`); and a watcher is handed over only to what its board knows already
(`handOver_breaksDown`). See `declare_watched_name`.
-/

namespace DreamBerd

open List

namespace Run

variable {w w' w₂ : World} {b : BoardRef} {bs : List BoardRef} {r : VariableRef} {name : String}
  {x : Watcher} {v : ValueRef} {c : Context} {key : WatchKey} {i : Interpreter} {tree : Expr}
  {keys : List WatchKey}

/-! ## Handing over -/

def missing (w : World) (b : BoardRef) (r : VariableRef) (v : ValueRef) : Breakdown :=
  if (w.store.value v).isMutable = true ∧ (w.board b).get? (.value v) = none then .key
  else if (w.store.variableOf r).previous = [] then .position
  else .key

theorem addWatcherTo_unknown (unknown : (w.board b).get? key = none) (x : Watcher) :
    addWatcherTo (b :: bs) key x w = .error (.breakdown .key) w := by
  have absent : ¬(w.board b).contains key = true := by simp [Ledger.contains, unknown]
  exact (bind_ok (rfl : board b w = .ok (w.board b) w)).trans (congrFun (if_neg absent) w)

theorem addWatcherTo_known (known : (w.board b).get? key ≠ none) (x : Watcher) :
    addWatcherTo (b :: bs) key x w = .ok () (leaves (addWatcher b key x) w) := by
  have there : (w.board b).contains key = true := Option.isSome_iff_ne_none.mpr known
  exact (bind_ok (rfl : board b w = .ok (w.board b) w)).trans (congrFun (if_pos there) w)

theorem removeWatcher_ok (boards : List BoardRef) (key : WatchKey) (id : Nat) (w : World) :
    ∃ w', removeWatcher boards key id w = .ok () w' := by
  unfold removeWatcher
  induction boards generalizing w with
  | nil => exact ⟨w, rfl⟩
  | cons b boards ih =>
    rw [forIn_cons]
    simp only [bind_assoc]
    rw [bind_ok (rfl : board b w = .ok (w.board b) w)]
    split
    · exact ih _
    · exact ih w

theorem watchVariable_breaksDown (there : b.index < w.store.boards.size)
    (unknown : (w.board b).get? (.variable r) = none) :
    ∃ w', watchVariable (b :: bs) r x w = .error (.breakdown
      (if (w.store.variableOf r).previous = [] then .position else .key)) w' := by
  unfold watchVariable
  rw [bind_ok variableOf_ok]
  cases before : (w.store.variableOf r).previous.getLast? with
  | none =>
    rw [if_pos (getLast?_eq_none_iff.mp before)]
    exact ⟨w, rfl⟩
  | some old =>
    have had : (w.store.variableOf r).previous ≠ [] := by
      rintro none
      rw [none] at before
      cases before
    dsimp only
    rw [bind_ok value_ok]
    split
    · obtain ⟨w', removed⟩ := removeWatcher_ok (b :: bs) (.value old) x.id w
      have posts : Posts [] w w' :=
        (keeps_removeWatcher (F := .boards) (q := ⟨0⟩)).ok removed
      rw [bind_ok removed]
      exact ⟨w', addWatcherTo_unknown (posts.spares b there nofun r unknown) x⟩
    · exact ⟨w, addWatcherTo_unknown unknown x⟩

theorem handOver_breaksDown (there : b.index < w.store.boards.size)
    (unknown : (w.board b).get? (.variable r) = none) :
    ∃ w', handOver (b :: bs) r v x w = .error (.breakdown (missing w b r v)) w' := by
  unfold handOver missing
  rw [bind_ok value_ok]
  by_cases mutable : (w.store.value v).isMutable = true
  · rw [if_pos mutable]
    by_cases known : (w.board b).get? (.value v) = none
    · rw [if_pos ⟨mutable, known⟩, bind_error (addWatcherTo_unknown known x)]
      exact ⟨w, rfl⟩
    · have posts : Posts [] w (leaves (addWatcher b (.value v) x) w) :=
        keeps_addWatcher_value (F := .boards) (q := ⟨0⟩) w
      rw [if_neg fun both => known both.2, bind_ok (addWatcherTo_known known x)]
      exact watchVariable_breaksDown (Nat.lt_of_lt_of_le there posts.grows)
        (posts.spares b there nofun r unknown)
  · rw [if_neg mutable, if_neg fun both => mutable both.1]
    exact watchVariable_breaksDown there unknown

theorem tellNameWatchers_error {condition : ValueRef} {us : List Watcher}
    (watched : w.watchers c.boards (.name name) = u :: us)
    (evaluated : i.eval c false u.condition w = .ok condition w₂)
    (failed : handOver c.boards r v u w₂ = .error f w') :
    tellNameWatchers i c name r v w = .error f w' := by
  rw [tellNameWatchers, bind_ok (Noted.watchersOf_ok _ _ _), watched]
  refine bind_error ?_
  exact bind_error ((bind_ok evaluated).trans (bind_error failed))

theorem handOver_of_ok {xs : List Watcher} (watched : w.watchers c.boards (.name name) = x :: xs)
    (done : tellNameWatchers i c name r v w = .ok a w') :
    ∃ condition w₂ a w₃, i.eval c false x.condition w = .ok condition w₂ ∧
      handOver c.boards r v x w₂ = .ok a w₃ := by
  rw [tellNameWatchers, bind_ok (Noted.watchersOf_ok _ _ _), watched] at done
  obtain ⟨_, _, looped, -⟩ := bind_eq_ok done
  obtain ⟨_, _, round, -⟩ := bind_eq_ok looped
  obtain ⟨condition, w₂, evaluated, rest⟩ := bind_eq_ok round
  obtain ⟨a, w₃, handed, -⟩ := bind_eq_ok rest
  exact ⟨condition, w₂, a, w₃, evaluated, handed⟩

/-! ## Registering -/

theorem reads_of_mapM {f : α → Run β} {as : List α} {bs : List β}
    (reads : ∀ a u b u', f a u = .ok b u' → u' = u) (done : as.mapM f w = .ok bs w') :
    w' = w ∧ ∀ a ∈ as, ∃ b ∈ bs, f a w = .ok b w := by
  induction as generalizing bs w' with
  | nil =>
    cases done
    exact ⟨rfl, nofun⟩
  | cons a as ih =>
    rw [mapM_cons] at done
    obtain ⟨b, u, first, others⟩ := bind_eq_ok done
    obtain ⟨bs', u', rest, ends⟩ := bind_eq_ok others
    obtain rfl := reads a w b u first
    obtain ⟨rfl, each⟩ := ih rest
    cases ends
    refine ⟨rfl, fun a' member => ?_⟩
    rcases mem_cons.mp member with rfl | later
    · exact ⟨b, mem_cons_self, first⟩
    · obtain ⟨b', among, found⟩ := each a' later
      exact ⟨b', mem_cons_of_mem b among, found⟩

theorem name_mem_watchKeys {scopes : List ScopeRef} (looked : watchKeys scopes tree w = .ok keys w')
    (mentioned : name ∈ tree.names.map (·.text))
    (unbound : ∀ r, w.store.lookup scopes name ≠ .ok (some (.variable r))) :
    WatchKey.name name ∈ keys := by
  obtain ⟨ofName, w₁, each, rest⟩ := bind_eq_ok looked
  obtain ⟨values, w₂, -, rest⟩ := bind_eq_ok rest
  obtain ⟨ofCaller, w₃, -, rest⟩ := bind_eq_ok rest
  obtain ⟨callerValues, w₄, -, rest⟩ := bind_eq_ok rest
  cases rest
  have found := (reads_of_mapM ?_ each).2 name mentioned
  · obtain ⟨key, among, found⟩ := found
    obtain ⟨e, u, read, found⟩ := bind_eq_ok found
    obtain ⟨read, rfl⟩ := ofExcept_eq_ok read
    rcases e with _ | v | ⟨n, v⟩ | r
    on_goal 4 => exact absurd read (unbound r)
    all_goals
      cases found
      simp [among]
  · intro a u b u' read
    obtain ⟨e, u₁, looked, read⟩ := bind_eq_ok read
    obtain ⟨-, rfl⟩ := ofExcept_eq_ok looked
    rcases e with _ | v | ⟨n, v⟩ | r <;> cases read <;> rfl

theorem watch_posts_name (i : Interpreter) {code : Code} {w₁ : World} (boards : c.boards = b :: bs)
    (parsed : treeOf e w = .ok tree w₁) (looked : watchKeys c.scopes tree w₁ = .ok keys w₂)
    (there : b.index < w₂.store.boards.size) (mentioned : name ∈ tree.names.map (·.text))
    (unbound : ∀ r, w₁.store.lookup c.scopes name ≠ .ok (some (.variable r))) :
    ∃ w₃, watch i c e code w = fire i c ⟨w₂.store.fresh, tree, code⟩ w₃ ∧
      ⟨w₂.store.fresh, tree, code⟩ ∈ w₃.watchers c.boards (.name name) := by
  obtain ⟨w₃, watched, posted⟩ := Noted.watch_posts i boards parsed looked there
  have inner : b ∈ c.boards.reverse := by simp [boards]
  have innermost : w₃.posted b (.name name) ∈ c.boards.reverse.map (w₃.posted · (.name name)) :=
    mem_map_of_mem inner
  have counted := count_pos_iff.mpr (name_mem_watchKeys looked mentioned unbound)
  refine ⟨w₃, watched, mem_flatten_of_mem innermost ?_⟩
  rw [posted, mem_append, mem_replicate]
  exact .inr ⟨Nat.pos_iff_ne_zero.mp counted, rfl⟩

/-! ## Declaring -/

/-- Scopes and variables have only been added. The boards are what they were, and so are the statements that
wait and the surroundings. -/
structure Adds (w w' : World) : Prop where
  scopes : w.store.scopes.toList <+: w'.store.scopes.toList
  slots : w.store.slots.toList <+: w'.store.slots.toList
  boards : w'.store.boards = w.store.boards
  vigils : w'.part.vigils = w.part.vigils
  around : w'.around = w.around

instance : IsPreorder World Adds where
  refl _ := ⟨prefix_rfl, prefix_rfl, rfl, rfl, rfl⟩
  trans _ _ _ first second := ⟨first.scopes.trans second.scopes, first.slots.trans second.slots,
    second.boards.trans first.boards, second.vigils.trans first.vigils, second.around.trans first.around⟩

instance : Growth Adds where
  madeValue _ _ := ⟨prefix_rfl, prefix_rfl, rfl, rfl, rfl⟩
  element _ := ⟨prefix_rfl, prefix_rfl, rfl, rfl, rfl⟩
  copied _ _ := ⟨⟨_, Array.toList_append.symm⟩, ⟨_, Array.toList_append.symm⟩, rfl, rfl, rfl⟩
  madeScope _ _ := ⟨⟨[_], Array.toList_push.symm⟩, prefix_rfl, rfl, rfl, rfl⟩
  numbered _ := ⟨prefix_rfl, prefix_rfl, rfl, rfl, rfl⟩
  printed _ _ := ⟨prefix_rfl, prefix_rfl, rfl, rfl, rfl⟩

theorem bindVariable_fresh {x : ScopeRef} {l : Lifetime ValueRef}
    (unbound : ∀ r, (w.store.scope x).get? name ≠ some (.variable r))
    (done : bindVariable x name l w = .ok r w') :
    r = ⟨w.store.slots.size⟩ ∧ w'.store.boards = w.store.boards ∧ w'.part.vigils = w.part.vigils := by
  obtain ⟨_, _, read, done⟩ := bind_eq_ok done
  cases read
  rcases found : (w.store.scope x).get? name with _ | v | ⟨n, v⟩ | old
  on_goal 4 => exact absurd found (unbound old)
  all_goals
    rw [found] at done
    cases done
    exact ⟨rfl, rfl, rfl⟩

/-- The name is not yet a variable in the innermost scope, and no board has watchers of a variable that is
not there. -/
structure Undeclared (c : Context) (x : ScopeRef) (name : String) (w : World) : Prop where
  exists_scope : x.index < w.store.scopes.size
  unbound : ∀ r, (w.store.scope x).get? name ≠ some (.variable r)
  exists_boards : ∀ b ∈ c.boards, b.index < w.store.boards.size
  known : ∀ r : VariableRef, w.store.slots.size ≤ r.index → Unwatched w c.boards (.variable r)

namespace Undeclared

variable {x : ScopeRef} {xs : List ScopeRef} {d : Declaration} {l : Lifetime ValueRef} {w₁ : World}
  (undeclared : Undeclared c x d.name.text w) (scopes : c.scopes = x :: xs)

include undeclared scopes

/-- The name gets a variable that nobody watches; then the statement that waits for it is told. -/
theorem introduce (done : Run.introduce i c d v w = .ok (r, l) w₁) :
    ∃ u, w.store.slots.size ≤ r.index ∧ u.store.boards = w.store.boards ∧
      u.part.vigils = w.part.vigils ∧ tellVigil i c (d.name.text, x) v u = .ok () w₁ := by
  obtain ⟨⟨r', l'⟩, w₆, began, done⟩ := bind_eq_ok done
  obtain ⟨_, w₇, debugged, done⟩ := bind_eq_ok done
  obtain ⟨_, w₈, told, done⟩ := bind_eq_ok done
  cases done
  obtain ⟨⟨tag, lines, reset, edit⟩, w₅, prepared, began⟩ := bind_eq_ok began
  rw [scopes] at began told
  obtain ⟨_, _, bound, began⟩ := bind_eq_ok began
  cases began
  have before : Adds w w₅ := keeps_prepare.ok prepared
  have after : Adds w₆ w₇ := keeps_debugDeclaration.ok debugged
  have unbound : ∀ r, (w₅.store.scope x).get? d.name.text ≠ some (.variable r) := by
    rw [Store.scope, Store.getElem?_of_grown before.scopes undeclared.exists_scope]
    exact undeclared.unbound
  obtain ⟨rfl, boards, vigils⟩ := bindVariable_fresh unbound bound
  exact ⟨w₇, by simpa using before.slots.length_le, after.boards.trans (boards.trans before.boards),
    after.vigils.trans (vigils.trans before.vigils), told⟩

theorem posts [Framed .boards i] (done : Run.introduce i c d v w = .ok (r, l) w₁) : Posts [] w w₁ := by
  obtain ⟨u, -, same, -, told⟩ := undeclared.introduce scopes done
  exact IsTrans.trans _ u _ (.of_eq same) ((keeps_tellVigil (F := .boards)).ok told)

theorem unwatched (done : Run.introduce i c d v w = .ok (r, l) w₁) :
    Unwatched w c.boards (.variable r) := by
  obtain ⟨-, fresh, -, -, -⟩ := undeclared.introduce scopes done
  exact undeclared.known r fresh

theorem watchers_eq (unawaited : w.part.vigils.get? (d.name.text, x) = none)
    (done : Run.introduce i c d v w = .ok (r, l) w₁) (key : WatchKey) :
    w₁.watchers c.boards key = w.watchers c.boards key := by
  obtain ⟨u, -, same, vigils, told⟩ := undeclared.introduce scopes done
  rw [tellVigil_unawaited (vigils ▸ unawaited)] at told
  cases told
  unfold World.watchers World.posted
  rw [same]

section Handing

variable {condition : ValueRef}

theorem handOver [Framed .boards i] (boards : c.boards = b :: bs)
    (done : Run.introduce i c d v w = .ok (r, l) w₁)
    (evaluated : i.eval c false y.condition w₁ = .ok condition w₂) :
    ∃ w', Run.handOver c.boards r v y w₂ = .error (.breakdown (missing w₂ b r v)) w' := by
  have posts : Posts [] w w₂ := IsTrans.trans _ _ _ (undeclared.posts scopes done)
    ((Framed.eval (F := .boards) c false y.condition).ok evaluated)
  have inner : b ∈ c.boards := boards ▸ mem_cons_self
  rw [boards]
  exact handOver_breaksDown (Nat.lt_of_lt_of_le (undeclared.exists_boards b inner) posts.grows)
    (posts.unwatched undeclared.exists_boards (undeclared.unwatched scopes done) b inner)

theorem declare_ne_ok [Framed .boards i] (boards : c.boards = b :: bs)
    (unawaited : w.part.vigils.get? (d.name.text, x) = none)
    (watched : w.watchers c.boards (.name d.name.text) ≠ []) (a : Unit) (w' : World) :
    declare i c d v w ≠ .ok a w' := by
  intro done
  obtain ⟨⟨r, l⟩, w₁, introduced, rest⟩ := bind_eq_ok done
  obtain ⟨_, _, told, -⟩ := bind_eq_ok rest
  rw [← undeclared.watchers_eq scopes unawaited introduced] at watched
  obtain ⟨first, others, watched⟩ := exists_cons_of_ne_nil watched
  obtain ⟨condition, w₂, _, w₃, evaluated, handed⟩ := handOver_of_ok watched told
  obtain ⟨w', failed⟩ := undeclared.handOver scopes boards introduced evaluated
  cases handed.symm.trans failed

theorem declare_breaksDown {first : Watcher} {others : List Watcher} [Framed .boards i]
    (boards : c.boards = b :: bs)
    (introduced : Run.introduce i c d v w = .ok (r, l) w₁)
    (watched : w₁.watchers c.boards (.name d.name.text) = first :: others)
    (evaluated : i.eval c false first.condition w₁ = .ok condition w₂) :
    ∃ w', declare i c d v w = .error (.breakdown (missing w₂ b r v)) w' ∧
      Unwatched w' c.boards (.variable r) := by
  obtain ⟨w', failed⟩ := undeclared.handOver scopes boards introduced evaluated
  have ends : declare i c d v w = .error (.breakdown (missing w₂ b r v)) w' :=
    (bind_ok introduced).trans (bind_error (tellNameWatchers_error watched evaluated failed))
  have posts := keeps_declare (F := .boards) (i := i) (c := c) (d := d) (v := v) w
  rw [leaves, ends] at posts
  exact ⟨w', ends,
    Posts.unwatched posts undeclared.exists_boards (undeclared.unwatched scopes introduced)⟩

end Handing

end Undeclared

/-- A condition that mentions a name before it is a variable is watched under the name. But a declaration of
the name never completes as long as its watchers are there, unless a statement that waits for the next
value of the name takes them away: once the condition of the first watcher has been evaluated, the watcher
cannot be handed over to the variable. And nobody watches the variable afterwards. -/
theorem declare_watched_name (n : Nat) {c : Context} {x : ScopeRef} {xs : List ScopeRef} {b : BoardRef}
    {bs : List BoardRef} (scopes : c.scopes = x :: xs) (boards : c.boards = b :: bs) :
    (∀ e code tree keys name w w₁ w₂, treeOf e w = .ok tree w₁ →
      watchKeys c.scopes tree w₁ = .ok keys w₂ → b.index < w₂.store.boards.size →
      name ∈ tree.names.map (·.text) →
      (∀ r, w₁.store.lookup c.scopes name ≠ .ok (some (.variable r))) →
      ∃ w₃, watch (interpreter n) c e code w =
          fire (interpreter n) c ⟨w₂.store.fresh, tree, code⟩ w₃ ∧
        ⟨w₂.store.fresh, tree, code⟩ ∈ w₃.watchers c.boards (.name name)) ∧
    ∀ d v w, Undeclared c x d.name.text w →
      (w.part.vigils.get? (d.name.text, x) = none → w.watchers c.boards (.name d.name.text) ≠ [] →
        ∀ a w', declare (interpreter n) c d v w ≠ .ok a w') ∧
      ∀ r l first others condition w₁ w₂, introduce (interpreter n) c d v w = .ok (r, l) w₁ →
        w₁.watchers c.boards (.name d.name.text) = first :: others →
        (interpreter n).eval c false first.condition w₁ = .ok condition w₂ →
        ∃ w', declare (interpreter n) c d v w = .error (.breakdown (missing w₂ b r v)) w' ∧
          ∀ new visited, tellVariableWatchers (interpreter n) c r new visited w' = .ok () w' := by
  have := framed_interpreter .boards trivial n
  refine ⟨?_, fun d v w undeclared => ⟨?_, ?_⟩⟩
  · intro e code tree keys name w w₁ w₂ parsed looked there mentioned unbound
    exact watch_posts_name (interpreter n) boards parsed looked there mentioned unbound
  · intro unawaited watched
    exact undeclared.declare_ne_ok scopes boards unawaited watched
  · intro r l first others condition w₁ w₂ introduced watched evaluated
    obtain ⟨w', ends, unwatched⟩ :=
      undeclared.declare_breaksDown scopes boards introduced watched evaluated
    exact ⟨w', ends, fun new visited => tellVariableWatchers_unwatched unwatched⟩

/-- A world with the keyword `var` and two values, in which nothing is declared and nobody watches. -/
def bareWorld : World :=
  { (default : World) with
    store := { Store.empty with
      values := #[.keyword "var", .number (.int 1), .boolean .yes]
      scopes := #[⟨[("var", .predefined ⟨0⟩)]⟩]
      boards := #[.empty]
      queues := #[[]] } }

def bareContext : Context := ⟨[⟨0⟩], ⟨0⟩, [⟨0⟩]⟩

def mentionsX : Expr := .value ⟨.name, "x", 1, 6⟩

def declaresX : Declaration :=
  ⟨⟨.name, "x", 2, 8⟩, [⟨.name, "var", 2, 0⟩, ⟨.name, "var", 2, 4⟩], none, .built 0 (.list []), 0, 1⟩

/-- The condition is watched under the name that it mentions. -/
def expectantWorld : World :=
  { bareWorld with
    store := { bareWorld.store with
      boards := #[⟨[(.name "x", [⟨0, mentionsX, []⟩])]⟩] } }

theorem undeclared_expectantWorld : Undeclared bareContext ⟨0⟩ "x" expectantWorld := by
  refine ⟨by decide, fun r => nofun, by simp [bareContext, expectantWorld], ?_⟩
  intro r _ b member
  cases mem_singleton.mp member
  rfl

def evaluatedWorld : World :=
  leaves ((interpreter 3).eval bareContext false mentionsX)
    (leaves (introduce (interpreter 3) bareContext declaresX ⟨1⟩) expectantWorld)

theorem declare_watched_name_one :
    (∀ a w', declare (interpreter 3) bareContext declaresX ⟨1⟩ expectantWorld ≠ .ok a w') ∧
    ∃ w', declare (interpreter 3) bareContext declaresX ⟨1⟩ expectantWorld =
        .error (.breakdown .key) w' ∧
      ∀ new visited, tellVariableWatchers (interpreter 3) bareContext ⟨0⟩ new visited w' = .ok () w' := by
  have told := (declare_watched_name 3 (c := bareContext) rfl rfl).2 declaresX ⟨1⟩ expectantWorld
    undeclared_expectantWorld
  have named : expectantWorld.watchers bareContext.boards (.name "x") = [⟨0, mentionsX, []⟩] := rfl
  have fault : missing evaluatedWorld ⟨0⟩ ⟨0⟩ ⟨1⟩ = .key := by cbv
  refine ⟨told.1 rfl (named ▸ cons_ne_nil _ _), fault ▸ ?_⟩
  exact told.2 ⟨0⟩ ⟨0, ⟨1⟩, endlessLines, 1, true, true⟩ ⟨0, mentionsX, []⟩ [] ⟨1⟩ _ _ (by cbv) (by cbv)
    (by cbv)

/-- After `when (x)`, the declaration `var var x` breaks down, be it with the value `1` or with
`true`. -/
theorem watched_declaration_breaksDown :
    ∃ w₁ w₂ w₃, watch (interpreter 3) bareContext (.built 0 mentionsX) [] bareWorld = .ok () w₁ ∧
      declare (interpreter 3) bareContext declaresX ⟨1⟩ w₁ = .error (.breakdown .key) w₂ ∧
      declare (interpreter 3) bareContext declaresX ⟨2⟩ w₁ = .error (.breakdown .position) w₃ :=
  ⟨leaves (watch (interpreter 3) bareContext (.built 0 mentionsX) []) bareWorld, _, _, by cbv, by cbv,
    by cbv⟩

end Run

end DreamBerd
