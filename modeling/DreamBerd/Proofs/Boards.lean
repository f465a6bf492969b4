import DreamBerd.Proofs.Framing

/-!
# Which boards begin to watch a variable

A change `Posts` on some boards if the innermost of them may begin to watch a variable, and no other board
that was there does. An expression posts on no board that was there: a board that already watches a
variable may get more watchers of it, but a variable that a board does not know stays unknown to it. A
statement or a block posts on the innermost board of its own. All other code runs in contexts of its own,
with new boards (`posts_enter`).
-/

namespace DreamBerd

/-- Boards are only added, and no board that was there, apart from the innermost of the given ones, begins
to watch a variable. -/
structure Posts (boards : List BoardRef) (w w' : World) : Prop where
  grows : w.store.boards.size ≤ w'.store.boards.size
  spares : ∀ b : BoardRef, b.index < w.store.boards.size → boards.head? ≠ some b →
    ∀ r, (w.board b).get? (.variable r) = none → (w'.board b).get? (.variable r) = none

namespace Posts

variable {boards : List BoardRef} {w w' : World}

theorem of_eq (same : w'.store.boards = w.store.boards) : Posts boards w w' := by
  refine ⟨by rw [same], fun b _ _ r unwatched => ?_⟩
  rwa [World.board, same]

theorem on (posts : Posts [] w w') (boards : List BoardRef) : Posts boards w w' :=
  ⟨posts.grows, fun b inside _ => posts.spares b inside nofun⟩

theorem unwatched (posts : Posts [] w w') (there : ∀ b ∈ boards, b.index < w.store.boards.size)
    (unwatched : Run.Unwatched w boards (.variable r)) : Run.Unwatched w' boards (.variable r) :=
  fun b member => posts.spares b (there b member) nofun r (unwatched b member)

end Posts

instance (boards : List BoardRef) : IsPreorder World (Posts boards) where
  refl _ := .of_eq rfl
  trans w w' w'' first second := by
    refine ⟨first.grows.trans second.grows, fun b inside other r unwatched => ?_⟩
    exact second.spares b (Nat.lt_of_lt_of_le inside first.grows) other r
      (first.spares b inside other r unwatched)

namespace Run

variable {w : World} {b : BoardRef}

theorem board_newBoard (inside : b.index < w.store.boards.size) :
    (leaves newBoard w).board b = w.board b := by
  show ((w.store.boards.push .empty)[b.index]?).getD .empty = _
  rw [Array.getElem?_push_lt inside, World.board, Array.getElem?_eq_getElem inside]

theorem posts_newBoard : Keeps (Posts []) newBoard := by
  intro w
  refine ⟨?_, fun b inside _ r unwatched => ?_⟩
  · show w.store.boards.size ≤ (w.store.boards.push .empty).size
    rw [Array.size_push]
    exact Nat.le_succ _
  · rwa [board_newBoard inside]

theorem posts_setBoard {boards : List BoardRef} (only : boards.head? = some b ∨
      ∀ r, (w.board b).get? (.variable r) = none → x.get? (.variable r) = none) :
    Posts boards w (leaves (setBoard b x) w) := by
  have after : (leaves (setBoard b x) w).store.boards = w.store.boards.setIfInBounds b.index x := rfl
  refine ⟨by rw [after, Array.size_setIfInBounds], fun y inside other r unwatched => ?_⟩
  by_cases same : y = b
  · subst same
    rw [World.board, after, Array.getElem?_setIfInBounds_self_of_lt inside]
    exact only.resolve_left other r unwatched
  · have apart : b.index ≠ y.index := fun equal => same (by cases b; cases y; cases equal; rfl)
    rwa [World.board, after, Array.getElem?_setIfInBounds_ne apart]

instance : Edits (Posts []) where
  aside same := .of_eq same.boards
  madeValue _ _ := .of_eq rfl
  element _ := .of_eq rfl
  copied _ _ := .of_eq rfl
  madeScope _ _ := .of_eq rfl
  madeVariable _ _ := .of_eq rfl
  named _ _ _ := .of_eq rfl
  madeBoard := posts_newBoard
  edited _ _ _ _ := .of_eq rfl

theorem posts_enter {scopes : List ScopeRef} {boards : List BoardRef} {names : Scope}
    {f : Context → Run α} (inside : ∀ c, Keeps (Posts c.boards) (f c)) :
    Keeps (Posts []) (enter scopes boards names >>= f) := by
  intro w
  have first : Posts [] w (leaves (enter scopes boards names) w) :=
    ⟨(posts_newBoard w).grows, (posts_newBoard w).spares⟩
  have later := inside ⟨⟨w.store.scopes.size⟩ :: scopes, ⟨w.store.queues.size⟩,
    ⟨w.store.boards.size⟩ :: boards⟩ (leaves (enter scopes boards names) w)
  refine ⟨first.grows.trans later.grows, fun b old _ r unwatched => ?_⟩
  refine later.spares b (Nat.lt_of_lt_of_le old first.grows) ?_ r (first.spares b old nofun r unwatched)
  rintro ⟨⟩
  exact Nat.lt_irrefl _ old

/-- Expressions post on no board that was there, statements and blocks on the innermost one of theirs. -/
@[reducible]
def Frames.boards : Frames where
  expr _ := Posts []
  stmt _ := Posts
  block _ := Posts
  frame _ := inferInstance
  preorder_stmt _ _ := inferInstance
  preorder_block _ _ := inferInstance
  expr_le posts := posts.on _
  stmt_le := id
  enter := posts_enter
  joined _ := .of_eq rfl
  goes _ _ := .of_eq rfl
  reposted old := posts_setBoard (.inr old)
  posted _ _ _ := posts_setBoard (.inl rfl)
  altered _ := .of_eq rfl
  exports := True
  exported _ _ _ _ := .of_eq rfl
  archived _ := keeps_archiveVariable (fun _ _ => .of_eq rfl) _

end Run

end DreamBerd
