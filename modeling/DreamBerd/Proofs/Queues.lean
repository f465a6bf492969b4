import DreamBerd.Proofs.Framing

/-!
# Whose jobs change, and how values come about

Two relations say who may change the jobs of a queue `q`, and that values change as `ValueSteps`
says. A change `Enlists q` if other queues stay as they are and jobs only join `q`, each at its
beginning; it `Serves q` if other queues stay as they are. A statement enlists with the queue of its
block, and a block serves its queue, since all other code runs in contexts of its own, with new queues
(`keeps_enter`). Only the call of an asynchronous function adds a job, to the queue of the block that
it stands in (`enlists_withJob`).
-/

namespace DreamBerd

open List

/-- Queues are only added, and those there were stay as they are, apart from one. Values change step by
step. -/
structure Serves (q : QueueRef) (w w' : World) : Prop where
  grows : w.store.queues.size ≤ w'.store.queues.size
  spares : ∀ r : QueueRef, r.index < w.store.queues.size → r ≠ q → w'.jobs r = w.jobs r
  values : ValueSteps w.store.values w'.store.values

def Joined (js js' : List Job) : Prop :=
  ∃ new, js' = js ++ new ∧ ∀ job ∈ new, job.position = 0 ∧ job.forward = true

namespace Joined

variable {js js' js'' : List Job} {job : Job} {n : Nat}

theorem refl (js : List Job) : Joined js js := ⟨[], (append_nil js).symm, nofun⟩

theorem trans (first : Joined js js') (second : Joined js' js'') : Joined js js'' := by
  rcases first with ⟨new, rfl, fresh⟩
  rcases second with ⟨new', rfl, fresh'⟩
  refine ⟨new ++ new', append_assoc .., ?_⟩
  intro job member
  rcases mem_append.mp member with early | late
  · exact fresh job early
  · exact fresh' job late

theorem set (joined : Joined js js') (inside : n < js.length) (job : Job) :
    Joined (js.set n job) (js'.set n job) := by
  rcases joined with ⟨new, rfl, fresh⟩
  exact ⟨new, set_append_left n job inside, fresh⟩

theorem kept (joined : Joined js js') (found : js[n]? = some job) : js'[n]? = some job := by
  rcases joined with ⟨new, rfl, -⟩
  rwa [List.getElem?_append_left (List.getElem?_eq_some_iff.mp found).1]

theorem starts (joined : Joined js js') (behind : js.length ≤ n) (found : js'[n]? = some job) :
    job.position = 0 ∧ job.forward = true := by
  rcases joined with ⟨new, rfl, fresh⟩
  rw [getElem?_append_right behind] at found
  exact fresh job (mem_of_getElem? found)

theorem length_le (joined : Joined js js') : js.length ≤ js'.length := by
  rcases joined with ⟨new, rfl, -⟩
  rw [length_append]
  exact Nat.le_add_right _ _

end Joined

/-- Queues are only added, and those there were stay as they are, but that jobs join one of them. -/
structure Enlists (q : QueueRef) (w w' : World) : Prop extends Serves q w w' where
  joins : q.index < w.store.queues.size → Joined (w.jobs q) (w'.jobs q)

instance (q : QueueRef) : IsPreorder World (Serves q) where
  refl _ := ⟨le_rfl, fun _ _ _ => rfl, .refl⟩
  trans w w' w'' first second := by
    refine ⟨first.grows.trans second.grows, ?_, first.values.trans second.values⟩
    intro r inside other
    rw [second.spares r (Nat.lt_of_lt_of_le inside first.grows) other, first.spares r inside other]

instance (q : QueueRef) : IsPreorder World (Enlists q) where
  refl _ := ⟨⟨le_rfl, fun _ _ _ => rfl, .refl⟩, fun _ => .refl _⟩
  trans w w' w'' first second := by
    refine ⟨IsTrans.trans _ _ _ first.toServes second.toServes, fun inside => ?_⟩
    exact (first.joins inside).trans (second.joins (Nat.lt_of_lt_of_le inside first.grows))

theorem Enlists.of_eq {q : QueueRef} (same : w'.store.queues = w.store.queues)
    (values : ValueSteps w.store.values w'.store.values) : Enlists q w w' := by
  have jobs : ∀ r, w'.jobs r = w.jobs r := fun r => by rw [World.jobs, World.jobs, same]
  refine ⟨⟨by rw [same], fun r _ _ => jobs r, values⟩, fun _ => ?_⟩
  rw [jobs]
  exact .refl _

namespace Run

variable {α : Type} {q : QueueRef}

instance (q : QueueRef) : Edits (Enlists q) where
  aside same := .of_eq same.queues (same.values ▸ .refl)
  madeValue proper _ := .of_eq rfl (.single (.made proper))
  element element := .of_eq rfl (.single (.read element))
  copied _ w := .of_eq rfl (w.store.valueSteps_withCopies _)
  madeScope _ _ := .of_eq rfl .refl
  madeVariable _ _ := .of_eq rfl .refl
  named _ _ _ := .of_eq rfl .refl
  madeBoard _ := .of_eq rfl .refl
  edited r _ proper _ := .of_eq rfl (.single (.changed r.index proper))

/-! ## Jobs -/

/-- What is done in a context of its own leaves all jobs there were alone. -/
theorem keeps_enter {scopes : List ScopeRef} {boards : List BoardRef} {names : Scope}
    {f : Context → Run α} (inside : ∀ c, Keeps (Serves c.queue) (f c)) :
    Keeps (Enlists q) (enter scopes boards names >>= f) := by
  intro w
  -- the new queue is behind all others
  have size : (leaves (enter scopes boards names) w).store.queues = w.store.queues.push [] := rfl
  have later := inside ⟨⟨w.store.scopes.size⟩ :: scopes, ⟨w.store.queues.size⟩,
    ⟨w.store.boards.size⟩ :: boards⟩ (leaves (enter scopes boards names) w)
  rw [← leaves_enter_bind] at later
  have kept : ∀ r : QueueRef, r.index < w.store.queues.size →
      (leaves (enter scopes boards names >>= f) w).jobs r = w.jobs r := by
    intro r old
    rw [later.spares r (by rw [size, Array.size_push]; omega)
      (fun same => by rw [same] at old; exact absurd old (Nat.lt_irrefl _))]
    rw [World.jobs, World.jobs, size, Array.getElem?_push_lt old, Array.getElem?_eq_getElem old]
  refine ⟨⟨?_, fun r old _ => kept r old, later.values⟩, fun old => ⟨[], ?_, by simp⟩⟩
  · have := later.grows
    rw [size, Array.size_push] at this
    omega
  · rw [kept q old, append_nil]

theorem enlists_withJob (w : World) (job : Job) (start : job.position = 0 ∧ job.forward = true) :
    Enlists q w (leaves (setJobs q (w.jobs q ++ [job])) w) := by
  have queues : (leaves (setJobs q (w.jobs q ++ [job])) w).store.queues =
      w.store.queues.setIfInBounds q.index (w.jobs q ++ [job]) := rfl
  refine ⟨⟨by rw [queues, Array.size_setIfInBounds], ?_, .refl⟩, ?_⟩
  · intro r _ other
    have apart : q.index ≠ r.index := fun same => other (by cases q; cases r; cases same; rfl)
    rw [World.jobs, queues, Array.getElem?_setIfInBounds_ne apart, World.jobs]
  · intro inside
    refine ⟨[job], ?_, ?_⟩
    · rw [World.jobs, queues, Array.getElem?_setIfInBounds_self_of_lt inside]
      rfl
    · intro member among
      rwa [mem_singleton.mp among]

theorem serves_setJobs (w : World) (js : List Job) : Serves q w (leaves (setJobs q js) w) := by
  have queues : (leaves (setJobs q js) w).store.queues = w.store.queues.setIfInBounds q.index js := rfl
  refine ⟨by rw [queues, Array.size_setIfInBounds], ?_, .refl⟩
  intro r _ other
  have apart : q.index ≠ r.index := fun same => other (by cases q; cases r; cases same; rfl)
  rw [World.jobs, queues, Array.getElem?_setIfInBounds_ne apart, World.jobs]

/-- Expressions and statements enlist, and blocks serve. -/
@[reducible]
def Frames.queues : Frames where
  expr := Enlists
  stmt q _ := Enlists q
  block q _ := Serves q
  frame _ := inferInstance
  preorder_stmt _ _ := inferInstance
  preorder_block _ _ := inferInstance
  expr_le := id
  stmt_le := Enlists.toServes
  enter := keeps_enter
  joined start := enlists_withJob _ _ start
  goes js w := serves_setJobs w js
  reposted _ := .of_eq rfl .refl
  posted _ _ _ := .of_eq rfl .refl
  altered _ := .of_eq rfl .refl
  exports := True
  exported _ _ _ _ := .of_eq rfl .refl
  archived _ := keeps_archiveVariable (fun _ _ => .of_eq rfl .refl) _

end Run

end DreamBerd
