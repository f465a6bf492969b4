import DreamBerd.Proofs.Worlds
import Mathlib.Data.Nat.Find

/-!
# Turns and rounds

The run of a block is a sequence of rounds. In a round a statement of the block has its turn, and then
each job of the block has one (`runFrom_succ`). `Takes` is a round between two cursors and `Walk` a
sequence of rounds.

`runFrom_there_and_back` follows a cursor through a block that may turn round: it goes up to the first
reverse and back, and then it has left the block. On the way back it meets only statements that it
passed before, so that no second reverse can send it up again.
-/

namespace DreamBerd

open List

namespace Run

variable {w : World} {i : Interpreter} {c : Context} {clause : ClauseRef} {scopes : List ScopeRef}
  {t : Token} {e : Entry} {x : ScopeRef} {v : ValueRef}

theorem runFrom_succ {code : Code} {position : Nat} (here : code[position]? = some clause)
    (fuel : Nat) (forward : Bool) :
    runFrom i c code (fuel + 1) position forward = (do
      match ← takeTurn i c clause with
      | .ends result => return some result
      | .passes f =>
        let _ ← allTurns i c
        runFrom i c code fuel (onward position (directionAfter f forward))
          (directionAfter f forward)) := by
  have inside : (decide (0 ≤ (position : Int)) && decide ((position : Int) < code.length)) = true := by
    have bound := (List.getElem?_eq_some_iff.mp here).1
    simp [bound]
  rw [runFrom, if_pos inside]
  split
  next absent => exact absurd (here.symm.trans absent) nofun
  next clause' there =>
    obtain rfl : clause = clause' := Option.some.inj (here.symm.trans there)
    rfl

/-! ## Rounds -/

structure Cursor where
  world : World
  position : Int
  forward : Bool

def Cursor.Inside (s : Cursor) (code : Code) : Prop := 0 ≤ s.position ∧ s.position < code.length

/-- A round of a block: the statement that had its turn, the statements of jobs that were run then, and
the worlds before, between and after. -/
structure Round where
  before : World
  position : Nat
  form : Statement
  between : World
  acts : List Act
  after : World

structure Takes (i : Interpreter) (c : Context) (code : Code) (s : Cursor) (r : Round) (s' : Cursor) :
    Prop where
  start : s.world = r.before
  here : s.position = r.position
  main : ∃ clause, code[r.position]? = some clause ∧
    takeTurn i c clause r.before = .ok (.passes r.form) r.between
  jobs : allTurns i c r.between = .ok r.acts r.after
  finish : s'.world = r.after
  direction : s'.forward = directionAfter r.form s.forward
  next : s'.position = onward s.position s'.forward

inductive Walk (i : Interpreter) (c : Context) (code : Code) : Cursor → List Round → Cursor → Prop
  | done (s : Cursor) : Walk i c code s [] s
  | step {s s' s'' : Cursor} {r : Round} {rs : List Round} (first : Takes i c code s r s')
      (rest : Walk i c code s' rs s'') : Walk i c code s (r :: rs) s''

section Walks

variable {code : Code} {s s' s'' t : Cursor} {r r' : Round} {rs rs' : List Round}

theorem Takes.inside (takes : Takes i c code s r s') : s.Inside code := by
  rcases takes.main with ⟨clause, found, -⟩
  have bound := (List.getElem?_eq_some_iff.mp found).1
  rw [Cursor.Inside, takes.here]
  omega

theorem Takes.unique (first : Takes i c code s r s') (second : Takes i c code s r' t) :
    r = r' ∧ s' = t := by
  rcases r with ⟨before, position, form, between, acts, after⟩
  rcases r' with ⟨before', position', form', between', acts', after'⟩
  have sameWorld : before = before' := first.start.symm.trans second.start
  have samePlace : position = position' := Int.ofNat.inj (first.here.symm.trans second.here)
  subst sameWorld samePlace
  rcases first.main with ⟨clause, found, main⟩
  rcases second.main with ⟨clause', found', main'⟩
  cases Option.some.inj (found.symm.trans found')
  cases main.symm.trans main'
  cases first.jobs.symm.trans second.jobs
  rcases s' with ⟨w, p, f⟩
  cases first.finish.trans second.finish.symm
  cases first.direction.trans second.direction.symm
  cases first.next.trans second.next.symm
  exact ⟨rfl, rfl⟩

theorem Walk.append (first : Walk i c code s rs s') (second : Walk i c code s' rs' s'') :
    Walk i c code s (rs ++ rs') s'' := by
  induction first with
  | done s => exact second
  | step takes rest ih => exact .step takes (ih second)

theorem Walk.isPrefix (walk : Walk i c code s rs s') (outside : ¬s'.Inside code)
    (other : Walk i c code s rs' t) : rs' <+: rs := by
  induction walk generalizing rs' with
  | done s =>
    cases other with
    | done => exact prefix_rfl
    | step takes rest => exact absurd takes.inside outside
  | step takes rest ih =>
    cases other with
    | done => exact nil_prefix
    | step takes' rest' =>
      rcases takes.unique takes' with ⟨rfl, rfl⟩
      exact (prefix_cons_inj _).mpr (ih outside rest')

theorem Walk.continues (walk : Walk i c code s rs s') (outside : ¬s'.Inside code)
    (other : Walk i c code s rs' t) (inside : t.Inside code) : ∃ r t', Takes i c code t r t' := by
  induction other generalizing rs with
  | done t =>
    cases walk with
    | done => exact absurd inside outside
    | step takes rest => exact ⟨_, _, takes⟩
  | step takes' rest' ih =>
    cases walk with
    | done => exact absurd takes'.inside outside
    | step takes rest =>
      rcases takes.unique takes' with ⟨rfl, rfl⟩
      exact ih rest inside

theorem Takes.runFrom_eq (takes : Takes i c code s r s') (fuel : Nat) :
    runFrom i c code (fuel + 1) s.position s.forward s.world =
      runFrom i c code fuel s'.position s'.forward s'.world := by
  rcases takes.main with ⟨clause, found, main⟩
  rw [takes.next, takes.direction, takes.here, takes.start, runFrom_succ found, bind_ok main, takes.finish]
  exact bind_ok takes.jobs

theorem runFrom_outside (outside : ¬s.Inside code) (fuel : Nat) :
    runFrom i c code (fuel + 1) s.position s.forward s.world = .ok none s.world := by
  have stop : ¬(decide (0 ≤ s.position) && decide (s.position < code.length)) = true := by
    simpa [Cursor.Inside] using outside
  rw [runFrom, if_neg stop]
  rfl

/-- A block that has been walked through comes to an end there. -/
theorem Walk.runFrom_eq (walk : Walk i c code s rs s') (outside : ¬s'.Inside code) {fuel : Nat}
    (enough : rs.length < fuel) :
    runFrom i c code fuel s.position s.forward s.world = .ok none s'.world := by
  induction walk generalizing fuel with
  | done s =>
    rcases fuel with _ | fuel
    · exact absurd enough (Nat.not_lt_zero _)
    · exact runFrom_outside outside fuel
  | step takes rest ih =>
    rcases fuel with _ | fuel
    · exact absurd enough (Nat.not_lt_zero _)
    · rw [takes.runFrom_eq]
      exact ih outside (Nat.lt_of_succ_lt_succ enough)

end Walks

/-! ## There and back -/

/-- Nothing in a block fails or ends it, and each time that a statement has its turn it is a reverse, or
each time it is not. -/
structure Steady (i : Interpreter) (c : Context) (code : Code) (start : Cursor)
    (reverses : Nat → Bool) : Prop where
  goesOn : ∀ {rs : List Round} {s : Cursor}, Walk i c code start rs s → s.Inside code →
    ∃ r s', Takes i c code s r s'
  constant : ∀ {rs : List Round} {s : Cursor}, Walk i c code start rs s →
    ∀ r ∈ rs, isReverse r.form = reverses r.position

section Reversal

variable {code : Code} {s s' : Cursor} {rs : List Round} {reverses : Nat → Bool} {p : Nat}

theorem Walk.steady (walk : Walk i c code s rs s') (outside : ¬s'.Inside code)
    (constant : ∀ r ∈ rs, isReverse r.form = reverses r.position) : Steady i c code s reverses where
  goesOn other inside := walk.continues outside other inside
  constant other r member := constant r ((walk.isPrefix outside other).subset member)

theorem Steady.after (steady : Steady i c code s reverses) (walk : Walk i c code s rs s') :
    Steady i c code s' reverses where
  goesOn later := steady.goesOn (walk.append later)
  constant later r member := steady.constant (walk.append later) r (mem_append_right rs member)

theorem Steady.round {forward : Bool} (steady : Steady i c code ⟨w, p, forward⟩ reverses)
    (inside : p < code.length) :
    ∃ r w', r.position = p ∧
      Takes i c code ⟨w, p, forward⟩ r
        ⟨w', onward p (if reverses p then !forward else forward),
          if reverses p then !forward else forward⟩ := by
  rcases steady.goesOn (.done _) ⟨Int.natCast_nonneg p, Int.ofNat_lt.mpr inside⟩ with ⟨r, s', takes⟩
  have same : r.position = p := (Int.ofNat.inj takes.here).symm
  have form := steady.constant (.step takes (.done s')) r mem_cons_self
  rcases s' with ⟨w', position, forward'⟩
  have direction : forward' = if reverses p then !forward else forward := by
    rw [← same, ← form]
    exact takes.direction
  have next : position = onward p forward' := takes.next
  subst direction next
  exact ⟨r, w', same, takes⟩

/-- Statements that do not reverse are run one after the other. -/
theorem Steady.ascent (d : Nat) (steady : Steady i c code ⟨w, p, true⟩ reverses)
    (bound : p + d ≤ code.length) (plain : ∀ j, p ≤ j → j < p + d → reverses j = false) :
    ∃ rs w', Walk i c code ⟨w, p, true⟩ rs ⟨w', (p + d : Nat), true⟩ ∧
      rs.map Round.position = List.range' p d := by
  induction d generalizing w p with
  | zero => exact ⟨[], w, .done _, rfl⟩
  | succ d ih =>
    rcases steady.round (by omega) with ⟨r, w', position, takes⟩
    rw [plain p le_rfl (by omega)] at takes
    rcases ih (p := p + 1) (steady.after (.step takes (.done _))) (by omega)
      (fun j low high => plain j (by omega) (by omega)) with ⟨rs, w'', walk, positions⟩
    refine ⟨r :: rs, w'', .step takes ?_, ?_⟩
    · have arrive : p + 1 + d = p + (d + 1) := by omega
      rwa [← arrive]
    · rw [map_cons, position, positions, range'_succ]

/-- On the way back the statements are run down to the first one. -/
theorem Steady.descent (steady : Steady i c code ⟨w, p - 1, false⟩ reverses)
    (bound : p ≤ code.length) (plain : ∀ j < p, reverses j = false) :
    ∃ rs w', Walk i c code ⟨w, p - 1, false⟩ rs ⟨w', -1, false⟩ ∧
      rs.map Round.position = (List.range p).reverse := by
  induction p generalizing w with
  | zero => exact ⟨[], w, .done _, rfl⟩
  | succ p ih =>
    have start : (((p + 1 : Nat) : Int) - 1) = p := by omega
    rw [start] at steady ⊢
    rcases steady.round (by omega) with ⟨r, w', position, takes⟩
    rw [plain p (by omega)] at takes
    rcases ih (steady.after (.step takes (.done _))) (by omega)
      (fun j below => plain j (by omega)) with ⟨rs, w'', walk, positions⟩
    refine ⟨r :: rs, w'', .step takes walk, ?_⟩
    rw [map_cons, position, positions, range_succ, reverse_append]
    rfl

theorem Steady.back (steady : Steady i c code ⟨w, 0, true⟩ reverses)
    (inside : k < code.length) (turn : reverses k = true) (plain : ∀ j < k, reverses j = false) :
    ∃ rs w', Walk i c code ⟨w, 0, true⟩ rs ⟨w', -1, false⟩ ∧
      rs.map Round.position = List.range (k + 1) ++ (List.range k).reverse := by
  rcases steady.ascent (p := 0) k (by omega) (fun j _ below => plain j (by omega)) with
    ⟨up, v, there, ups⟩
  rw [Nat.zero_add] at there
  rcases (steady.after there).round inside with ⟨r, v', position, takes⟩
  rw [turn] at takes
  have turned := there.append (.step takes (.done _))
  rcases (steady.after turned).descent (by omega) plain with ⟨down, w', back, downs⟩
  refine ⟨(up ++ [r]) ++ down, w', turned.append back, ?_⟩
  rw [map_append, map_append, ups, downs, map_singleton, position, range_succ,
    range_eq_range']

/-- A block in which nothing fails or ends it early is left: it is run up to its first reverse and back
to its beginning, or from its beginning to its end if nothing reverses it. -/
theorem runFrom_there_and_back {w : World} (steady : Steady i c code ⟨w, 0, true⟩ reverses) :
    ∃ rs s, Walk i c code ⟨w, 0, true⟩ rs s ∧ ¬s.Inside code ∧
      (∀ fuel, rs.length < fuel → runFrom i c code fuel 0 true w = .ok none s.world) ∧
      (∀ rs' s', Walk i c code ⟨w, 0, true⟩ rs' s' → rs' <+: rs) ∧
      (∀ k < code.length, reverses k = true → (∀ j < k, reverses j = false) →
        rs.map Round.position = List.range (k + 1) ++ (List.range k).reverse) ∧
      ((∀ j < code.length, reverses j = false) → rs.map Round.position = List.range code.length) := by
  by_cases turns : ∃ k, k < code.length ∧ reverses k = true
  · rcases Nat.find_spec turns with ⟨inside, turn⟩
    have plain : ∀ j < Nat.find turns, reverses j = false := by
      intro j below
      have not := Nat.find_min turns below
      simp only [not_and, Bool.not_eq_true] at not
      exact not (by omega)
    rcases steady.back inside turn plain with ⟨rs, w', walk, positions⟩
    have outside : ¬Cursor.Inside ⟨w', -1, false⟩ code := fun inside =>
      absurd inside.1 (by decide : ¬(0 : Int) ≤ -1)
    refine ⟨rs, _, walk, outside, fun fuel enough => walk.runFrom_eq outside enough,
      fun rs' s' => walk.isPrefix outside, ?_, ?_⟩
    · intro k bound turn' plain'
      have first : Nat.find turns = k := by
        rcases Nat.lt_trichotomy (Nat.find turns) k with below | same | above
        · rw [plain' _ below] at turn
          cases turn
        · exact same
        · rw [plain _ above] at turn'
          cases turn'
      rw [← first]
      exact positions
    · intro none
      rw [none _ inside] at turn
      cases turn
  · have none : ∀ j < code.length, reverses j = false := by
      intro j bound
      by_contra turn
      exact turns ⟨j, bound, by simpa using turn⟩
    rcases steady.ascent (p := 0) code.length (by omega) (fun j _ bound => none j (by omega)) with
      ⟨rs, w', walk, positions⟩
    have outside : ¬Cursor.Inside ⟨w', (0 + code.length : Nat), true⟩ code := fun inside => by
      have := inside.2
      simp at this
    refine ⟨rs, _, walk, outside, fun fuel enough => walk.runFrom_eq outside enough,
      fun rs' s' => walk.isPrefix outside, ?_, ?_⟩
    · intro k bound turn
      rw [none k bound] at turn
      cases turn
    · intro _
      rw [positions, range_eq_range']

end Reversal

/-! ## A block with two reverses -/

theorem keywordOf_ok {word : String} (plain : '.' ∉ t.text.toList)
    (found : w.store.innermost t.text scopes = some (e, x)) (holds : w.store.entryValue e = .ok v)
    (keyword : w.store.value v = .keyword word) : keywordOf scopes t w = .ok (some word) w := by
  have looked : lookup scopes t.text w = .ok (some e) w := by
    refine lookup_ok ?_
    rw [Store.lookup_eq plain, found]
    rfl
  have read : value v w = .ok (.keyword word) w := by
    rw [← keyword]
    rfl
  exact (bind_ok looked).trans ((bind_ok (entryValue_ok holds)).trans ((bind_ok read).trans rfl))

def emptyList : Statement := .expression (.built 0 (.list [])) 0

def reversal (line : Int) : Statement := .reverse ⟨.name, "reverse", line, 0⟩ 0

def reversingWorld : World :=
  { (default : World) with store := { Store.empty with
    values := #[.keyword "reverse"]
    scopes := #[⟨[("reverse", .predefined ⟨0⟩)]⟩]
    clauses := #[[emptyList], [reversal 2], [reversal 3]]
    queues := #[[]] } }

def reversingContext : Context := ⟨[⟨0⟩], ⟨0⟩, []⟩

def reversingWorld₁ : World :=
  leaves (takeTurn (interpreter 1) reversingContext ⟨0⟩) reversingWorld

def reversingWorld₂ : World :=
  { reversingWorld₁ with part := { reversingWorld₁.part with line := 2 } }

def reversingWorld₃ : World :=
  leaves (takeTurn (interpreter 1) reversingContext ⟨0⟩) reversingWorld₂

theorem reversingWorld_turn : takeTurn (interpreter 1) reversingContext ⟨1⟩ reversingWorld₁ =
    .ok (.passes (reversal 2)) reversingWorld₂ := rfl

theorem reversingWorld_walk : Walk (interpreter 1) reversingContext [⟨0⟩, ⟨1⟩, ⟨2⟩]
    ⟨reversingWorld, 0, true⟩
    [⟨reversingWorld, 0, emptyList, reversingWorld₁, [], reversingWorld₁⟩,
      ⟨reversingWorld₁, 1, reversal 2, reversingWorld₂, [], reversingWorld₂⟩,
      ⟨reversingWorld₂, 0, emptyList, reversingWorld₃, [], reversingWorld₃⟩]
    ⟨reversingWorld₃, -1, false⟩ := by
  have first : takeTurn (interpreter 1) reversingContext ⟨0⟩ reversingWorld =
      .ok (.passes emptyList) reversingWorld₁ := rfl
  have third : takeTurn (interpreter 1) reversingContext ⟨0⟩ reversingWorld₂ =
      .ok (.passes emptyList) reversingWorld₃ := rfl
  have idle₁ : allTurns (interpreter 1) reversingContext reversingWorld₁ = .ok [] reversingWorld₁ := rfl
  have idle₂ : allTurns (interpreter 1) reversingContext reversingWorld₂ = .ok [] reversingWorld₂ := rfl
  have idle₃ : allTurns (interpreter 1) reversingContext reversingWorld₃ = .ok [] reversingWorld₃ := rfl
  refine .step (?_ : Takes _ _ _ _ _ ⟨reversingWorld₁, 1, true⟩) ?_
  · exact ⟨rfl, rfl, ⟨_, rfl, first⟩, idle₁, rfl, rfl, rfl⟩
  refine .step (?_ : Takes _ _ _ _ _ ⟨reversingWorld₂, 0, false⟩) ?_
  · exact ⟨rfl, rfl, ⟨_, rfl, reversingWorld_turn⟩, idle₂, rfl, rfl, rfl⟩
  refine .step (?_ : Takes _ _ _ _ _ ⟨reversingWorld₃, -1, false⟩) (.done _)
  exact ⟨rfl, rfl, ⟨_, rfl, third⟩, idle₃, rfl, rfl, rfl⟩

/-- The second of two reverses is never reached. -/
theorem runFrom_there_and_back_twice_reversed :
    Steady (interpreter 1) reversingContext [⟨0⟩, ⟨1⟩, ⟨2⟩] ⟨reversingWorld, 0, true⟩ (0 < ·) ∧
    ∃ rs s, Walk (interpreter 1) reversingContext [⟨0⟩, ⟨1⟩, ⟨2⟩] ⟨reversingWorld, 0, true⟩ rs s ∧
      rs.map Round.position = [0, 1, 0] ∧
      runFrom (interpreter 1) reversingContext [⟨0⟩, ⟨1⟩, ⟨2⟩] 4 0 true reversingWorld =
        .ok none s.world := by
  have outside : ¬Cursor.Inside ⟨reversingWorld₃, -1, false⟩ [⟨0⟩, ⟨1⟩, ⟨2⟩] := fun inside =>
    absurd inside.1 (by decide : ¬(0 : Int) ≤ -1)
  have steady : Steady (interpreter 1) reversingContext [⟨0⟩, ⟨1⟩, ⟨2⟩] ⟨reversingWorld, 0, true⟩
      (0 < ·) := reversingWorld_walk.steady outside (by simp [emptyList, reversal, isReverse])
  rcases runFrom_there_and_back steady with ⟨rs, s, walk, -, ends, -, turned, -⟩
  have positions := turned 1 (by decide) (by decide) (by decide)
  have length : rs.length = 3 := by
    rw [← length_map (f := Round.position), positions]
    rfl
  exact ⟨steady, rs, s, walk, positions, ends 4 (by omega)⟩

end Run

end DreamBerd
