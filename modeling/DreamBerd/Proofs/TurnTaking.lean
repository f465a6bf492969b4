import DreamBerd.Prompt
import DreamBerd.Proofs.Queues

/-!
# Turn taking

A block and the asynchronous functions that it calls run by turns. The jobs of a block stand in the
queue of its context. By `Run.Frames.queues`, code that runs with another queue leaves them alone, and
a statement of the block only adds to them; so in a round jobs join first and then each job has its turn
(`Takes.orderly`), and what a job has done after some rounds depends on nothing but their number
(`Orders.follows`). `runFrom_takes_turns` puts this together for a whole block.

The end of a block does not end its jobs: they stay in the queue where they stopped. A nested block or
a function has a queue of its own that nobody uses later, but all inputs of a session at the prompt
are run with one queue, and there a job goes on with the next input (`job_outlives_block`).
-/

namespace DreamBerd

open List

variable {job : Job} {code : Code} {i : Interpreter} {c : Context} {w w' : World} {n : Nat}
  {ns : List Nat} {js js' : List Job} {acts : List Act}

/-! ## Jobs -/

namespace Job

def Marches (job : Job) : Prop := 0 ≤ job.position ∧ job.forward = true

/-- A job that has had a number of turns, one statement in each until it was through. -/
def later (job : Job) (k : Nat) : Job :=
  { job with position := max job.position (min (job.position + k) job.code.length) }

theorem later_zero : job.later 0 = job := by
  rcases job with ⟨code, scopes, position, forward⟩
  simp only [later, Job.mk.injEq, true_and, and_true]
  omega

theorem later_later (a b : Nat) : (job.later a).later b = job.later (a + b) := by
  simp only [later, Job.mk.injEq, true_and, and_true]
  omega

theorem Marches.later (marches : job.Marches) (k : Nat) : (job.later k).Marches :=
  ⟨le_max_of_le_left marches.1, marches.2⟩

theorem later_of_through (through : job.code.length ≤ job.position) (k : Nat) : job.later k = job := by
  rcases job with ⟨code, scopes, position, forward⟩
  simp only [later, Job.mk.injEq, true_and, and_true]
  dsimp only at through
  omega

theorem turn_later (marches : job.Marches) (k j : Nat) (clause : ClauseRef) :
    (j = (job.later 1).position.toNat + k ∧ job.code[j]? = some clause) ↔
      (j = job.position.toNat + (k + 1) ∧ job.code[j]? = some clause) := by
  refine and_congr_left fun found => ?_
  have inside : j < job.code.length := (List.getElem?_eq_some_iff.mp found).1
  have low := marches.1
  have place : (job.later 1).position = max job.position (min (job.position + 1) job.code.length) := rfl
  omega

end Job

namespace Run

section JobTurns

variable {act : Option Act}

theorem jobs_setJobs (there : q.index < w.store.queues.size) (js : List Job) :
    (leaves (setJobs q js) w).jobs q = js := by
  show ((w.store.queues.setIfInBounds q.index js)[q.index]?).getD [] = js
  rw [Array.getElem?_setIfInBounds_self_of_lt there]
  rfl

def advanced (job : Job) (f : Statement) : Job :=
  { job with
    position := onward job.position (directionAfter f job.forward)
    forward := directionAfter f job.forward }

theorem advanced_eq_later (marches : job.Marches) (due : job.position < job.code.length)
    (plain : isReverse f = false) : advanced job f = job.later 1 := by
  rcases job with ⟨code, scopes, position, forward⟩
  cases marches.2
  have straight : directionAfter f true = true := by rw [directionAfter, plain]; rfl
  have one : onward position true = max position (min (position + 1) code.length) := by
    have step : onward position true = position + 1 := rfl
    dsimp only at due
    omega
  simp only [advanced, straight, one]
  rfl

theorem jobTurn_idle (idle : ∀ job, (w.jobs c.queue)[n]? = some job →
      ¬(0 ≤ job.position ∧ job.position < job.code.length)) : jobTurn i c n w = .ok none w := by
  have look : jobs c.queue w = .ok (w.jobs c.queue) w := rfl
  unfold jobTurn
  rw [bind_ok look]
  cases found : (w.jobs c.queue)[n]? with
  | none => rfl
  | some job =>
    have stop : ¬(decide (0 ≤ job.position) && decide (job.position < job.code.length)) = true := by
      simpa using idle job found
    dsimp only
    rw [if_neg stop]
    rfl

theorem jobTurn_busy [Framed .queues i] {p : Nat} {clause : ClauseRef}
    (there : c.queue.index < w.store.queues.size) (found : (w.jobs c.queue)[n]? = some job)
    (here : job.position = p) (next : job.code[p]? = some clause) (done : jobTurn i c n w = .ok act w') :
    ∃ f, act = some ⟨n, p, clause, f⟩ ∧
      Joined ((w.jobs c.queue).set n (advanced job f)) (w'.jobs c.queue) := by
  have look : ∀ w, jobs c.queue w = .ok (w.jobs c.queue) w := fun _ => rfl
  have bound : p < job.code.length := (List.getElem?_eq_some_iff.mp next).1
  have due : (decide (0 ≤ job.position) && decide (job.position < job.code.length)) = true := by
    simp [here, bound]
  have place : job.position.toNat = p := by omega
  unfold jobTurn at done
  rw [bind_ok (look w), found] at done
  dsimp only at done
  rw [if_pos due, place, next] at done
  rcases bind_eq_ok done with ⟨fs, _, read, done⟩
  cases read
  rcases bind_eq_ok done with ⟨choice, w₁, chosen, done⟩
  have first : Enlists c.queue w w₁ := keeps_classify.ok chosen
  split at done
  · cases done
  · cases done
  · rename_i k f _
    rcases bind_eq_ok done with ⟨js, _, read, done⟩
    cases read
    rcases bind_eq_ok done with ⟨_, w₂, noted, done⟩
    rcases bind_eq_ok done with ⟨_, w₃, ran, done⟩
    cases done
    have there₁ : c.queue.index < w₁.store.queues.size := Nat.lt_of_lt_of_le there first.grows
    have second : Enlists c.queue w₂ w' :=
      (keeps_execute (F := .queues) trivial (c := ⟨job.scopes, c.queue, c.boards⟩)).ok ran
    have jobs₂ : w₂.jobs c.queue = (w₁.jobs c.queue).set n (advanced job f) := by
      cases noted
      exact jobs_setJobs there₁ _
    have there₂ : c.queue.index < w₂.store.queues.size := by
      cases noted
      exact (Array.size_setIfInBounds ..).symm ▸ there₁
    refine ⟨f, rfl, ?_⟩
    have inside : n < (w.jobs c.queue).length := (List.getElem?_eq_some_iff.mp found).1
    have joined := second.joins there₂
    rw [jobs₂] at joined
    exact ((first.joins there).set inside _).trans joined

theorem jobTurn_spec [Framed .queues i] (there : c.queue.index < w.store.queues.size)
    (marching : ∀ job ∈ w.jobs c.queue, job.Marches) (done : jobTurn i c n w = .ok act w')
    (plain : ∀ a ∈ act, isReverse a.form = false) :
    Joined ((w.jobs c.queue).modify n (·.later 1)) (w'.jobs c.queue) ∧
      ∀ m j clause, (∃ f, act = some ⟨m, j, clause, f⟩) ↔
        m = n ∧ ∃ job, (w.jobs c.queue)[n]? = some job ∧ job.position = j ∧
          job.code[j]? = some clause := by
  by_cases busy : ∃ job, (w.jobs c.queue)[n]? = some job ∧ 0 ≤ job.position ∧
      job.position < job.code.length
  · rcases busy with ⟨job, found, low, high⟩
    rcases Int.eq_ofNat_of_zero_le low with ⟨p, here⟩
    have bound : p < job.code.length := by omega
    have next := getElem?_eq_getElem bound
    rcases jobTurn_busy there found here next done with ⟨f, rfl, joined⟩
    have marches := marching job (mem_of_getElem? found)
    have goes := advanced_eq_later marches high (plain _ rfl)
    constructor
    · rw [modify_eq_set_getElem?, found]
      rwa [goes] at joined
    · intro m j clause
      constructor
      · rintro ⟨f', same⟩
        cases same
        exact ⟨rfl, job, found, here, next⟩
      · rintro ⟨rfl, job', found', here', next'⟩
        cases found.symm.trans found'
        cases Int.ofNat.inj (here.symm.trans here')
        cases next.symm.trans next'
        exact ⟨f, rfl⟩
  · have idle : ∀ job, (w.jobs c.queue)[n]? = some job →
        ¬(0 ≤ job.position ∧ job.position < job.code.length) :=
      fun job found due => busy ⟨job, found, due⟩
    rw [jobTurn_idle idle] at done
    cases done
    constructor
    · rw [modify_eq_set_getElem?]
      cases found : (w.jobs c.queue)[n]? with
      | none => exact .refl _
      | some job =>
        have marches := marching job (mem_of_getElem? found)
        have through : job.code.length ≤ job.position := by
          by_contra due
          exact idle job found ⟨marches.1, by omega⟩
        show Joined ((w.jobs c.queue).set n (job.later 1)) (w.jobs c.queue)
        rcases List.getElem?_eq_some_iff.mp found with ⟨inside, same⟩
        rw [Job.later_of_through through, ← same, set_getElem_self]
        exact .refl _
    · intro m j clause
      constructor
      · rintro ⟨f, none⟩
        cases none
      · rintro ⟨rfl, job, found, here, next⟩
        have bound := (List.getElem?_eq_some_iff.mp next).1
        exact absurd ⟨by omega, by omega⟩ (idle job found)

/-- Each of the jobs with the given numbers is one statement further, and others have joined them. -/
structure Advances (ns : List Nat) (js js' : List Job) : Prop where
  kept : ∀ {n job}, js[n]? = some job → js'[n]? = some (if n ∈ ns then job.later 1 else job)
  starts : ∀ {n job}, js.length ≤ n → js'[n]? = some job → job.position = 0 ∧ job.forward = true

theorem Advances.marching (advances : Advances ns js js') (marching : ∀ job ∈ js, job.Marches) :
    ∀ job ∈ js', job.Marches := by
  intro job member
  rcases getElem?_of_mem member with ⟨n, found⟩
  by_cases inside : n < js.length
  · have marches := marching _ (getElem_mem inside)
    have same := advances.kept (getElem?_eq_getElem inside)
    rw [found] at same
    cases same
    split
    · exact marches.later 1
    · exact marches
  · rcases advances.starts (Nat.le_of_not_lt inside) found with ⟨start, forward⟩
    exact ⟨by omega, forward⟩

theorem advances_of_joined (joined : Joined js js') : Advances [] js js' where
  kept found := joined.kept found
  starts behind found := joined.starts behind found

theorem advances_cons {js₁ : List Job} (inside : ∀ m ∈ n :: ns, m < js.length)
    (once : (n :: ns).Nodup) (first : Joined (js.modify n (·.later 1)) js₁)
    (rest : Advances ns js₁ js') : Advances (n :: ns) js js' where
  kept {m job} found := by
    have changed : (js.modify n (·.later 1))[m]? = some (if n = m then job.later 1 else job) := by
      rw [getElem?_modify, found]
      rfl
    rw [rest.kept (first.kept changed)]
    by_cases same : n = m
    · subst same
      have apart : n ∉ ns := (nodup_cons.mp once).1
      simp [apart]
    · have other : m ≠ n := fun eq => same eq.symm
      simp [same, other]
  starts {m job} behind found := by
    have length : (js.modify n (·.later 1)).length = js.length := length_modify ..
    by_cases old : m < js₁.length
    · have known := getElem?_eq_getElem old
      have untouched : m ∉ ns := fun member =>
        absurd (inside m (mem_cons_of_mem n member)) (Nat.not_lt.mpr behind)
      have same := rest.kept known
      rw [if_neg untouched, found] at same
      cases same
      exact first.starts (length.symm ▸ behind) known
    · exact rest.starts (Nat.le_of_not_lt old) found

/-- Acts tell which statements of which jobs have been run. -/
def Tells (ns : List Nat) (js : List Job) (acts : List Act) : Prop :=
  (acts.map Act.job).Sublist ns ∧
  ∀ n j clause, (∃ f, (⟨n, j, clause, f⟩ : Act) ∈ acts) ↔
    n ∈ ns ∧ ∃ job, js[n]? = some job ∧ job.position = j ∧ job.code[j]? = some clause

theorem jobTurns_spec [Framed .queues i] (there : c.queue.index < w.store.queues.size)
    (marching : ∀ job ∈ w.jobs c.queue, job.Marches)
    (inside : ∀ n ∈ ns, n < (w.jobs c.queue).length) (once : ns.Nodup)
    (done : jobTurns i c ns w = .ok acts w') (plain : ∀ a ∈ acts, isReverse a.form = false) :
    Advances ns (w.jobs c.queue) (w'.jobs c.queue) ∧ Tells ns (w.jobs c.queue) acts := by
  induction ns generalizing w acts with
  | nil =>
    cases done
    exact ⟨advances_of_joined (.refl _), .refl [], by simp⟩
  | cons n ns ih =>
    rcases bind_eq_ok done with ⟨act, w₁, turn, done⟩
    rcases bind_eq_ok done with ⟨later, w₂, turns, done⟩
    cases done
    have now : ∀ a ∈ act, isReverse a.form = false := fun a member =>
      plain a (mem_append_left later (Option.mem_toList.mpr member))
    rcases jobTurn_spec there marching turn now with ⟨joined, told⟩
    have there₁ := Nat.lt_of_lt_of_le there ((keeps_jobTurn (F := .queues) trivial).ok turn).grows
    have bound := inside n mem_cons_self
    rcases nodup_cons.mp once with ⟨apart, once'⟩
    have step : Advances [n] (w.jobs c.queue) (w₁.jobs c.queue) :=
      advances_cons (by simpa using bound) (nodup_singleton n) joined
        (advances_of_joined (.refl _))
    have inside₁ : ∀ m ∈ ns, m < (w₁.jobs c.queue).length := by
      intro m member
      have grown := joined.length_le
      rw [length_modify] at grown
      exact Nat.lt_of_lt_of_le (inside m (mem_cons_of_mem n member)) grown
    have earlier : ∀ a ∈ later, isReverse a.form = false := fun a member =>
      plain a (mem_append_right act.toList member)
    rcases ih there₁ (step.marching marching) inside₁ once' turns earlier with ⟨rest, order, tells⟩
    refine ⟨advances_cons inside once joined rest, ?_, ?_⟩
    · rcases act with _ | a
      · exact order.cons n
      · have number : a.job = n := ((told a.job a.statement a.clause).mp ⟨a.form, rfl⟩).1
        exact number ▸ order.cons_cons a.job
    · intro m j clause
      have same : m ∈ ns → (w₁.jobs c.queue)[m]? = (w.jobs c.queue)[m]? := by
        intro member
        have known := getElem?_eq_getElem (inside m (mem_cons_of_mem n member))
        have other : m ∉ [n] := fun eq => apart (mem_singleton.mp eq ▸ member)
        rw [step.kept known, if_neg other, known]
      have parts : (∃ f, (⟨m, j, clause, f⟩ : Act) ∈ act.toList ++ later) ↔
          (∃ f, act = some ⟨m, j, clause, f⟩) ∨ ∃ f, (⟨m, j, clause, f⟩ : Act) ∈ later := by
        simp only [mem_append, Option.mem_toList, exists_or]
      rw [parts, told m j clause, tells m j clause]
      constructor
      · rintro (⟨rfl, run⟩ | ⟨member, run⟩)
        · exact ⟨mem_cons_self, run⟩
        · rw [same member] at run
          exact ⟨mem_cons_of_mem n member, run⟩
      · rintro ⟨member, run⟩
        rcases mem_cons.mp member with rfl | member
        · exact .inl ⟨rfl, run⟩
        · rw [← same member] at run
          exact .inr ⟨member, run⟩

theorem exitIfDead_ok (done : exitIfDead w = .ok () w') : w' = w := by
  rcases bind_eq_ok done with ⟨v, _, read, done⟩
  cases read
  split at done
  · cases done
  · cases done
    rfl

theorem allTurns_spec [Framed .queues i] (there : c.queue.index < w.store.queues.size)
    (marching : ∀ job ∈ w.jobs c.queue, job.Marches) (done : allTurns i c w = .ok acts w')
    (plain : ∀ a ∈ acts, isReverse a.form = false) :
    Advances (List.range (w.jobs c.queue).length) (w.jobs c.queue) (w'.jobs c.queue) ∧
      Tells (List.range (w.jobs c.queue).length) (w.jobs c.queue) acts := by
  rcases bind_eq_ok done with ⟨js, _, read, done⟩
  cases read
  rcases bind_eq_ok done with ⟨acts', w₁, turns, done⟩
  rcases bind_eq_ok done with ⟨_, w₂, alive, done⟩
  cases done
  cases exitIfDead_ok alive
  exact jobTurns_spec there marching (fun n => mem_range.mp) nodup_range turns plain

end JobTurns

/-! ## Rounds with jobs -/

structure Ready (q : QueueRef) (w : World) : Prop where
  there : q.index < w.store.queues.size
  marching : ∀ job ∈ w.jobs q, job.Marches

/-- In a round jobs join first, and then each job has its turn. -/
structure Orderly (q : QueueRef) (r : Round) : Prop where
  joins : Joined (r.before.jobs q) (r.between.jobs q)
  ready : Ready q r.between
  advances : Advances (List.range (r.between.jobs q).length) (r.between.jobs q) (r.after.jobs q)
  tells : Tells (List.range (r.between.jobs q).length) (r.between.jobs q) r.acts
  readyAfter : Ready q r.after

def Round.Straight (r : Round) : Prop := ∀ a ∈ r.acts, isReverse a.form = false

def Round.Runs (r : Round) (n j : Nat) (clause : ClauseRef) : Prop :=
  ∃ f, (⟨n, j, clause, f⟩ : Act) ∈ r.acts

/-- A job runs one statement in each round, from a round and a statement on. -/
def TakesTurns (rs : List Round) (n : Nat) (code : Code) (first start : Nat) : Prop :=
  ∀ k r, rs[k]? = some r → ∀ j clause, r.Runs n j clause ↔
    first ≤ k ∧ j = start + (k - first) ∧ code[j]? = some clause

section Rounds

variable {s s' : Cursor} {r : Round} {rs : List Round} {t : Nat}

theorem Joined.marching (joined : Joined js js') (marching : ∀ job ∈ js, job.Marches) :
    ∀ job ∈ js', job.Marches :=
  (advances_of_joined joined).marching marching

theorem Advances.length_le (advances : Advances ns js js') : js.length ≤ js'.length := by
  by_contra shorter
  have inside : js'.length < js.length := Nat.lt_of_not_le shorter
  have kept := advances.kept (getElem?_eq_getElem inside)
  rw [getElem?_eq_none le_rfl] at kept
  cases kept

theorem Takes.orderly (takes : Takes i c code s r s') [Framed .queues i]
    (ready : Ready c.queue s.world) (straight : r.Straight) : Orderly c.queue r := by
  rcases takes.main with ⟨clause, -, main⟩
  rw [takes.start] at ready
  have turn := (keeps_takeTurn (F := .queues) trivial).ok main
  have joined := turn.joins ready.there
  have between : Ready c.queue r.between :=
    ⟨Nat.lt_of_lt_of_le ready.there turn.grows, Joined.marching joined ready.marching⟩
  rcases allTurns_spec between.there between.marching takes.jobs straight with
    ⟨advances, tells⟩
  have served := (keeps_allTurns (F := .queues) trivial).ok takes.jobs
  exact ⟨joined, between, advances, tells,
    ⟨Nat.lt_of_lt_of_le between.there served.grows, advances.marching between.marching⟩⟩

theorem Orderly.runs (orderly : Orderly q r) (found : (r.between.jobs q)[n]? = some job) (j : Nat)
    (clause : ClauseRef) : r.Runs n j clause ↔ j = job.position.toNat ∧ job.code[j]? = some clause := by
  have member : n ∈ List.range (r.between.jobs q).length :=
    List.mem_range.mpr (List.getElem?_eq_some_iff.mp found).1
  have low := (orderly.ready.marching job (mem_of_getElem? found)).1
  refine (orderly.tells.2 n j clause).trans ⟨?_, ?_⟩
  · rintro ⟨-, job', found', here, next⟩
    cases found.symm.trans found'
    exact ⟨by omega, next⟩
  · rintro ⟨here, next⟩
    exact ⟨member, job, found, by omega, next⟩

theorem Orderly.not_runs (orderly : Orderly q r) (behind : (r.between.jobs q).length ≤ n) (j : Nat)
    (clause : ClauseRef) : ¬r.Runs n j clause := by
  intro runs
  have member := ((orderly.tells.2 n j clause).mp runs).1
  exact absurd (mem_range.mp member) (Nat.not_lt.mpr behind)

theorem Orderly.takesTurns (orderly : Orderly q r) (found : (r.between.jobs q)[n]? = some job)
    (rest : TakesTurns rs n job.code 0 (job.later 1).position.toNat) :
    TakesTurns (r :: rs) n job.code 0 job.position.toNat := by
  have marches := orderly.ready.marching job (mem_of_getElem? found)
  intro k r' place j clause
  cases k with
  | zero =>
    cases place
    simpa using orderly.runs found j clause
  | succ k =>
    have later := rest k r' place j clause
    simp only [Nat.zero_le, true_and] at later ⊢
    exact later.trans (Job.turn_later marches k j clause)

theorem Orderly.later (orderly : Orderly q r) (found : (r.between.jobs q)[n]? = some job) :
    (r.after.jobs q)[n]? = some (job.later 1) := by
  have member : n ∈ List.range (r.between.jobs q).length :=
    List.mem_range.mpr (List.getElem?_eq_some_iff.mp found).1
  rw [orderly.advances.kept found, if_pos member]

/-- Rounds one after the other in which jobs join and then have their turns. -/
inductive Orders (q : QueueRef) : World → List Round → World → Prop
  | nil (w : World) : Orders q w [] w
  | cons {r : Round} {rs : List Round} {w : World} (first : Orderly q r) (rest : Orders q r.after rs w) :
    Orders q r.before (r :: rs) w

theorem Walk.orders (walk : Walk i c code s rs s') [Framed .queues i]
    (ready : Ready c.queue s.world) (straight : ∀ r ∈ rs, r.Straight) :
    Orders c.queue s.world rs s'.world ∧ Ready c.queue s'.world := by
  induction walk with
  | done s => exact ⟨.nil _, ready⟩
  | step takes rest ih =>
    have orderly := takes.orderly ready (straight _ mem_cons_self)
    rcases ih (takes.finish ▸ orderly.readyAfter) (forall_mem_cons.mp straight).2 with ⟨later, atEnd⟩
    rw [takes.finish] at later
    exact ⟨takes.start ▸ .cons orderly later, atEnd⟩

namespace Orders

theorem follows (orders : Orders q w rs w') (found : (w.jobs q)[n]? = some job) :
    TakesTurns rs n job.code 0 job.position.toNat ∧ (w'.jobs q)[n]? = some (job.later rs.length) := by
  induction orders generalizing job with
  | nil w =>
    refine ⟨fun k r place => ?_, ?_⟩
    · cases place
    · rwa [length_nil, Job.later_zero]
  | cons orderly rest ih =>
    have between := orderly.joins.kept found
    rcases ih (orderly.later between) with ⟨turns, final⟩
    refine ⟨orderly.takesTurns between turns, ?_⟩
    rw [final, Job.later_later, length_cons, Nat.add_comm]

theorem length_le (orders : Orders q w rs w') : (w.jobs q).length ≤ (w'.jobs q).length := by
  induction orders with
  | nil w => exact le_rfl
  | cons orderly rest ih => exact orderly.joins.length_le.trans (orderly.advances.length_le.trans ih)

theorem absent (orders : Orders q w rs w') (behind : (w'.jobs q).length ≤ n) (member : r ∈ rs) (j : Nat)
    (clause : ClauseRef) : ¬r.Runs n j clause := by
  induction orders with
  | nil w => cases member
  | cons orderly rest ih =>
    rcases mem_cons.mp member with rfl | later
    · exact orderly.not_runs (orderly.advances.length_le.trans (rest.length_le.trans behind)) j clause
    · exact ih behind later

theorem split (orders : Orders q w rs w') (place : rs[t]? = some r) :
    ∃ before after, rs = before ++ r :: after ∧ before.length = t ∧ Orders q w before r.before ∧
      Orderly q r ∧ Orders q r.after after w' := by
  induction orders generalizing t with
  | nil w => cases place
  | cons orderly rest ih =>
    cases t with
    | zero =>
      cases place
      exact ⟨[], _, rfl, rfl, .nil _, orderly, rest⟩
    | succ t =>
      rcases ih place with ⟨before, after, rfl, length, first, here, last⟩
      exact ⟨_ :: before, after, rfl, congrArg (· + 1) length, .cons orderly first, here, last⟩

end Orders

theorem takesTurns_append {before after : List Round} {body : Code} {start : Nat}
    (absent : ∀ r ∈ before, ∀ j clause, ¬r.Runs n j clause) (turns : TakesTurns after n body 0 start) :
    TakesTurns (before ++ after) n body before.length start := by
  intro k r place j clause
  by_cases early : k < before.length
  · rw [getElem?_append_left early] at place
    have none := absent r (mem_of_getElem? place) j clause
    exact ⟨fun runs => absurd runs none, fun late => absurd late.1 (Nat.not_le.mpr early)⟩
  · have late := Nat.le_of_not_lt early
    rw [getElem?_append_right late] at place
    have turn := turns _ r place j clause
    simp only [Nat.zero_le, true_and] at turn
    exact turn.trans ⟨fun h => ⟨late, h⟩, fun h => h.2⟩

theorem Orders.takesTurns_of_main (orders : Orders q w rs w') (place : rs[t]? = some r)
    (new : (r.before.jobs q).length ≤ n) (found : (r.between.jobs q)[n]? = some job) :
    TakesTurns rs n job.code t 0 ∧ (w'.jobs q)[n]? = some (job.later (rs.length - t)) := by
  rcases orders.split place with ⟨before, after, rfl, rfl, first, orderly, last⟩
  rcases last.follows (orderly.later found) with ⟨turns, final⟩
  have turns := orderly.takesTurns found turns
  rw [(orderly.joins.starts new found).1] at turns
  have length : (before ++ r :: after).length - before.length = 1 + after.length := by
    rw [length_append, length_cons]
    omega
  rw [length, ← Job.later_later]
  exact ⟨takesTurns_append (fun _ => first.absent new) turns, final⟩

theorem Orders.takesTurns_of_job (orders : Orders q w rs w') (place : rs[t]? = some r)
    (new : (r.between.jobs q).length ≤ n) (found : (r.after.jobs q)[n]? = some job) :
    TakesTurns rs n job.code (t + 1) 0 ∧ (w'.jobs q)[n]? = some (job.later (rs.length - (t + 1))) := by
  rcases orders.split place with ⟨before, after, rfl, rfl, first, orderly, last⟩
  rcases last.follows found with ⟨turns, final⟩
  rw [(orderly.advances.starts new found).1] at turns
  have absent : ∀ r' ∈ before ++ [r], ∀ j clause, ¬r'.Runs n j clause := by
    intro r' member
    rcases mem_append.mp member with early | here
    · exact first.absent (orderly.joins.length_le.trans new) early
    · rw [mem_singleton.mp here]
      exact orderly.not_runs new
  have turns := takesTurns_append absent turns
  rw [append_assoc, length_append] at turns
  have length : (before ++ r :: after).length - (before.length + 1) = after.length := by
    rw [length_append, length_cons]
    omega
  rw [length]
  exact ⟨turns, final⟩

theorem Tells.ordered {size : Nat} (tells : Tells (List.range size) js acts) :
    (acts.map Act.job).Pairwise (· < ·) :=
  pairwise_lt_range.sublist tells.1

end Rounds

/-- One block with its asynchronous jobs, of which no statement ends the block, fails or turns round.
The block's own statements run in order, and the block ends. After each of them every job of the
block's queue that is not through runs one statement, in the order in which the jobs were queued; a job
that a statement of the block queues has its first turn right after that statement, and a job that a
job queues has it in the next round. The turns of a job go through its statements one by one, and
nothing of it runs at another time. What is run later with another queue leaves the jobs where they
are. -/
theorem runFrom_takes_turns {m : Nat} {c : Context} {code : Code} {w : World} (ready : Ready c.queue w)
    (steady : Steady (interpreter m) c code ⟨w, 0, true⟩ fun _ => false)
    (straight : ∀ rs s, Walk (interpreter m) c code ⟨w, 0, true⟩ rs s → ∀ r ∈ rs, r.Straight) :
    ∃ rs w', Walk (interpreter m) c code ⟨w, 0, true⟩ rs ⟨w', code.length, true⟩ ∧
      (∀ fuel, code.length < fuel →
        runFrom (interpreter m) c code fuel 0 true w = .ok none w') ∧
      rs.map Round.position = List.range code.length ∧
      (∀ r ∈ rs, (r.acts.map Act.job).Pairwise (· < ·)) ∧
      (∀ n job, (w.jobs c.queue)[n]? = some job →
        TakesTurns rs n job.code 0 job.position.toNat ∧
          (w'.jobs c.queue)[n]? = some (job.later code.length)) ∧
      (∀ t r n job, rs[t]? = some r → (r.before.jobs c.queue).length ≤ n →
        (r.between.jobs c.queue)[n]? = some job →
          TakesTurns rs n job.code t 0 ∧
            (w'.jobs c.queue)[n]? = some (job.later (code.length - t))) ∧
      (∀ t r n job, rs[t]? = some r → (r.between.jobs c.queue).length ≤ n →
        (r.after.jobs c.queue)[n]? = some job →
          TakesTurns rs n job.code (t + 1) 0 ∧
            (w'.jobs c.queue)[n]? = some (job.later (code.length - (t + 1)))) ∧
      Ready c.queue w' ∧
      ∀ m' c' code', c'.queue ≠ c.queue →
        (leaves ((interpreter m').run c' code') w').jobs c.queue = w'.jobs c.queue := by
  have := framed_interpreter .queues trivial m
  rcases steady.ascent (p := 0) code.length (by omega) (fun _ _ _ => rfl) with
    ⟨rs, w', walk, positions⟩
  rw [Nat.zero_add] at walk
  rw [← range_eq_range'] at positions
  have straight := straight rs _ walk
  have length : rs.length = code.length := by
    rw [← length_map (f := Round.position), positions, length_range]
  rcases walk.orders ready straight with ⟨orders, atEnd⟩
  refine ⟨rs, w', walk, ?_, positions, ?_, ?_, ?_, ?_, atEnd, ?_⟩
  · exact fun fuel enough => walk.runFrom_eq (fun inside => lt_irrefl _ inside.2) (length ▸ enough)
  · intro r member
    rcases mem_iff_getElem?.mp member with ⟨t, place⟩
    rcases orders.split place with ⟨_, _, _, _, _, orderly, _⟩
    exact orderly.tells.ordered
  · exact fun n job found => length ▸ orders.follows found
  · exact fun t r n job place new found => length ▸ orders.takesTurns_of_main place new found
  · exact fun t r n job place new found => length ▸ orders.takesTurns_of_job place new found
  · intro m' c' code' other
    exact ((framed_interpreter .queues trivial m').run c' code' w').spares c.queue atEnd.there other.symm

/-! ## An asynchronous function that calls itself -/

def stating (e : Expr) : Statement := .expression (.built 0 e) 0

def againToken : Token := ⟨.name, "again", 1, 0⟩

def againCall : Statement := stating (.call againToken [.value againToken])

def againName : Statement := stating (.value againToken)

/-- A world with an asynchronous function that calls itself and then names itself, after a number of
calls. -/
def againWorld (calls : Nat) (js : List Job) : World :=
  { (default : World) with
    store := { Store.empty with
      values := #[.function [] [⟨0⟩, ⟨1⟩] true] ++ Array.replicate calls .undefined
      scopes := #[⟨[("again", .predefined ⟨0⟩)]⟩] ++ Array.replicate calls .empty
      clauses := #[[againCall], [againName]]
      queues := #[js] }
    part := { (default : World).part with line := 1 } }

def againContext : Context := ⟨[⟨0⟩], ⟨0⟩, []⟩

def againJob (scopes : List ScopeRef) : Job := ⟨[⟨0⟩, ⟨1⟩], scopes, 0, true⟩

def againStart : World := againWorld 0 []

def againQueued : World := againWorld 1 [againJob [⟨1⟩, ⟨0⟩]]

def againFirst : World :=
  againWorld 2 [(againJob [⟨1⟩, ⟨0⟩]).later 1, againJob [⟨2⟩, ⟨1⟩, ⟨0⟩]]

def againSecond : World :=
  againWorld 3 [(againJob [⟨1⟩, ⟨0⟩]).later 2, (againJob [⟨2⟩, ⟨1⟩, ⟨0⟩]).later 1,
    againJob [⟨3⟩, ⟨2⟩, ⟨1⟩, ⟨0⟩]]

theorem again_call : takeTurn (interpreter 2) againContext ⟨0⟩ againStart =
    .ok (.passes againCall) againQueued := rfl

theorem again_jobs : allTurns (interpreter 2) againContext againQueued =
    .ok [⟨0, 0, ⟨0⟩, againCall⟩] againFirst := rfl

theorem again_name : takeTurn (interpreter 2) againContext ⟨1⟩ againFirst =
    .ok (.passes againName) againFirst := rfl

theorem again_both_jobs : allTurns (interpreter 2) againContext againFirst =
    .ok [⟨0, 1, ⟨1⟩, againName⟩, ⟨1, 0, ⟨0⟩, againCall⟩] againSecond := rfl

theorem again_takes_call (here : code[0]? = some ⟨0⟩) :
    Takes (interpreter 2) againContext code ⟨againStart, 0, true⟩
      ⟨againStart, 0, againCall, againQueued, [⟨0, 0, ⟨0⟩, againCall⟩], againFirst⟩
      ⟨againFirst, 1, true⟩ :=
  ⟨rfl, rfl, ⟨_, here, again_call⟩, again_jobs, rfl, rfl, rfl⟩

theorem again_takes_name {p : Nat} (here : code[p]? = some ⟨1⟩) :
    Takes (interpreter 2) againContext code ⟨againFirst, p, true⟩
      ⟨againFirst, p, againName, againFirst,
        [⟨0, 1, ⟨1⟩, againName⟩, ⟨1, 0, ⟨0⟩, againCall⟩], againSecond⟩
      ⟨againSecond, (p + 1 : Nat), true⟩ :=
  ⟨rfl, rfl, ⟨_, here, again_name⟩, again_both_jobs, rfl, rfl, rfl⟩

/-- The job of the block's call has its turns in both rounds, and the job of the job's call in the
second one. -/
theorem runFrom_takes_turns_again :
    Ready ⟨0⟩ againStart ∧
    Steady (interpreter 2) againContext [⟨0⟩, ⟨1⟩] ⟨againStart, 0, true⟩ (fun _ => false) ∧
    ∃ rs w', Walk (interpreter 2) againContext [⟨0⟩, ⟨1⟩] ⟨againStart, 0, true⟩ rs ⟨w', 2, true⟩ ∧
      runFrom (interpreter 2) againContext [⟨0⟩, ⟨1⟩] 3 0 true againStart = .ok none w' ∧
      TakesTurns rs 0 [⟨0⟩, ⟨1⟩] 0 0 ∧ TakesTurns rs 1 [⟨0⟩, ⟨1⟩] 1 0 := by
  have walk : Walk (interpreter 2) againContext [⟨0⟩, ⟨1⟩] ⟨againStart, 0, true⟩ _
      ⟨againSecond, 2, true⟩ :=
    .step (again_takes_call rfl) (.step (again_takes_name (p := 1) rfl) (.done _))
  have outside : ¬Cursor.Inside ⟨againSecond, 2, true⟩ [⟨0⟩, ⟨1⟩] := fun inside =>
    lt_irrefl _ inside.2
  have ready : Ready ⟨0⟩ againStart := ⟨by decide, by simp [againStart, againWorld, World.jobs]⟩
  have steady : Steady (interpreter 2) againContext [⟨0⟩, ⟨1⟩] ⟨againStart, 0, true⟩ fun _ => false :=
    walk.steady outside (by simp [againCall, againName, stating, isReverse])
  have straight : ∀ rs s, Walk (interpreter 2) againContext [⟨0⟩, ⟨1⟩] ⟨againStart, 0, true⟩ rs s →
      ∀ r ∈ rs, r.Straight := by
    intro rs s other r member
    have known := (walk.isPrefix outside other).subset member
    simp only [mem_cons, not_mem_nil, or_false] at known
    rcases known with rfl | rfl
    · simp [Round.Straight, againCall, stating, isReverse]
    · simp [Round.Straight, againCall, againName, stating, isReverse]
  rcases runFrom_takes_turns (c := againContext) ready steady straight with
    ⟨rs, w', walk', ends, positions, -, -, byMain, byJob, -, -⟩
  have length : rs.length = 2 := by
    rw [← length_map (f := Round.position), positions]
    rfl
  have same := (walk.isPrefix outside walk').eq_of_length length
  subst same
  exact ⟨ready, steady, _, w', walk', ends 3 (by decide),
    (byMain 0 _ 0 (againJob [⟨1⟩, ⟨0⟩]) rfl le_rfl rfl).1,
    (byJob 0 _ 1 (againJob [⟨2⟩, ⟨1⟩, ⟨0⟩]) rfl le_rfl rfl).1⟩

end Run

/-! ## The prompt -/

namespace Prompt

open Run

variable {p p' : Prompt}

theorem enter_context {line : String} (entered : enter i p line w = .ok p' w') :
    p'.context = p.context := by
  rcases bind_eq_ok entered with ⟨tokens, _, -, entered⟩
  extract_lets layers pending at entered
  split at entered
  · rcases bind_eq_ok entered with ⟨_, _, failed, -⟩
    cases failed
  · rcases bind_eq_ok entered with ⟨_, _, -, entered⟩
    split at entered
    · rcases bind_eq_ok entered with ⟨_, _, -, same⟩
      cases same
      rfl
    · cases entered
      rfl

theorem feed_context {typed : Typed} (fed : feed i p typed w = .ok p' w') : p'.context = p.context := by
  cases typed with
  | event e | interrupt =>
    rcases bind_eq_ok fed with ⟨_, _, -, same⟩
    cases same
    rfl
  | line s =>
    rcases bind_eq_ok fed with ⟨p₁, w₁, entered, fed⟩
    rcases bind_eq_ok fed with ⟨_, _, -, same⟩
    cases same
    cases run : enter i p s w with
    | ok p₂ w₂ =>
      cases (tryCatch_ok run).symm.trans entered
      exact enter_context run
    | error fault w₂ =>
      rcases bind_eq_ok ((tryCatch_error run).symm.trans entered) with ⟨_, _, -, same⟩
      cases same
      rfl

end Prompt

namespace Run

/-- A job goes on after its block has ended if another block is run in the same context, and the inputs
of a session at the prompt are blocks run in the same context. -/
theorem job_outlives_block :
    (∃ w₁ w₂ r, againStart.jobs againContext.queue = [] ∧
      (interpreter 3).run againContext [⟨0⟩] againStart = .ok none w₁ ∧
      (interpreter 3).run againContext [⟨1⟩] w₁ = .ok none w₂ ∧
      Walk (interpreter 2) againContext [⟨1⟩] ⟨w₁, 0, true⟩ [r] ⟨w₂, 1, true⟩ ∧
      r.Runs 0 1 ⟨1⟩) ∧
    ∀ i p typed w p' w', Prompt.feed i p typed w = .ok p' w' → p'.context = p.context := by
  have first : Walk (interpreter 2) againContext [⟨0⟩] ⟨againStart, 0, true⟩ _
      ⟨againFirst, 1, true⟩ := .step (again_takes_call rfl) (.done _)
  have second : Walk (interpreter 2) againContext [⟨1⟩] ⟨againFirst, 0, true⟩ _
      ⟨againSecond, 1, true⟩ := .step (again_takes_name (p := 0) rfl) (.done _)
  have ends : ∀ w, ∀ clause : ClauseRef, ¬Cursor.Inside ⟨w, 1, true⟩ [clause] := fun _ _ inside =>
    lt_irrefl _ inside.2
  refine ⟨?_, fun _ _ _ _ _ _ => Prompt.feed_context⟩
  exact ⟨againFirst, againSecond, _, rfl, first.runFrom_eq (ends _ _) (by decide),
    second.runFrom_eq (ends _ _) (by decide), second, againName, mem_cons_self⟩

end Run

end DreamBerd
