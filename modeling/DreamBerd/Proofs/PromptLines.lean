import DreamBerd.Prompt
import DreamBerd.Proofs.Layout
import DreamBerd.Proofs.Lexemes
import DreamBerd.Proofs.Worlds

/-!
# Where an input at the prompt ends

Lines are read for one input as long as they leave a scope open. `Prompt.feedAll_open` follows the lines
that do, and `Prompt.input_ends_when_balanced` says what the next one does. A single name is replaced by a
statement that prints it, and this is tried for the last lines of an input as well as for all of them. But
the last lines close more scopes than they open, so there is a brace among their tokens.
-/

namespace DreamBerd.Prompt

open List Run

variable {i : Interpreter} {c : Context} {w w' : World} {tokens : List Token} {t : Token}
  {lines after : List (String × List Token)} {line last : String × List Token}

/-! ## Braces -/

theorem opened_append (first second : List Token) :
    opened (first ++ second) = opened first + opened second := by
  simp only [opened, filter_append, length_append]
  omega

theorem expand_of_mem (member : t ∈ tokens) (closes : t.kind = .rCurly) : expand tokens = tokens := by
  have kept : t ∈ tokens.filter (!·.isBlank) := mem_filter.mpr ⟨member, by simp [Token.isBlank, closes]⟩
  unfold expand
  split
  · rename_i u single
    rw [single, mem_singleton] at kept
    rw [← kept, closes]
    rfl
  · rfl

theorem exists_rCurly (tokens : List Token) (closing : opened tokens < 0) :
    ∃ t ∈ tokens, t.kind = .rCurly := by
  by_contra none
  have empty : tokens.filter (·.kind == .rCurly) = [] :=
    filter_eq_nil_iff.mpr fun t member closes => none ⟨t, member, eq_of_beq closes⟩
  rw [opened, empty, length_nil] at closing
  omega

def allTokens (lines : List (String × List Token)) : List Token := lines.flatMap (·.2)

/-- The lines without breaks between them. -/
def allText (lines : List (String × List Token)) : String :=
  lines.foldr (fun line rest => line.1 ++ rest) ""

/-- Whatever lines have been read, a scope is open. -/
def Unfinished (lines : List (String × List Token)) : Prop :=
  ∀ before, before ≠ [] → before <+: lines → 0 < opened (allTokens before)

theorem gather_cons (line : String × List Token) (lines : List (String × List Token)) :
    gather (line :: lines).reverse =
      (line.1 ++ (gather lines.reverse).1, expand (line.2 ++ (gather lines.reverse).2)) := by
  simp [gather]

theorem gather_end (unfinished : Unfinished lines) (balanced : opened (allTokens (lines ++ [last])) = 0)
    (before : List (String × List Token)) (some : before ≠ []) (whole : before ++ after = lines ++ [last]) :
    gather after.reverse = (allText after, allTokens after) := by
  induction after generalizing before with
  | nil => rfl
  | cons line after ih =>
    have rest := ih (before ++ [line]) (by simp) (by simpa using whole)
    have shorter : before <+: lines := by
      refine prefix_of_prefix_length_le ⟨_, whole⟩ (prefix_append _ _) ?_
      have := congrArg List.length whole
      simp only [length_append, length_cons, length_nil] at this
      omega
    have opens := unfinished before some shorter
    rw [← whole, allTokens, flatMap_append, opened_append] at balanced
    obtain ⟨t, member, closes⟩ := exists_rCurly (allTokens (line :: after)) (by
      unfold allTokens at opens ⊢
      omega)
    rw [gather_cons, rest, expand_of_mem (by simpa [allTokens] using member) closes]
    simp [allText, allTokens]

/-- The lines are a single one, and its only token besides blanks is a name. -/
def IsName (lines : List (String × List Token)) (t : Token) : Prop :=
  ∃ line, lines = [line] ∧ line.2.filter (!·.isBlank) = [t] ∧ t.kind = .name

/-- A single name is read as a statement that prints it, other lines as they are. -/
structure ReadAs (lines : List (String × List Token)) (input : List Token) : Prop where
  name : ∀ t, IsName lines t →
    input = [⟨.name, "print", -1, -1⟩, ⟨.whitespace, " ", -1, -1⟩, t, ⟨.bang, "!", -1, -1⟩]
  other : (∀ t, ¬IsName lines t) → input = allTokens lines

theorem expand_readAs (line : String × List Token) : ReadAs [line] (expand line.2) := by
  constructor
  · rintro t ⟨_, ⟨⟩, single, named⟩
    simp [expand, single, named]
  · intro other
    rw [expand, allTokens, flatMap_singleton]
    split
    · rename_i t single
      split
      · rename_i named
        exact absurd ⟨line, rfl, single, eq_of_beq named⟩ (other t)
      · rfl
    · rfl

theorem gather_input (unfinished : Unfinished lines) (balanced : opened (allTokens (lines ++ [last])) = 0) :
    ∃ input, ReadAs (lines ++ [last]) input ∧
      gather (last :: lines.reverse) = (allText (lines ++ [last]), input) := by
  cases lines with
  | nil => exact ⟨_, expand_readAs last, by simp [gather, allText]⟩
  | cons line lines =>
    have rest : gather (lines ++ [last]).reverse = _ :=
      gather_end unfinished balanced [line] (by simp) rfl
    have opens := unfinished [line] (by simp) ⟨lines, rfl⟩
    rw [cons_append, allTokens, flatMap_cons, opened_append] at balanced
    obtain ⟨t, member, closes⟩ := exists_rCurly (allTokens (lines ++ [last])) (by
      simp only [allTokens, flatMap_cons, flatMap_nil, append_nil] at opens ⊢
      omega)
    have reversed : last :: (line :: lines).reverse = (line :: (lines ++ [last])).reverse := by simp
    refine ⟨allTokens (line :: lines ++ [last]), ⟨?_, fun _ => rfl⟩, ?_⟩
    · rintro t ⟨_, single, -⟩
      simp at single
    · rw [reversed, gather_cons, rest, expand_of_mem (mem_append_right _ member) closes]
      simp [allText, allTokens]

/-! ## Reading -/

def showing (s : String) (w : World) : World := { w with output := w.output ++ s }

theorem enter_eq (read : Source.tokens ⟨file, line.1⟩ = .ok line.2) (pending : List (String × List Token))
    (layers : Int) : enter i ⟨c, pending, layers⟩ line.1 w =
      if layers + opened line.2 < 0 then .error (.report ⟨.tooManyClosingBraces, .nowhere⟩) w
      else if layers + opened line.2 = 0 then (do
        runInput i c (gather (line :: pending)).1 (gather (line :: pending)).2
        return (⟨c, [], 0⟩ : Prompt)) (showing (kickBack layers line.1) w)
      else .ok ⟨c, line :: pending, layers + opened line.2⟩ (showing (kickBack layers line.1) w) := by
  refine (bind_ok (ofExcept_ok read)).trans ?_
  split
  · rfl
  · split
    · rfl
    · rfl

theorem feedAll_open (typed : ∀ line ∈ lines, Source.tokens ⟨file, line.1⟩ = .ok line.2)
    (before : List (String × List Token)) (unfinished : Unfinished (before ++ lines)) :
    ∃ pages output, ∀ rest,
      feedAll i ⟨c, before.reverse, opened (allTokens before)⟩ (lines.map (.line ·.1) ++ rest) w =
        feedAll i ⟨c, (before ++ lines).reverse, opened (allTokens (before ++ lines))⟩ rest
          { w with pages, output } := by
  induction lines generalizing before w with
  | nil => exact ⟨w.pages, w.output, fun rest => by simp⟩
  | cons line lines ih =>
    rw [forall_mem_cons] at typed
    have opens := unfinished (before ++ [line]) (by simp) ⟨lines, by simp⟩
    have total : opened (allTokens (before ++ [line])) = opened (allTokens before) + opened line.2 := by
      simp [allTokens, opened_append]
    obtain ⟨pages, output, fed⟩ : ∃ pages output,
        feed i ⟨c, before.reverse, opened (allTokens before)⟩ (.line line.1) w =
          .ok ⟨c, (before ++ [line]).reverse, opened (allTokens (before ++ [line]))⟩
            { w with pages, output } := by
      have entered := enter_eq (i := i) (c := c) (w := w) typed.1 before.reverse
        (opened (allTokens before))
      rw [if_neg (by omega), if_neg (by omega), ← total] at entered
      exact ⟨_, _, (bind_ok (tryCatch_ok entered)).trans (by simp; rfl)⟩
    obtain ⟨pages, output, goesOn⟩ := ih typed.2 (before ++ [line]) (by simpa using unfinished)
    refine ⟨pages, output, fun rest => (bind_ok fed).trans ?_⟩
    simpa using goesOn rest

/-- Lines are read for one input as long as they leave scopes open. The first line that leaves none open
ends it, and all the lines are run; one that closes more scopes than there are is an error. -/
theorem input_ends_when_balanced
    (typed : ∀ line ∈ lines ++ [last], Source.tokens ⟨file, line.1⟩ = .ok line.2)
    (unfinished : Unfinished lines) :
    ∃ pages output, let w' := { w with pages, output }
      let p : Prompt := ⟨c, lines.reverse, opened (allTokens lines)⟩
      let total := opened (allTokens (lines ++ [last]))
      (∀ rest, feedAll i ⟨c, [], 0⟩ (lines.map (.line ·.1) ++ .line last.1 :: rest) w =
        feedAll i p (.line last.1 :: rest) w') ∧
      (total < 0 → enter i p last.1 w' = .error (.report ⟨.tooManyClosingBraces, .nowhere⟩) w') ∧
      (0 < total → enter i p last.1 w' =
        .ok ⟨c, (lines ++ [last]).reverse, total⟩ (showing (kickBack p.layers last.1) w')) ∧
      (total = 0 → ∃ input, ReadAs (lines ++ [last]) input ∧ enter i p last.1 w' = (do
        runInput i c (allText (lines ++ [last])) input
        return (⟨c, [], 0⟩ : Prompt)) (showing (kickBack p.layers last.1) w')) := by
  rw [forall_mem_append] at typed
  obtain ⟨pages, output, goesOn⟩ := feedAll_open (i := i) (c := c) (w := w) typed.1 [] unfinished
  have entered := enter_eq (i := i) (c := c) (w := { w with pages, output }) (typed.2 last mem_cons_self)
    lines.reverse (opened (allTokens lines))
  have total : opened (allTokens lines) + opened last.2 = opened (allTokens (lines ++ [last])) := by
    simp [allTokens, opened_append]
  rw [total] at entered
  refine ⟨pages, output, fun rest => goesOn (.line last.1 :: rest), ?_, ?_, ?_⟩
  · intro negative
    rw [entered, if_pos negative]
  · intro positive
    rw [entered, if_neg (by omega), if_neg (by omega), reverse_append]
    rfl
  · intro balanced
    obtain ⟨input, readAs, gathered⟩ := gather_input unfinished balanced
    rw [if_neg (by omega), if_pos balanced, gathered] at entered
    exact ⟨input, readAs, entered⟩

def nameLine : String × List Token := ("x", [⟨.name, "x", 1, 0⟩, ⟨.whitespace, "   ", 1, 3⟩])

/-- A line with a name and nothing else is a whole input, and the name is printed. -/
theorem input_ends_when_balanced_name :
    ∃ pages output,
      enter (interpreter 0) ⟨default, [], 0⟩ "x" { (default : World) with pages, output } = (do
        runInput (interpreter 0) default "x" [⟨.name, "print", -1, -1⟩, ⟨.whitespace, " ", -1, -1⟩,
          ⟨.name, "x", 1, 0⟩, ⟨.bang, "!", -1, -1⟩]
        return (⟨default, [], 0⟩ : Prompt)) (showing "" { (default : World) with pages, output }) := by
  have done (n : Nat) : Lexer.scan 1 n [] = .ok [] := by rw [Lexer.scan]
  have scanned : Lexer.scan 1 0 ['x', ' ', ' ', ' '] = _ := scan_step rfl (scan_step rfl (done _))
  have typed : ∀ line ∈ [] ++ [nameLine], Source.tokens ⟨file, line.1⟩ = .ok line.2 := fun _ member =>
    mem_singleton.mp member ▸ Source.tokens_of_scan scanned
  obtain ⟨pages, output, -, -, -, ends⟩ := input_ends_when_balanced (i := interpreter 0) (c := default)
    (w := default) typed fun _ some shorter => absurd (prefix_nil.mp shorter) some
  obtain ⟨input, readAs, entered⟩ := ends (by decide)
  obtain rfl := readAs.name ⟨.name, "x", 1, 0⟩ ⟨nameLine, rfl, rfl, rfl⟩
  exact ⟨pages, output, entered⟩

end DreamBerd.Prompt
