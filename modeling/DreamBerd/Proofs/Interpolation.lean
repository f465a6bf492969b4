import DreamBerd.Proofs.Worlds
import Mathlib

/-!
# Expressions in texts

A text may hold expressions in braces behind a symbol. The positions of the symbols are found in the text
as it is written, and the expressions are replaced when all of them have been evaluated. The last one is
replaced first, so that no replacement moves what is still to be replaced: by `Run.interpolate_written`
every expression is evaluated once, in order, and gives way to the text of its value.
-/

namespace DreamBerd

open List

/-! ## Braces -/

def leftCurly : Char := Char.ofNat 123

def rightCurly : Char := Char.ofNat 125

/-- A text closes `depth` braces more than it opens, and never more than that. -/
structure Closes (depth : Nat) (cs : List Char) : Prop where
  within : ∀ front, front <+: cs → front.count rightCurly ≤ depth + front.count leftCurly
  all : cs.count rightCurly = depth + cs.count leftCurly

variable {depth : Nat} {c : Char} {cs rest : List Char}

theorem Closes.tail (closes : Closes depth (c :: cs)) (depth' : Nat)
    (moved : (depth' + if c = rightCurly then 1 else 0) = depth + if c = leftCurly then 1 else 0) :
    Closes depth' cs := by
  constructor
  · intro front isFront
    have bound := closes.within (c :: front) ((prefix_cons_inj c).mpr isFront)
    simp only [count_cons, beq_iff_eq] at bound
    omega
  · have total := closes.all
    simp only [count_cons, beq_iff_eq] at total
    omega

theorem closingBrace?_cons (depth : Nat) (c : Char) (cs : List Char) :
    closingBrace? (depth + 1) (c :: cs) =
      if c = leftCurly then (closingBrace? (depth + 1 + 1) cs).map (· + 1)
      else if c = rightCurly then
        if depth = 0 then some 0 else (closingBrace? depth cs).map (· + 1)
      else (closingBrace? (depth + 1) cs).map (· + 1) := by
  grind [closingBrace?, leftCurly, rightCurly]

theorem Closes.closingBrace?_append (closes : Closes depth cs) :
    closingBrace? (depth + 1) (cs ++ rightCurly :: rest) = some cs.length := by
  induction cs generalizing depth with
  | nil =>
    obtain rfl : 0 = depth := closes.all
    rfl
  | cons c cs ih =>
    rw [cons_append, closingBrace?_cons, length_cons]
    by_cases left : c = leftCurly
    · have apart : c ≠ rightCurly := by
        rw [left]
        decide
      have tail := closes.tail (depth + 1) (by rw [if_pos left, if_neg apart])
      rw [if_pos left, ih tail, Option.map_some]
    · rw [if_neg left]
      by_cases right : c = rightCurly
      · have first := closes.within [c] (prefix_append [c] cs)
        simp only [right] at first
        obtain ⟨depth, rfl⟩ : ∃ outer, depth = outer + 1 := by
          refine Nat.exists_eq_add_of_le' (first.trans ?_)
          rfl
        have tail := closes.tail depth (by rw [if_pos right, if_neg left])
        rw [if_pos right, if_neg (Nat.succ_ne_zero depth), ih tail, Option.map_some]
      · have tail := closes.tail depth (by rw [if_neg right, if_neg left])
        rw [if_neg right, ih tail, Option.map_some]

/-! ## Positions -/

theorem symbolPositions_cons (symbol c : Char) (cs : List Char) :
    symbolPositions [symbol] (c :: cs) =
      (if c = symbol ∧ cs ≠ [] then [0] else []) ++ (symbolPositions [symbol] cs).map (· + 1) := by
  cases cs with
  | nil => simp [symbolPositions]
  | cons d cs =>
    simp only [symbolPositions, startsWith, length_cons, length_nil, Nat.add_sub_cancel,
      range_succ_eq_map, filter_cons, filter_map]
    split <;> simp_all [Function.comp_def]

theorem symbolPositions_append {symbol : Char} (absent : symbol ∉ cs) :
    symbolPositions [symbol] (cs ++ rest) =
      (symbolPositions [symbol] rest).map (cs.length + ·) := by
  induction cs with
  | nil => simp
  | cons c cs ih =>
    obtain ⟨other, absent⟩ := ne_and_not_mem_of_not_mem_cons absent
    rw [cons_append, symbolPositions_cons, if_neg fun here => other here.1.symm, ih absent,
      map_map]
    exact map_congr_left fun n _ => (Nat.succ_add cs.length n).symm

/-! ## Templates -/

/-- A text with expressions in it: what stands before the first one, and each expression with what stands
behind it. -/
structure Template where
  start : List Char
  parts : List (List Char × List Char)

namespace Template

def group (e : List Char) : List Char := '$' :: leftCurly :: e ++ [rightCurly]

/-- The expressions with what stands behind them, as they are written. -/
def partsWritten : List (List Char × List Char) → List Char
  | [] => []
  | (e, l) :: parts => group e ++ l ++ partsWritten parts

def written (t : Template) : List Char := t.start ++ partsWritten t.parts

/-- What stands behind the expressions, each time behind a text in place of the expression. -/
def partsFilled : List (List Char × List Char) → List String → List Char
  | (_, l) :: parts, s :: texts => s.toList ++ l ++ partsFilled parts texts
  | _, _ => []

def filled (t : Template) (texts : List String) : List Char := t.start ++ partsFilled t.parts texts

def expressions (t : Template) : List (List Char) := t.parts.map (·.1)

/-- The symbol stands before expressions only, and these are balanced in braces. -/
structure Proper (t : Template) : Prop where
  start : '$' ∉ t.start
  expression : ∀ p ∈ t.parts, '$' ∉ p.1 ∧ Closes 0 p.1
  behind : ∀ p ∈ t.parts, '$' ∉ p.2

variable {done e l : List Char} {parts : List (List Char × List Char)} {texts : List String} {s : String}

theorem length_group (e : List Char) : (group e).length = e.length + 3 := by
  simp [group]

theorem symbolPositions_group (absent : '$' ∉ e) :
    symbolPositions ['$'] (group e ++ rest) =
      0 :: (symbolPositions ['$'] rest).map ((group e).length + ·) := by
  have inside : '$' ∉ leftCurly :: e ++ [rightCurly] := by
    simp [absent, leftCurly, rightCurly]
  rw [group, cons_append, cons_append, symbolPositions_cons, if_pos (by simp),
    ← cons_append, symbolPositions_append inside, map_map, singleton_append]
  exact congrArg _ (map_congr_left fun n _ => (Nat.succ_add _ n).symm)

/-- What takes the place of the expressions of a text whose first one stands at position `n`. -/
def replacements (n : Nat) : List (List Char × List Char) → List String → List Replacement
  | (e, l) :: parts, s :: texts =>
    ⟨n, n + (group e).length, s⟩ :: replacements (n + (group e ++ l).length) parts texts
  | _, _ => []

theorem replaceAll_cons (r : Replacement) (rs : List Replacement) (cs : List Char) :
    replaceAll cs (r :: rs) =
      (replaceAll cs rs).take r.start ++ r.text.toList ++ (replaceAll cs rs).drop r.stop := rfl

theorem replaceAll_replacements (done : List Char) (long : texts.length = parts.length) :
    replaceAll (done ++ partsWritten parts) (replacements done.length parts texts) =
      done ++ partsFilled parts texts := by
  induction parts generalizing done texts with
  | nil =>
    rfl
  | cons p parts ih =>
    obtain ⟨e, l⟩ := p
    obtain ⟨s, texts, rfl⟩ := exists_cons_of_length_eq_add_one long
    have rest := ih (done ++ (group e ++ l)) (Nat.succ.inj long)
    rw [length_append, append_assoc] at rest
    rw [partsWritten, replacements, replaceAll_cons, rest, partsFilled, append_assoc done,
      take_left, ← length_append, append_assoc (group e), ← append_assoc done,
      drop_left]
    simp only [append_assoc]

end Template

namespace Run

open Template

variable {i : Interpreter} {c : Context} {e done : List Char} {parts : List (List Char × List Char)}

theorem interpolated?_group (closes : Closes 0 e) (done rest : List Char) :
    interpolated? i c ['$'] (done ++ (group e ++ rest)) done.length = (do
      let text ← expressionText i c e
      return some ⟨done.length, done.length + (group e).length, text⟩) := by
  have behind : (done ++ (group e ++ rest)).drop (done.length + ['$'].length) =
      leftCurly :: (e ++ rightCurly :: rest) := by
    simp [group]
  have opens : ¬(leftCurly != Char.ofNat 123) = true := by decide
  unfold interpolated? expressionText
  rw [behind]
  dsimp only
  rw [if_neg opens, closes.closingBrace?_append, length_group]
  have stop : done.length + ['$'].length + e.length + 2 = done.length + (e.length + 3) := by
    rw [length_singleton]
    omega
  simp only [take_left, bind_assoc, stop]

theorem length_of_mapM {f : α → Run β} {xs : List α} {ys : List β}
    (done : xs.mapM f w = .ok ys w') : ys.length = xs.length := by
  induction xs generalizing ys w with
  | nil =>
    cases done
    rfl
  | cons x xs ih =>
    rw [mapM_cons] at done
    obtain ⟨y, v, -, rest⟩ := bind_eq_ok done
    obtain ⟨zs, v', others, whole⟩ := bind_eq_ok rest
    cases whole
    exact congrArg Nat.succ (ih others)

theorem mapM_interpolated? (done : List Char) (proper : ∀ p ∈ parts, '$' ∉ p.1 ∧ Closes 0 p.1)
    (behind : ∀ p ∈ parts, '$' ∉ p.2) :
    ((symbolPositions ['$'] (partsWritten parts)).map (done.length + ·)).mapM
        (interpolated? i c ['$'] (done ++ partsWritten parts)) = (do
      let texts ← (parts.map (·.1)).mapM (expressionText i c)
      return (replacements done.length parts texts).map some) := by
  induction parts generalizing done with
  | nil => simp [symbolPositions, partsWritten, replacements]
  | cons p parts ih =>
    obtain ⟨e, l⟩ := p
    rw [forall_mem_cons] at proper behind
    have rest := ih (done ++ (group e ++ l)) proper.2 behind.2
    simp only [append_assoc, length_append, Nat.add_assoc] at rest
    rw [partsWritten, append_assoc (group e), symbolPositions_group proper.1.1,
      symbolPositions_append behind.1, map_cons, mapM_cons, Nat.add_zero,
      interpolated?_group proper.1.2]
    simp only [map_map, Function.comp_def, rest, map_cons, mapM_cons, bind_assoc, pure_bind,
      replacements, length_append]

/-- A text with expressions in it is evaluated to what it is with the text of its value in place of each
of them, whatever these texts are. The expressions are evaluated one after the other, each in the world
that the one before has left. -/
theorem interpolate_written (i : Interpreter) (c : Context) {t : Template} (proper : t.Proper)
    {w w' : World} (symbol : w.around.currency.getD "$" = "$") {texts : List String}
    (evaluated : t.expressions.mapM (expressionText i c) w = .ok texts w') :
    interpolate i c (String.ofList t.written) w = .ok (String.ofList (t.filled texts)) w' := by
  have long : texts.length = t.parts.length := (length_of_mapM evaluated).trans (length_map _)
  have positions : symbolPositions ['$'] t.written =
      (symbolPositions ['$'] (partsWritten t.parts)).map (t.start.length + ·) :=
    symbolPositions_append proper.start
  have found : (symbolPositions ['$'] t.written).mapM (interpolated? i c ['$'] t.written) w =
      .ok ((replacements t.start.length t.parts texts).map some) w' := by
    rw [positions, Template.written, mapM_interpolated? _ proper.expression proper.behind]
    exact bind_ok evaluated
  have text : replaceAll t.written (((replacements t.start.length t.parts texts).map some).filterMap id) =
      t.filled texts := by
    rw [filterMap_map, Function.id_comp, filterMap_some]
    exact replaceAll_replacements t.start long
  unfold interpolate
  refine (bind_ok rfl).trans ?_
  simp only [symbol, String.toList_ofList]
  split
  · rename_i empty
    have nowhere : symbolPositions ['$'] t.written = [] := isEmpty_iff.mp empty
    rw [nowhere] at found
    injection found with none unchanged
    rw [← none] at text
    rw [← text, ← unchanged]
    rfl
  · apply tryCatch_ok
    refine (bind_ok found).trans ?_
    rw [text]
    rfl

/-- A world with a name for a text that looks like the end of an expression. -/
def fillWorld : World :=
  { (default : World) with
    store := { Store.empty with
      values := #[.string (.ofText "$\x7d") ⟨1⟩]
      scopes := #[⟨[("x", .named "x" ⟨0⟩)]⟩, .empty] } }

/-- A text with braces outside of its expressions and inside of one of them. -/
def fillTemplate : Template :=
  ⟨['a', rightCurly], [(['x'], [leftCurly]), (['"', leftCurly, rightCurly, '"'], ['!'])]⟩

theorem fillTemplate_proper : fillTemplate.Proper := by
  have name : Closes 0 ['x'] := by
    refine ⟨fun front isFront => ?_, by decide⟩
    simp only [prefix_cons_iff, prefix_nil] at isFront
    rcases isFront with rfl | ⟨_, rfl, rfl⟩ <;> decide
  have quoted : Closes 0 ['"', leftCurly, rightCurly, '"'] := by
    refine ⟨fun front isFront => ?_, by decide⟩
    simp only [prefix_cons_iff, prefix_nil] at isFront
    rcases isFront with rfl | ⟨_, rfl, rfl | ⟨_, rfl, rfl | ⟨_, rfl, rfl | ⟨_, rfl, rfl⟩⟩⟩⟩ <;> decide
  refine ⟨by decide, ?_, ?_⟩
  · simp only [fillTemplate, forall_mem_cons]
    exact ⟨⟨by decide, name⟩, ⟨by decide, quoted⟩, by simp⟩
  · simp only [fillTemplate, forall_mem_cons]
    exact ⟨by decide, by decide, by simp⟩

theorem interpolate_written_braces : fillTemplate.Proper ∧ ∃ w',
    fillTemplate.expressions.mapM (expressionText (interpreter 1) ⟨[⟨0⟩], ⟨0⟩, []⟩) fillWorld =
      .ok ["$\x7d", "\x7b\x7d"] w' ∧
    interpolate (interpreter 1) ⟨[⟨0⟩], ⟨0⟩, []⟩ (String.ofList fillTemplate.written) fillWorld =
      .ok (String.ofList (fillTemplate.filled ["$\x7d", "\x7b\x7d"])) w' := by
  have evaluated : ∃ w', fillTemplate.expressions.mapM
      (expressionText (interpreter 1) ⟨[⟨0⟩], ⟨0⟩, []⟩) fillWorld = .ok ["$\x7d", "\x7b\x7d"] w' :=
    ⟨_, by cbv⟩
  obtain ⟨w', evaluated⟩ := evaluated
  exact ⟨fillTemplate_proper, w', evaluated,
    interpolate_written (interpreter 1) _ fillTemplate_proper rfl evaluated⟩

end Run

end DreamBerd
