import DreamBerd.Proofs.LeadingBlanks
import Mathlib

/-!
# The arguments of a call

A call with more than one argument is written with the same number of blanks after its name and after the
commas between its arguments; the operators of an argument, outside brackets, are narrower. The search for
the widest operator passes over the arguments (`IsArgument.passes`) and finds one of these commas.

The search for all the commas of the call does not look at brackets. So the call has its arguments exactly
if no comma inside brackets has as many blanks after it as the call (`ofTokens_callTokens`); each one that
has makes one more argument.
-/

namespace DreamBerd

open List Token

open DreamBerd.Expr Lexer

variable {k : Nat} {ts : List Token} {op : Operator} {src : Source} {e : Expr}

namespace Layout

variable {n : Nat} {t o : Token} {w : Word} {best : Option Widest}

/-! ## Names, operators and blanks -/

theorem operator?_eq_none {c : Char} {cs : List Char} (text : t.text = String.ofList (c :: cs))
    (noMark : c ∉ marks) : t.operator? = none := by
  unfold operator? Operator.ofSymbol?
  rw [find?_eq_none]
  intro op _ spelled
  have same : op.symbol = t.text := by simpa using spelled
  have chars : op.symbol.toList = c :: cs := by rw [same, text, String.toList_ofList]
  apply noMark
  cases op <;> (injection chars with head _; rw [← head]; decide)

theorem not_mem_marks_of_opensName {c : Char} (opens : opensName c = true) : c ∉ marks := by
  simp only [opensName, Bool.not_eq_true', Bool.or_eq_false_iff] at opens
  simpa using opens.2

theorem IsName.operator?_eq_none (named : IsName w t) : t.operator? = none :=
  Layout.operator?_eq_none named.2 (not_mem_marks_of_opensName w.opens)

theorem IsOperator.operator?_eq (isOperator : IsOperator op t) : t.operator? = some op := by
  unfold operator?
  rw [isOperator.2]
  cases op <;> rfl

theorem text_ne_of_operator? (plain : t.operator? = none) : t.text ≠ "," := by
  intro comma
  rw [operator?, comma] at plain
  cases plain

def IsBlank (n : Nat) (t : Token) : Prop :=
  0 < n ∧ t.kind = .whitespace ∧ t.text = String.ofList (gap n)

theorem IsBlank.operator?_eq_none (blank : IsBlank n t) : t.operator? = none := by
  obtain ⟨positive, -, text⟩ := blank
  cases n with
  | zero => cases positive
  | succ n => exact Layout.operator?_eq_none text (by decide)

theorem IsBlank.width_eq (blank : IsBlank n t) : t.width = n := by
  unfold width
  rw [blank.2.2, String.length_ofList, gap, length_replicate]

theorem IsBlank.isBlank (blank : IsBlank n t) : t.isBlank = true := by
  unfold Token.isBlank
  rw [blank.2.1]
  rfl

theorem IsBlank.blankWidth_eq (blank : IsBlank n t) : blankWidth t = n := by
  rw [blankWidth, if_pos blank.isBlank, blank.width_eq]

theorem Gap.eq_nil_or_blank (between : Gap n ts) : n = 0 ∧ ts = [] ∨ ∃ t, IsBlank n t ∧ ts = [t] := by
  cases between with
  | nothing => exact Or.inl ⟨rfl, rfl⟩
  | blank kind text => exact Or.inr ⟨_, ⟨Nat.succ_pos _, kind, text⟩, rfl⟩

theorem Gap.exists_blank (between : Gap n ts) (wide : 0 < n) : ∃ t, IsBlank n t ∧ ts = [t] := by
  rcases between.eq_nil_or_blank with ⟨rfl, -⟩ | some
  · cases wide
  · exact some

inductive Piece (n : Nat) (t : Token) : Prop
  | name (w : Word) : IsName w t → Piece n t
  | operator (op : Operator) : IsOperator op t → Piece n t
  | blank (k : Nat) : k < n → IsBlank k t → Piece n t

theorem Piece.depthStep_eq (piece : Piece n t) : depthStep t = 0 := by
  unfold depthStep
  cases piece with
  | name w named => rw [named.1]; rfl
  | operator op isOperator => rw [isOperator.1]; cases op <;> rfl
  | blank k _ blank => rw [blank.2.1]; rfl

theorem Piece.not_refused (piece : Piece n t) :
    (t.isBlank && t.text.toList.contains '\t') = false ∧ t.is .newline = false := by
  cases piece with
  | name w named =>
    have kind := named.1
    simp [isBlank, is, kind]
  | operator op isOperator =>
    have kind := isOperator.1
    cases op <;> simp [isBlank, is, kind, operatorKind]
  | blank k _ blank =>
    obtain ⟨-, kind, text⟩ := blank
    refine ⟨?_, by simp [is, kind]⟩
    rw [text, gap]
    simp

theorem Piece.width_lt (piece : Piece n t) (isBlank : t.isBlank = true) : t.width < n := by
  cases piece with
  | name w named => simp [Token.isBlank, named.1] at isBlank
  | operator op isOperator =>
    have kind := isOperator.1
    cases op <;> simp [Token.isBlank, kind, operatorKind] at isBlank
  | blank k narrow blank => rw [blank.width_eq]; exact narrow

theorem Gap.pieces (between : Gap k ts) (narrow : k < n) : ∀ t ∈ ts, Piece n t := by
  intro t member
  rcases between.eq_nil_or_blank with ⟨-, rfl⟩ | ⟨b, blank, rfl⟩
  · cases member
  · rw [mem_singleton.mp member]
    exact .blank k narrow blank

theorem checkBlanks_pieces (pieces : ∀ t ∈ ts, ∃ n, Piece n t) : checkBlanks src ts = .ok () :=
  checkBlanks_eq_ok_iff.mpr fun t member => (pieces t member).elim fun _ piece => piece.not_refused

/-- What ends and starts the tokens of a layout. -/
def IsWord (t : Token) : Prop := ∃ w, IsName w t

theorem IsWord.kind (word : IsWord t) : t.kind = .name := word.elim fun _ named => named.1

theorem IsWord.isBlank (word : IsWord t) : t.isBlank = false := by
  rw [Token.isBlank, word.kind]
  rfl

theorem IsWord.operator?_eq_none (word : IsWord t) : t.operator? = none :=
  word.elim fun _ named => named.operator?_eq_none

theorem IsWord.piece (word : IsWord t) : Piece n t := word.elim .name

/-! ## The search for the widest operator -/

variable (src)

theorem widestFrom_operator (i : Nat) (best : Option Widest) (before next : Token) (ts : List Token)
    (isOperator : IsOperator op o) (even : op = .comma ∨ blankWidth before = blankWidth next)
    (noSign : op = .sub → before.isBlank = next.isBlank) :
    widestFrom src (some before) 0 i best (o :: next :: ts) =
      widestFrom src (some o) 0 (i + 1) (wider best ⟨blankWidth next, i, op, o⟩)
        (next :: ts) := by
  have noDepth : depthStep o = 0 := (Piece.operator (n := 0) op isOperator).depthStep_eq
  have noMinus : ¬(before.isBlank && !next.isBlank && op == .sub) = true := by
    intro sign
    simp only [Bool.and_eq_true, beq_iff_eq] at sign
    rw [noSign sign.2] at sign
    simp at sign
  have noError : ¬(blankWidth before ≠ blankWidth next ∧ op ≠ .comma) := by
    rintro ⟨uneven, noComma⟩
    exact even.elim noComma uneven
  have found : weigh src (some before) (0 + depthStep o) o (some next) =
      .ok (some (blankWidth next, op)) := by
    simp only [weigh, noDepth, isOperator.operator?_eq, if_neg noMinus, if_neg noError]
    rfl
  rw [widestFrom_cons, head?_cons, found, noDepth]
  rfl

/-- All that has been found is narrower than `n`. -/
def Narrow (n : Nat) (best : Option Widest) : Prop := ∀ b, best = some b → b.width < n

theorem Narrow.none (n : Nat) : Narrow n none := by
  intro b found
  cases found

/-- How operators narrower than `n` change the best one: it stays narrower than `n`, and stays what it
is if it is as wide as `n`. -/
def Settles (n : Nat) (best best' : Option Widest) : Prop :=
  (Narrow n best → Narrow n best') ∧ ∀ b, best = some b → n ≤ b.width → best' = some b

theorem Settles.refl (n : Nat) (best : Option Widest) : Settles n best best :=
  ⟨fun narrow => narrow, fun _ found _ => found⟩

theorem Settles.trans {best best' best'' : Option Widest} (first : Settles n best best')
    (second : Settles n best' best'') : Settles n best best'' :=
  ⟨fun narrow => second.1 (first.1 narrow),
    fun b found wide => second.2 b (first.2 b found wide) wide⟩

theorem Settles.wider (best : Option Widest) {w : Widest} (narrow : w.width < n) :
    Settles n best (wider best w) := by
  constructor
  · intro narrowBest b found
    cases best with
    | none => cases found; exact narrow
    | some b' =>
      unfold Layout.wider at found
      dsimp only at found
      split at found
      · cases found; exact narrow
      · cases found; exact narrowBest _ rfl
  · rintro b rfl wide
    exact if_neg (by omega)

theorem wider_eq {w : Widest} (bounded : ∀ b, best = some b → b.width ≤ w.width) :
    wider best w = some w := by
  cases best with
  | none => rfl
  | some b => exact if_pos (bounded b rfl)

end Layout

namespace Expr

open Layout

variable {f c t previous : Token} {commas : List Token} {depth : Int} {n i j : Nat}
  {b w best : Option Widest} {parts : List (List Token)}

/-! ## The operators of an argument -/

/-- How many more brackets are opened than closed. -/
def level (ts : List Token) : Int := (ts.map depthStep).sum

theorem level_cons (t : Token) (ts : List Token) : level (t :: ts) = depthStep t + level ts := by
  rw [level, map_cons, sum_cons, level]

def narrowOutside (n : Nat) (depth : Int) : List Token → Bool
  | [] => true
  | t :: ts =>
    (t.operator?.isNone || depth + depthStep t != 0 || ts.head?.all (blankWidth · < n)) &&
      narrowOutside n (depth + depthStep t) ts

theorem narrowOutside_cons : narrowOutside n depth (t :: ts) = true ↔
    (t.operator? ≠ none → depth + depthStep t = 0 → ∀ next, ts.head? = some next → blankWidth next < n) ∧
      narrowOutside n (depth + depthStep t) ts = true := by
  rw [narrowOutside]
  cases t.operator? <;> cases ts.head? <;> simp [or_iff_not_imp_left]

theorem weigh_eq_ok_some {previous next : Option Token}
    (found : weigh src previous depth t next = .ok (some (k, op))) :
    t.operator? ≠ none ∧ depth = 0 ∧ ∃ y, next = some y ∧ k = blankWidth y := by
  unfold weigh at found
  split at found
  · rename_i before op' spells
    split at found
    · cases found
    · rename_i outside
      split at found
      · cases found
      · rename_i y
        split at found
        · cases found
        · split at found
          · cases found
          · cases found
            rw [spells]
            exact ⟨Option.some_ne_none _, not_not.mp outside, y, rfl, rfl⟩
  · cases found

theorem weigh_of_last {found : Option (Nat × Operator)}
    (last : weigh src (some previous) depth t none = .ok found) :
    (depth = 0 → t.operator? = none) ∧ ∀ next, weigh src (some previous) depth t next = .ok found := by
  cases spells : t.operator? with
  | none =>
    rw [weigh_of_operator?_eq_none spells] at last
    cases last
    exact ⟨fun _ => rfl, fun next => weigh_of_operator?_eq_none spells⟩
  | some op =>
    unfold weigh at last ⊢
    simp only [spells] at last ⊢
    split at last
    · rename_i deep
      exact ⟨fun outside => absurd outside deep, fun next => (if_pos deep).trans last⟩
    · cases last

/-- How the search passes over tokens that it can also pass over alone, wherever they stand. -/
theorem widestFrom_append (alone : widestFrom src (some previous) depth j b ts = .ok w)
    (narrow : narrowOutside n depth ts = true) (i : Nat) (best : Option Widest) (rest : List Token) :
    ∃ best', Settles n best best' ∧
      widestFrom src (some previous) depth i best (ts ++ rest) =
        widestFrom src (some (ts.getLast?.getD previous)) (depth + level ts) (i + ts.length) best' rest := by
  induction ts generalizing previous depth j b i best with
  | nil => exact ⟨best, .refl n best, by simp [level]⟩
  | cons t ts ih =>
    rw [widestFrom_cons] at alone
    cases found : weigh src (some previous) (depth + depthStep t) t ts.head? with
    | error f =>
      rw [found] at alone
      cases alone
    | ok op =>
      rw [found] at alone
      have found' : weigh src (some previous) (depth + depthStep t) t (ts ++ rest).head? = .ok op := by
        cases ts with
        | nil => exact (weigh_of_last found).2 _
        | cons next ts => exact found
      have settles : Settles n best (better best i t op) := by
        rcases op with _ | ⟨k, op⟩
        · exact .refl n best
        · obtain ⟨operator, outside, next, here, rfl⟩ := weigh_eq_ok_some found
          exact .wider best ((narrowOutside_cons.mp narrow).1 operator outside next here)
      obtain ⟨best', settles', passes⟩ :=
        ih alone (narrowOutside_cons.mp narrow).2 (i + 1) (better best i t op)
      refine ⟨best', settles.trans settles', ?_⟩
      rw [cons_append, widestFrom_cons, found', level_cons, length_cons, getLast?_cons,
        Option.getD_some]
      refine passes.trans ?_
      rw [Int.add_assoc, Nat.add_assoc, Nat.add_comm 1]

theorem operator?_of_last (alone : widestFrom src (some previous) depth j b (ts ++ [z]) = .ok w)
    (outside : depth + level (ts ++ [z]) = 0) : z.operator? = none := by
  induction ts generalizing previous depth j b with
  | nil =>
    rw [nil_append, widestFrom_cons] at alone
    cases found : weigh src (some previous) (depth + depthStep z) z none with
    | error f =>
      rw [head?_nil, found] at alone
      cases alone
    | ok op => exact (weigh_of_last found).1 (by simpa [level] using outside)
  | cons t ts ih =>
    rw [cons_append, widestFrom_cons] at alone
    rw [cons_append, level_cons, ← Int.add_assoc] at outside
    cases found : weigh src (some previous) (depth + depthStep t) t (ts ++ [z]).head? with
    | error f =>
      rw [found] at alone
      cases alone
    | ok op =>
      rw [found] at alone
      exact ih alone outside

theorem widestFrom_of_plain {previous : Option Token} {i : Nat} {best : Option Widest}
    (plain : ∀ t ∈ ts, t.operator? = none) : widestFrom src previous depth i best ts = .ok best := by
  induction ts generalizing previous depth i with
  | nil => rfl
  | cons t ts ih =>
    rw [widestFrom_cons, weigh_of_operator?_eq_none (plain t mem_cons_self)]
    exact ih (forall_mem_cons.mp plain).2

/-- The tokens of an argument of a call that is written with `n` blanks. Brackets are balanced, the
operators outside them are narrower than `n`, there are no tabs and line breaks, and neither a blank nor a
bracket spells an operator. -/
structure IsArgument (src : Source) (n : Nat) (ts : List Token) (e : Expr) : Prop where
  starts : StartsValue ts
  balanced : level ts = 0
  narrow : narrowOutside n 0 ts = true
  unbroken : checkBlanks src ts = .ok ()
  plain : ∀ t ∈ ts, t.isBlank = true ∨ t.isBracket = true → t.operator? = none
  read : ofTokens src ts = .ok e

namespace IsArgument

theorem widest_eq_ok (arg : IsArgument src n ts e) : ∃ w, widest src ts = .ok w := by
  obtain ⟨s, es, splits, -, -⟩ := ofTokens_eq_ok_iff.mp arg.read
  obtain ⟨x, more, rfl, kind, -⟩ := arg.starts
  obtain ⟨filled, unsigned, -⟩ := of_value_kind kind
  have lead : leading (x :: more) = 0 := by simp [leading, filled]
  rw [split_eq (by simp [filled]) (by rw [lead]; rfl) unsigned] at splits
  cases checked : checkBlanks src (x :: more).tail.dropLast with
  | error f =>
    rw [checked] at splits
    cases splits
  | ok _ =>
    rw [checked] at splits
    split at splits
    · -- There are only brackets and blanks, so there is no operator.
      rename_i brackets
      refine ⟨none, widestFrom_of_plain fun t member => arg.plain t member ?_⟩
      cases blank : t.isBlank with
      | true => exact .inl rfl
      | false =>
        have among : t.kind ∈ (solid (x :: more)).map Token.kind :=
          mem_map_of_mem (mem_filter.mpr ⟨member, by simp [blank]⟩)
        rw [brackets] at among
        exact .inr (isBracket_of_kind (mem_pair.mp among))
    · cases found : widest src (x :: more) with
      | error f =>
        rw [found] at splits
        cases splits
      | ok w => exact ⟨w, rfl⟩

theorem exists_alone (arg : IsArgument src n ts e) : ∃ x more w, ts = x :: more ∧
    x.operator? = none ∧ widestFrom src (some x) (depthStep x) 1 none more = .ok w := by
  obtain ⟨w, found⟩ := arg.widest_eq_ok
  obtain ⟨x, more, rfl, -, plain⟩ := arg.starts
  refine ⟨x, more, w, rfl, plain, ?_⟩
  rw [widest, widestFrom_cons, weigh_of_operator?_eq_none plain] at found
  simpa [bind, Except.bind, better] using found

theorem passes (arg : IsArgument src n ts e) (previous : Option Token) (i : Nat) (best : Option Widest)
    (rest : List Token) : ∃ best' last, ts.getLast? = some last ∧ Settles n best best' ∧
      widestFrom src previous 0 i best (ts ++ rest) =
        widestFrom src (some last) 0 (i + ts.length) best' rest := by
  have balanced := arg.balanced
  have narrow := arg.narrow
  obtain ⟨x, more, w, rfl, plain, alone⟩ := arg.exists_alone
  have inner := (narrowOutside_cons.mp narrow).2
  rw [Int.zero_add] at inner
  obtain ⟨best', settles, passes⟩ := widestFrom_append alone inner (i + 1) best rest
  refine ⟨best', _, getLast?_cons, settles, ?_⟩
  rw [cons_append, widestFrom_cons, weigh_of_operator?_eq_none plain, Int.zero_add,
    length_cons]
  rw [level_cons] at balanced
  rw [balanced] at passes
  refine passes.trans ?_
  rw [Nat.add_assoc, Nat.add_comm 1]

theorem keeps (arg : IsArgument src n ts e) (previous : Option Token) (i : Nat) {w : Widest}
    (wide : n ≤ w.width) : widestFrom src previous 0 i (some w) ts = .ok (some w) := by
  obtain ⟨best, last, -, ⟨-, kept⟩, passes⟩ := arg.passes previous i (some w) []
  rwa [append_nil, kept w rfl wide] at passes

theorem text_of_last (arg : IsArgument src n ts e) (last : ts.getLast? = some z) : z.text ≠ "," := by
  have balanced := arg.balanced
  have plain : z.operator? = none := by
    obtain ⟨x, more, w, rfl, plain, alone⟩ := arg.exists_alone
    obtain ⟨front, whole⟩ := getLast?_eq_some_iff.mp last
    cases front with
    | nil =>
      obtain ⟨rfl, -⟩ := List.cons.inj whole
      exact plain
    | cons y front =>
      obtain ⟨rfl, rfl⟩ := List.cons.inj whole
      exact operator?_of_last alone balanced
  exact text_ne_of_operator? plain

end IsArgument

/-! ## Calls -/

theorem widest_named (name : f.kind = .name) :
    widest src (f :: ts) = widestFrom src (some f) 0 1 none ts := by
  have flat : depthStep f = 0 := by
    rw [depthStep, name]
    rfl
  rw [widest, widestFrom_cons, flat]
  rfl

theorem split_named {w : Option Widest} (name : f.kind = .name) (unbroken : checkBlanks src ts = .ok ())
    (found : widest src (f :: ts) = .ok w) : split src (f :: ts) = splitValue src (f :: ts) f ts w := by
  have inside : checkBlanks src ts.dropLast = .ok () := checkBlanks_eq_ok_iff.mpr fun t member =>
    checkBlanks_eq_ok_iff.mp unbroken t (dropLast_subset _ member)
  have filled : f.isBlank = false := by simp [isBlank, name]
  have lead : leading (f :: ts) = 0 := by simp [leading, filled]
  have solids : solid (f :: ts) = f :: solid ts := by simp [filled]
  have other : (solid (f :: ts)).map kind ≠ [.lSquare, .rSquare] := by simp [solids, name]
  rw [split_eq (by rw [solids]; rfl) (by rw [lead]; rfl) (by simp [is, name]), tail_cons,
    inside, found]
  exact if_neg other

/-- A blank that is not wider than the widest operator does not make a call of the name before it. -/
theorem splitValue_of_narrow {w : Widest} {tokens : List Token}
    (narrow : t.isBlank = true → t.width ≤ w.width) :
    splitValue src tokens f (t :: ts) (some w) =
      splitRest src tokens (solid tokens) false f (leading tokens) (trailing tokens) (some w) := by
  cases ts with
  | nil => rfl
  | cons next ts =>
    refine if_neg fun call => ?_
    simp only [Bool.and_eq_true, exceeds, decide_eq_true_eq] at call
    exact Nat.not_lt.mpr (narrow call.1.1.2) call.2

/-- The commas with `width` blanks behind them. -/
def wideCommas (width : Nat) : List Token → Nat
  | t :: next :: ts =>
    (if t.text = "," ∧ next.isBlank = true ∧ next.width = width then 1 else 0) +
      wideCommas width (next :: ts)
  | _ => 0

theorem wideCommas_append (ends : ∀ z, ts.getLast? = some z → z.text ≠ ",") (rest : List Token) :
    wideCommas n (ts ++ rest) = wideCommas n ts + wideCommas n rest := by
  induction ts with
  | nil => simp [wideCommas]
  | cons t ts ih =>
    cases ts with
    | nil =>
      have plain : t.text ≠ "," := ends t rfl
      cases rest <;> simp [wideCommas, plain]
    | cons next ts =>
      have later := ih fun z last => ends z (by simpa using last)
      rw [cons_append] at later
      rw [cons_append, cons_append, wideCommas, wideCommas, later, Nat.add_assoc]

theorem wideCommas_of_narrow (narrow : ∀ t ∈ ts, t.isBlank = true → t.width < n) :
    wideCommas n ts = 0 := by
  fun_induction wideCommas n ts with
  | case1 t next ts ih =>
    obtain ⟨-, later⟩ := forall_mem_cons.mp narrow
    rw [ih later, if_neg]
    rintro ⟨-, blank, width⟩
    exact Nat.ne_of_lt (later next mem_cons_self blank) width
  | case2 => rfl

theorem callCommas_append (wide : 0 < n) (ends : ∀ z, ts.getLast? = some z → z.text ≠ ",")
    (rest : List Token) (i : Nat) : ∃ inner : List Nat, inner.length = wideCommas n ts ∧
      callCommas n i (ts ++ rest) = (callCommas n (i + ts.length) rest).map (inner ++ ·) := by
  have whole {r : Except Fault (List Nat)} : r = r.map ([] ++ ·) := by cases r <;> rfl
  induction ts generalizing i with
  | nil => exact ⟨[], rfl, whole⟩
  | cons t ts ih =>
    cases ts with
    | nil =>
      have noCut : cutsHere n t rest.head? = .ok false := if_neg (ends t rfl)
      refine ⟨[], rfl, ?_⟩
      rw [singleton_append, callCommas_cons, noCut]
      rfl
    | cons next ts =>
      obtain ⟨inner, length, cut⟩ := ih (fun z last => ends z (by simpa using last)) (i + 1)
      have shift : i + 1 + (next :: ts).length = i + (t :: next :: ts).length := by
        simp only [length_cons]
        omega
      rw [cons_append, callCommas_cons, cut, shift, wideCommas]
      split
      · rename_i here
        refine ⟨i :: inner, by simp [length, Nat.add_comm], ?_⟩
        have cuts : cutsHere n t (next :: ts ++ rest).head? = .ok true := by
          simp [cutsHere, here]
        rw [cuts]
        cases callCommas n (i + (t :: next :: ts).length) rest <;> rfl
      · rename_i other
        refine ⟨inner, by simp [length], ?_⟩
        have noCut : cutsHere n t (next :: ts ++ rest).head? = .ok false := by
          by_cases comma : t.text = ","
          · have narrow : (next.isBlank && next.width == n) = false := by
              simpa [comma] using other
            simp [cutsHere, Nat.ne_of_gt wide, narrow]
          · simp [cutsHere, comma]
        rw [noCut]
        cases callCommas n (i + (t :: next :: ts).length) rest <;> rfl

/-- Tokens between two commas of a call with `n` blanks: these blanks and an argument, over which the
search for the widest operator passes. -/
structure IsPart (src : Source) (n : Nat) (ts : List Token) : Prop where
  opens : ∃ g x more, ts = g :: x :: more ∧ IsBlank n g ∧
    (x.kind = .name ∨ x.kind = .string ∨ x.kind = .lSquare)
  ends : ∀ z, ts.getLast? = some z → z.text ≠ ","
  unbroken : checkBlanks src ts = .ok ()
  passes : ∀ previous i best rest, ∃ best' last, Settles n best best' ∧
    widestFrom src previous 0 i best (ts ++ rest) =
      widestFrom src (some last) 0 (i + ts.length) best' rest

theorem IsPart.head?_joined (long : parts.length = commas.length + 1)
    (each : ∀ p ∈ parts, IsPart src n p) : ∃ g, (joined parts commas).head? = some g ∧ IsBlank n g := by
  obtain ⟨p, ps, rfl⟩ := exists_cons_of_length_eq_add_one long
  obtain ⟨g, x, more, rfl, blank, -⟩ := (each p mem_cons_self).opens
  refine ⟨g, ?_, blank⟩
  cases commas with
  | nil => simp [joined]
  | cons c commas => rfl

theorem cuts_cons (tokens : List Token) (start stop : Nat) (starts stops : List Nat) :
    cuts tokens (start :: starts) (stop :: stops) =
      slice tokens (start + 1) stop :: cuts tokens starts stops := rfl

/-- The commas of a call are those between the parts and the wide ones inside them. If there are none
inside, cutting at the commas gives the parts. The induction is over the commas; `x` is the name of
the call or the comma before the first part. -/
theorem callCommas_joined {tokens : List Token} (wide : 0 < n)
    (separate : ∀ c ∈ commas, IsOperator .comma c) (long : parts.length = commas.length + 1)
    (each : ∀ p ∈ parts, IsPart src n p) {front : List Token} {x : Token}
    (whole : tokens = front ++ x :: joined parts commas) :
    ∃ positions, callCommas n (front.length + 1) (joined parts commas) = .ok positions ∧
      positions.length = commas.length + (parts.map (wideCommas n)).sum ∧
      ((parts.map (wideCommas n)).sum = 0 →
        cuts tokens (front.length :: positions) (positions ++ [tokens.length]) = parts) := by
  induction commas generalizing parts front x with
  | nil =>
    obtain ⟨p, rfl⟩ := length_eq_one_iff.mp long
    have only : joined [p] [] = p ++ [] := by simp [joined]
    obtain ⟨inner, length, cut⟩ := callCommas_append wide (each p mem_cons_self).ends []
      (front.length + 1)
    rw [append_nil] at only cut
    rw [only] at whole ⊢
    refine ⟨inner, by simpa [callCommas, Except.map] using cut, by simp [length], fun none => ?_⟩
    obtain rfl : inner = [] := eq_nil_of_length_eq_zero (by simpa [length] using none)
    rw [nil_append, cuts_cons]
    have last : slice tokens (front.length + 1) tokens.length = p := by
      refine @slice_middle tokens p x _ front [] (by simpa using whole) ?_
      rw [whole, length_append, length_cons]
      omega
    rw [last]
    rfl
  | cons c commas ih =>
    obtain ⟨p, ps, rfl⟩ := exists_cons_of_length_eq_add_one long
    obtain ⟨here, later⟩ := forall_mem_cons.mp each
    obtain ⟨comma, separate⟩ := forall_mem_cons.mp separate
    obtain ⟨g, first, blank⟩ := IsPart.head?_joined (Nat.succ.inj long) later
    have cutsAt : cutsHere n c (joined ps commas).head? = .ok true := by
      have text : c.text = "," := comma.2
      simp [cutsHere, text, first, blank.isBlank, blank.width_eq]
    have whole' : tokens = (front ++ x :: p) ++ c :: joined ps commas := by simp [whole, joined]
    have position : (front ++ x :: p).length = front.length + 1 + p.length := by
      simp only [length_append, length_cons]
      omega
    obtain ⟨positions, cut, length, parts⟩ := ih separate (Nat.succ.inj long) later whole'
    obtain ⟨inner, inside, cut'⟩ := callCommas_append wide here.ends (c :: joined ps commas)
      (front.length + 1)
    rw [position] at cut parts
    refine ⟨inner ++ (front.length + 1 + p.length) :: positions, ?_, ?_, fun none => ?_⟩
    · rw [joined, cut', callCommas_cons, cutsAt, cut]
      rfl
    · simp only [length_append, length_cons, map_cons, sum_cons]
      omega
    · rw [map_cons, sum_cons] at none
      obtain rfl : inner = [] := eq_nil_of_length_eq_zero (by omega)
      have part : slice tokens (front.length + 1) (front.length + 1 + p.length) = p :=
        slice_middle (by rw [whole]; rfl) rfl
      rw [nil_append, cons_append, cuts_cons, part, parts (by omega)]

theorem widestFrom_joined (separate : ∀ c' ∈ c :: commas, IsOperator .comma c')
    (long : parts.length = commas.length + 1) (each : ∀ p ∈ parts, IsPart src n p)
    (bounded : ∀ b, best = some b → b.width ≤ n) :
    ∃ p t, widestFrom src (some previous) 0 i best (c :: joined parts commas) =
      .ok (some ⟨n, p, .comma, t⟩) := by
  induction commas generalizing c parts previous i best with
  | nil =>
    obtain ⟨p, rfl⟩ := length_eq_one_iff.mp long
    have part := each p mem_cons_self
    obtain ⟨g, x, more, rfl, blank, -⟩ := part.opens
    obtain ⟨best', last, settles, passes⟩ := part.passes (some c) (i + 1) (some ⟨n, i, .comma, c⟩) []
    have only : joined [g :: x :: more] [] = g :: x :: more := by simp [joined]
    rw [append_nil, settles.2 _ rfl (Nat.le_refl n)] at passes
    rw [only, widestFrom_operator src i best previous g _ (separate c mem_cons_self) (.inl rfl)
      (by rintro ⟨⟩), blank.blankWidth_eq, wider_eq bounded, passes]
    exact ⟨i, c, rfl⟩
  | cons c' commas ih =>
    obtain ⟨p, ps, rfl⟩ := exists_cons_of_length_eq_add_one long
    obtain ⟨part, later⟩ := forall_mem_cons.mp each
    obtain ⟨comma, separate⟩ := forall_mem_cons.mp separate
    obtain ⟨g, x, more, rfl, blank, -⟩ := part.opens
    obtain ⟨best', last, settles, passes⟩ := part.passes (some c) (i + 1) (some ⟨n, i, .comma, c⟩)
      (c' :: joined ps commas)
    rw [settles.2 _ rfl (Nat.le_refl n), cons_append] at passes
    rw [joined, cons_append, widestFrom_operator src i best previous g _ comma (.inl rfl)
      (by rintro ⟨⟩), blank.blankWidth_eq, wider_eq bounded, passes]
    refine ih separate (Nat.succ.inj long) later ?_
    rintro b ⟨⟩
    exact Nat.le_refl n

theorem widest_joined (separate : ∀ c ∈ commas, IsOperator .comma c) (many : commas ≠ [])
    (long : parts.length = commas.length + 1) (each : ∀ p ∈ parts, IsPart src n p)
    (name : f.kind = .name) :
    ∃ p t, widest src (f :: joined parts commas) = .ok (some ⟨n, p, .comma, t⟩) := by
  obtain ⟨c, commas, rfl⟩ := exists_cons_of_ne_nil many
  obtain ⟨p, ps, rfl⟩ := exists_cons_of_length_eq_add_one long
  obtain ⟨part, later⟩ := forall_mem_cons.mp each
  obtain ⟨best, last, settles, passes⟩ := part.passes (some f) 1 none (c :: joined ps commas)
  obtain ⟨q, t, found⟩ := @widestFrom_joined src c last commas n _ best ps separate
    (Nat.succ.inj long) later fun b narrow => Nat.le_of_lt (settles.1 (.none n) b narrow)
  exact ⟨q, t, (widest_named name).trans (passes.trans found)⟩

theorem unbroken_joined (separate : ∀ c ∈ commas, IsOperator .comma c)
    (each : ∀ p ∈ parts, IsPart src n p) : checkBlanks src (joined parts commas) = .ok () := by
  rw [checkBlanks_eq_ok_iff]
  intro t member
  rcases mem_joined member with ⟨p, among, inside⟩ | comma
  · exact checkBlanks_eq_ok_iff.mp (each p among).unbroken t inside
  · exact (Piece.operator (n := 0) .comma (separate t comma)).not_refused

/-- A call with one argument, which holds only operators narrower than the blanks of the call. -/
theorem split_part (part : IsPart src n ts) (name : f.kind = .name) :
    split src (f :: ts) = .ok (.call f [ts]) := by
  obtain ⟨best, last, settles, passes⟩ := part.passes (some f) 1 none []
  rw [append_nil] at passes
  rw [split_named name part.unbroken ((widest_named name).trans passes)]
  obtain ⟨g, x, more, rfl, blank, kind⟩ := part.opens
  have wider : exceeds g.width best = true := by
    cases best with
    | none => rfl
    | some b => exact decide_eq_true (blank.width_eq ▸ settles.1 (.none n) b rfl)
  have starts : startsArgument x.kind = true := by rcases kind with kind | kind | kind <;> rw [kind] <;> rfl
  refine if_pos ?_
  simp [is, name, blank.isBlank, starts, wider]

/-- A call with commas is cut at all commas that have its blanks behind them. -/
theorem split_joined (separate : ∀ c ∈ commas, IsOperator .comma c) (many : commas ≠ [])
    (long : parts.length = commas.length + 1) (each : ∀ p ∈ parts, IsPart src n p)
    (name : f.kind = .name) (text : f.text ≠ ",") :
    ∃ segments, split src (f :: joined parts commas) = .ok (.call f segments) ∧
      segments.length = parts.length + (parts.map (wideCommas n)).sum ∧
      ((parts.map (wideCommas n)).sum = 0 → segments = parts) := by
  obtain ⟨p, t, found⟩ := widest_joined separate many long each name
  have unbroken := unbroken_joined separate each
  obtain ⟨first, rest, rfl⟩ := exists_cons_of_length_eq_add_one long
  obtain ⟨c, commas, rfl⟩ := exists_cons_of_ne_nil many
  obtain ⟨g, x, more, opens, blank, kind⟩ := (each first mem_cons_self).opens
  obtain ⟨positions, cut, length, whole⟩ := @callCommas_joined src _ n _ (f :: joined _ _) blank.1
    separate long each [] f rfl
  have spelled : joined (first :: rest) (c :: commas) = g :: x :: (more ++ c :: joined rest commas) := by
    rw [opens]
    rfl
  generalize joined (first :: rest) (c :: commas) = tokens at *
  have filled : f.isBlank = false := by simp [isBlank, name]
  have lead : leading (f :: tokens) = 0 := by simp [leading, filled]
  have solids : solid (f :: tokens) = f :: x :: solid (more ++ c :: joined rest commas) := by
    simp [spelled, filled, (of_value_kind kind).1, blank.isBlank]
  have noCut : cutsHere n f tokens.head? = .ok false := if_neg text
  have commasAt : callCommas n 0 (f :: tokens) = .ok positions := by
    rw [callCommas_cons, noCut]
    exact congrArg (Except.map fun commas => commas) cut
  refine ⟨cuts (f :: tokens) (0 :: positions) (positions ++ [(f :: tokens).length]), ?_, ?_, whole⟩
  · rw [split_named name unbroken found, spelled,
      splitValue_of_narrow (fun _ => blank.width_eq.le), ← spelled]
    simp only [splitRest, Bool.false_and, Bool.false_eq_true, if_false, splitOperator, if_true, lead,
      commasAt]
    rw [solids]
    rcases kind with kind | kind | kind <;> simp [name, kind]
  · simp only [cuts, length_map, length_zip, length_cons, length_append, length]
    simp only [length_cons] at long ⊢
    omega

section Calls

variable {args : List (Token × List Token)} {es : List Expr} {a : Token × List Token}

/-- The tokens of a call: its name, and the arguments with their blanks before them and commas between
them. -/
def callTokens (f : Token) (args : List (Token × List Token)) (commas : List Token) : List Token :=
  f :: joined (args.map fun a => a.1 :: a.2) commas

structure IsSpacedArgument (src : Source) (n : Nat) (a : Token × List Token) (e : Expr) : Prop where
  blank : IsBlank n a.1
  arg : IsArgument src n a.2 e

theorem IsSpacedArgument.isPart (arg : IsSpacedArgument src n a e) : IsPart src n (a.1 :: a.2) := by
  obtain ⟨x, more, starts, kind, -⟩ := arg.arg.starts
  refine ⟨⟨a.1, x, more, by rw [starts], arg.blank, kind⟩, fun z last => ?_, ?_,
    fun previous i best rest => ?_⟩
  · rw [starts, getLast?_cons_cons, ← starts] at last
    exact arg.arg.text_of_last last
  · rw [checkBlanks_eq_ok_iff, forall_mem_cons]
    exact ⟨(Piece.blank n n.lt_succ_self arg.blank).not_refused,
      checkBlanks_eq_ok_iff.mp arg.arg.unbroken⟩
  · obtain ⟨best', last, -, settles, passes⟩ := arg.arg.passes (some a.1) (i + 1) best rest
    refine ⟨best', last, settles, ?_⟩
    rw [cons_append, widestFrom_cons, weigh_of_operator?_eq_none arg.blank.operator?_eq_none,
      depthStep_eq_zero arg.blank.isBlank, length_cons]
    refine passes.trans ?_
    rw [Nat.add_assoc, Nat.add_comm 1]

theorem IsSpacedArgument.wideCommas_eq (arg : IsSpacedArgument src n a e) :
    wideCommas n (a.1 :: a.2) = wideCommas n a.2 := by
  have plain : ∀ z, [a.1].getLast? = some z → z.text ≠ "," := by
    rintro z ⟨⟩
    exact text_ne_of_operator? arg.blank.operator?_eq_none
  rw [← singleton_append, wideCommas_append plain]
  exact Nat.zero_add _

theorem split_callTokens (separate : ∀ c ∈ commas, IsOperator .comma c) (many : commas ≠ [])
    (long : args.length = commas.length + 1) (each : List.Forall₂ (IsSpacedArgument src n) args es)
    (name : f.kind = .name) (text : f.text ≠ ",") :
    ∃ parts, split src (callTokens f args commas) = .ok (.call f parts) ∧
      parts.length = args.length + (args.map fun a => wideCommas n a.2).sum ∧
      ((args.map fun a => wideCommas n a.2).sum = 0 → parts = args.map fun a => a.1 :: a.2) := by
  have parts : ∀ p ∈ args.map (fun a => a.1 :: a.2), IsPart src n p := by
    intro p member
    obtain ⟨a, among, rfl⟩ := mem_map.mp member
    obtain ⟨e, -, arg⟩ := exists_of_forall₂ each among
    exact arg.isPart
  have counts : (args.map fun a => a.1 :: a.2).map (wideCommas n) = args.map fun a => wideCommas n a.2 := by
    rw [map_map]
    refine map_congr_left fun a among => ?_
    obtain ⟨e, -, arg⟩ := exists_of_forall₂ each among
    exact arg.wideCommas_eq
  have cut := split_joined separate many (by simpa using long) parts name text
  rwa [counts, length_map] at cut

/-- A call without wide commas inside its arguments is read as it is written. -/
theorem ofTokens_of_spaced (long : args.length = commas.length + 1)
    (separate : ∀ c ∈ commas, IsOperator .comma c) (each : List.Forall₂ (IsSpacedArgument src n) args es)
    (none : ∀ a ∈ args, wideCommas n a.2 = 0) (name : f.kind = .name) (text : f.text ≠ ",") :
    ofTokens src (callTokens f args commas) = .ok (.call f es) := by
  have splits : split src (callTokens f args commas) = .ok (.call f (args.map fun a => a.1 :: a.2)) := by
    cases commas with
    | nil =>
      obtain ⟨a, rfl⟩ := length_eq_one_iff.mp long
      obtain ⟨e, -, arg⟩ := exists_of_forall₂ each mem_cons_self
      have only : callTokens f [a] [] = f :: a.1 :: a.2 := by simp [callTokens, joined]
      rw [only]
      exact split_part arg.isPart name
    | cons c commas =>
      obtain ⟨parts, splits, -, whole⟩ := split_callTokens separate (by simp) long each name text
      rwa [whole (sum_eq_zero_iff.mpr (forall_mem_map.mpr none))] at splits
  have reads : List.Forall₂ (fun p e => ofTokens src p = .ok e) (args.map fun a => a.1 :: a.2) es := by
    rw [List.forall₂_map_left_iff]
    exact each.imp fun a e arg => ofTokens_cons arg.blank.isBlank
      (text_ne_of_operator? arg.blank.operator?_eq_none) arg.arg.starts arg.arg.read
  exact ofTokens_of_parts splits reads

/-- A call whose arguments stand in brackets or not is read as a call of these arguments if and only if
no comma inside them has as many blanks after it as the call has; every such comma makes one more
argument. -/
theorem ofTokens_callTokens (src : Source) (n : Nat) (f : Token) (args : List (Token × List Token))
    (commas : List Token) (es : List Expr) (name : f.kind = .name) (text : f.text ≠ ",")
    (many : 2 ≤ args.length) (long : args.length = commas.length + 1)
    (separate : ∀ c ∈ commas, Layout.IsOperator .comma c)
    (each : List.Forall₂ (IsSpacedArgument src n) args es) :
    (ofTokens src (callTokens f args commas) = .ok (.call f es) ↔ ∀ a ∈ args, wideCommas n a.2 = 0) ∧
    ∀ e, ofTokens src (callTokens f args commas) = .ok e → ∃ es', e = .call f es' ∧
      es'.length = args.length + (args.map fun a => wideCommas n a.2).sum := by
  have some : commas ≠ [] := by
    rintro rfl
    rw [long] at many
    cases many with
    | step none => cases none
  obtain ⟨parts, splits, length, -⟩ := split_callTokens separate some long each name text
  have counted : ∀ e, ofTokens src (callTokens f args commas) = .ok e → ∃ es', e = .call f es' ∧
      es'.length = args.length + (args.map fun a => wideCommas n a.2).sum := by
    intro e read
    obtain ⟨s, es', splits', reads, rfl⟩ := ofTokens_eq_ok_iff.mp read
    obtain rfl : s = .call f parts := Except.ok.inj (splits'.symm.trans splits)
    exact ⟨es', rfl, by rw [← reads.length_eq, ← length]; rfl⟩
  refine ⟨⟨fun read => ?_, fun none => ?_⟩, counted⟩
  · obtain ⟨es', same, length⟩ := counted _ read
    obtain ⟨-, rfl⟩ := Expr.call.inj same
    rw [← each.length_eq] at length
    have zero : (args.map fun a => wideCommas n a.2).sum = 0 := by omega
    intro a member
    exact sum_eq_zero_iff.mp zero _ (mem_map_of_mem member)
  · exact ofTokens_of_spaced long separate each none name text

end Calls

/-! ### A list and a name -/

/-- A call of a list of two names, parted by a comma and a gap, and a third name. -/
def listCall (gap : String) : Source := ⟨"main.db", "f [a," ++ gap ++ "b], c"⟩

def listCallArgs (gap : String) : List (Token × List Token) :=
  [(⟨.whitespace, " ", 1, 1⟩, [⟨.lSquare, "[", 1, 2⟩, ⟨.name, "a", 1, 3⟩, ⟨.comma, ",", 1, 4⟩,
      ⟨.whitespace, gap, 1, 4 + gap.length⟩, ⟨.name, "b", 1, 5 + gap.length⟩,
      ⟨.rSquare, "]", 1, 6 + gap.length⟩]),
    (⟨.whitespace, " ", 1, 8 + gap.length⟩, [⟨.name, "c", 1, 9 + gap.length⟩])]

def listCallExprs (gap : String) : List Expr :=
  [.list [.value ⟨.name, "a", 1, 3⟩, .value ⟨.name, "b", 1, 5 + gap.length⟩],
    .value ⟨.name, "c", 1, 9 + gap.length⟩]

def listCallTokens (gap : String) : List Token :=
  callTokens ⟨.name, "f", 1, 0⟩ (listCallArgs gap) [⟨.comma, ",", 1, 7 + gap.length⟩]

theorem listCallArgs_spaced {gap : String} (short : gap = " " ∨ gap = "  ") :
    List.Forall₂ (IsSpacedArgument (listCall gap) 1) (listCallArgs gap) (listCallExprs gap) := by
  have blank {col : Int} : Layout.IsBlank 1 ⟨.whitespace, " ", 1, col⟩ := ⟨by decide, rfl, by rfl⟩
  rcases short with rfl | rfl
  all_goals
    refine .cons ⟨blank, ⟨⟨_, _, rfl, .inr (.inr rfl), by decide⟩, ?_, ?_, ?_, ?_, by cbv⟩⟩
      (.cons ⟨blank, ⟨⟨_, _, rfl, .inl rfl, by decide⟩, ?_, ?_, ?_, ?_, by cbv⟩⟩ .nil)
    all_goals decide

/-- With two blanks inside the brackets, and one outside, the call is read as it is written. -/
theorem ofTokens_callTokens_listCall :
    List.Forall₂ (IsSpacedArgument (listCall "  ") 1) (listCallArgs "  ") (listCallExprs "  ") ∧
    ofTokens (listCall "  ") (listCallTokens "  ") =
      .ok (.call ⟨.name, "f", 1, 0⟩ (listCallExprs "  ")) := by
  have spaced := listCallArgs_spaced (.inr rfl : "  " = " " ∨ _)
  refine ⟨spaced, (ofTokens_callTokens _ 1 _ _ _ _ rfl (by decide) (by decide) rfl ?_ spaced).1.mpr
    (by decide)⟩
  intro c member
  rw [mem_singleton.mp member]
  exact ⟨rfl, rfl⟩

/-- With one blank inside and outside, the brackets do not protect the comma: the call has three
arguments, and the first of them is a bracket. -/
theorem bracketed_comma_cut :
    (listCall " ").tokens.map trimTokens = .ok (listCallTokens " ") ∧
    List.Forall₂ (IsSpacedArgument (listCall " ") 1) (listCallArgs " ") (listCallExprs " ") ∧
    ofTokens (listCall " ") (listCallTokens " ") =
      .ok (.call ⟨.name, "f", 1, 0⟩ [.value ⟨.lSquare, "[", 1, 2⟩, .value ⟨.name, "b", 1, 6⟩,
        .value ⟨.name, "c", 1, 10⟩]) :=
  ⟨by decide +kernel, listCallArgs_spaced (.inl rfl), by cbv⟩

end Expr

end DreamBerd
