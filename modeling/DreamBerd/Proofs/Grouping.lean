import DreamBerd.Proofs.Arguments

/-!
# Blanks group expressions

Reading a stepped layout gives back its tree. The tokens of a layout are names with links between them
(`Flat`): blanks, an operator between blanks, or a comma with blanks after it. So the tokens of a subtree
that are read by themselves are an argument of every wider node (`Flat.isArgument`): the search for the
widest operator passes over them, whether the node is an operator (`widest_binary`) or a call.

`ofTokens_spelled` is the induction over the bound on the widths.
-/

namespace DreamBerd

open List

open DreamBerd.Expr Lexer

namespace Layout

variable {k n b : Nat} {t x o : Token} {op : Operator} {l r a arg : Layout} {f : Word} {as args : List Layout}
  {trail ts before after rest left right link g tokens : List Token} {src : Source} {e e' : Expr}

/-! ## The tokens between the names -/

/-- What stands between two names of a layout whose nodes are narrower than `n`. -/
inductive Link (n : Nat) : List Token → Prop
  | call {k : Nat} {blank : List Token} : k < n → Gap k blank → Link n blank
  | operator {k : Nat} {op : Operator} {before after : List Token} {o : Token} :
    k < n → Gap k before → IsOperator op o → Gap k after → Link n (before ++ o :: after)
  | comma {k : Nat} {c : Token} {blank : List Token} :
    k < n → IsOperator .comma c → Gap k blank → Link n (c :: blank)

/-- Names with links between them. -/
inductive Flat (n : Nat) : List Token → Prop
  | word {x : Token} : IsWord x → Flat n [x]
  | cons {x : Token} {link ts : List Token} :
    IsWord x → Link n link → Flat n ts → Flat n (x :: (link ++ ts))

namespace Flat

theorem append {us : List Token} (flat : Flat n ts) (between : Link n link) (flat' : Flat n us) :
    Flat n (ts ++ (link ++ us)) := by
  induction flat with
  | word word =>
    rw [singleton_append]
    exact .cons word between flat'
  | cons word between' _ ih =>
    rw [cons_append, append_assoc]
    exact .cons word between' ih

theorem pieces (flat : Flat n ts) : ∀ t ∈ ts, Piece n t := by
  induction flat with
  | word word =>
    rw [forall_mem_singleton]
    exact word.piece
  | cons word between _ ih =>
    rw [forall_mem_cons, forall_mem_append]
    refine ⟨word.piece, ?_, ih⟩
    cases between with
    | call narrow gap => exact gap.pieces narrow
    | operator narrow before isOperator after =>
      rw [forall_mem_append, forall_mem_cons]
      exact ⟨before.pieces narrow, .operator _ isOperator, after.pieces narrow⟩
    | comma narrow comma gap =>
      rw [forall_mem_cons]
      exact ⟨.operator _ comma, gap.pieces narrow⟩

theorem eq_cons (flat : Flat n ts) : ∃ x more, ts = x :: more ∧ IsWord x := by
  cases flat with
  | word word | cons word _ _ => exact ⟨_, _, rfl, word⟩

theorem startsValue (flat : Flat n ts) (rest : List Token) : StartsValue (ts ++ rest) := by
  obtain ⟨x, more, rfl, word⟩ := flat.eq_cons
  exact ⟨x, more ++ rest, rfl, .inl word.kind, word.operator?_eq_none⟩

theorem eq_concat (flat : Flat n ts) : ∃ front last, ts = front ++ [last] ∧ IsWord last := by
  induction flat with
  | word word => exact ⟨[], _, rfl, word⟩
  | @cons x link ts _ _ _ ih =>
    obtain ⟨front, last, rfl, word⟩ := ih
    exact ⟨x :: (link ++ front), last, by simp, word⟩

end Flat

mutual

theorem Spells.flat {n : Nat} (t : Layout) {ts : List Token} (spells : t.Spells ts)
    (narrow : ∀ v ∈ t.widths, v < n) : Flat n ts := by
  match t with
  | .name w =>
    obtain ⟨x, named, rfl⟩ := spells
    exact .word ⟨w, named⟩
  | .binary op k l r =>
    obtain ⟨left, before, o, after, right, hleft, hbefore, ho, hafter, hright, rfl⟩ := spells
    obtain ⟨narrowHere, narrowLeft, narrowRight⟩ := forall_widths_binary.mp narrow
    have flat := (Spells.flat l hleft narrowLeft).append (.operator narrowHere hbefore ho hafter)
      (Spells.flat r hright narrowRight)
    rwa [append_assoc, cons_append] at flat
  | .call f k a as =>
    obtain ⟨x, blank, first, others, named, hblank, hfirst, hothers, rfl⟩ := spells
    obtain ⟨narrowHere, narrowArg, narrowArgs⟩ := forall_widths_call.mp narrow
    exact .cons ⟨f, named⟩ (.call narrowHere hblank)
      (SpellsArgs.flat as hothers narrowHere narrowArgs (Spells.flat a hfirst narrowArg))

theorem SpellsArgs.flat {n k : Nat} (as : List Layout) {first ts : List Token}
    (spells : SpellsArgs k as ts) (narrowHere : k < n) (narrow : ∀ v ∈ widthsAll as, v < n)
    (flat : Flat n first) : Flat n (first ++ ts) := by
  match as with
  | [] =>
    subst spells
    rwa [append_nil]
  | a :: as =>
    obtain ⟨c, blank, next, others, comma, hblank, hnext, hothers, rfl⟩ := spells
    obtain ⟨narrowArg, narrowArgs⟩ := forall_widthsAll_cons.mp narrow
    exact flat.append (.comma narrowHere comma hblank)
      (SpellsArgs.flat as hothers narrowHere narrowArgs (Spells.flat a hnext narrowArg))

end

/-- A token beside the operator of a node of width `k`: a blank of that width, or none at all. -/
def Beside (k : Nat) (t : Token) : Prop := blankWidth t = k ∧ t.isBlank = decide (0 < k)

theorem beside_zero (filled : t.isBlank = false) : Beside 0 t := by
  refine ⟨?_, filled⟩
  rw [blankWidth, filled]
  rfl

theorem IsBlank.beside (blank : IsBlank k t) : Beside k t :=
  ⟨blank.blankWidth_eq, by simp [blank.isBlank, blank.1]⟩

theorem Gap.append_eq_cons (between : Gap k g) (starts : StartsValue ts) :
    ∃ next more, g ++ ts = next :: more ∧ Beside k next := by
  rcases between.eq_nil_or_blank with ⟨rfl, rfl⟩ | ⟨t, blank, rfl⟩
  · obtain ⟨x, more, rfl, kind, -⟩ := starts
    exact ⟨x, more, rfl, beside_zero (of_value_kind kind).1⟩
  · exact ⟨t, ts, rfl, blank.beside⟩

theorem Flat.beside_last (flat : Flat n ts) (between : Gap k g) :
    ∃ last, (ts ++ g).getLast? = some last ∧ Beside k last := by
  rcases between.eq_nil_or_blank with ⟨rfl, rfl⟩ | ⟨t, blank, rfl⟩
  · obtain ⟨front, last, rfl, word⟩ := flat.eq_concat
    exact ⟨last, by simp, beside_zero word.isBlank⟩
  · exact ⟨t, getLast?_concat, blank.beside⟩

/-! ## Subtrees as arguments -/

theorem level_of_pieces (pieces : ∀ t ∈ ts, ∃ n, Piece n t) : level ts = 0 := by
  induction ts with
  | nil => rfl
  | cons t ts ih =>
    obtain ⟨⟨_, piece⟩, later⟩ := forall_mem_cons.mp pieces
    rw [level_cons, piece.depthStep_eq, ih later, Int.zero_add]

theorem Piece.operator?_eq_none (piece : Piece n t) (kind : t.isBlank = true ∨ t.isBracket = true) :
    t.operator? = none := by
  cases piece with
  | name w named => exact named.operator?_eq_none
  | operator op isOperator =>
    have same := isOperator.1
    cases op <;> simp [Token.isBlank, Token.isBracket, Token.is, same, operatorKind] at kind
  | blank k _ blank => exact blank.operator?_eq_none

theorem narrowOutside_gap (between : Gap k g) :
    narrowOutside n 0 (g ++ rest) = narrowOutside n 0 rest := by
  rcases between.eq_nil_or_blank with ⟨-, rfl⟩ | ⟨t, blank, rfl⟩
  · rfl
  · simp [narrowOutside, blank.operator?_eq_none, depthStep_eq_zero blank.isBlank]

theorem narrowOutside_operator (isOperator : IsOperator op o) (gapAfter : Gap k after) (narrow : k < n)
    (starts : StartsValue rest) : narrowOutside n 0 (o :: (after ++ rest)) = narrowOutside n 0 rest := by
  have noDepth : depthStep o = 0 := (Piece.operator (n := 0) op isOperator).depthStep_eq
  obtain ⟨next, more, nextEq, width, -⟩ := gapAfter.append_eq_cons starts
  rw [narrowOutside, noDepth, ← narrowOutside_gap gapAfter, nextEq]
  simp [width, narrow]

theorem Flat.narrowOutside (flat : Flat n ts) (gapTrail : Gap b trail) :
    narrowOutside n 0 (ts ++ trail) = true := by
  have skip {x : Token} {ts : List Token} (word : IsWord x) :
      Expr.narrowOutside n 0 (x :: ts) = Expr.narrowOutside n 0 ts := by
    simp [Expr.narrowOutside, word.operator?_eq_none, (word.piece (n := 0)).depthStep_eq]
  induction flat with
  | word word =>
    rw [singleton_append, skip word, ← append_nil trail, narrowOutside_gap gapTrail]
    rfl
  | cons word between flat ih =>
    have starts := flat.startsValue trail
    rw [cons_append, append_assoc, skip word]
    cases between with
    | call _ gap => rw [narrowOutside_gap gap, ih]
    | operator narrow gapBefore isOperator gapAfter =>
      rw [append_assoc, cons_append, narrowOutside_gap gapBefore,
        narrowOutside_operator isOperator gapAfter narrow starts, ih]
    | comma narrow comma gap => rw [cons_append, narrowOutside_operator comma gap narrow starts, ih]

theorem Flat.isArgument (flat : Flat n ts) (gapTrail : Gap b trail)
    (read : ofTokens src (ts ++ trail) = .ok e) : IsArgument src n (ts ++ trail) e := by
  have pieces : ∀ t ∈ ts ++ trail, ∃ n, Piece n t := by
    intro t member
    rcases mem_append.mp member with own | behind
    · exact ⟨n, flat.pieces t own⟩
    · exact ⟨b + 1, gapTrail.pieces (Nat.lt_succ_self b) t behind⟩
  exact ⟨flat.startsValue trail, level_of_pieces pieces, flat.narrowOutside gapTrail,
    checkBlanks_pieces pieces, fun t member => (pieces t member).elim fun _ piece => piece.operator?_eq_none,
    read⟩

theorem Flat.wideCommas_eq (flat : Flat n ts) (gapTrail : Gap b trail) : wideCommas n (ts ++ trail) = 0 := by
  have ends : ∀ z, ts.getLast? = some z → z.text ≠ "," := by
    obtain ⟨front, last, rfl, word⟩ := flat.eq_concat
    rw [getLast?_concat]
    rintro z ⟨⟩
    exact text_ne_of_operator? word.operator?_eq_none
  rw [wideCommas_append ends, wideCommas_of_narrow fun t member => (flat.pieces t member).width_lt]
  rcases gapTrail.eq_nil_or_blank with ⟨-, rfl⟩ | ⟨t, blank, rfl⟩ <;> rfl

/-! ## The outermost form of a layout -/

theorem split_name (word : IsWord x) (gapTrail : Gap b trail) :
    split src (x :: trail) = .ok (.value x) := by
  rcases gapTrail.eq_nil_or_blank with ⟨-, rfl⟩ | ⟨t, blank, rfl⟩
  · rw [split_named word.kind rfl (widest_named word.kind)]
    simp [splitValue, splitRest, splitAtom, word.kind]
  · have found : widest src [x, t] = .ok none := (widest_named word.kind).trans
      (widestFrom_of_plain (forall_mem_singleton.mpr blank.operator?_eq_none))
    have unbroken : checkBlanks src [t] = .ok () := checkBlanks_pieces fun t member =>
      ⟨b + 1, gapTrail.pieces (Nat.lt_succ_self b) t member⟩
    rw [split_named word.kind unbroken found]
    simp [splitValue, splitRest, splitAtom, word.kind, blank.isBlank]

theorem widest_binary (flat : Flat k left) (gapBefore : Gap k before)
    (argLeft : IsArgument src k (left ++ before) e) (isOperator : IsOperator op o) (gapAfter : Gap k after)
    (argRight : IsArgument src k right e') :
    widest src ((left ++ before) ++ o :: (after ++ right)) =
      .ok (some ⟨k, (left ++ before).length, op, o⟩) := by
  obtain ⟨best, last, isLast, ⟨settles, -⟩, passes⟩ := argLeft.passes none 0 none (o :: (after ++ right))
  obtain ⟨_, same, widthBefore, blankBefore⟩ := flat.beside_last gapBefore
  cases isLast.symm.trans same
  obtain ⟨next, more, nextEq, widthNext, blankNext⟩ := gapAfter.append_eq_cons argRight.starts
  rw [nextEq, Nat.zero_add] at passes
  rw [widest, nextEq, passes, widestFrom_operator src _ best last next more isOperator
    (.inr (widthBefore.trans widthNext.symm)) (fun _ => blankBefore.trans blankNext.symm), ← nextEq, widthNext,
    wider_eq fun b found => Nat.le_of_lt (settles (.none k) b found)]
  rcases gapAfter.eq_nil_or_blank with ⟨-, rfl⟩ | ⟨t, blank, rfl⟩
  · exact argRight.keeps _ _ (Nat.le_refl k)
  · rw [singleton_append, widestFrom_cons, weigh_of_operator?_eq_none blank.operator?_eq_none,
      depthStep_eq_zero blank.isBlank]
    exact argRight.keeps _ _ (Nat.le_refl k)

theorem split_binary (noComma : op ≠ .comma) (flat : Flat k left) (gapBefore : Gap k before)
    (argLeft : IsArgument src k (left ++ before) e) (isOperator : IsOperator op o) (gapAfter : Gap k after)
    (argRight : IsArgument src k right e') :
    split src ((left ++ before) ++ o :: (after ++ right)) =
      .ok (.binary op o (left ++ before) (after ++ right)) := by
  have found := widest_binary flat gapBefore argLeft isOperator gapAfter argRight
  have unbroken : ∀ t ∈ (left ++ before) ++ o :: (after ++ right),
      (t.isBlank && t.text.toList.contains '\t') = false ∧ t.is .newline = false := by
    rw [forall_mem_append, forall_mem_cons]
    exact ⟨checkBlanks_eq_ok_iff.mp argLeft.unbroken, (Piece.operator (n := 0) op isOperator).not_refused,
      forall_mem_append.mpr ⟨fun t member => (gapAfter.pieces (Nat.lt_succ_self k) t member).not_refused,
        checkBlanks_eq_ok_iff.mp argRight.unbroken⟩⟩
  have narrow : ∀ t ∈ left ++ (before ++ [o]), t.isBlank = true → t.width ≤ k := by
    rw [forall_mem_append, forall_mem_append, forall_mem_singleton]
    exact ⟨fun t member blank => Nat.le_of_lt ((flat.pieces t member).width_lt blank),
      fun t member blank => Nat.le_of_lt_succ ((gapBefore.pieces (Nat.lt_succ_self k) t member).width_lt blank),
      fun blank => absurd ((Piece.operator op isOperator).width_lt blank) (Nat.not_lt_zero _)⟩
  obtain ⟨x, more, rfl, word⟩ := flat.eq_cons
  obtain ⟨y, others, second⟩ := exists_cons_of_ne_nil (show more ++ (before ++ [o]) ≠ [] by simp)
  have whole : ((x :: more) ++ before) ++ o :: (after ++ right) = x :: y :: (others ++ (after ++ right)) := by
    rw [← cons_append, ← cons_append, ← second]
    simp
  rw [cons_append, second, forall_mem_cons, forall_mem_cons] at narrow
  rw [whole] at found unbroken
  rw [whole, split_named word.kind (checkBlanks_eq_ok_iff.mpr (forall_mem_cons.mp unbroken).2) found,
    splitValue_of_narrow narrow.2.1, ← whole]
  simp only [splitRest, Bool.false_and, Bool.false_eq_true, if_false, splitOperator, noComma]
  rw [take_left, ← drop_drop, drop_left]
  rfl

/-! ## Reading a level -/

theorem ofTokens_gap (between : Gap k g) (starts : StartsValue ts) (read : ofTokens src ts = .ok e) :
    ofTokens src (g ++ ts) = .ok e := by
  rcases between.eq_nil_or_blank with ⟨-, rfl⟩ | ⟨t, blank, rfl⟩
  · exact read
  · exact ofTokens_cons blank.isBlank (text_ne_of_operator? blank.operator?_eq_none) starts read

/-- Layouts narrower than `n` are read as their trees, whatever blanks are left behind them. -/
def ReadsBelow (src : Source) (n : Nat) : Prop :=
  ∀ (t : Layout) {ts trail : List Token} {b : Nat}, t.Stepped → (∀ v ∈ t.widths, v < n) → t.Spells ts →
    Gap b trail → ∃ e, ofTokens src (ts ++ trail) = .ok e ∧ t.Mirrors e

theorem ofTokens_binary (reads : ReadsBelow src k) (stepped : (binary op k l r).Stepped)
    (spells : (binary op k l r).Spells ts) (gapTrail : Gap b trail) :
    ∃ e, ofTokens src (ts ++ trail) = .ok e ∧ (binary op k l r).Mirrors e := by
  obtain ⟨noComma, below, steppedLeft, steppedRight⟩ := stepped
  obtain ⟨narrowLeft, narrowRight⟩ := forall_mem_append.mp below
  obtain ⟨left, before, o, after, right, hleft, hbefore, ho, hafter, hright, rfl⟩ := spells
  have flatLeft := Spells.flat l hleft narrowLeft
  have flatRight := Spells.flat r hright narrowRight
  obtain ⟨e, readsLeft, mirrorsLeft⟩ := reads l steppedLeft narrowLeft hleft hbefore
  obtain ⟨e', readsRight, mirrorsRight⟩ := reads r steppedRight narrowRight hright gapTrail
  refine ⟨.binary op o e e', ?_, by rw [Mirrors]; exact ⟨rfl, ho.2, mirrorsLeft, mirrorsRight⟩⟩
  have cut : left ++ (before ++ o :: (after ++ right)) ++ trail =
      (left ++ before) ++ o :: (after ++ (right ++ trail)) := by simp
  rw [cut]
  exact ofTokens_of_parts (split_binary noComma flatLeft hbefore (flatLeft.isArgument hbefore readsLeft) ho
      hafter (flatRight.isArgument gapTrail readsRight))
    (.cons readsLeft (.cons (ofTokens_gap hafter (flatRight.startsValue trail) readsRight) .nil))

theorem ReadsBelow.spaced (reads : ReadsBelow src k) (wide : 0 < k) (stepped : a.Stepped)
    (narrow : ∀ v ∈ a.widths, v < k) (gapBefore : Gap k before) (spells : a.Spells ts)
    (gapTrail : Gap b trail) :
    ∃ g e, before = [g] ∧ IsSpacedArgument src k (g, ts ++ trail) e ∧ wideCommas k (ts ++ trail) = 0 ∧
      a.Mirrors e := by
  obtain ⟨g, blank, rfl⟩ := gapBefore.exists_blank wide
  obtain ⟨e, read, mirrors⟩ := reads a stepped narrow spells gapTrail
  have flat := Spells.flat a spells narrow
  exact ⟨g, e, rfl, ⟨blank, flat.isArgument gapTrail read⟩, flat.wideCommas_eq gapTrail, mirrors⟩

theorem SpellsArgs.exists_args (reads : ReadsBelow src k) (wide : 0 < k) (gapTrail : Gap b trail)
    (as : List Layout) :
    ∀ {a : Layout} {before first others : List Token}, a.Stepped → SteppedAll as →
      (∀ v ∈ a.widths, v < k) → (∀ v ∈ widthsAll as, v < k) → Gap k before → a.Spells first →
      SpellsArgs k as others → ∃ args commas es,
        before ++ (first ++ (others ++ trail)) = joined (args.map fun a => a.1 :: a.2) commas ∧
          List.Forall₂ (IsSpacedArgument src k) args es ∧ (∀ a ∈ args, wideCommas k a.2 = 0) ∧
          MirrorsAll (a :: as) es ∧ args.length = commas.length + 1 ∧ ∀ c ∈ commas, IsOperator .comma c := by
  induction as with
  | nil =>
    intro a before first others stepped _ narrow _ gapBefore spells none
    obtain rfl : others = [] := none
    obtain ⟨g, e, rfl, spaced, noComma, mirrors⟩ := reads.spaced wide stepped narrow gapBefore spells gapTrail
    exact ⟨[(g, first ++ trail)], [], [e], by simp [joined], .cons spaced .nil,
      forall_mem_singleton.mpr noComma, ⟨mirrors, by rw [MirrorsAll]; trivial⟩, rfl, by simp⟩
  | cons a' as ih =>
    intro a before first others stepped steppedAll narrow narrowAll gapBefore spells more
    obtain ⟨c, before', first', others', comma, gapBefore', spells', more, rfl⟩ := more
    obtain ⟨narrow', narrowAll⟩ := forall_widthsAll_cons.mp narrowAll
    obtain ⟨args, commas, es, whole, each, noCommas, mirrorsAll, long, separate⟩ :=
      ih steppedAll.1 steppedAll.2 narrow' narrowAll gapBefore' spells' more
    obtain ⟨g, e, rfl, spaced, noComma, mirrors⟩ :=
      reads.spaced wide stepped narrow gapBefore spells .nothing
    refine ⟨(g, first ++ []) :: args, c :: commas, e :: es, ?_, .cons spaced each,
      forall_mem_cons.mpr ⟨noComma, noCommas⟩, by rw [MirrorsAll]; exact ⟨mirrors, mirrorsAll⟩, by simp [long],
      forall_mem_cons.mpr ⟨comma, separate⟩⟩
    rw [map_cons, joined, ← whole]
    simp

theorem ofTokens_call (reads : ReadsBelow src k) (stepped : (call f k arg args).Stepped)
    (spells : (call f k arg args).Spells ts) (gapTrail : Gap b trail) :
    ∃ e, ofTokens src (ts ++ trail) = .ok e ∧ (call f k arg args).Mirrors e := by
  obtain ⟨wide, below, steppedArg, steppedArgs⟩ := stepped
  obtain ⟨narrowArg, narrowArgs⟩ := forall_mem_append.mp below
  obtain ⟨x, blank, first, others, named, hblank, hfirst, hothers, rfl⟩ := spells
  obtain ⟨args', commas, es, whole, each, noCommas, mirrorsAll, long, separate⟩ := SpellsArgs.exists_args reads
    wide gapTrail args steppedArg steppedArgs narrowArg narrowArgs hblank hfirst hothers
  have read := ofTokens_of_spaced long separate each noCommas named.1
    (text_ne_of_operator? named.operator?_eq_none)
  rw [callTokens, ← whole] at read
  cases es with
  | nil => simp [MirrorsAll] at mirrorsAll
  | cons e es =>
    refine ⟨.call x (e :: es), ?_, by rw [Mirrors]; exact ⟨named.1, named.2, mirrorsAll⟩⟩
    simpa only [append_assoc, cons_append] using read

/-- Tokens that spell a layout are read as the tree of the layout. The induction is over a bound on the
widths: the parts of a node are narrower than the node. -/
theorem ofTokens_spelled (n : Nat) : ReadsBelow src n := by
  induction n using Nat.strongRecOn with
  | ind n ih =>
    intro t ts trail b stepped narrow spells gapTrail
    match t with
    | .name w =>
      obtain ⟨x, named, rfl⟩ := spells
      refine ⟨.value x, ?_, by rw [Mirrors]; exact named⟩
      exact ofTokens_of_parts (split_name ⟨w, named⟩ gapTrail) .nil
    | .binary op k l r =>
      exact ofTokens_binary (ih k (forall_widths_binary.mp narrow).1) stepped spells gapTrail
    | .call f k arg args =>
      exact ofTokens_call (ih k (forall_widths_call.mp narrow).1) stepped spells gapTrail

/-! ## From the text to the tree -/

theorem tokens_text (file : String) {t : Layout} (stepped : t.Stepped) :
    ∃ ts blank, t.Spells ts ∧ blank.isBlank = true ∧
      Source.tokens ⟨file, t.text⟩ = .ok (ts ++ [blank]) := by
  have padded : (t.text ++ lexerPadding).toList = t.chars ++ gap 3 := by
    rw [String.toList_append, text, String.toList_ofList]
    rfl
  have stops : Stops isNameChar (gap 3) := .cons rfl
  obtain ⟨ts, col, spells, goesOn⟩ := Lexes.layout t stepped stops (cons_ne_nil _ _) 1 0
  have nothing : Stops isSpacing [] := by
    intro c first
    cases first
  obtain ⟨blanks, col', gapBlanks, ends⟩ := Lexes.gap (n := 3) nothing 1 col
  rcases gapBlanks.eq_nil_or_blank with ⟨zero, -⟩ | ⟨blank, isBlank, rfl⟩
  · cases zero
  · have readsBlank : scan 1 col (gap 3) = .ok [blank] := by
      have := ends [] (by rw [scan])
      simpa using this
    refine ⟨ts, blank, spells, isBlank.isBlank, ?_⟩
    unfold Source.tokens
    simp only [padded, goesOn _ readsBlank]

theorem trimTokens_concat_blank {t : Layout} {blank : Token} (spells : t.Spells ts)
    (bounded : ∀ v ∈ t.widths, v < n) (isBlank : blank.isBlank = true) :
    trimTokens (ts ++ [blank]) = ts := by
  have flat := Spells.flat t spells bounded
  obtain ⟨x, more, startEq, wordFirst⟩ := flat.eq_cons
  obtain ⟨front, last, endEq, wordLast⟩ := flat.eq_concat
  have fromStart : (ts ++ [blank]).dropWhile Token.isBlank = ts ++ [blank] := by
    rw [startEq, cons_append, dropWhile_cons_of_neg (by simp [wordFirst.isBlank])]
  unfold trimTokens
  rw [fromStart, endEq, reverse_append, reverse_append, reverse_singleton,
    reverse_singleton, singleton_append, singleton_append,
    dropWhile_cons_of_pos isBlank, dropWhile_cons_of_neg (by simp [wordLast.isBlank]),
    reverse_cons, reverse_reverse]

/-- Blanks are a faithful notation for trees: a tree whose nodes are wider than all nodes below them,
written with as many blanks as its nodes are wide, is cut into tokens and read as that very tree. -/
theorem ofTokens_text (file : String) (t : Layout) (stepped : t.Stepped) :
    ∃ ts e, Source.tokens ⟨file, t.text⟩ = .ok ts ∧
      Expr.ofTokens ⟨file, t.text⟩ (trimTokens ts) = .ok e ∧ t.Mirrors e := by
  obtain ⟨ts, blank, spells, isBlank, reads⟩ := tokens_text file stepped
  have bounded : ∀ v ∈ t.widths, v < t.widths.sum + 1 :=
    fun v member => Nat.lt_succ_of_le (le_sum_of_mem member)
  obtain ⟨e, builds, mirrors⟩ := ofTokens_spelled (t.widths.sum + 1) t stepped bounded spells .nothing
  rw [append_nil] at builds
  refine ⟨ts ++ [blank], e, reads, ?_, mirrors⟩
  rw [trimTokens_concat_blank spells bounded isBlank]
  exact builds

/-- A call of two arguments: a difference without blanks, and a narrower call. -/
def difference : Layout :=
  .call (.ofChar 'f' rfl (by decide)) 2
    (.binary .sub 0 (.name (.ofChar 'a' rfl (by decide))) (.name (.ofChar 'b' rfl (by decide))))
    [.call (.ofChar 'g' rfl (by decide)) 1 (.name (.ofChar 'c' rfl (by decide))) []]

theorem difference_stepped : difference.Stepped := by
  simp [difference, Stepped, SteppedAll, widths, widthsAll]

theorem ofTokens_text_difference :
    difference.text = "f  a-b,  g c" ∧ difference.Stepped ∧
      ∃ ts e, Source.tokens ⟨"", difference.text⟩ = .ok ts ∧
        Expr.ofTokens ⟨"", difference.text⟩ (trimTokens ts) = .ok e ∧ difference.Mirrors e :=
  ⟨by decide +kernel, difference_stepped, ofTokens_text "" difference difference_stepped⟩

end Layout
end DreamBerd
