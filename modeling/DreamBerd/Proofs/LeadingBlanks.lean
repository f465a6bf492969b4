import DreamBerd.Proofs.Shapes

/-!
# A blank before an expression

An argument of a call is read with the blank that parts it from the name or from a comma. The blank does
not count: what starts with a name, a string or a list is read as the same expression with and without
it (`ofTokens_cons`). All positions in the tokens are one further on, and that is what most of this module
is about. `widestFrom_cons` and `callCommas_cons` say what the two searches of `Expr.split` do at one
token, and `split_eq` what the split of such tokens comes down to.
-/

namespace DreamBerd

open List

/-- The better of the operator found so far and another one, which wins a draw. -/
def Layout.wider (best : Option Expr.Widest) (w : Expr.Widest) : Option Expr.Widest :=
  match best with
  | none => some w
  | some b => if b.width ≤ w.width then some w else some b

namespace Expr

variable {src : Source} {g t head : Token} {ts : List Token} {s : Split} {depth : Int}

/-! ## One step of the search for the widest operator -/

/-- What the search makes of a token that stands at `depth` between `previous` and `next`: an operator
with the blanks at its right, or nothing. -/
def weigh (src : Source) (previous : Option Token) (depth : Int) (t : Token) (next : Option Token) :
    Except Fault (Option (Nat × Operator)) :=
  match previous, t.operator? with
  | some before, some op =>
    if depth ≠ 0 then .ok none
    else match next with
      | none => .error (src.atToken .operatorAtEnd t)
      | some next =>
        if before.isBlank && !next.isBlank && op == .sub then .ok none
        else if blankWidth before ≠ blankWidth next ∧ op ≠ .comma then
          .error (src.atToken .unequalOperatorBlanks t)
        else .ok (some (blankWidth next, op))
  | _, _ => .ok none

/-- The better of the operator found so far and what a step finds. -/
def better (best : Option Widest) (i : Nat) (t : Token) : Option (Nat × Operator) → Option Widest
  | none => best
  | some (n, op) => Layout.wider best ⟨n, i, op, t⟩

theorem better_map {h : Widest → Widest} {best : Option Widest} {i i' : Nat} {t t' : Token}
    (width : ∀ w, (h w).width = w.width) (new : ∀ n op, h ⟨n, i, op, t⟩ = ⟨n, i', op, t'⟩)
    (found : Option (Nat × Operator)) :
    better (best.map h) i' t' found = (better best i t found).map h := by
  rcases found with _ | ⟨n, op⟩
  · rfl
  · cases best with
    | none => exact congrArg some (new n op).symm
    | some b =>
      show (if (h b).width ≤ n then _ else _) = Option.map h (if b.width ≤ n then _ else _)
      rw [width, ← new]
      split <;> rfl

theorem widestFrom_cons (previous : Option Token) (depth : Int) (i : Nat) (best : Option Widest) :
    widestFrom src previous depth i best (t :: ts) =
      weigh src previous (depth + depthStep t) t ts.head? >>= fun found =>
        widestFrom src (some t) (depth + depthStep t) (i + 1) (better best i t found) ts := by
  conv_lhs => unfold widestFrom
  unfold weigh
  cases previous with
  | none => rfl
  | some before =>
    cases t.operator? with
    | none => rfl
    | some op =>
      dsimp only
      split
      · rfl
      · cases ts with
        | nil => rfl
        | cons next ts =>
          dsimp only [head?_cons]
          split
          · rfl
          · split
            · rfl
            · cases best with
              | none => rfl
              | some b =>
                simp only [decide_eq_true_eq]
                rfl

/-! ## A blank in front -/

def Widest.next (w : Widest) : Widest := { w with position := w.position + 1 }

theorem widestFrom_next (previous : Option Token) (depth : Int) (i : Nat) (best : Option Widest) :
    widestFrom src previous depth (i + 1) (best.map Widest.next) ts =
      (widestFrom src previous depth i best ts).map (Option.map Widest.next) := by
  induction ts generalizing previous depth i best with
  | nil => rfl
  | cons t ts ih =>
    rw [widestFrom_cons, widestFrom_cons]
    cases weigh src previous (depth + depthStep t) t ts.head? with
    | error f => rfl
    | ok found =>
      show widestFrom src _ _ _ (better _ _ t found) ts = Except.map _ (widestFrom src _ _ _ _ ts)
      rw [better_map (h := Widest.next) (fun _ => rfl) fun _ _ => rfl, ih]

theorem weigh_of_operator?_eq_none {previous next : Option Token} (plain : t.operator? = none) :
    weigh src previous depth t next = .ok none := by
  unfold weigh
  rw [plain]
  cases previous <;> rfl

/-- The tokens start as an argument does: with a name, a string or a list, and not with a string that
spells an operator. -/
def StartsValue (ts : List Token) : Prop :=
  ∃ x more, ts = x :: more ∧ (x.kind = .name ∨ x.kind = .string ∨ x.kind = .lSquare) ∧
    x.operator? = none

theorem of_value_kind {x : Token} (kind : x.kind = .name ∨ x.kind = .string ∨ x.kind = .lSquare) :
    x.isBlank = false ∧ (x.is .semicolon || x.is .subtract) = false ∧ x.is .newline = false := by
  rcases kind with kind | kind | kind <;> simp [Token.isBlank, Token.is, kind]

theorem depthStep_eq_zero (blank : g.isBlank = true) : depthStep g = 0 := by
  have kind : g.kind = .whitespace := by simpa [Token.isBlank] using blank
  rw [depthStep, kind]
  rfl

theorem widestFrom_of_startsValue (starts : StartsValue ts) (previous previous' : Option Token)
    (depth : Int) (i : Nat) (best : Option Widest) :
    widestFrom src previous depth i best ts = widestFrom src previous' depth i best ts := by
  obtain ⟨x, more, rfl, -, plain⟩ := starts
  rw [widestFrom_cons, widestFrom_cons, weigh_of_operator?_eq_none plain,
    weigh_of_operator?_eq_none plain]

theorem widest_cons (blank : g.isBlank = true) (starts : StartsValue ts) :
    widest src (g :: ts) = (widest src ts).map (Option.map Widest.next) := by
  rw [widest, widestFrom_cons, depthStep_eq_zero blank, widest, ← widestFrom_next]
  exact widestFrom_of_startsValue starts _ _ _ _ _

/-! ### Positions -/

theorem cuts_next (start stop : Nat) (commas : List Nat) :
    cuts (g :: ts) ((start + 1) :: commas.map (· + 1)) (commas.map (· + 1) ++ [stop + 1]) =
      cuts ts (start :: commas) (commas ++ [stop]) := by
  have starts : (start + 1) :: commas.map (· + 1) = (start :: commas).map (· + 1) := rfl
  have stops : commas.map (· + 1) ++ [stop + 1] = (commas ++ [stop]).map (· + 1) := by simp
  rw [starts, stops, cuts, zip_map, map_map]
  rfl

theorem listCommas_next (width : Nat) (depth : Int) (i : Nat) (ts : List Token) :
    listCommas width depth (i + 1) ts = (listCommas width depth i ts).map (· + 1) := by
  fun_induction listCommas width depth i ts with
  | case1 => rfl
  | case2 => rfl
  | case3 depth i t next ts depth' rest comma ih =>
    rw [listCommas, if_pos comma, ih]
    rfl
  | case4 depth i t next ts depth' rest other ih =>
    rw [listCommas, if_neg other, ih]

/-- Whether a token in front of `next` separates two arguments. -/
def cutsHere (width : Nat) (t : Token) (next : Option Token) : Except Fault Bool :=
  if t.text = "," then
    if width = 0 then .ok true
    else match next with
      | none => .error (.breakdown .position)
      | some next => .ok (next.isBlank && next.width == width)
  else .ok false

theorem callCommas_cons (width i : Nat) :
    callCommas width i (t :: ts) = cutsHere width t ts.head? >>= fun here =>
      (callCommas width (i + 1) ts).map fun commas => if here then i :: commas else commas := by
  have same {r : Except Fault (List Nat)} : r = r.map fun commas => commas := by cases r <;> rfl
  conv_lhs => unfold callCommas
  unfold cutsHere
  split
  · split
    · rfl
    · cases ts with
      | nil => rfl
      | cons next ts =>
        dsimp only [head?_cons]
        cases (next.isBlank && next.width == width) with
        | false => exact same
        | true => rfl
  · exact same

theorem callCommas_next (width i : Nat) :
    callCommas width (i + 1) ts = (callCommas width i ts).map (List.map (· + 1)) := by
  induction ts generalizing i with
  | nil => rfl
  | cons t ts ih =>
    rw [callCommas_cons, callCommas_cons, ih (i + 1)]
    cases cutsHere width t ts.head? with
    | error f => rfl
    | ok here =>
      cases callCommas width (i + 1) ts with
      | error f => rfl
      | ok commas => cases here <;> rfl

theorem indexStart?_cons {stop : Nat} (flat : depthStep g = 0) (closed : depth ≠ 0) :
    indexStart? (g :: ts) depth (stop + 1) = (indexStart? ts depth stop).map (· + 1) := by
  induction stop generalizing depth with
  | zero => simp [indexStart?, flat, closed]
  | succ n ih =>
    rw [indexStart?, getElem?_cons_succ]
    conv_rhs => rw [indexStart?]
    split
    · rfl
    · rename_i more
      exact ih more

/-! ### The outermost form -/

theorem checkBlanks_eq_ok_iff : checkBlanks src ts = .ok () ↔
    ∀ t ∈ ts, (t.isBlank && t.text.toList.contains '\t') = false ∧ t.is .newline = false := by
  induction ts with
  | nil => simp [checkBlanks]
  | cons t ts ih =>
    rw [forall_mem_cons, ← ih, checkBlanks]
    cases t.isBlank && t.text.toList.contains '\t' with
    | true => simp
    | false => cases t.is .newline <;> simp

/-- The form of tokens that start with `x`, neither a blank nor a sign, and go on with the rest. -/
def splitValue (src : Source) (tokens : List Token) (x : Token) (rest : List Token) (w : Option Widest) :
    Except Fault Split :=
  match rest with
  | gap :: arg :: more =>
    if x.is .name && gap.isBlank && startsArgument arg.kind && exceeds gap.width w then
      .ok (.call x [gap :: arg :: more])
    else splitRest src tokens (solid tokens) false x (leading tokens) (trailing tokens) w
  | _ => splitRest src tokens (solid tokens) false x (leading tokens) (trailing tokens) w

theorem split_eq {tokens rest : List Token} {x : Token} (starts : (solid tokens).head? = some x)
    (opened : tokens.drop (leading tokens) = x :: rest)
    (unsigned : (x.is .semicolon || x.is .subtract) = false) :
    split src tokens = checkBlanks src tokens.tail.dropLast >>= fun _ =>
      if (solid tokens).map Token.kind = [.lSquare, .rSquare] then .ok (.list [])
      else widest src tokens >>= splitValue src tokens x rest := by
  have named (w : Option Widest) : splitNamed src tokens (solid tokens) false x (leading tokens)
      (trailing tokens) w = splitValue src tokens x rest w := by
    simp only [splitNamed, Bool.false_eq_true, if_false, Nat.add_zero, opened]
    rcases rest with _ | ⟨gap, _ | ⟨arg, rest⟩⟩ <;> rfl
  rw [split_eq_bind (by rintro rfl; cases starts), starts]
  simp only [Option.elim_some, unsigned, named]

/-- The form, if a blank is put in front of the tokens: a blank before an operator stays with its left
operand. -/
def Split.after (g : Token) : Split → Split
  | .binary op t l r => .binary op t (g :: l) r
  | s => s

theorem length_solid_add_trailing_le (ts : List Token) :
    (solid ts).length + trailing ts ≤ ts.length := by
  have room := length_solid_add_le ts.reverse
  rwa [solid, filter_reverse, length_reverse, length_reverse] at room

theorem splitList_cons (room : trailing ts + 2 ≤ ts.length) (blank : g.isBlank = true) (some : ts ≠ [])
    (lead : Nat) :
    splitList src (g :: ts) (lead + 1) (trailing ts) =
      (splitList src ts lead (trailing ts)).map (Split.after g) := by
  unfold splitList
  have last : (g :: ts).length - trailing ts - 2 = ts.length - trailing ts - 2 + 1 := by
    rw [length_cons]
    omega
  have stop : (g :: ts).length - trailing ts - 1 = ts.length - trailing ts - 1 + 1 := by
    omega
  have stop' : (g :: ts).length - 1 - trailing ts = ts.length - 1 - trailing ts + 1 := by
    omega
  have commas (width : Nat) : listCommas width 0 0 (g :: ts) = (listCommas width 0 0 ts).map (· + 1) := by
    obtain ⟨x, more, rfl⟩ := exists_cons_of_ne_nil some
    rw [listCommas, if_neg, depthStep_eq_zero blank, ← listCommas_next]
    · rfl
    · rw [depthStep_eq_zero blank]
      simp
  rw [last, stop, stop', getElem?_cons_succ, getElem?_cons_succ]
  split
  · dsimp only
    split
    · rfl
    · rw [commas]
      cases listCommas _ 0 0 ts with
      | nil => rfl
      | cons c commas => exact congrArg (fun items => Except.ok (Split.list items)) (cuts_next _ _ _)
  · rfl

theorem splitAtom_cons (starts : (solid ts).head? = some head) (blank : g.isBlank = true) :
    splitAtom src (g :: ts) (solid ts) head 1 (trailing ts) =
      (splitAtom src ts (solid ts) head 0 (trailing ts)).map (Split.after g) := by
  obtain ⟨more, spelled⟩ := head?_eq_some_iff.mp starts
  have room := length_solid_add_trailing_le ts
  rw [spelled, length_cons] at room
  unfold splitAtom
  split
  · rfl
  · split
    · rename_i closes
      have two : more ≠ [] := by
        rintro rfl
        rw [spelled] at closes
        cases closes.2
      have some := length_pos_of_ne_nil two
      exact splitList_cons (by omega) blank (by rintro rfl; cases starts) 0
    · split
      · have stop : (g :: ts).length - trailing ts - 1 = ts.length - trailing ts - 1 + 1 := by
          rw [length_cons]
          omega
        dsimp only
        rw [stop, indexStart?_cons (depthStep_eq_zero blank) (by decide)]
        cases indexStart? ts (-1) (ts.length - trailing ts - 1) with
        | none => rfl
        | some i => rfl
      · rfl

theorem splitOperator_cons (blank : g.text ≠ ",") :
    splitOperator src (g :: ts) (solid ts) head 1 w.next =
      (splitOperator src ts (solid ts) head 0 w).map (Split.after g) := by
  have commas (width : Nat) :
      callCommas width 0 (g :: ts) = (callCommas width 0 ts).map (List.map (· + 1)) := by
    have noCut : cutsHere width g ts.head? = .ok false := if_neg blank
    rw [callCommas_cons, noCut, ← callCommas_next]
    cases callCommas width (0 + 1) ts <;> rfl
  show (if w.op = .comma then _ else _) = Except.map _ (if w.op = .comma then _ else _)
  split
  · extract_lets called
    split
    · rfl
    · rw [show w.next.width = w.width from rfl, commas]
      cases callCommas w.width 0 ts with
      | error f => rfl
      | ok commas => exact congrArg (fun args => Except.ok (Split.call head args)) (cuts_next 0 ts.length _)
  · rfl

theorem splitRest_cons (starts : (solid ts).head? = some head)
    (blank : g.isBlank = true) (text : g.text ≠ ",") :
    splitRest src (g :: ts) (solid ts) false head 1 (trailing ts) (w.map Widest.next) =
      (splitRest src ts (solid ts) false head 0 (trailing ts) w).map (Split.after g) := by
  cases w with
  | none => exact splitAtom_cons starts blank
  | some w => exact splitOperator_cons text

section Cons

variable {x : Token} {more : List Token}

theorem trailing_cons : trailing (g :: x :: more) = trailing (x :: more) := by
  rw [trailing, trailing, leading, leading, head?_reverse, head?_reverse, getLast?_cons_cons]

theorem checkBlanks_cons (filled : x.isBlank = false) (unbroken : x.is .newline = false)
    (checked : checkBlanks src (x :: more).tail.dropLast = .ok ()) :
    checkBlanks src (g :: x :: more).tail.dropLast = .ok () := by
  cases more with
  | nil => rfl
  | cons y more =>
    rwa [tail_cons, dropLast_cons_cons, checkBlanks, filled, unbroken]

theorem splitValue_cons (filled : x.isBlank = false) (blank : g.isBlank = true) (text : g.text ≠ ",") :
    splitValue src (g :: x :: more) x more (w.map Widest.next) =
      (splitValue src (x :: more) x more w).map (Split.after g) := by
  have solid_eq : solid (g :: x :: more) = solid (x :: more) := by simp [blank]
  have first : (solid (x :: more)).head? = some x := by simp [filled]
  have lead : leading (x :: more) = 0 := by simp [leading, filled]
  have lead' : leading (g :: x :: more) = 1 := by simp [leading, blank]
  have same (n : Nat) : exceeds n (w.map Widest.next) = exceeds n w := by cases w <;> rfl
  unfold splitValue
  rw [solid_eq, lead, lead', trailing_cons, splitRest_cons first blank text]
  rcases more with _ | ⟨gap, _ | ⟨arg, more⟩⟩
  · rfl
  · rfl
  · dsimp only
    rw [same]
    split <;> rfl

end Cons

theorem split_cons (starts : StartsValue ts) (blank : g.isBlank = true) (text : g.text ≠ ",")
    (splits : split src ts = .ok s) : split src (g :: ts) = .ok (s.after g) := by
  have operators := @widest_cons src g ts blank starts
  obtain ⟨x, more, rfl, kind, -⟩ := starts
  obtain ⟨filled, unsigned, unbroken⟩ := of_value_kind kind
  have solid_eq : solid (g :: x :: more) = solid (x :: more) := by simp [blank]
  have first : (solid (x :: more)).head? = some x := by simp [filled]
  have lead : (x :: more).drop (leading (x :: more)) = x :: more := by simp [leading, filled]
  have lead' : (g :: x :: more).drop (leading (g :: x :: more)) = x :: more := by simp [leading, blank]
  rw [split_eq first lead unsigned] at splits
  rw [split_eq (by rw [solid_eq, first]) lead' unsigned, solid_eq]
  cases checked : checkBlanks src (x :: more).tail.dropLast with
  | error f =>
    rw [checked] at splits
    cases splits
  | ok _ =>
    rw [checked] at splits
    rw [checkBlanks_cons filled unbroken checked]
    split at splits
    · rename_i brackets
      cases splits
      exact if_pos brackets
    · rename_i other
      refine (if_neg other).trans ?_
      rw [operators]
      cases found : widest src (x :: more) with
      | error f =>
        rw [found] at splits
        cases splits
      | ok w =>
        rw [found] at splits
        exact (splitValue_cons filled blank text).trans (congrArg (Except.map (Split.after g)) splits)

theorem StartsValue.of_append {front back : List Token} (starts : StartsValue (front ++ back))
    (full : front ≠ []) : StartsValue front := by
  obtain ⟨x, more, whole, spells⟩ := starts
  obtain ⟨y, rest, rfl⟩ := exists_cons_of_ne_nil full
  obtain ⟨rfl, -⟩ := List.cons.inj whole
  exact ⟨y, rest, rfl, spells⟩

/-- A blank in front of an argument does not count. The induction goes down the left operands, which are
all that the blank reaches. -/
theorem ofTokens_cons (blank : g.isBlank = true) (text : g.text ≠ ",")
    (starts : StartsValue ts) (read : ofTokens src ts = .ok e) : ofTokens src (g :: ts) = .ok e := by
  refine ofTokens_induction (motive := fun ts e => StartsValue ts → ofTokens src (g :: ts) = .ok e) ?_
    read starts
  intro ts s others es splits shape each starts
  have splits' := split_cons starts blank text splits
  have reads := each.imp fun p e => And.left
  cases s with
  | binary op t l r =>
    obtain _ | @⟨_, el, _, _, left, _ | @⟨_, er, _, _, right, _ | _⟩⟩ := each
    cases shape with
    | binary whole =>
      have startsLeft := (whole ▸ starts).of_append (ne_nil_of_ofTokens left.1)
      have both : List.Forall₂ (fun p e => ofTokens src p = .ok e) [g :: l, r] [el, er] :=
        .cons (left.2 startsLeft) (.cons right.1 .nil)
      exact ofTokens_of_parts (s := .binary op t (g :: l) r) splits' both
  | value | list | call | index | unary | unaryCall => exact ofTokens_of_parts splits' reads

end Expr

end DreamBerd
