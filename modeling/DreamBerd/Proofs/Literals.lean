import DreamBerd.Proofs.LeadingBlanks

/-!
# String literals in expressions

A string literal is a token like any other, and operators are recognised by their text. So the text of a
literal counts when an expression is read, but only as far as it spells an operator.

`Unnoticed` describes the changes of tokens that keep this much of them. Each step of `Expr.split` does
after such a change what it did before, with other tokens (`carried_split`), and so does the reader as a
whole (`carried_build`). `literals_interchangeable_iff` says that nothing more can be changed: texts can
stand for one another in all literals if and only if they spell the same operators.
-/

namespace DreamBerd

open List Token

def Token.masked (t : Token) : Token := if t.is .string then { t with text := "" } else t

namespace Expr

variable {R : String → String → Prop}

/-! ## Other tokens in the same places -/

mutual

def mapTokens (g : Token → Token) : Expr → Expr
  | value t => .value (g t)
  | list items => .list (mapTokensOf g items)
  | call name args => .call (g name) (mapTokensOf g args)
  | index v i => .index (mapTokens g v) (mapTokens g i)
  | binary op t l r => .binary op (g t) (mapTokens g l) (mapTokens g r)
  | unary op e => .unary (g op) (mapTokens g e)

def mapTokensOf (g : Token → Token) : List Expr → List Expr
  | [] => []
  | e :: es => mapTokens g e :: mapTokensOf g es

end

def masked (e : Expr) : Expr := e.mapTokens Token.masked

theorem mapTokensOf_eq_map (g : Token → Token) (es : List Expr) :
    mapTokensOf g es = es.map (mapTokens g) := by
  induction es with
  | nil => rfl
  | cons e es ih => rw [mapTokensOf, ih, map_cons]

mutual

/-- A change that makes up for another one makes up for it in every expression. -/
theorem mapTokens_absorbs {g h : Token → Token} (absorbs : ∀ t, h (g t) = h t) :
    ∀ e : Expr, (e.mapTokens g).mapTokens h = e.mapTokens h
  | value t => by simp only [mapTokens, absorbs]
  | list items => by simp only [mapTokens, mapTokensOf_absorbs absorbs items]
  | call name args => by simp only [mapTokens, absorbs, mapTokensOf_absorbs absorbs args]
  | index v i => by simp only [mapTokens, mapTokens_absorbs absorbs v, mapTokens_absorbs absorbs i]
  | binary op t l r => by
    simp only [mapTokens, absorbs, mapTokens_absorbs absorbs l, mapTokens_absorbs absorbs r]
  | unary op e => by simp only [mapTokens, absorbs, mapTokens_absorbs absorbs e]

theorem mapTokensOf_absorbs {g h : Token → Token} (absorbs : ∀ t, h (g t) = h t) :
    ∀ es : List Expr, mapTokensOf h (mapTokensOf g es) = mapTokensOf h es
  | [] => rfl
  | e :: es => by
    simp only [mapTokensOf, mapTokens_absorbs absorbs e, mapTokensOf_absorbs absorbs es]

end

def Split.mapTokens (g : Token → Token) : Split → Split
  | value t => .value (g t)
  | list items => .list (items.map (List.map g))
  | call name args => .call (g name) (args.map (List.map g))
  | index v i => .index (v.map g) (i.map g)
  | binary op t l r => .binary op (g t) (l.map g) (r.map g)
  | unary op e => .unary (g op) (e.map g)
  | unaryCall op name arg => .unaryCall (g op) (g name) (arg.map g)

theorem Split.parts_mapTokens (g : Token → Token) (s : Split) :
    (s.mapTokens g).parts = s.parts.map (List.map g) := by
  cases s <;> rfl

theorem Split.expr_mapTokens (g : Token → Token) (s : Split) (es : List Expr) :
    (s.mapTokens g).expr (es.map (Expr.mapTokens g)) = (s.expr es).mapTokens g := by
  cases s with
  | value t => rfl
  | list items => exact congrArg Expr.list (mapTokensOf_eq_map g es).symm
  | call name args => exact congrArg (Expr.call (g name)) (mapTokensOf_eq_map g es).symm
  | unaryCall op name arg =>
    exact congrArg (fun es => Expr.unary (g op) (.call (g name) es)) (mapTokensOf_eq_map g es).symm
  | index v i | binary op t l r => rcases es with _ | ⟨a, _ | ⟨b, _ | ⟨c, es⟩⟩⟩ <;> rfl
  | unary op e => rcases es with _ | ⟨a, _ | ⟨b, es⟩⟩ <;> rfl

/-! ## Two readings that fail together -/

/-- Two readings either both fail, or the second gives what `g` makes of the result of the first. -/
inductive Carried {α β : Type} (g : α → β) : Except Fault α → Except Fault β → Prop
  | read (a : α) : Carried g (.ok a) (.ok (g a))
  | failed (f f' : Fault) : Carried g (.error f) (.error f')

section Carried

variable {α β γ δ : Type} {g : α → β} {h : γ → δ} {r : Except Fault α} {r' : Except Fault β}

theorem Carried.bind {k : α → Except Fault γ} {k' : β → Except Fault δ} (first : Carried g r r')
    (next : ∀ a, Carried h (k a) (k' (g a))) : Carried h (r >>= k) (r' >>= k') := by
  cases first with
  | read a => exact next a
  | failed f f' => exact .failed f f'

theorem Carried.map {k : α → γ} {k' : β → δ} (first : Carried g r r')
    (next : ∀ a, k' (g a) = h (k a)) : Carried h (r.map k) (r'.map k') := by
  cases first with
  | read a =>
    show Carried h (.ok (k a)) (.ok (k' (g a)))
    rw [next a]
    exact .read (k a)
  | failed f f' => exact .failed f f'

theorem Carried.ite {c c' : Bool} {q : Except Fault α} {q' : Except Fault β} (same : c' = c)
    (yes : Carried g r r') (no : Carried g q q') :
    Carried g (if c then r else q) (if c' then r' else q') := by
  rw [same]
  split
  · exact yes
  · exact no

theorem Carried.mapM {m : α → Except Fault γ} {m' : β → Except Fault δ} {xs : List α}
    (each : ∀ x, Carried h (m x) (m' (g x))) :
    Carried (List.map h) (xs.mapM m) ((xs.map g).mapM m') := by
  induction xs with
  | nil => exact .read []
  | cons x xs ih =>
    rw [map_cons, mapM_cons, mapM_cons]
    refine (each x).bind fun y => ih.bind fun ys => ?_
    exact .read (y :: ys)

end Carried

/-! ## Changes that are not noticed -/

/-- A change of tokens that touches the texts of string literals only, and keeps the operators that they
spell. -/
structure Unnoticed (g : Token → Token) : Prop where
  kind : ∀ t, (g t).kind = t.kind
  text : ∀ t, t.kind ≠ .string → (g t).text = t.text
  operator? : ∀ t, (g t).operator? = t.operator?

section Unnoticed

variable {g : Token → Token} (unnoticed : Unnoticed g) {src : Source}
variable {t : Token}

include unnoticed

theorem Unnoticed.is (t : Token) (k : TokenKind) : (g t).is k = t.is k := by
  rw [Token.is, Token.is, unnoticed.kind]

theorem Unnoticed.isBlank (t : Token) : (g t).isBlank = t.isBlank := unnoticed.is t .whitespace

theorem Unnoticed.depthStep (t : Token) : Expr.depthStep (g t) = Expr.depthStep t := by
  rw [Expr.depthStep, Expr.depthStep, unnoticed.kind]

theorem Unnoticed.text_of_blank (blank : t.isBlank = true) : (g t).text = t.text := by
  apply unnoticed.text
  intro isString
  rw [Token.isBlank, isString] at blank
  cases blank

theorem Unnoticed.blank_and (t : Token) (p : String → Bool) :
    ((g t).isBlank && p (g t).text) = (t.isBlank && p t.text) := by
  rw [unnoticed.isBlank]
  cases blank : t.isBlank with
  | false => rfl
  | true => rw [unnoticed.text_of_blank blank]

theorem Unnoticed.width_of_blank (blank : t.isBlank = true) : (g t).width = t.width := by
  rw [width, width, unnoticed.text_of_blank blank]

theorem Unnoticed.blankWidth (t : Token) : Expr.blankWidth (g t) = Expr.blankWidth t := by
  unfold Expr.blankWidth
  rw [unnoticed.isBlank]
  split
  · rename_i blank
    exact unnoticed.width_of_blank blank
  · rfl

theorem Unnoticed.width_and_isBlank (t : Token) (n : Nat) :
    (n = (g t).width ∧ (g t).isBlank = true) ↔ (n = t.width ∧ t.isBlank = true) := by
  rw [unnoticed.isBlank]
  refine and_congr_left fun blank => ?_
  rw [unnoticed.width_of_blank blank]

theorem Unnoticed.text_eq_comma (t : Token) : (g t).text = "," ↔ t.text = "," := by
  have spells : ∀ u : Token, u.text = "," ↔ u.operator? = some .comma := by
    intro u
    refine ⟨fun comma => ?_, fun comma => text_of_operator? comma⟩
    rw [Token.operator?, comma]
    decide
  rw [spells, spells, unnoticed.operator?]

theorem Unnoticed.solid (tokens : List Token) :
    (tokens.map g).filter (!·.isBlank) = (tokens.filter (!·.isBlank)).map g := by
  have same : (fun t : Token => !t.isBlank) ∘ g = fun t => !t.isBlank :=
    funext fun t => congrArg (!·) (unnoticed.isBlank t)
  rw [filter_map, same]

theorem Unnoticed.leading (tokens : List Token) : Expr.leading (tokens.map g) = Expr.leading tokens := by
  rw [Expr.leading, Expr.leading, head?_map]
  cases tokens.head? with
  | none => rfl
  | some t => rw [Option.map_some, Option.any_some, Option.any_some, unnoticed.isBlank]

theorem Unnoticed.trailing (tokens : List Token) :
    Expr.trailing (tokens.map g) = Expr.trailing tokens := by
  rw [Expr.trailing, Expr.trailing, ← map_reverse, unnoticed.leading]

theorem Unnoticed.kinds (tokens : List Token) :
    (tokens.map g).map Token.kind = tokens.map Token.kind := by
  rw [map_map]
  exact map_congr_left fun t _ => unnoticed.kind t

/-! ### The searches -/

theorem carried_checkBlanks (ts : List Token) :
    Carried id (checkBlanks src ts) (checkBlanks src (ts.map g)) := by
  induction ts with
  | nil => exact .read ()
  | cons t ts ih =>
    have tab : ((g t).isBlank && (g t).text.toList.contains '\t') =
        (t.isBlank && t.text.toList.contains '\t') :=
      unnoticed.blank_and t (·.toList.contains '\t')
    rw [map_cons, checkBlanks, checkBlanks, tab, unnoticed.is]
    split
    · exact .failed _ _
    · split
      · exact .failed _ _
      · exact ih

theorem carried_weigh (previous next : Option Token) (depth : Int) (t : Token) :
    Carried id (weigh src previous depth t next) (weigh src (previous.map g) depth (g t) (next.map g)) := by
  unfold weigh
  rw [unnoticed.operator?]
  cases previous with
  | none => exact .read none
  | some before =>
    cases t.operator? with
    | none => exact .read none
    | some op =>
      simp only
      split
      · exact .read none
      · cases next with
        | none => exact .failed _ _
        | some next =>
          simp only [Option.map_some, unnoticed.isBlank, unnoticed.blankWidth]
          split
          · exact .read none
          · split
            · exact .failed _ _
            · exact .read _

def Widest.mapToken (g : Token → Token) (w : Widest) : Widest := { w with token := g w.token }

theorem carried_widestFrom (previous : Option Token) (depth : Int) (i : Nat) (best : Option Widest)
    (ts : List Token) :
    Carried (Option.map (Widest.mapToken g)) (widestFrom src previous depth i best ts)
      (widestFrom src (previous.map g) depth i (best.map (Widest.mapToken g)) (ts.map g)) := by
  induction ts generalizing previous depth i best with
  | nil => exact .read best
  | cons t ts ih =>
    rw [map_cons, widestFrom_cons, widestFrom_cons, unnoticed.depthStep, head?_map]
    refine (carried_weigh unnoticed previous ts.head? _ t).bind fun found => ?_
    rw [better_map (h := Widest.mapToken g) (fun _ => rfl) fun _ _ => rfl]
    exact ih (some t) _ _ _

theorem carried_widest (tokens : List Token) :
    Carried (Option.map (Widest.mapToken g)) (widest src tokens) (widest src (tokens.map g)) :=
  carried_widestFrom unnoticed none 0 0 none tokens

theorem carried_callCommas (width i : Nat) (ts : List Token) :
    Carried id (callCommas width i ts) (callCommas width i (ts.map g)) := by
  have here : ∀ (t : Token) (next : Option Token),
      Carried id (cutsHere width t next) (cutsHere width (g t) (next.map g)) := by
    intro t next
    unfold cutsHere
    simp only [unnoticed.text_eq_comma]
    split
    · split
      · exact .read true
      · cases next with
        | none => exact .failed _ _
        | some next =>
          have same : ((g next).isBlank && (g next).width == width) =
              (next.isBlank && next.width == width) :=
            unnoticed.blank_and next (·.length == width)
          simp only [Option.map_some, same]
          exact .read _
    · exact .read false
  induction ts generalizing i with
  | nil => exact .read []
  | cons t ts ih =>
    rw [map_cons, callCommas_cons, callCommas_cons, head?_map]
    exact (here t ts.head?).bind fun cut => (ih (i + 1)).map fun commas => rfl

theorem listCommas_map (width : Nat) (depth : Int) (i : Nat) (ts : List Token) :
    listCommas width depth i (ts.map g) = listCommas width depth i ts := by
  fun_induction listCommas width depth i ts with
  | case1 => rfl
  | case2 => rfl
  | case3 depth i t next ts depth' rest comma ih =>
    rw [map_cons, map_cons, listCommas, if_pos, unnoticed.depthStep, ← map_cons, ih]
    rwa [unnoticed.operator?, unnoticed.depthStep, unnoticed.width_and_isBlank]
  | case4 depth i t next ts depth' rest other ih =>
    rw [map_cons, map_cons, listCommas, if_neg, unnoticed.depthStep, ← map_cons, ih]
    rwa [unnoticed.operator?, unnoticed.depthStep, unnoticed.width_and_isBlank]

theorem closesAtEnd_map (depth : Int) (ts : List Token) :
    closesAtEnd depth (ts.map g) = closesAtEnd depth ts := by
  induction ts generalizing depth with
  | nil => rfl
  | cons t ts ih =>
    rw [map_cons, closesAtEnd, closesAtEnd, unnoticed.depthStep, ih, isEmpty_map]

theorem indexStart?_map (tokens : List Token) (depth : Int) (stop : Nat) :
    indexStart? (tokens.map g) depth stop = indexStart? tokens depth stop := by
  have step : ∀ i : Nat, ((tokens.map g)[i]?.map Expr.depthStep).getD 0 =
      (tokens[i]?.map Expr.depthStep).getD 0 := by
    intro i
    rw [getElem?_map, Option.map_map]
    exact congrArg (fun d => (tokens[i]?.map d).getD 0) (funext unnoticed.depthStep)
  induction stop generalizing depth with
  | zero => rfl
  | succ i ih => rw [indexStart?, indexStart?, step, ih]

/-! ### The outermost form -/

omit unnoticed in
theorem slice_map (tokens : List Token) (start stop : Nat) :
    slice (tokens.map g) start stop = (slice tokens start stop).map g := by
  rw [slice, slice, map_drop, map_take]

omit unnoticed in
theorem cuts_map (tokens : List Token) (starts stops : List Nat) :
    cuts (tokens.map g) starts stops = (cuts tokens starts stops).map (List.map g) := by
  rw [cuts, cuts, map_map]
  exact map_congr_left fun p _ => slice_map tokens _ _

theorem carried_splitList (tokens : List Token) (leading trailing : Nat) :
    Carried (Split.mapTokens g) (splitList src tokens leading trailing)
      (splitList src (tokens.map g) leading trailing) := by
  unfold splitList
  rw [length_map, getElem?_map, getElem?_map]
  cases tokens[leading + 1]? with
  | none => exact .failed _ _
  | some first =>
    cases tokens[tokens.length - trailing - 2]? with
    | none => exact .failed _ _
    | some last =>
      simp only [Option.map_some, unnoticed.blankWidth, listCommas_map unnoticed]
      split
      · exact .failed _ _
      · split
        · rw [slice_map]
          exact .read (Split.list [_])
        · rw [cuts_map]
          exact .read (Split.list _)

theorem carried_splitAtom (tokens solids : List Token) (head : Token) (leading trailing : Nat) :
    Carried (Split.mapTokens g) (splitAtom src tokens solids head leading trailing)
      (splitAtom src (tokens.map g) (solids.map g) (g head) leading trailing) := by
  unfold splitAtom
  have ends : (solids.map g).getLast?.map kind = solids.getLast?.map kind := by
    rw [getLast?_map, Option.map_map]
    exact congrArg (solids.getLast?.map ·) (funext unnoticed.kind)
  rw [unnoticed.kind, ← map_tail, closesAtEnd_map unnoticed, ends, length_map]
  split
  · exact .failed _ _
  · split
    · exact carried_splitList unnoticed tokens leading trailing
    · split
      · dsimp only
        rw [indexStart?_map unnoticed]
        split
        · rw [slice_map, slice_map]
          exact .read (Split.index _ _)
        · exact .read (Split.value head)
      · exact .read (Split.value head)

theorem carried_splitOperator (tokens solids : List Token) (head : Token) (leading : Nat) (w : Widest) :
    Carried (Split.mapTokens g) (splitOperator src tokens solids head leading w)
      (splitOperator src (tokens.map g) (solids.map g) (g head) leading (w.mapToken g)) := by
  unfold splitOperator
  show Carried _ _ (if w.op = .comma then _ else _)
  split
  · rw [getElem?_map]
    have commas : Carried id (callCommas w.width 0 tokens)
        (callCommas (w.mapToken g).width 0 (tokens.map g)) := carried_callCommas unnoticed _ 0 tokens
    cases solids[1]? with
    | none =>
      simp only [Option.map_none, Bool.and_false]
      exact .failed _ _
    | some second =>
      simp only [Option.map_some, unnoticed.kind]
      split
      · exact .failed _ _
      · generalize callCommas w.width 0 tokens = r at commas ⊢
        generalize callCommas (w.mapToken g).width 0 (tokens.map g) = r' at commas ⊢
        cases commas with
        | failed f f' => exact .failed f f'
        | read commas =>
          simp only [cuts_map, length_map]
          exact .read (Split.call head _)
  · rw [← map_take, ← map_drop]
    exact .read (Split.binary w.op w.token _ _)

theorem carried_splitRest (tokens solids : List Token) (signed : Bool) (head : Token)
    (leading trailing : Nat) (w : Option Widest) :
    Carried (Split.mapTokens g) (splitRest src tokens solids signed head leading trailing w)
      (splitRest src (tokens.map g) (solids.map g) signed (g head) leading trailing
        (w.map (Widest.mapToken g))) := by
  have signs : Carried (Split.mapTokens g) (.ok (.unary head (tokens.drop (leading + 1))))
      (.ok (.unary (g head) ((tokens.map g).drop (leading + 1)))) := by
    rw [← map_drop]
    exact .read (Split.unary head _)
  cases w with
  | none => exact .ite rfl signs (carried_splitAtom unnoticed tokens solids head leading trailing)
  | some w =>
    refine .ite (congrArg (fun wide => signed && (w.op == .comma || wide)) ?_) signs
      (carried_splitOperator unnoticed tokens solids head leading w)
    rw [getElem?_map]
    cases tokens[leading + 1]? with
    | none => rfl
    | some t => exact unnoticed.blank_and t (fun text => decide (w.width < text.length))

theorem calls_map (name gap arg : Token) (w : Option Widest) :
    ((g name).is .name && (g gap).isBlank && startsArgument (g arg).kind &&
        exceeds (g gap).width (w.map (Widest.mapToken g))) =
      (name.is .name && gap.isBlank && startsArgument arg.kind && exceeds gap.width w) := by
  have width : ∀ n, exceeds n (w.map (Widest.mapToken g)) = exceeds n w := by
    intro n
    cases w <;> rfl
  rw [unnoticed.is, unnoticed.isBlank, unnoticed.kind, width]
  cases blank : gap.isBlank with
  | false => simp
  | true => rw [unnoticed.width_of_blank blank]

theorem carried_splitNamed (tokens solids : List Token) (signed : Bool) (head : Token)
    (leading trailing : Nat) (w : Option Widest) :
    Carried (Split.mapTokens g) (splitNamed src tokens solids signed head leading trailing w)
      (splitNamed src (tokens.map g) (solids.map g) signed (g head) leading trailing
        (w.map (Widest.mapToken g))) := by
  have rest : Carried _ (splitRest src _ _ _ _ _ _ _) _ :=
    carried_splitRest unnoticed tokens solids signed head leading trailing w
  unfold splitNamed
  rw [← map_drop]
  rcases tokens.drop (leading + (if signed then 1 else 0)) with _ | ⟨name, _ | ⟨gap, _ | ⟨arg, more⟩⟩⟩
  · exact rest
  · exact rest
  · exact rest
  · refine .ite (calls_map unnoticed name gap arg w) (.ite rfl ?_ ?_) rest
    · exact .read (Split.unaryCall head name (gap :: arg :: more))
    · exact .read (Split.call name [gap :: arg :: more])

theorem carried_split (tokens : List Token) :
    Carried (Split.mapTokens g) (split src tokens) (split src (tokens.map g)) := by
  by_cases some : tokens = []
  · rw [some]
    exact .failed _ _
  · rw [split_eq_bind some, split_eq_bind (by simpa using some), ← map_tail, ← map_dropLast]
    refine (carried_checkBlanks unnoticed _).bind fun _ => ?_
    rw [solid, solid, unnoticed.solid, unnoticed.kinds, unnoticed.leading, unnoticed.trailing]
    split
    · exact .read (Split.list [])
    · refine (carried_widest unnoticed tokens).bind fun w => ?_
      rw [head?_map]
      cases (tokens.filter (!·.isBlank)).head? with
      | none => exact .failed _ _
      | some head =>
        simp only [Option.map_some, Option.elim_some, unnoticed.is]
        exact carried_splitNamed unnoticed tokens _ _ head _ _ w

theorem carried_build (fuel : Nat) (tokens : List Token) :
    Carried (mapTokens g) (build src fuel tokens) (build src fuel (tokens.map g)) := by
  induction fuel generalizing tokens with
  | zero => exact .failed _ _
  | succ fuel ih =>
    rw [build_succ, build_succ]
    refine (carried_split unnoticed tokens).bind fun s => ?_
    rw [Split.parts_mapTokens]
    refine (Carried.mapM ih).bind fun es => ?_
    rw [Split.expr_mapTokens]
    exact .read _

theorem carried_ofTokens (tokens : List Token) :
    Carried (mapTokens g) (ofTokens src tokens) (ofTokens src (tokens.map g)) := by
  rw [ofTokens, ofTokens, length_map]
  exact carried_build unnoticed _ tokens

end Unnoticed

/-! ## Texts that can stand for one another -/

/-- The token, with the text of a string literal cut down to the operator that it spells, if any. -/
def spelledToken (t : Token) : Token :=
  if t.is .string then { t with text := (t.operator?.map Operator.symbol).getD "" } else t

theorem ofSymbol?_symbol (op : Operator) : Operator.ofSymbol? op.symbol = some op := by
  cases op <;> decide

theorem unnoticed_spelledToken : Unnoticed spelledToken where
  kind t := by
    unfold spelledToken
    split <;> rfl
  text t other := by
    have literal : ¬t.is .string = true := fun is => other (eq_of_beq is)
    rw [spelledToken, if_neg literal]
  operator? t := by
    unfold spelledToken
    split
    · show Operator.ofSymbol? ((t.operator?.map Operator.symbol).getD "") = t.operator?
      cases t.operator? with
      | none => decide
      | some op => exact ofSymbol?_symbol op
    · rfl

/-- The two tokens are the same, but for their texts if they are string literals; these are related
by `R`. -/
structure Refill (R : String → String → Prop) (t t' : Token) : Prop where
  kind : t'.kind = t.kind
  line : t'.line = t.line
  col : t'.col = t.col
  literal : t.kind = .string → R t.text t'.text
  other : t.kind ≠ .string → t'.text = t.text

theorem Refill.same {t : Token} (other : t.kind ≠ .string) : Refill R t t :=
  ⟨rfl, rfl, rfl, fun isString => absurd isString other, fun _ => rfl⟩

/-- Two readings either both fail, or give expressions that differ in the texts of string literals only. -/
def SameButLiterals : Except Fault Expr → Except Fault Expr → Prop
  | .ok e, .ok e' => e.masked = e'.masked
  | .error _, .error _ => True
  | _, _ => False

theorem map_spelledToken_eq {ts ts' : List Token}
    (respects : ∀ a b, R a b → Operator.ofSymbol? a = Operator.ofSymbol? b)
    (refilled : List.Forall₂ (Refill R) ts ts') : ts.map spelledToken = ts'.map spelledToken := by
  induction refilled with
  | nil => rfl
  | @cons t t' ts ts' refill _ ih =>
    rw [map_cons, map_cons, ih]
    obtain ⟨kind, text, line, col⟩ := t
    obtain ⟨kind', text', line', col'⟩ := t'
    obtain ⟨rfl, rfl, rfl, literal, other⟩ := refill
    by_cases isString : kind' = .string
    · have same : Operator.ofSymbol? text = Operator.ofSymbol? text' := respects _ _ (literal isString)
      simp [spelledToken, is, isString, operator?, same]
    · rw [show text' = text from other isString]

theorem sameButLiterals_of_carried {r r' r'' : Except Fault Expr}
    (left : Carried (mapTokens spelledToken) r r'') (right : Carried (mapTokens spelledToken) r' r'') :
    SameButLiterals r r' := by
  have absorbs : ∀ t, Token.masked (spelledToken t) = t.masked := by
    intro t
    by_cases isString : t.kind = .string <;> simp [spelledToken, Token.masked, Token.is, isString]
  cases left with
  | failed f f' =>
    cases right
    trivial
  | read e =>
    generalize spelled : Except.ok (e.mapTokens spelledToken) = r'' at right
    cases right with
    | failed => cases spelled
    | read e' =>
      have same : e.mapTokens spelledToken = e'.mapTokens spelledToken := Except.ok.inj spelled
      show e.mapTokens Token.masked = e'.mapTokens Token.masked
      rw [← mapTokens_absorbs absorbs e, same, mapTokens_absorbs absorbs e']

/-- A string literal between two names, without blanks. -/
def between (text : String) : List Token :=
  [⟨.name, "x", 1, 0⟩, ⟨.string, text, 1, 3⟩, ⟨.name, "y", 1, 4⟩]

def readBetween (text : String) : Option Operator → Except Fault Expr
  | none => .ok (.value ⟨.name, "x", 1, 0⟩)
  | some op =>
    if op = .comma then .error (.plain .nothingToRead)
    else .ok (.binary op ⟨.string, text, 1, 3⟩ (.value ⟨.name, "x", 1, 0⟩) (.value ⟨.name, "y", 1, 4⟩))

theorem ofTokens_between (src : Source) (text : String) :
    ofTokens src (between text) = readBetween text (Operator.ofSymbol? text) := by
  cases spells : Operator.ofSymbol? text with
  | none =>
    have found : widest src (between text) = .ok none := by
      show widestFrom src (some ⟨.name, "x", 1, 0⟩) 0 1 none [⟨.string, text, 1, 3⟩, _] = _
      rw [widestFrom_cons, weigh_of_operator?_eq_none (t := ⟨.string, text, 1, 3⟩) spells]
      rfl
    have splits : split src (between text) = .ok (.value ⟨.name, "x", 1, 0⟩) := by
      rw [split_eq_bind (by rintro ⟨⟩)]
      rw [found]
      rfl
    exact ofTokens_of_parts splits .nil
  | some op =>
    have symbol : text = op.symbol := text_of_operator? (t := ⟨.string, text, 1, 3⟩) spells
    rw [symbol]
    cases op <;> rfl

theorem eq_of_readBetween (same : SameButLiterals (readBetween a o) (readBetween b o')) : o = o' := by
  unfold readBetween at same
  cases o with
  | none =>
    cases o' with
    | none => rfl
    | some op' =>
      dsimp only at same
      split at same <;> cases same
  | some op =>
    cases o' with
    | none =>
      dsimp only at same
      split at same <;> cases same
    | some op' =>
      dsimp only at same
      split at same
      · rename_i comma
        split at same
        · rename_i comma'
          rw [comma, comma']
        · cases same
      · split at same
        · cases same
        · exact congrArg some (Expr.binary.inj same).1

/-- Texts can stand for one another in all string literals of all expressions if and only if they spell the
same operators. -/
theorem literals_interchangeable_iff (R : String → String → Prop) :
    (∀ (src : Source) (ts ts' : List Token), List.Forall₂ (Refill R) ts ts' →
      SameButLiterals (ofTokens src ts) (ofTokens src ts')) ↔
    ∀ a b, R a b → Operator.ofSymbol? a = Operator.ofSymbol? b := by
  constructor
  · intro interchangeable a b related
    have refilled : List.Forall₂ (Refill R) (between a) (between b) := by
      refine .cons ?_ (.cons ?_ (.cons ?_ .nil))
      · exact .same (by decide)
      · exact ⟨rfl, rfl, rfl, fun _ => related, fun other => absurd rfl other⟩
      · exact .same (by decide)
    have same := interchangeable default _ _ refilled
    rw [ofTokens_between, ofTokens_between] at same
    exact eq_of_readBetween same
  · intro respects src ts ts' refilled
    have spelled : ∀ us, Carried (mapTokens spelledToken) (ofTokens src us)
        (ofTokens src (us.map spelledToken)) := carried_ofTokens unnoticed_spelledToken
    have right := spelled ts'
    rw [← map_spelledToken_eq respects refilled] at right
    exact sameButLiterals_of_carried (spelled ts) right

def printing (text : String) : List Token :=
  [⟨.name, "print", 1, 4⟩, ⟨.whitespace, " ", 1, 5⟩, ⟨.string, text, 1, 8⟩]

/-- The text of the literal decides whether `print "a"` and `print "+"` are read. -/
theorem plus_literal_not_read : List.Forall₂ (Refill fun _ _ => True) (printing "a") (printing "+") ∧
    ofTokens ⟨"main.db", "print \"a\""⟩ (printing "a") =
      .ok (.call ⟨.name, "print", 1, 4⟩ [.value ⟨.string, "a", 1, 8⟩]) ∧
    ¬SameButLiterals (ofTokens ⟨"main.db", "print \"a\""⟩ (printing "a"))
      (ofTokens ⟨"main.db", "print \"a\""⟩ (printing "+")) := by
  refine ⟨.cons (.same (by decide)) (.cons (.same (by decide)) (.cons ?_ .nil)), rfl, fun same => ?_⟩
  · exact ⟨rfl, rfl, rfl, fun _ => trivial, fun other => absurd rfl other⟩
  · cases same

end Expr

end DreamBerd
