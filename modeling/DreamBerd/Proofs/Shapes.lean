import DreamBerd.Proofs.Parts
import Mathlib.Data.List.Chain

/-!
# Where the parts of an expression stand

`Expr.split` finds its cuts by counting positions. Read as lists, what it does is simple: the tokens of
the parts stand in the tokens of the whole one after the other, and between and around them stand only
the operator or the name, brackets, commas and blanks. `Shape` says so for each form, and
`shape_of_split` that it holds of every split whose parts are not empty, as the parts of an expression
that can be read are.

An expression is read if and only if it is split into parts that are read (`ofTokens_eq_ok_iff`), and
`ofTokens_induction` goes down from the whole to the parts.
-/

namespace DreamBerd

open List

def Token.isBracket (t : Token) : Bool := t.is .lSquare || t.is .rSquare

theorem Token.isBracket_of_kind {t : Token} (kind : t.kind = .lSquare ∨ t.kind = .rSquare) :
    t.isBracket = true := by
  rcases kind with kind | kind <;> simp [isBracket, is, kind]

namespace Expr

variable {src : Source} {tokens part ts whole : List Token} {s : Split} {head t last : Token}
  {i stop start fuel width c : Nat} {e : Expr} {depth : Int} {ps : List (List Token)} {w : Widest}
  {commas : List Nat} {signed : Bool} {es : List Expr}

def Spaced (tokens : List Token) : Prop :=
  tokens.IsChain fun a b => ¬(a.isBlank = true ∧ b.isBlank = true)

theorem Spaced.of_infix (spaced : Spaced tokens) (inside : part <:+: tokens) : Spaced part :=
  List.IsChain.infix spaced inside

/-! ## Lists with a token between every two -/

/-- Lists one after the other, with a token between every two. -/
def joined : List (List Token) → List Token → List Token
  | p :: ps, t :: ts => p ++ t :: joined ps ts
  | ps, [] => ps.flatten
  | [], _ => []

theorem flatten_sublist_joined (long : ps.length = ts.length + 1) :
    ps.flatten.Sublist (joined ps ts) := by
  induction ts generalizing ps with
  | nil => cases ps <;> exact List.Sublist.refl _
  | cons t ts ih =>
    cases ps with
    | nil => cases long
    | cons p ps => exact ((ih (Nat.succ.inj long)).cons t).append_left p

theorem mem_joined (member : t ∈ joined ps ts) : (∃ p ∈ ps, t ∈ p) ∨ t ∈ ts := by
  induction ts generalizing ps with
  | nil =>
    refine .inl (mem_flatten.mp ?_)
    cases ps <;> exact member
  | cons sep ts ih =>
    cases ps with
    | nil => cases member
    | cons p ps =>
      rcases mem_append.mp member with inside | later
      · exact .inl ⟨p, mem_cons_self, inside⟩
      · rcases mem_cons.mp later with rfl | later
        · exact .inr mem_cons_self
        · rcases ih later with ⟨q, among, inside⟩ | among
          · exact .inl ⟨q, mem_cons_of_mem p among, inside⟩
          · exact .inr (mem_cons_of_mem sep among)

/-! ## Slices -/

theorem lt_of_slice_ne_nil (full : slice tokens start stop ≠ []) : start < stop := by
  by_contra outside
  apply full
  rw [slice, drop_eq_nil_iff, length_take]
  omega

theorem take_append_slice_append_drop (ordered : start ≤ stop) :
    tokens.take start ++ slice tokens start stop ++ tokens.drop stop = tokens := by
  have front : tokens.take start = (tokens.take stop).take start := by
    rw [take_take, Nat.min_eq_left ordered]
  rw [slice, front, take_append_drop, take_append_drop]

theorem slice_length (start : Nat) : slice tokens start tokens.length = tokens.drop start := by
  rw [slice, take_length]

theorem slice_middle {front more : List Token} (whole : tokens = front ++ (t :: (part ++ more)))
    (length : stop = front.length + 1 + part.length) : slice tokens (front.length + 1) stop = part := by
  have framed : tokens = (front ++ [t]) ++ (part ++ more) := by simp [whole]
  have start : front.length + 1 = (front ++ [t]).length := by simp
  unfold slice
  rw [length, framed, start, ← length_append, ← append_assoc, take_left,
    drop_left]

theorem slice_at {middle : Nat} (first : start ≤ middle) (last : middle < stop)
    (here : tokens[middle]? = some t) :
    slice tokens start stop = slice tokens start middle ++ t :: slice tokens (middle + 1) stop := by
  have inside := (List.getElem?_eq_some_iff.mp here).1
  have cut : tokens.take stop = tokens.take middle ++ t :: (tokens.take stop).drop (middle + 1) := by
    have there : (tokens.take stop)[middle]? = some t := by
      rw [getElem?_take_of_lt last, here]
    have front : tokens.take middle = (tokens.take stop).take middle := by
      rw [take_take, Nat.min_eq_left (Nat.le_of_lt last)]
    obtain ⟨within, same⟩ := List.getElem?_eq_some_iff.mp there
    rw [front, ← same, ← drop_eq_getElem_cons within, take_append_drop]
  rw [slice, cut, slice, slice, drop_append_of_le_length]
  rw [length_take]
  omega

theorem joined_cuts (full : ∀ p ∈ cuts tokens (start :: commas) (commas ++ [stop]), p ≠ [])
    (spelled : ∀ c ∈ commas, ∃ t, tokens[c]? = some t ∧ t.text = ",") :
    start + 1 < stop ∧ ∃ separators : List Token, separators.length = commas.length ∧
      (∀ t ∈ separators, t.text = ",") ∧
      slice tokens (start + 1) stop =
        joined (cuts tokens (start :: commas) (commas ++ [stop])) separators := by
  induction commas generalizing start with
  | nil =>
    refine ⟨lt_of_slice_ne_nil (full _ mem_cons_self), [], rfl, ?_, ?_⟩
    · intro t none
      cases none
    · show slice tokens (start + 1) stop = [slice tokens (start + 1) stop].flatten
      simp
  | cons c commas ih =>
    have first := lt_of_slice_ne_nil (full _ mem_cons_self)
    obtain ⟨t, here, comma⟩ := spelled c mem_cons_self
    obtain ⟨last, separators, length, commas', whole⟩ :=
      ih ((forall_mem_cons.mp full).2)
        (forall_mem_cons.mp spelled).2
    refine ⟨by omega, t :: separators, by simp [length], ?_, ?_⟩
    · intro t' member
      rcases mem_cons.mp member with rfl | later
      · exact comma
      · exact commas' t' later
    · rw [slice_at (by omega) (by omega) here, whole]
      rfl

/-! ## The first and the last tokens -/

/-- The front of the tokens holds their first token other than a blank, and no second one. Where blanks
stand side by side it may hold blanks alone. -/
structure Opens (tokens front : List Token) (head : Token) : Prop where
  full : front ≠ []
  only : (solid front).Sublist [head]
  spaced : Spaced tokens → solid front = [head]

theorem opens_take (starts : (solid tokens).head? = some head) :
    Opens tokens (tokens.take (leading tokens + 1)) head := by
  rcases tokens with _ | ⟨t, ts⟩
  · cases starts
  · cases blank : t.isBlank with
    | false =>
      have same : t = head := by simpa [blank] using starts
      have front : (t :: ts).take (leading (t :: ts) + 1) = [t] := by simp [leading, blank]
      have single : solid [t] = [head] := by simp [blank, ← same]
      rw [front]
      exact ⟨cons_ne_nil _ _, by rw [single], fun _ => single⟩
    | true =>
      rcases ts with _ | ⟨t', ts⟩
      · simp [blank] at starts
      · have front : (t :: t' :: ts).take (leading (t :: t' :: ts) + 1) = [t, t'] := by
          simp [leading, blank]
        rw [front]
        cases blank' : t'.isBlank with
        | false =>
          have same : t' = head := by simpa [blank, blank'] using starts
          have single : solid [t, t'] = [head] := by simp [blank, blank', ← same]
          exact ⟨cons_ne_nil _ _, by rw [single], fun _ => single⟩
        | true =>
          refine ⟨cons_ne_nil _ _, by simp [blank, blank'], fun spaced => ?_⟩
          exact absurd ⟨blank, blank'⟩ (isChain_cons_cons.mp spaced).1

theorem Opens.eq_of_mem {front : List Token} (opens : Opens tokens front head) (member : t ∈ front)
    (isSolid : t.isBlank = false) : t = head :=
  mem_singleton.mp (opens.only.subset (mem_filter.mpr ⟨member, by simp [isSolid]⟩))

theorem blank_of_mem_take_leading (member : t ∈ tokens.take (leading tokens)) : t.isBlank = true := by
  rcases tokens with _ | ⟨t', ts⟩
  · cases member
  · cases blank : t'.isBlank with
    | false => simp [leading, blank] at member
    | true =>
      have same : t = t' := by simpa [leading, blank] using member
      rw [same, blank]

theorem solid_of_mem_drop (ends : (solid tokens).getLast? = some last)
    (member : t ∈ tokens.drop (tokens.length - trailing tokens - 1)) (isSolid : t.isBlank = false) :
    t = last := by
  have starts : (solid tokens.reverse).head? = some last := by
    rw [solid, filter_reverse, head?_reverse, ends]
  have opens := opens_take starts
  apply opens.eq_of_mem _ isSolid
  rw [take_reverse, mem_reverse]
  have same : tokens.length - (leading tokens.reverse + 1) = tokens.length - trailing tokens - 1 := by
    rw [trailing]
    omega
  rwa [same]

/-! ## Brackets -/

theorem kind_of_depthStep_pos (up : 0 < depthStep t) : t.kind = .lSquare := by
  unfold depthStep at up
  split at up
  · assumption
  · split at up <;> cases up

theorem kind_of_depthStep_neg (down : depthStep t < 0) : t.kind = .rSquare := by
  unfold depthStep at down
  split at down
  · cases down
  · split at down
    · assumption
    · cases down

theorem depthStep_le_one (t : Token) : depthStep t ≤ 1 := by
  unfold depthStep
  split
  · exact Int.le_refl 1
  · split <;> decide

theorem neg_one_le_depthStep (t : Token) : -1 ≤ depthStep t := by
  unfold depthStep
  split
  · decide
  · split <;> decide

theorem kind_of_closesAtEnd (opened : 0 < depth) (closes : closesAtEnd depth ts = true) :
    ∃ t, ts.getLast? = some t ∧ t.kind = .rSquare := by
  induction ts generalizing depth with
  | nil => cases closes
  | cons t ts ih =>
    have step := neg_one_le_depthStep t
    rw [closesAtEnd] at closes
    split at closes
    · rw [isEmpty_iff.mp closes]
      exact ⟨t, rfl, kind_of_depthStep_neg (by omega)⟩
    · obtain ⟨t', last, kind⟩ := ih (by omega) closes
      refine ⟨t', ?_, kind⟩
      cases ts with
      | nil => cases last
      | cons u ts => exact last

theorem kind_of_indexStart? (closed : depth < 0) (found : indexStart? tokens depth stop = some i) :
    ∃ t, tokens[i]? = some t ∧ t.kind = .lSquare := by
  induction stop generalizing depth with
  | zero => cases found
  | succ n ih =>
    rw [indexStart?] at found
    cases here : tokens[n]? with
    | none =>
      rw [here] at found
      split at found
      · rename_i done
        rw [Option.map_none, Option.getD_none] at done
        omega
      · exact ih (by simpa using closed) found
    | some t =>
      have step := depthStep_le_one t
      rw [here, Option.map_some, Option.getD_some] at found
      split at found
      · cases found
        exact ⟨t, here, kind_of_depthStep_pos (by omega)⟩
      · exact ih (by omega) found

/-! ## Operators and commas -/

theorem text_of_operator? {op : Operator} (spells : t.operator? = some op) : t.text = op.symbol := by
  have found := find?_some (show List.find? _ _ = some op from spells)
  exact (eq_of_beq found).symm

theorem spelled_of_mem_listCommas (rest : whole.drop i = ts)
    (member : c ∈ listCommas width depth i ts) : ∃ t, whole[c]? = some t ∧ t.text = "," := by
  fun_induction listCommas width depth i ts
  case case1 | case2 => cases member
  case case3 i t next ts depth _ comma ih =>
    rcases mem_cons.mp member with rfl | later
    · exact ⟨t, getElem?_of_drop rest, text_of_operator? comma.1⟩
    · exact ih (drop_succ_of_drop rest) later
  case case4 i t next ts depth _ _ ih =>
    exact ih (drop_succ_of_drop rest) member

theorem spelled_of_mem_callCommas (rest : whole.drop i = ts)
    (found : callCommas width i ts = .ok commas) (member : c ∈ commas) :
    ∃ t, whole[c]? = some t ∧ t.text = "," := by
  fun_induction callCommas width i ts generalizing commas
  case case1 =>
    cases found
    cases member
  case case2 comma _ ih | case4 comma _ _ _ _ ih =>
    obtain ⟨commas', more, rfl⟩ := map_eq_ok_iff.mp found
    rcases mem_cons.mp member with rfl | later
    · exact ⟨_, getElem?_of_drop rest, comma⟩
    · exact ih (drop_succ_of_drop rest) more later
  case case3 => cases found
  case case5 ih | case6 ih => exact ih (drop_succ_of_drop rest) found member

/-! ## Shapes -/

inductive Shape (tokens : List Token) : Split → List Token → Prop
  | value {head : Token} (starts : (solid tokens).head? = some head) :
      Shape tokens (.value head) (solid tokens).tail
  | empty (brackets : ∀ t ∈ tokens, t.isBlank = false → t.isBracket = true) : Shape tokens (.list []) []
  | list {front back : List Token} {head : Token} {items : List (List Token)} {separators : List Token}
      (whole : tokens = front ++ joined items separators ++ back)
      (long : items.length = separators.length + 1) (commas : ∀ t ∈ separators, t.text = ",")
      (opens : Opens tokens front head) (opening : head.isBracket = true)
      (closing : ∀ t ∈ back, t.isBlank = false → t.isBracket = true) :
      Shape tokens (.list items) separators
  | call {front : List Token} {name : Token} {args : List (List Token)} {separators : List Token}
      (whole : tokens = front ++ joined args separators)
      (long : args.length = separators.length + 1) (commas : ∀ t ∈ separators, t.text = ",")
      (opens : Opens tokens front name) : Shape tokens (.call name args) separators
  | index {front v i back : List Token} {bracket : Token}
      (whole : tokens = front ++ v ++ bracket :: (i ++ back))
      (blank : ∀ t ∈ front, t.isBlank = true) (opening : bracket.isBracket = true)
      (closing : ∀ t ∈ back, t.isBlank = false → t.isBracket = true) : Shape tokens (.index v i) []
  | binary {op : Operator} {t : Token} {l r : List Token} (whole : tokens = l ++ t :: r) :
      Shape tokens (.binary op t l r) []
  | unary {front e : List Token} {op : Token} (whole : tokens = front ++ e)
      (opens : Opens tokens front op) : Shape tokens (.unary op e) []
  | unaryCall {front arg : List Token} {op name : Token} (whole : tokens = front ++ name :: arg)
      (opens : Opens tokens front op) : Shape tokens (.unaryCall op name arg) []

theorem shape_of_splitList (starts : (solid tokens).head? = some head) (opening : head.kind = .lSquare)
    (ends : (solid tokens).getLast? = some last) (closing : last.kind = .rSquare)
    (splits : splitList src tokens (leading tokens) (trailing tokens) = .ok s)
    (full : ∀ p ∈ s.parts, p ≠ []) : ∃ others, Shape tokens s others := by
  have behind : ∀ t ∈ tokens.drop (tokens.length - trailing tokens - 1), t.isBlank = false →
      t.isBracket = true := by
    intro t member isSolid
    rw [solid_of_mem_drop ends member isSolid]
    exact Token.isBracket_of_kind (.inr closing)
  have bracket := Token.isBracket_of_kind (.inl opening : head.kind = .lSquare ∨ _)
  have stop : tokens.length - 1 - trailing tokens = tokens.length - trailing tokens - 1 := by omega
  unfold splitList at splits
  rw [stop] at splits
  split at splits
  · dsimp only at splits
    split at splits
    · cases splits
    · split at splits
      · cases splits
        have ordered := lt_of_slice_ne_nil (full _ mem_cons_self)
        refine ⟨[], .list ?_ rfl (fun t none => absurd none not_mem_nil) (opens_take starts) bracket
          behind⟩
        rw [joined, flatten_singleton, take_append_slice_append_drop (Nat.le_of_lt ordered)]
      · cases splits
        obtain ⟨ordered, separators, length, commas, joins⟩ := joined_cuts full
          fun c member => spelled_of_mem_listCommas drop_zero member
        refine ⟨separators, .list ?_ ?_ commas (opens_take starts) bracket behind⟩
        · rw [← joins, take_append_slice_append_drop (Nat.le_of_lt ordered)]
        · simp [cuts, length]
  · cases splits

theorem shape_of_splitAtom (starts : (solid tokens).head? = some head)
    (splits : splitAtom src tokens (solid tokens) head (leading tokens) (trailing tokens) = .ok s)
    (full : ∀ p ∈ s.parts, p ≠ []) : ∃ others, Shape tokens s others := by
  unfold splitAtom at splits
  split at splits
  · cases splits
  · split at splits
    · rename_i closes
      obtain ⟨last, ends, closing⟩ := kind_of_closesAtEnd Int.one_pos closes.2
      refine shape_of_splitList starts closes.1 ?_ closing splits full
      obtain ⟨more, spelled⟩ := head?_eq_some_iff.mp starts
      rw [spelled] at ends ⊢
      cases more with
      | nil => cases ends
      | cons t more => exact ends
    · split at splits
      · rename_i closed
        dsimp only at splits
        split at splits
        · rename_i i found
          cases splits
          obtain ⟨last, ends, closing⟩ := Option.map_eq_some_iff.mp closed
          obtain ⟨bracket, here, opening⟩ := kind_of_indexStart? (by decide) found
          have first := lt_of_slice_ne_nil (full _ mem_cons_self)
          have before := indexStart?_lt found
          have ordered : leading tokens ≤ tokens.length - trailing tokens - 1 := by omega
          have whole := @take_append_slice_append_drop tokens _ _ ordered
          rw [slice_at (Nat.le_of_lt first) before here, ← append_assoc, append_assoc,
            cons_append] at whole
          refine ⟨[], .index whole.symm (fun t => blank_of_mem_take_leading)
            (Token.isBracket_of_kind (.inl opening)) fun t member isSolid => ?_⟩
          rw [solid_of_mem_drop ends member isSolid]
          exact Token.isBracket_of_kind (.inr closing)
        · cases splits
          exact ⟨_, .value starts⟩
      · cases splits
        exact ⟨_, .value starts⟩

theorem shape_of_splitOperator (starts : (solid tokens).head? = some head)
    (found : widest src tokens = .ok (some w))
    (splits : splitOperator src tokens (solid tokens) head (leading tokens) w = .ok s)
    (full : ∀ p ∈ s.parts, p ≠ []) : ∃ others, Shape tokens s others := by
  unfold splitOperator at splits
  split at splits
  · extract_lets called at splits
    split at splits
    · cases splits
    · split at splits
      · cases splits
      · rename_i commas cut
        cases splits
        obtain ⟨-, separators, length, spelled, joins⟩ := joined_cuts full
          fun c member => spelled_of_mem_callCommas drop_zero cut member
        refine ⟨separators, .call ?_ ?_ spelled (opens_take starts)⟩
        · rw [← joins, slice_length, take_append_drop]
        · simp [cuts, length]
  · cases splits
    obtain ⟨inside, here⟩ := List.getElem?_eq_some_iff.mp (token_of_widest found)
    refine ⟨[], .binary ?_⟩
    rw [← here, ← drop_eq_getElem_cons inside, take_append_drop]

theorem shape_of_splitRest {w : Option Widest} (starts : (solid tokens).head? = some head)
    (found : widest src tokens = .ok w)
    (splits : splitRest src tokens (solid tokens) signed head (leading tokens) (trailing tokens) w =
      .ok s) (full : ∀ p ∈ s.parts, p ≠ []) : ∃ others, Shape tokens s others := by
  unfold splitRest at splits
  extract_lets outermost at splits
  split at splits
  · cases splits
    exact ⟨[], .unary (take_append_drop _ _).symm (opens_take starts)⟩
  · split at splits
    · exact shape_of_splitAtom starts splits full
    · exact shape_of_splitOperator starts found splits full

theorem shape_of_call {name gap arg : Token} {more : List Token} {called : Bool}
    (starts : (solid tokens).head? = some head)
    (opened : tokens.drop (leading tokens + (if signed = true then 1 else 0)) =
      name :: gap :: arg :: more)
    (calls : (name.is .name && gap.isBlank && startsArgument arg.kind && called) = true)
    (splits : (if signed = true then .ok (.unaryCall head name (gap :: arg :: more))
      else .ok (.call name [gap :: arg :: more]) : Except Fault Split) = .ok s) :
    ∃ others, Shape tokens s others := by
  have opens := opens_take starts
  split at splits
  · rename_i sign
    rw [if_pos sign] at opened
    cases splits
    refine ⟨[], .unaryCall ?_ opens⟩
    rw [← opened, take_append_drop]
  · rename_i unsigned
    rw [if_neg unsigned, Nat.add_zero] at opened
    cases splits
    have here := getElem?_of_drop opened
    have front : tokens.take (leading tokens + 1) = tokens.take (leading tokens) ++ [name] := by
      rw [take_add_one, here]
      rfl
    have isName : name.kind = .name := by
      simp only [Token.is, Bool.and_eq_true, beq_iff_eq] at calls
      exact calls.1.1.1
    have same : name = head := opens.eq_of_mem (by simp [front]) (by simp [Token.isBlank, isName])
    subst same
    refine ⟨[], .call ?_ rfl (fun t none => absurd none not_mem_nil) opens⟩
    rw [joined, flatten_singleton, ← drop_succ_of_drop opened, take_append_drop]

theorem shape_of_split (splits : split src tokens = .ok s) (full : ∀ p ∈ s.parts, p ≠ []) :
    ∃ others, Shape tokens s others := by
  have some : tokens ≠ [] := by
    rintro rfl
    cases splits
  rw [split_eq_bind some] at splits
  obtain ⟨-, -, splits⟩ := bind_eq_ok_iff.mp splits
  split at splits
  · rename_i brackets
    cases splits
    refine ⟨[], .empty fun t member isSolid => ?_⟩
    have among : t.kind ∈ (solid tokens).map Token.kind :=
      mem_map_of_mem (mem_filter.mpr ⟨member, by simp [isSolid]⟩)
    rw [brackets] at among
    exact Token.isBracket_of_kind (mem_pair.mp among)
  · obtain ⟨w, found, splits⟩ := bind_eq_ok_iff.mp splits
    cases starts : (solid tokens).head? with
    | none =>
      rw [starts] at splits
      cases splits
    | some head =>
      rw [starts, Option.elim_some, splitNamed] at splits
      split at splits
      · rename_i name gap arg more opened
        split at splits
        · rename_i calls
          exact shape_of_call starts opened calls splits
        · exact shape_of_splitRest starts found splits full
      · exact shape_of_splitRest starts found splits full

/-! ## Readings -/

theorem buildWith_eq_ok_iff {inner : List Token → Except Fault Expr} :
    buildWith src inner tokens = .ok e ↔ ∃ s es, split src tokens = .ok s ∧
      List.Forall₂ (fun p e => inner p = .ok e) s.parts es ∧ e = s.expr es := by
  refine bind_eq_ok_iff.trans (exists_congr fun s => ?_)
  rw [bind_eq_ok_iff, ← exists_and_left]
  refine exists_congr fun es => and_congr_right fun _ => and_congr mapM_eq_ok_iff ?_
  exact ⟨fun same => (Except.ok.inj same).symm, fun same => same ▸ rfl⟩

theorem ofTokens_eq_ok_iff : ofTokens src tokens = .ok e ↔ ∃ s es,
    split src tokens = .ok s ∧ List.Forall₂ (fun p e => ofTokens src p = .ok e) s.parts es ∧
      e = s.expr es := by
  rw [ofTokens_eq, buildWith_eq_ok_iff]

theorem ofTokens_of_parts (splits : split src tokens = .ok s)
    (read : List.Forall₂ (fun p e => ofTokens src p = .ok e) s.parts es) :
    ofTokens src tokens = .ok (s.expr es) :=
  ofTokens_eq_ok_iff.mpr ⟨s, es, splits, read, rfl⟩

theorem ne_nil_of_ofTokens (read : ofTokens src tokens = .ok e) : tokens ≠ [] := by
  rintro rfl
  cases read

theorem ofTokens_induction {motive : List Token → Expr → Prop}
    (step : ∀ tokens s others es, split src tokens = .ok s → Shape tokens s others →
      List.Forall₂ (fun p e => ofTokens src p = .ok e ∧ motive p e) s.parts es →
      motive tokens (s.expr es)) (read : ofTokens src tokens = .ok e) : motive tokens e := by
  induction length : tokens.length using Nat.strongRecOn generalizing tokens e with
  | ind n ih =>
    obtain ⟨s, es, splits, parts, rfl⟩ := ofTokens_eq_ok_iff.mp read
    have full := parts.imp fun p e read => And.intro (ne_nil_of_ofTokens read) read
    obtain ⟨others, shape⟩ := shape_of_split splits ((List.forall₂_and_left _ _).mp full).1
    refine step tokens s others es splits shape ?_
    have shorter : ∀ p ∈ s.parts, Part tokens p := fun p => isPart_of_mem_parts splits
    refine ((List.forall₂_and_left _ _).mpr ⟨shorter, parts⟩).imp fun p e one => ?_
    exact ⟨one.2, ih p.length (length ▸ one.1.2) one.2 rfl⟩

end Expr

end DreamBerd
