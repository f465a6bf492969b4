import DreamBerd.Clause.Read
import DreamBerd.Proofs.Failing

/-!
# Reading statements without a bound

`Clause.read` counts down the scopes it may still enter. The inside of a scope is shorter than the
statement that holds it, so the bound that `Clause.ofTokens` starts from is never used up:
`Clause.ofTokens_eq` unfolds the reader with `ofTokens` itself for the insides of scopes.
-/

namespace DreamBerd.Clause

open List

variable {tokens ts hintless : List Token} {f g : List Token → Except Fault (List Clause)}

/-! ## Statements are parts of the text -/

theorem sublist_of_mem_cutFrom {depth : Int} {current piece : List Token}
    (member : piece ∈ cutFrom depth current ts) : piece <+ current.reverse ++ ts := by
  induction ts generalizing depth current with
  | nil =>
    rw [cutFrom, mem_singleton] at member
    rw [member, append_nil]
  | cons t ts ih =>
    have moved : current.reverse ++ t :: ts = (t :: current).reverse ++ ts := by simp
    simp only [cutFrom] at member
    rw [moved]
    split at member
    · rcases mem_cons.mp member with rfl | later
      · exact sublist_append_left _ _
      · exact (ih later).trans (sublist_append_right _ _)
    · exact ih member

theorem trimSpace_sublist (ts : List Token) : trimSpace ts <+ ts := by
  have front : ts.dropWhile isSpace <+ ts := (dropWhile_suffix isSpace).sublist
  refine Sublist.trans (reverse_sublist.mp ?_) front
  rw [trimSpace, reverse_reverse]
  exact (dropWhile_suffix isSpace).sublist

theorem sublist_of_mem_statements {statement : List Token}
    (member : statement ∈ statements tokens) : statement <+ tokens := by
  obtain ⟨piece, cut, rfl⟩ := mem_map.mp (mem_filter.mp member).1
  exact (trimSpace_sublist piece).trans (sublist_of_mem_cutFrom cut)

variable {src : Source}

theorem dropHints_sublist {state : HintState} (dropped : dropHints src state ts = .ok hintless) :
    hintless <+ ts := by
  fun_induction dropHints src state ts generalizing hintless
  case case1 => cases dropped
  case case2 =>
    cases dropped
    exact Sublist.refl _
  case case3 ih | case4 ih | case7 ih | case8 ih => exact (ih dropped).cons _
  case case5 ih | case6 ih =>
    obtain ⟨rest, kept, rfl⟩ := map_eq_ok_iff.mp dropped
    exact (ih kept).cons_cons _

/-! ## The bound on scopes -/

/-- Only the inside of a scope is read again, and it is shorter than its statement. -/
theorem formsOf_congr (same : ∀ inner : List Token, inner.length < tokens.length → f inner = g inner) :
    formsOf src f tokens = formsOf src g tokens := by
  cases tokens with
  | nil => rfl
  | cons t ts =>
    unfold formsOf
    have shorter : ∀ start ending : Nat, (Expr.slice (t :: ts) (start + 1)
        ((t :: ts).length - ending - 1)).length < (t :: ts).length := by
      simp only [Expr.slice, length_drop, length_take, length_cons]
      omega
    simp only [same _ (shorter _ _)]

theorem readWith_congr (same : ∀ inner : List Token, inner.length < tokens.length → f inner = g inner) :
    readWith src f tokens = readWith src g tokens := by
  refine bind_congr fun _ => bind_congr_ok fun hintless split => mapM_congr fun ts member => ?_
  obtain ⟨statement, among, dropped⟩ := exists_of_mem_mapM split member
  have short : ts.length ≤ tokens.length :=
    ((dropHints_sublist dropped).trans (sublist_of_mem_statements among)).length_le
  rw [formsOf_congr fun inner shorter => same inner (Nat.lt_of_lt_of_le shorter short)]

theorem read_eq_read {fuel fuel' : Nat} (enough : tokens.length < fuel)
    (enough' : tokens.length < fuel') : read src fuel tokens = read src fuel' tokens := by
  induction fuel generalizing fuel' tokens with
  | zero => cases enough
  | succ fuel ih =>
    cases fuel' with
    | zero => cases enough'
    | succ fuel' =>
      apply readWith_congr
      intro inner shorter
      exact ih (by omega) (by omega)

theorem ofTokens_eq (tokens : List Token) :
    ofTokens src tokens = readWith src (ofTokens src) tokens := by
  apply readWith_congr
  intro inner shorter
  exact read_eq_read shorter (Nat.lt_succ_self inner.length)

end DreamBerd.Clause
