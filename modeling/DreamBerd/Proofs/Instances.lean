import DreamBerd.Prompt
import DreamBerd.Proofs.PartRuns

/-!
# The one instance of a class

A class is marked as used up before its constructor is run, and even before the number of its arguments is
looked at. The mark is never taken back, be the constructor done or not (`Frames.classes`). At the prompt,
where a program goes on after a complaint, a call of a class that has failed is thus the last one that can make
an instance: all later calls are refused, though there is none (`failed_construction_uses_class`).
-/

namespace DreamBerd

def Spends (w w' : World) : Prop := ∀ n, w.store.Spent n → w'.store.Spent n

namespace Run

variable {k n : Nat} {w u : World} {c : Context} {site : Token} {args : List ValueRef} {i : Interpreter}

instance : IsPreorder World Spends where
  refl _ _ := id
  trans _ _ _ first second n spent := second n (first n spent)

instance : Edits Spends where
  aside same := same.spent
  madeValue _ _ _ := id
  element _ _ := id
  copied _ _ _ := id
  madeScope _ _ _ := id
  madeVariable _ _ _ := id
  named _ _ _ _ := id
  madeBoard _ _ := id
  edited _ _ _ _ _ := id

/-- Nothing makes a class as new. -/
@[reducible]
def Frames.classes : Frames :=
  .uniform Spends True (fun _ _ _ _ => id) (fun _ _ => id) (fun _ _ _ _ _ => id)
    fun _ => keeps_archiveVariable (R := Spends) (fun _ _ _ => id) _

/-- What can happen at the prompt once a line has come to an end. -/
inductive Onward : World → World → Prop
  | told (f : Fault) (w : World) : Onward w (leaves (Prompt.tell f) w)
  | asked (layers : Int) (w : World) : Onward w (leaves (Prompt.ask layers) w)
  | fed (k : Nat) (p : Prompt) (t : Typed) (w : World) : Onward w (leaves (Prompt.feed (interpreter k) p t) w)

theorem spends_tell (f : Fault) : Keeps Spends (Prompt.tell f) := by
  unfold Prompt.tell
  grind

theorem spends_ask (layers : Int) : Keeps Spends (Prompt.ask layers) :=
  keeps_bind keeps_emit fun _ _ _ => id

theorem spends_enter (k : Nat) (p : Prompt) (line : String) :
    Keeps Spends (Prompt.enter (interpreter k) p line) := by
  have framed := framed_interpreter .classes trivial k
  have runs : ∀ c text tokens, Keeps Spends (Prompt.runInput (interpreter k) c text tokens) := by
    intro c text tokens
    unfold Prompt.runInput
    have loaded := fun clauses => keeps_loadCode (R := Spends) clauses
    have ran := framed.run c
    have noted : ∀ x, Keeps Spends (noteStarted x) := fun x => keeps_modifySection rfl rfl
    grind
  unfold Prompt.enter
  grind

theorem spends_feed (k : Nat) (p : Prompt) (t : Typed) : Keeps Spends (Prompt.feed (interpreter k) p t) := by
  cases t with
  | line s =>
    refine keeps_bind (keeps_tryCatch (spends_enter k p s) fun f => ?_) fun p => ?_
    · exact keeps_bind (spends_tell f) fun _ => keeps_pure
    · exact keeps_bind (spends_ask _) fun _ => keeps_pure
  | event e =>
    have := framed_interpreter .classes trivial k
    exact keeps_bind (keeps_deliver (F := .classes) (q := ⟨0⟩)) fun _ => keeps_pure
  | interrupt => exact keeps_bind keeps_emit fun _ => keeps_bind (spends_ask 0) fun _ => keeps_pure

theorem Onward.spends (onward : Relation.ReflTransGen Onward w u) : Spends w u := by
  induction onward with
  | refl => exact fun _ => id
  | tail _ step ih =>
    refine IsTrans.trans _ _ _ ih ?_
    cases step with
    | told f => exact spends_tell f _
    | asked layers => exact spends_ask layers _
    | fed k p t => exact spends_feed k p t _

theorem callValue_construct : callValue i c site (.builtin (-1) (.construct n) false) args w =
    makeInstance i n args w := by
  rfl

theorem makeInstance_of_spent {cls : ClassCell} (found : w.store.classes[n]? = some cls)
    (made : cls.made = true) : makeInstance i n args w =
      .error (w.part.source.atLine (.secondInstance cls.name.shown) w.part.line) w := by
  refine (bind_ok store_ok).trans ?_
  simp only [found, made]
  rfl

theorem makeInstance_of_new {cls : ClassCell} (found : w.store.classes[n]? = some cls)
    (new : cls.made = false) : makeInstance i n args w = finishInstance i cls args { w with store :=
      { w.store with classes := w.store.classes.setIfInBounds n { cls with made := true } } } := by
  refine (bind_ok store_ok).trans ?_
  simp only [found, new]
  rfl

/-- Whatever comes of it, a call of a class uses the class up. -/
theorem spent_makeInstance (there : n < w.store.classes.size) :
    (leaves (makeInstance (interpreter k) n args) w).store.Spent n := by
  have := framed_interpreter .classes trivial k
  have found : w.store.classes[n]? = some w.store.classes[n] := Array.getElem?_eq_getElem there
  cases made : w.store.classes[n].made with
  | true =>
    rw [leaves, makeInstance_of_spent found made]
    exact ⟨_, found, made⟩
  | false =>
    have finishes : Keeps Spends (finishInstance (interpreter k) w.store.classes[n] args) :=
      keeps_finishInstance (F := .classes) (q := ⟨0⟩)
    rw [leaves, makeInstance_of_new found made]
    exact finishes _ n ⟨_, Array.getElem?_setIfInBounds_self_of_lt there, rfl⟩

/-- Once a class has been called, and be it that its constructor has failed, each later call is refused. -/
theorem failed_construction_uses_class (k : Nat) (c : Context) (site : Token) (args : List ValueRef)
    (there : n < w.store.classes.size) (onward : Relation.ReflTransGen Onward
      (leaves (callValue (interpreter k) c site (.builtin (-1) (.construct n) false) args) w) u)
    (i : Interpreter) (c' : Context) (site' : Token) (args' : List ValueRef) :
    ∃ cls, u.store.classes[n]? = some cls ∧
      callValue i c' site' (.builtin (-1) (.construct n) false) args' u =
        .error (u.part.source.atLine (.secondInstance cls.name.shown) u.part.line) u := by
  have spent : (leaves (callValue (interpreter k) c site (.builtin (-1) (.construct n) false) args) w).store.Spent
      n := by
    rw [leaves, callValue_construct]
    exact spent_makeInstance there
  obtain ⟨cls, found, made⟩ := Onward.spends onward n spent
  exact ⟨cls, found, callValue_construct.trans (makeInstance_of_spent found made)⟩

/-- A world with a class `A`, the constructor of which has one parameter beside the instance, and a number. -/
def classWorld : World :=
  { (default : World) with store := { Store.empty with
    classes := #[⟨⟨.name, "A", 1, 6⟩, ⟨0⟩, [], [], false⟩]
    values := #[.function ["this", "x"] [] false, .number (.int 5)]
    scopes := #[⟨[("A", .named "A" ⟨0⟩)]⟩] } }

def constructA (args : List ValueRef) : Run ValueRef :=
  callValue (interpreter 2) default ⟨.name, "A", 6, 0⟩ (.builtin (-1) (.construct 0) false) args

/-- With an argument the call would make an instance. Once it has failed for want of one, it does so no more. -/
theorem class_lost_without_instance :
    (∃ u, constructA [⟨1⟩] classWorld = .ok ⟨2⟩ u) ∧
    ∃ f u, constructA [] classWorld = .error f u ∧
      ∃ cls, constructA [⟨1⟩] (leaves (Prompt.ask 0) (leaves (Prompt.tell f) u)) =
        .error (u.part.source.atLine (.secondInstance cls) u.part.line)
          (leaves (Prompt.ask 0) (leaves (Prompt.tell f) u)) := by
  refine ⟨⟨_, rfl⟩, _, _, rfl, ?_⟩
  obtain ⟨cls, -, refused⟩ := failed_construction_uses_class (w := classWorld) 2 default
    ⟨.name, "A", 6, 0⟩ [] Nat.zero_lt_one (.tail (.single (.told _ _)) (.asked 0 _)) (interpreter 2) default
    ⟨.name, "A", 6, 0⟩ [⟨1⟩]
  exact ⟨_, refused⟩

end Run

end DreamBerd
