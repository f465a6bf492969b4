import DreamBerd.Proofs.DefaultNames
import DreamBerd.Proofs.Signatures

/-!
# Function headings

A heading such as `async fn add (a, b)` is a signature whose keywords are the predefined ones. Where a
signature has two forms, which of the two it is shows when the keywords are looked up: `resolve_definition`
says that with the predefined names the function has the name and the parameters that are written, and is
asynchronous if and only if the heading starts with `async`.
-/

namespace DreamBerd

open List Predefined

theorem Form.eq_function_of_outline {f : Statement} {keywords : List Token} {name : Token}
    {args : List Token} {isAsync : Bool} (same : f.outline = .function keywords name args () isAsync) :
    ∃ code, f = .function keywords name args code isAsync := by
  cases f <;> cases same
  exact ⟨_, rfl⟩

namespace Clause

variable {src : Source}

/-! ## Headings -/

structure FunctionWord extends Mark .name where
  listed : token.text ∈ functionWords

/-- The keyword in front of the keyword of an asynchronous function. -/
structure AsyncWord extends Mark .name where
  text : token.text = "async"

theorem FunctionWord.some (k : FunctionWord) : k.token.text.isEmpty = false := by
  rw [Bool.eq_false_iff]
  intro empty
  apply (sublist_of_mem_functionWords k.listed).2
  rw [String.isEmpty_iff.mp empty]
  rfl

theorem AsyncWord.some (a : AsyncWord) : a.token.text.isEmpty = false := by
  rw [a.text]
  decide

structure Heading where
  async? : Option AsyncWord
  keyword : FunctionWord
  name : Spelled
  parameters : Parameters

namespace Heading

variable (h : Heading)

def keywords : List Token := (h.async?.map (·.token)).toList ++ [h.keyword.token]

def isAsync : Bool := h.async?.isSome

/-- The tokens of a heading without blanks. -/
def solid : List Token := h.keywords ++ h.name.token :: h.parameters.tokens

def signature : Signature where
  async? := h.async?.map fun a => ⟨a.toMark, a.some⟩
  keyword := ⟨h.keyword.toMark, h.keyword.some⟩
  name := h.name
  parameters := h.parameters

theorem keywords_signature : h.signature.keywords = h.keywords := by
  rw [Signature.keywords, signature, Option.map_map]
  rfl

theorem solid_signature : h.signature.solid = h.solid := by
  rw [Signature.solid, keywords_signature]
  rfl

theorem forms_cases (code : List Clause) :
    (∃ rest, h.signature.forms code =
      .function h.keywords h.name.token h.parameters.names code h.isAsync :: rest) ∨
    ∃ a : AsyncWord, ∃ other, h.signature.forms code =
      [.function [a.token] h.keyword.token other code false,
        .function h.keywords h.name.token h.parameters.names code h.isAsync] := by
  rw [Signature.forms, signature, keywords, isAsync]
  cases h.async? with
  | none => rcases h.parameters.names with _ | ⟨p, _ | ⟨q, qs⟩⟩ <;> exact .inl ⟨_, rfl⟩
  | some a =>
    rcases h.parameters.names with _ | ⟨p, ps⟩
    · exact .inr ⟨a, [h.name.token], rfl⟩
    · exact .inl ⟨_, rfl⟩

end Heading

/-- A function with an arrow behind its heading. -/
structure Definition where
  heading : Heading
  /-- The heading with its blanks. -/
  front : List Token
  arrow : Mark .funcPoint
  body : Body
  layout : front.filter (!·.isBlank) = heading.solid
  starts : ∃ first, front.head? = some first ∧ first.isBlank = false

namespace Definition

variable (d : Definition)

def tokens : List Token := d.front ++ d.arrow.token :: d.body.tokens

def arrowed : Arrowed where
  signature := d.heading.signature
  front := d.front
  layout := by rw [d.layout, d.heading.solid_signature]
  starts := d.starts
  arrow := d.arrow
  body := d.body

theorem ofTokens_tokens {before after : List Token} {code : List Clause} (blankBefore : Blank before)
    (blankAfter : Blank after) (reads : d.body.code src = .ok code) :
    ofTokens src (before ++ (d.tokens ++ after)) = .ok [.mk (d.heading.signature.forms code)] :=
  d.arrowed.ofTokens_tokens blankBefore blankAfter reads

end Definition

end Clause

namespace Run

open Clause

/-! ## The choice of a form -/

section Fits

variable {w : World} {x : ScopeRef} {fs : List Statement} {name k : Token} {params : List Token}
  {code : Code} {isAsync : Bool} {f : Statement}

theorem classify_first (fit : fits [x] f w = .ok true w) :
    classify [x] (f :: fs) w = .ok (some (0, f)) w := by
  have first : firstFit [x] 0 (f :: fs) w = .ok (some 0) w := by
    rw [firstFit, bind_ok fit]
    rfl
  unfold classify
  rw [bind_ok first]
  rfl

theorem classify_second (unfit : fits [x] f w = .ok false w)
    (fit : fits [x] g w = .ok true w) : classify [x] (f :: g :: fs) w = .ok (some (1, g)) w := by
  have second : firstFit [x] 0 (f :: g :: fs) w = .ok (some 1) w := by
    rw [firstFit, bind_ok unfit, if_neg Bool.false_ne_true, firstFit, bind_ok fit]
    rfl
  unfold classify
  rw [bind_ok second]
  rfl

variable (known : ∀ word, leads word → Knows w x word)

include known

theorem fits_function (leading : leads k.text) :
    fits [x] (.function [k] name params code isAsync) w = .ok (isFunctionWord k.text) w :=
  (known k.text leading).isFunctionKeyword_eq leading

theorem fits_async_function (leading : leads a.text) (leading' : leads k.text) :
    fits [x] (.function [a, k] name params code isAsync) w =
      .ok (isFunctionWord k.text && ["async"].contains a.text) w := by
  have first := (known a.text leading).isKeyword_eq leading ["async"]
  have second := (known k.text leading').isFunctionKeyword_eq leading'
  exact (bind_ok first).trans ((bind_ok second).trans rfl)

theorem fits_heading (h : Heading) :
    fits [x] (.function h.keywords name params code isAsync) w = .ok true w := by
  have keyword : leads h.keyword.token.text := .inr h.keyword.listed
  have isWord : isFunctionWord h.keyword.token.text = true :=
    isFunctionWord_of_mem h.keyword.listed
  rw [Heading.keywords]
  cases h.async? with
  | none => exact (fits_function known keyword).trans (by rw [isWord])
  | some a =>
    refine (fits_async_function known (.inl a.text) keyword).trans ?_
    rw [isWord, a.text]
    rfl

theorem classify_heading {h : Heading} {code : List Clause}
    (same : fs.map Form.outline = (h.signature.forms code).map Form.outline) :
    ∃ n block, classify [x] fs w = .ok (some (n,
      .function h.keywords h.name.token h.parameters.names block h.isAsync)) w := by
  rcases h.forms_cases code with ⟨rest, forms⟩ | ⟨a, other, forms⟩
  · rw [forms] at same
    obtain ⟨f, fs', rfl, outline, -⟩ := map_eq_cons_iff.mp same
    obtain ⟨block, rfl⟩ := Form.eq_function_of_outline outline
    exact ⟨0, block, classify_first (fits_heading known h)⟩
  · rw [forms] at same
    obtain ⟨f, fs', rfl, outline, same'⟩ := map_eq_cons_iff.mp same
    obtain ⟨g, fs'', rfl, outline', -⟩ := map_eq_cons_iff.mp same'
    obtain ⟨_, rfl⟩ := Form.eq_function_of_outline outline
    obtain ⟨block, rfl⟩ := Form.eq_function_of_outline outline'
    have unfit : isFunctionWord a.token.text = false := by
      rw [a.text]
      decide
    refine ⟨1, block, classify_second ((fits_function known (.inl a.text)).trans ?_) (fits_heading known h)⟩
    rw [unfit]

end Fits

/-- A definition that can be read is resolved to a function with its name and its parameters, in order,
which is asynchronous if and only if its heading starts with `async`. -/
theorem resolve_definition (src : Source) (d : Definition) (w : World) {before after : List Token}
    {code : List Clause} (blankBefore : Blank before) (blankAfter : Blank after)
    (reads : d.body.code src = .ok code) :
    ∃ n block w', resolve src (before ++ (d.tokens ++ after)) w =
      .ok [some (n, .function d.heading.keywords d.heading.name.token d.heading.parameters.names block
        d.heading.isAsync)] w' := by
  obtain ⟨fs, x, w', same, known, resolved⟩ :=
    resolve_of_read (d.ofTokens_tokens blankBefore blankAfter reads) w
  obtain ⟨n, block, chosen⟩ := classify_heading known same
  refine ⟨n, block, w', ?_⟩
  rw [resolved, bind_ok chosen]
  rfl

/-- The function `async fn f => 1!`. -/
def asyncF : Definition where
  heading :=
    { async? := some ⟨⟨⟨.name, "async", 1, 4⟩, rfl⟩, rfl⟩
      keyword := ⟨⟨⟨.name, "fn", 1, 7⟩, rfl⟩, by decide⟩
      name := ⟨⟨⟨.name, "f", 1, 9⟩, rfl⟩, by decide⟩
      parameters := .none }
  front := [⟨.name, "async", 1, 4⟩, ⟨.whitespace, " ", 1, 5⟩, ⟨.name, "fn", 1, 7⟩,
    ⟨.whitespace, " ", 1, 8⟩, ⟨.name, "f", 1, 9⟩, ⟨.whitespace, " ", 1, 10⟩]
  arrow := ⟨⟨.funcPoint, "=>", 1, 12⟩, rfl⟩
  body := .expression [⟨.whitespace, " ", 1, 13⟩, ⟨.name, "1", 1, 14⟩] ⟨.bang, "!", 1, 15⟩
    (by simp [Unmarked, Flat, scopeStep, isTerminator, Token.is]) (.inl rfl)
  layout := rfl
  starts := ⟨_, rfl, rfl⟩

/-- `async fn f` is no function `fn` with the parameter `f`. -/
theorem resolve_asyncF : Blank [] ∧ (∃ code, asyncF.body.code default = .ok code) ∧
    ∃ n block w, resolve default ([] ++ (asyncF.tokens ++ [])) default =
      .ok [some (n, .function [⟨.name, "async", 1, 4⟩, ⟨.name, "fn", 1, 7⟩] ⟨.name, "f", 1, 9⟩ [] block
        true)] w := by
  have nothing : Blank [] := by simp [Blank]
  exact ⟨nothing, ⟨_, rfl⟩, resolve_definition default asyncF default nothing nothing rfl⟩

end Run

end DreamBerd
