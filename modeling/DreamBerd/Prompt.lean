import DreamBerd.Program

/-!
# The prompt

At the prompt a program is typed line by line. A line that leaves a scope open is continued by the
lines after it. `Prompt.start` begins a session, and `Prompt.feed` handles one thing that is typed.
-/

namespace DreamBerd

/-- What comes from the keyboard at the prompt. -/
inductive Typed where
  | line (s : String)
  | event (e : Event)
  | interrupt

/-- The state of a session: the lines of an unfinished input, the last one first, and the number of
scopes that they leave open. -/
structure Prompt where
  context : Context
  pending : List (String × List Token)
  layers : Int

namespace Prompt

def file : String := "__repl__"

def indentation (layers : Int) : String := blanks (3 * layers.toNat)

def sign : String := Ansi.yellow ++ ">" ++ Ansi.reset ++ " "

def ask (layers : Int) : Run Unit := do
  Run.emit (indentation layers ++ sign)
  modify fun w => { w with pages := w.pages ++ [w.output], output := "" }

/-- The number of scopes that a line opens, less those that it closes. -/
def opened (tokens : List Token) : Int :=
  (tokens.filter (·.kind == .lCurly)).length - (tokens.filter (·.kind == .rCurly)).length

/-- A line that starts with closing braces is shown again, further to the left. -/
def kickBack (layers : Int) (line : String) : String :=
  let braces := ((Text.strip line).toList.takeWhile (· == Char.ofNat 125)).length
  if braces = 0 then ""
  else "\x1b[1A\r" ++ indentation (layers - braces) ++ sign ++ line ++ indentation layers ++ "\n"

/-- A single name is printed. -/
def expand (tokens : List Token) : List Token :=
  match tokens.filter (!·.isBlank) with
  | [t] =>
    if t.kind == .name then
      [⟨.name, "print", -1, -1⟩, ⟨.whitespace, " ", -1, -1⟩, t, ⟨.bang, "!", -1, -1⟩]
    else tokens
  | _ => tokens

/-- The text and the tokens of an input, from its lines, the last one first. -/
def gather : List (String × List Token) → String × List Token
  | lines => lines.foldl
      (fun inner line => (line.1 ++ inner.1, expand (line.2 ++ inner.2))) ("", [])

/-- Tell of a fault; gives up on those that are not complaints. -/
def tell (f : Fault) : Run Unit := do
  match f with
  | .report r => Run.emit (r.text ++ "\n")
  | .plain c => Run.emit (Ansi.red ++ "\n" ++ c.message ++ "\n" ++ Ansi.reset ++ "\n")
  | f => throw f

def start : Run Prompt := do
  let x ← Run.openPart ⟨file, ""⟩ .empty
  let c ← Run.outermost x
  ask 0
  return ⟨c, [], 0⟩

def runInput (i : Interpreter) (c : Context) (text : String) (tokens : List Token) : Run Unit := do
  let code ← Run.loadCode (← Run.ofExcept (Clause.ofTokens ⟨file, text⟩ tokens))
  match c.scopes.getLast? with
  | some x => Run.noteStarted x
  | none => pure ()
  let _ ← i.run c code

def enter (i : Interpreter) (p : Prompt) (line : String) : Run Prompt := do
  let tokens ← Run.ofExcept (Source.tokens ⟨file, line⟩)
  let layers := p.layers + opened tokens
  if layers < 0 then throw (.report ⟨.tooManyClosingBraces, .nowhere⟩)
  Run.emit (kickBack p.layers line)
  let pending := (line, tokens) :: p.pending
  if layers = 0 then
    let (text, tokens) := gather pending
    runInput i p.context text tokens
    return { p with pending := [], layers := 0 }
  else return { p with pending, layers }

/-- Handle what is typed, and ask for the next line. -/
def feed (i : Interpreter) (p : Prompt) : Typed → Run Prompt
  | .event e => do
    Run.deliver i e
    return p
  | .interrupt => do
    Run.emit "\n"
    ask 0
    return { p with pending := [], layers := 0 }
  | .line s => do
    let p ← tryCatch (enter i p s) fun f => do
      tell f
      return { p with pending := [], layers := 0 }
    ask p.layers
    return p

def feedAll (i : Interpreter) (p : Prompt) : List Typed → Run Unit
  | [] => Run.emit "\n"
  | t :: ts => do feedAll i (← feed i p t) ts

def session (i : Interpreter) (typed : List Typed) : Run Unit := do
  feedAll i (← start) typed

end Prompt

end DreamBerd
