import Scriptlet.Tree

/-!
# Parsers over tokens

A parser takes tokens from the front of a list and gives a result with the tokens that are left, or one
syntax error.  The list holds neither comments nor end marks: its end is the end of the program.

Two means of repetition suffice for the grammar.  `loop` repeats a step for as long as it yields
something; as a step that does so has taken a token, the number of tokens at the start bounds the number
of turns.  Nested constructs are parsed by recursion on a nesting limit.
-/

namespace Scriptlet.Grammar

/-- What is wrong with a program.  Where a token stands for what was found, no token means the end of the
program. -/
inductive SyntaxError where
  /-- A token of one kind was needed. -/
  | expected (wanted : Kind) (got : Option Leaf)
  /-- An expression was needed. -/
  | expectedExpression (got : Option Leaf)
  /-- What stands before an equal sign cannot be assigned to. -/
  | invalidTarget (equals : Leaf)
  /-- Constructs are nested beyond the limit where a token stands. -/
  | tooDeep {got : Option Leaf}
  /-- The literal of a number token is no number. -/
  | badNumber (literal : Json)
  /-- There is no end mark, and none can be placed behind the last token. -/
  | noEnd

/-- A parser. -/
abbrev Parse (α : Type) := StateT (List Leaf) (Except SyntaxError) α

/-- Fails because whatever the next token belongs to is nested beyond the limit. -/
def beyondLimit {α : Type} : Parse α := fun tokens =>
  .error (@.tooDeep tokens.head?)

/-- Takes the next token if its kind is accepted. -/
def accept? (accepted : Kind → Bool) : Parse (Option Leaf) := fun tokens =>
  match tokens with
  | [] => .ok (none, [])
  | t :: rest => if accepted t.kind then .ok (some t, rest) else .ok (none, t :: rest)

/-- Takes the next token, which must be of the given kind. -/
def expect (wanted : Kind) : Parse Leaf := fun tokens =>
  match tokens with
  | [] => .error (.expected wanted none)
  | t :: rest => if t.kind = wanted then .ok (t, rest) else .error (.expected wanted (some t))

/-- Whether the next token is of the given kind. -/
def isNext (kind : Kind) : Parse Bool := fun tokens =>
  .ok (tokens.head?.any (·.kind = kind), tokens)

/-- Repeats a step until it yields nothing, at most once for each token of `budget`. -/
def repeatWithin {α : Type} (step : α → Parse (Option α)) : (budget : List Leaf) → α → Parse α
  | [], a => pure a
  | _ :: budget, a => do
    match ← step a with
    | none => pure a
    | some a' => repeatWithin step budget a'

/-- Repeats a step until it yields nothing, starting from `a`. -/
def loop {α : Type} (step : α → Parse (Option α)) (a : α) : Parse α := do
  repeatWithin step (← get) a

/-- One or more items with a token of the given kind between any two. -/
def separated {α : Type} (separator : Kind) (item : Parse α) : Parse (List α) := do
  let first ← item
  let reversed ← loop (fun items => do
    match ← accept? (· = separator) with
    | none => return none
    | some _ => return some ((← item) :: items)) [first]
  return reversed.reverse

/-- The items up to a token of the given kind, which takes the next place, or up to the end. -/
def itemsUntil {α : Type} (stop : Kind) (item : Parse α) : Parse (List α) := do
  let reversed ← loop (fun items => do
    if (← get).isEmpty || (← isNext stop) then return none
    else return some ((← item) :: items)) []
  return reversed.reverse

end Scriptlet.Grammar
