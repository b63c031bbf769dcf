import LoxLang.Diagnostic

/-!
# Parsers

A parser reads tokens from the front of a list. Its reply holds a result or a failure, the tokens it left
and what it reported; a failure leaves the tokens from the offending one on, so reading can go on from there.
-/

namespace LoxLang

/-- Why a parser has no result. -/
inductive ParseFailure where
  /-- The token in front does not fit, which has been reported. -/
  | mismatch
  /-- The list ended without its end token. -/
  | pastEnd
  /-- The bound on nesting or repetition was too small. -/
  | exhausted
deriving DecidableEq

/-- What a parser makes of a list of tokens. -/
structure Reply (α : Type) where
  result : Except ParseFailure α
  rest : List Token
  diagnostics : List Diagnostic

/-- Reads a value of type `α` from the front of a list of tokens. -/
def Parser (α : Type) : Type :=
  List Token → Reply α

namespace Parser

variable {α β : Type}

/-- Reads nothing. -/
@[inline] protected def pure (a : α) : Parser α :=
  fun ts => ⟨.ok a, ts, []⟩

/-- Reads with `p`, then with the parser that its result chooses. -/
@[inline] protected def bind (p : Parser α) (f : α → Parser β) : Parser β := fun ts =>
  match p ts with
  | ⟨.error e, rest, ds⟩ => ⟨.error e, rest, ds⟩
  | ⟨.ok a, rest, ds⟩ =>
    let reply := f a rest
    { reply with diagnostics := ds ++ reply.diagnostics }

instance : Monad Parser where
  pure := Parser.pure
  bind := Parser.bind

/-- Gives up where it stands. -/
def fail (e : ParseFailure) : Parser α :=
  fun ts => ⟨.error e, ts, []⟩

/-- Hands the number of remaining tokens to a parser that needs a bound. One more than that number is enough
for anything that reads a token in each round. -/
@[inline] def sized (p : Nat → Parser α) : Parser α :=
  fun ts => p (ts.length + 1) ts

/-! ### One token

The list is never looked at beyond its first token. -/

/-- The token in front, which stays there. -/
def peek : Parser Token
  | [] => ⟨.error .pastEnd, [], []⟩
  | t :: ts => ⟨.ok t, t :: ts, []⟩

/-- Whether the end token is in front. -/
def atEnd : Parser Bool := do
  return (← peek).kind == .eof

/-- Whether a token of this kind is in front. -/
def check (kind : Kind) : Parser Bool := do
  return (← peek).kind == kind

/-- Takes the token in front if it is of one of these kinds. -/
def accept? (kinds : List Kind) : Parser (Option Token)
  | [] => ⟨.error .pastEnd, [], []⟩
  | t :: ts => if t.kind ∈ kinds then ⟨.ok (some t), ts, []⟩ else ⟨.ok none, t :: ts, []⟩

/-- Takes the token in front if it is of this kind. -/
def accept (kind : Kind) : Parser Bool := do
  return (← accept? [kind]).isSome

/-- Complains about a token and goes on. -/
def reportOn (t : Token) (cause : Cause) : Parser Unit :=
  fun ts => ⟨.ok (), ts, [.ofToken .parse cause t]⟩

/-- Complains about the token in front and goes on. -/
def report (cause : Cause) : Parser Unit := do
  reportOn (← peek) cause

/-- Complains about the token in front and gives up. -/
def reject (cause : Cause) : Parser α := do
  report cause
  fail .mismatch

/-- Takes a token of this kind, or gives up saying what stands missing. -/
def expect (kind : Kind) (expected : String) : Parser Token := do
  match ← accept? [kind] with
  | some t => return t
  | none => reject (.expectedToken expected)

/-! ### Repetition

The loops have a bound, which `sized` takes from the number of tokens that are left. -/

/-- Items while `more` holds, at most `n` rounds. -/
def whileM (more : Parser Bool) (item : Parser α) : Nat → Parser (List α)
  | 0 => fail .exhausted
  | n + 1 => do
    if ← more then
      let a ← item
      return a :: (← whileM more item n)
    else
      return []

/-- The most arguments a call and the most parameters a function should have. -/
def maxArguments : Nat := 255

/-- Items separated by commas, at least one, when `count` of them have been read. Each one beyond the limit is
reported and read nevertheless. -/
def commaSeparated (tooMany : Cause) (item : Parser α) : Nat → Nat → Parser (List α)
  | 0, _ => fail .exhausted
  | n + 1, count => do
    if maxArguments ≤ count then
      report tooMany
    let a ← item
    if ← accept .comma then
      return a :: (← commaSeparated tooMany item n (count + 1))
    else
      return [a]

/-- Items separated by commas up to a closing parenthesis, which stays. -/
def untilParen (tooMany : Cause) (item : Parser α) : Parser (List α) := do
  if ← check .rightParen then
    return []
  else
    sized fun n => commaSeparated tooMany item n 0

end Parser

end LoxLang
