import LetExit.Proofs.Requests
import LetExit.Proofs.TokenSequence

/-!
# The calls of a parser

A parser can be asked for a whole program, for a part of one, or for single tokens, in any order.
Most requests are served by making others: a program by statements, a statement by expressions and
expected tokens, these by consuming a token, and that by looking at it.  A `Parser.Call` is a
request made of a parser, by a user or inside another call, and `Parser.history` lists all calls of
a run in the order in which they return.

What is true of a run is shown once for all requests.  A relation between a parser, the calls made
from there, and the parser after them `Tracks` if it holds of the few operations that touch the
state and can be put together; then it holds of every history (`Parser.Tracks.history`).
-/

set_option autoImplicit false

namespace LetExit

namespace Parser

/-- What a parser can be asked for.  A binding and an exit statement are asked for behind their
keywords. -/
inductive Request where
  | parse
  | peek
  | next
  | expect (kind : Token.Kind)
  | statement
  | bind
  | exit
  | expression
deriving DecidableEq, Repr

/-- What a parser answers. -/
inductive Reply where
  /-- The token ahead, which stays unconsumed. -/
  | ahead (answer : Except Fault Token)
  | token (answer : Except Fault Token)
  | expr (answer : Except Fault Expr)
  | statement (answer : Except Fault Statement)
  | program (answer : Except Fault Program)

/-- The reply to a request, and the parser after it. -/
def serve (p : Parser) : Request → Reply × Parser
  | .parse => (.program p.parse.1, p.parse.2)
  | .peek => (.ahead (run peek p).1, (run peek p).2)
  | .next => (.token (run next p).1, (run next p).2)
  | .expect kind => (.token (run (expect kind) p).1, (run (expect kind) p).2)
  | .statement => (.statement (run statement p).1, (run statement p).2)
  | .bind => (.statement (run bindStatement p).1, (run bindStatement p).2)
  | .exit => (.statement (run exitStatement p).1, (run exitStatement p).2)
  | .expression => (.expr (run expression p).1, (run expression p).2)

/-- The parser after requests that are made one after the other. -/
def served (p : Parser) (requests : List Request) : Parser :=
  Requests.served serve p requests

/-- A request, and the parser of which it is made. -/
structure Call where
  request : Request
  before : Parser

namespace Call

/-- The reply to a call. -/
def reply (c : Call) : Reply :=
  (c.before.serve c.request).1

/-- The parser after a call. -/
def after (c : Call) : Parser :=
  (c.before.serve c.request).2

end Call

/-- The calls made by a step, and by another one that follows it unless it fails. -/
def andThen {α : Type} (step : Step α) (calls : Parser → List Call) (later : α → Parser → List Call)
    (p : Parser) : List Call :=
  calls p ++
    match run step p with
    | (.ok a, q) => later a q
    | (.error _, _) => []

/-- The calls made by consuming a token, which is looked at first. -/
def nextCalls (p : Parser) : List Call :=
  [⟨.peek, p⟩, ⟨.next, p⟩]

def expectCalls (kind : Token.Kind) (p : Parser) : List Call :=
  nextCalls p ++ [⟨.expect kind, p⟩]

def expressionCalls (p : Parser) : List Call :=
  nextCalls p ++ [⟨.expression, p⟩]

/-- The calls made inside a binding. -/
def bindParts : Parser → List Call :=
  andThen newName (expectCalls .identifier) fun _ =>
    andThen (expect .equals) (expectCalls .equals) fun _ =>
      andThen expression expressionCalls fun _ => expectCalls .semicolon

def bindCalls (p : Parser) : List Call :=
  bindParts p ++ [⟨.bind, p⟩]

/-- The calls made inside an exit statement. -/
def exitParts : Parser → List Call :=
  andThen (expect .parenOpen) (expectCalls .parenOpen) fun _ =>
    andThen expression expressionCalls fun _ =>
      andThen (expect .parenClose) (expectCalls .parenClose) fun _ => expectCalls .semicolon

def exitCalls (p : Parser) : List Call :=
  exitParts p ++ [⟨.exit, p⟩]

/-- The calls made behind the first token of a statement. -/
def restCalls (first : Token) (p : Parser) : List Call :=
  match first.kind with
  | .letWord => bindCalls p
  | .exitWord => exitCalls p
  | _ => []

def statementCalls (p : Parser) : List Call :=
  andThen next nextCalls restCalls p ++ [⟨.statement, p⟩]

/-- The calls made by the rounds of the loop that reads a program. -/
def rounds (p : Parser) : List Call :=
  match _hp : run peek p with
  | (.error _, _) => [⟨.peek, p⟩]
  | (.ok _, p') =>
    match _hs : run statement p' with
    | (.error _, _) => ⟨.peek, p⟩ :: statementCalls p'
    | (.ok _, p'') => ⟨.peek, p⟩ :: (statementCalls p' ++ rounds p'')
termination_by p.size
decreasing_by
  exact Nat.lt_of_lt_of_le (consumes_statement _ _ _ _hs) (keeps_peek _ _ _ _hp)

/-- All calls that a request leads to, itself the last. -/
def calls (p : Parser) : Request → List Call
  | .parse => rounds p ++ [⟨.parse, p⟩]
  | .peek => [⟨.peek, p⟩]
  | .next => nextCalls p
  | .expect kind => expectCalls kind p
  | .statement => statementCalls p
  | .bind => bindCalls p
  | .exit => exitCalls p
  | .expression => expressionCalls p

/-- All calls that requests lead to which are made one after the other. -/
def history (p : Parser) : List Request → List Call
  | [] => []
  | request :: later => p.calls request ++ (p.serve request).2.history later

/-- Later requests are made of the parser that the earlier ones leave. -/
theorem history_append (p : Parser) (earlier later : List Request) :
    p.history (earlier ++ later) = p.history earlier ++ (p.served earlier).history later := by
  induction earlier generalizing p with
  | nil => rfl
  | cons request earlier ih =>
    rw [List.cons_append, history, history, ih, List.append_assoc]
    rfl

/-- One round of the loop. -/
theorem rounds_eq (p : Parser) :
    rounds p = ⟨.peek, p⟩ ::
      match run peek p with
      | (.error _, _) => []
      | (.ok _, q) => statementCalls q ++
        match run statement q with
        | (.error _, _) => []
        | (.ok _, r) => rounds r := by
  fun_cases rounds p with
  | case1 fault after hpeek => rw [hpeek]
  | case2 token after hpeek fault last hstatement =>
    rw [hpeek]
    dsimp only
    rw [hstatement, List.append_nil]
  | case3 token after hpeek first last hstatement =>
    rw [hpeek]
    dsimp only
    rw [hstatement]

/-- The requests that touch the state of a parser only through other calls. -/
def Request.Delegates : Request → Prop
  | .peek => False
  | .next => False
  | .bind => False
  | _ => True

/-- A relation between a parser, the calls made from there, and the parser after them, which holds
of what touches the state and can be put together. -/
structure Tracks (R : Parser → List Call → Parser → Prop) : Prop where
  refl : ∀ p, R p [] p
  trans : ∀ {p q r : Parser} {earlier later : List Call}, R p earlier q → R q later r →
    R p (earlier ++ later) r
  peek : ∀ p, R p [⟨.peek, p⟩] (run peek p).2
  next : ∀ p, R p (nextCalls p) (run next p).2
  /-- A new name is declared before its binding is complete. -/
  declare : ∀ p x, p.declared.contains x = false →
    R p [] (p.withDeclared (p.declared.insert x false))
  bind : ∀ p calls, R p calls (run openBinding p).2 →
    R p (calls ++ [⟨.bind, p⟩]) (run bindStatement p).2
  close : ∀ p calls (request : Request), request.Delegates → R p calls (p.serve request).2 →
    R p (calls ++ [⟨request, p⟩]) (p.serve request).2

namespace Tracks

variable {R : Parser → List Call → Parser → Prop} (h : Tracks R)

include h

/-- Steps one after the other. -/
theorem andThen {α β : Type} {step : Step α} {f : α → Step β} {calls : Parser → List Call}
    {later : α → Parser → List Call} (hstep : ∀ p, R p (calls p) (run step p).2)
    (hlater : ∀ a p, R p (later a p) (run (f a) p).2) (p : Parser) :
    R p (andThen step calls later p) (run (step >>= f) p).2 := by
  have hfirst := hstep p
  rw [Parser.andThen, run_bind]
  rcases hrun : run step p with ⟨fault | a, q⟩
  · rw [hrun] at hfirst
    rwa [List.append_nil]
  · rw [hrun] at hfirst
    exact h.trans hfirst (hlater a q)

omit h in
/-- A step that ends with something that leaves the parser as it is. -/
theorem andThen_pure {α β : Type} {step : Step α} {f : α → Step β} {calls : Parser → List Call}
    (hstep : ∀ p, R p (calls p) (run step p).2) (hf : ∀ a p, (run (f a) p).2 = p) (p : Parser) :
    R p (calls p) (run (step >>= f) p).2 := by
  have hfirst := hstep p
  rw [run_bind]
  rcases hrun : run step p with ⟨fault | a, q⟩
  · rwa [hrun] at hfirst
  · rw [hrun] at hfirst
    rw [hf a q]
    exact hfirst

/-- A relation that tracks holds across an expected token, which is a token and a call that
returns. -/
theorem expect (kind : Token.Kind) (p : Parser) :
    R p (expectCalls kind p) (run (expect kind) p).2 := by
  apply h.close p (nextCalls p) (.expect kind) trivial
  apply andThen_pure h.next
  intro token q
  split <;> rfl

/-- A relation that tracks holds across an expression. -/
theorem expression (p : Parser) : R p (expressionCalls p) (run expression p).2 := by
  apply h.close p (nextCalls p) .expression trivial
  apply andThen_pure h.next
  intro token q
  split
  · rfl
  · rw [run_bind, run_get]
    dsimp only
    split <;> rfl
  · rfl

/-- A relation that tracks holds across a new name, declared or refused. -/
theorem newName (p : Parser) : R p (expectCalls .identifier p) (run newName p).2 := by
  have hexpect := h.expect .identifier p
  rw [Parser.newName, run_bind]
  rcases hrun : run (Parser.expect .identifier) p with ⟨fault | token, q⟩
  · rwa [hrun] at hexpect
  · rw [hrun] at hexpect
    dsimp only
    rw [run_bind, run_get]
    dsimp only
    split
    · exact hexpect
    · rename_i hnew
      have hdeclare := h.declare q token.content (eq_false_of_ne_true hnew)
      have hboth := h.trans hexpect hdeclare
      rw [List.append_nil] at hboth
      exact hboth

/-- A relation that tracks holds across a binding, whose parts are read before its name is
complete. -/
theorem bindCalls (p : Parser) : R p (bindCalls p) (run bindStatement p).2 := by
  apply h.bind
  apply h.andThen h.newName
  intro name
  apply h.andThen (h.expect .equals)
  intro _
  apply h.andThen h.expression
  intro value
  exact andThen_pure (h.expect .semicolon) fun _ _ => rfl

/-- A relation that tracks holds across an exit statement. -/
theorem exitCalls (p : Parser) : R p (exitCalls p) (run exitStatement p).2 := by
  apply h.close p (exitParts p) .exit trivial
  apply h.andThen (h.expect .parenOpen)
  intro _
  apply h.andThen h.expression
  intro status
  apply h.andThen (h.expect .parenClose)
  intro _
  exact andThen_pure (h.expect .semicolon) fun _ _ => rfl

/-- A relation that tracks holds across a statement of either form. -/
theorem statementCalls (p : Parser) : R p (statementCalls p) (run statement p).2 := by
  apply h.close p (Parser.andThen Parser.next nextCalls restCalls p) .statement trivial
  apply h.andThen h.next
  intro token q
  unfold restCalls
  cases token.kind with
  | letWord => exact h.bindCalls q
  | exitWord => exact h.exitCalls q
  | _ => exact h.refl q

/-- A relation that tracks holds across the loop over statements. -/
theorem rounds (p : Parser) : R p (rounds p) p.parse.2 := by
  fun_induction Parser.rounds p with
  | case1 p fault q hp =>
    have hpeek := h.peek p
    rw [hp] at hpeek
    rw [parse_eq, hp]
    cases fault <;> exact hpeek
  | case2 p token q hp fault r hs =>
    have hpeek := h.peek p
    have hstatement := h.statementCalls q
    rw [hp] at hpeek
    rw [hs] at hstatement
    rw [parse_eq, hp, ← run_statement_of_run_peek hp, hs]
    exact h.trans hpeek hstatement
  | case3 p token q hp first r hs ih =>
    have hpeek := h.peek p
    have hstatement := h.statementCalls q
    rw [hp] at hpeek
    rw [hs] at hstatement
    rw [parse_eq, hp, ← run_statement_of_run_peek hp, hs]
    exact h.trans hpeek (h.trans hstatement ih)

/-- A relation that tracks holds across every request. -/
theorem calls (p : Parser) (request : Request) :
    R p (p.calls request) (p.serve request).2 := by
  cases request with
  | parse => exact h.close p (Parser.rounds p) .parse trivial (h.rounds p)
  | peek => exact h.peek p
  | next => exact h.next p
  | expect kind => exact h.expect kind p
  | statement => exact h.statementCalls p
  | bind => exact h.bindCalls p
  | exit => exact h.exitCalls p
  | expression => exact h.expression p

/-- A relation that tracks holds across any number of requests. -/
theorem history (p : Parser) (requests : List Request) :
    R p (p.history requests) (p.served requests) := by
  induction requests generalizing p with
  | nil => exact h.refl p
  | cons request later ih => exact h.trans (h.calls p request) (ih (p.serve request).2)

end Tracks

end Parser

end LetExit
