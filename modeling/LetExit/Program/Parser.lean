import LetExit.Program
import LetExit.Token.Stream
import Std.Data.ExtTreeMap

/-!
# Reading programs

The grammar is

    program    := statement*
    statement  := "let" name "=" expression ";" | "exit" "(" expression ")" ";"
    expression := integer | name

A parser takes tokens one at a time with one token of lookahead.  It also keeps the
names declared so far: a name may be declared only once, and it can be referred to
after its `let` statement is complete, so never inside it.

Every step answers a result or a fault and leaves a parser that can go on.  Tokens
taken before a fault stay taken, and names declared before it stay declared.
-/

set_option autoImplicit false

namespace LetExit

/-- The names bound by `let`, each with whether its statement is complete. -/
abbrev Declarations := Std.ExtTreeMap String Bool

/-- The state of parsing: the tokens to come, the token taken from them and not yet consumed, the
names declared so far, and how many tokens have been taken from the stream. -/
structure Parser where
  stream : TokenStream
  peeked : Option Token
  declared : Declarations
  pulled : Nat

namespace Parser

/-- A parser at the start of a stream of tokens. -/
def ofStream (stream : TokenStream) : Parser :=
  ⟨stream, none, ∅, 0⟩

/-- A parser at the start of a text. -/
def ofInput (input : Input) : Parser :=
  ofStream (.lexer (.ofInput input))

/-- A step of parsing, which answers a result or a fault and changes the parser. -/
abbrev Step := ExceptT Fault (StateM Parser)

/-- The answer of a step and the parser after it. -/
def run {α : Type} (step : Step α) (p : Parser) : Except Fault α × Parser :=
  StateT.run (ExceptT.run step) p

/-- The step with a given answer and effect. -/
def Step.of {α : Type} (f : Parser → Except Fault α × Parser) : Step α :=
  ExceptT.mk f

/-- The next token, which stays unconsumed. -/
def peek : Step Token :=
  .of fun p =>
    match p.peeked with
    | some token => (.ok token, p)
    | none =>
      match p.stream.next with
      | (.ok token, rest) => (.ok token, ⟨rest, some token, p.declared, p.pulled + 1⟩)
      | (.error fault, rest) => (.error fault, ⟨rest, none, p.declared, p.pulled⟩)

/-- Consumes the next token, which has to exist. -/
def next : Step Token :=
  .of fun p =>
    match run peek p with
    | (.ok token, p') => (.ok token, { p' with peeked := none })
    | (.error .endOfInput, p') => (.error .tokensExhausted, p')
    | (.error fault, p') => (.error fault, p')

/-- Consumes the next token, which has to be of the given kind. -/
def expect (kind : Token.Kind) : Step Token := do
  let token ← next
  if token.kind = kind then return token else throw (.expectedToken kind token)

/-- Reads an expression. -/
def expression : Step Expr := do
  let token ← next
  match token.kind with
  | .integer => return .literal token.value
  | .identifier =>
    if (← get).declared[token.content]? = some true then return .name token.content
    else throw (.undeclaredReference token.content token)
  | _ => throw (.unexpectedToken token)

/-- Records whether the statement that binds a name is complete. -/
def declare (name : String) (complete : Bool) : Step Unit :=
  modify fun p => { p with declared := p.declared.insert name complete }

/-- Reads the name of a binding, which has to be new, and declares it. -/
def newName : Step String := do
  let token ← expect .identifier
  if (← get).declared.contains token.content then
    throw (.duplicateDeclaration token.content token)
  else
    declare token.content false
    return token.content

/-- Reads a binding after its keyword, up to the moment when its name is made complete. -/
def openBinding : Step (String × Expr) := do
  let name ← newName
  let _ ← expect .equals
  let value ← expression
  let _ ← expect .semicolon
  return (name, value)

/-- Reads a binding after its keyword. -/
def bindStatement : Step Statement := do
  let (name, value) ← openBinding
  declare name true
  return .bind name value

/-- Reads an exit statement after its keyword. -/
def exitStatement : Step Statement := do
  let _ ← expect .parenOpen
  let status ← expression
  let _ ← expect .parenClose
  let _ ← expect .semicolon
  return .exit status

/-- Reads a statement. -/
def statement : Step Statement := do
  let token ← next
  match token.kind with
  | .letWord => bindStatement
  | .exitWord => exitStatement
  | _ => throw (.unexpectedToken token)

/-- A bound on the tokens not yet consumed. -/
def size (p : Parser) : Nat :=
  p.stream.size + p.peeked.toList.length

/-- A step that never leaves more tokens than it found, where it succeeds. -/
def Keeps {α : Type} (step : Step α) : Prop :=
  ∀ p p' a, run step p = (.ok a, p') → p'.size ≤ p.size

/-- A step that consumes a token where it succeeds. -/
def Consumes {α : Type} (step : Step α) : Prop :=
  ∀ p p' a, run step p = (.ok a, p') → p'.size < p.size

/-- A step that is given by its answer and effect runs as given. -/
theorem run_of {α : Type} (f : Parser → Except Fault α × Parser) (p : Parser) :
    run (.of f) p = f p :=
  rfl

/-- Steps run one after the other, up to the first fault. -/
theorem run_bind {α β : Type} (step : Step α) (f : α → Step β) (p : Parser) :
    run (step >>= f) p =
      match run step p with
      | (.ok a, p') => run (f a) p'
      | (.error fault, p') => (.error fault, p') := by
  change (ExceptT.bindCont f (run step p).1 (run step p).2) = _
  rcases run step p with ⟨_ | _, _⟩ <;> rfl

/-- A step that only answers changes nothing. -/
theorem run_pure {α : Type} (a : α) (p : Parser) : run (pure a : Step α) p = (.ok a, p) :=
  rfl

/-- A fault leaves the parser as it is. -/
theorem run_throw {α : Type} (fault : Fault) (p : Parser) :
    run (throw fault : Step α) p = (.error fault, p) :=
  rfl

/-- Looking at the state does not change it. -/
theorem run_get (p : Parser) : run (get : Step Parser) p = (.ok p, p) :=
  rfl

/-- A step that consumes a token does not leave more tokens. -/
theorem Consumes.keeps {α : Type} {step : Step α} (h : Consumes step) : Keeps step :=
  fun p p' a hr => Nat.le_of_lt (h p p' a hr)

/-- What follows a token need not consume one. -/
theorem Consumes.bind {α β : Type} {step : Step α} {f : α → Step β} (h : Consumes step)
    (hf : ∀ a, Keeps (f a)) : Consumes (step >>= f) := by
  intro p p' b hr
  rw [run_bind] at hr
  split at hr
  · rename_i a m hm
    exact Nat.lt_of_le_of_lt (hf a m p' b hr) (h p m a hm)
  · simp at hr

/-- Steps that do not leave more tokens can be put together. -/
theorem Keeps.bind {α β : Type} {step : Step α} {f : α → Step β} (h : Keeps step)
    (hf : ∀ a, Keeps (f a)) : Keeps (step >>= f) := by
  intro p p' b hr
  rw [run_bind] at hr
  split at hr
  · rename_i a m hm
    exact Nat.le_trans (hf a m p' b hr) (h p m a hm)
  · simp at hr

/-- An answer alone leaves all tokens. -/
theorem keeps_pure {α : Type} (a : α) : Keeps (pure a : Step α) := by
  intro p p' b hr
  simp only [run_pure, Prod.mk.injEq] at hr
  exact Nat.le_of_eq (congrArg size hr.2.symm)

/-- A fault is no success, so there is nothing to keep. -/
theorem keeps_throw {α : Type} (fault : Fault) : Keeps (throw fault : Step α) := by
  intro p p' b hr
  simp [run_throw] at hr

/-- Looking at the state leaves all tokens. -/
theorem keeps_get : Keeps (get : Step Parser) := by
  intro p p' b hr
  simp only [run_get, Prod.mk.injEq] at hr
  exact Nat.le_of_eq (congrArg size hr.2.symm)

/-- A declaration leaves all tokens. -/
theorem keeps_declare (name : String) (complete : Bool) : Keeps (declare name complete) := by
  intro p p' b hr
  have hp : p' = { p with declared := p.declared.insert name complete } :=
    (congrArg Prod.snd hr).symm
  exact Nat.le_of_eq ((congrArg size hp).trans rfl)

/-- The token that is taken for the lookahead is still counted. -/
theorem keeps_peek : Keeps peek := by
  intro p p' t hr
  simp only [peek, run_of] at hr
  split at hr
  · simp only [Prod.mk.injEq] at hr
    exact Nat.le_of_eq (congrArg size hr.2.symm)
  · rename_i hp
    split at hr
    · rename_i token rest hs
      have := TokenStream.size_lt_of_next_ok hs
      simp only [Prod.mk.injEq] at hr
      simp only [← hr.2, size, hp, Option.toList_some, Option.toList_none, List.length_cons,
        List.length_nil]
      omega
    · simp at hr

/-- A token ahead stands in the lookahead. -/
theorem peeked_of_run_peek {p p' : Parser} {t : Token} (hr : run peek p = (.ok t, p')) :
    p'.peeked = some t := by
  simp only [peek, run_of] at hr
  split at hr
  · simp_all
  · split at hr
    · simp only [Prod.mk.injEq, Except.ok.injEq] at hr
      rw [← hr.2, ← hr.1]
    · simp at hr

/-- The token that `next` answers is consumed. -/
theorem consumes_next : Consumes next := by
  intro p p' t hr
  simp only [next, run_of] at hr
  split at hr
  · rename_i token m hm
    have hs := keeps_peek p m token hm
    have hp := peeked_of_run_peek hm
    simp only [Prod.mk.injEq] at hr
    simp only [size, hp, Option.toList_some, List.length_cons, List.length_nil] at hs
    simp only [← hr.2, size, Option.toList_none, List.length_nil]
    omega
  · simp at hr
  · simp at hr

/-- An expected token is consumed. -/
theorem consumes_expect (kind : Token.Kind) : Consumes (expect kind) := by
  refine consumes_next.bind fun token => ?_
  split
  · exact keeps_pure token
  · exact keeps_throw _

/-- An expression is a token that is consumed. -/
theorem consumes_expression : Consumes expression := by
  refine consumes_next.bind fun token => ?_
  split
  · exact keeps_pure _
  · refine keeps_get.bind fun p => ?_
    split
    · exact keeps_pure _
    · exact keeps_throw _
  · exact keeps_throw _

/-- A new name is a token that is consumed. -/
theorem consumes_newName : Consumes newName := by
  refine (consumes_expect _).bind fun token => keeps_get.bind fun p => ?_
  split
  · exact keeps_throw _
  · exact (keeps_declare _ _).bind fun _ => keeps_pure _

/-- The parts of a binding do not leave more tokens. -/
theorem keeps_openBinding : Keeps openBinding :=
  consumes_newName.keeps.bind fun _ => (consumes_expect _).keeps.bind fun _ =>
    consumes_expression.keeps.bind fun _ => (consumes_expect _).keeps.bind fun _ => keeps_pure _

/-- A binding does not leave more tokens than there were behind its keyword. -/
theorem keeps_bindStatement : Keeps bindStatement :=
  keeps_openBinding.bind fun _ => (keeps_declare _ _).bind fun _ => keeps_pure _

/-- An exit statement does not leave more tokens than there were behind its keyword. -/
theorem keeps_exitStatement : Keeps exitStatement :=
  (consumes_expect _).keeps.bind fun _ => consumes_expression.keeps.bind fun _ =>
    (consumes_expect _).keeps.bind fun _ => (consumes_expect _).keeps.bind fun _ => keeps_pure _

/-- A statement consumes at least its keyword. -/
theorem consumes_statement : Consumes statement := by
  refine consumes_next.bind fun token => ?_
  split
  · exact keeps_bindStatement
  · exact keeps_exitStatement
  · exact keeps_throw _

/-- Reads the next statement, if the tokens do not end before it. -/
def statementStep (p : Parser) : Except Fault (Option Statement) × Parser :=
  match run peek p with
  | (.error .endOfInput, p') => (.ok none, p')
  | (.error fault, p') => (.error fault, p')
  | (.ok _, p') =>
    match run statement p' with
    | (.error fault, p'') => (.error fault, p'')
    | (.ok first, p'') => (.ok (some first), p'')

/-- A statement that is read makes the rest smaller. -/
theorem size_lt_of_statementStep {p p' : Parser} {s : Statement}
    (h : p.statementStep = (.ok (some s), p')) : p'.size < p.size := by
  unfold statementStep at h
  split at h
  · simp at h
  · simp at h
  · rename_i token m hp
    split at h
    · simp at h
    · rename_i first m' hs
      simp only [Prod.mk.injEq] at h
      rw [← h.2]
      exact Nat.lt_of_lt_of_le (consumes_statement _ _ _ hs) (keeps_peek _ _ _ hp)

/-- Reads statements until the tokens end between two of them. -/
def parse (p : Parser) : Except Fault Program × Parser :=
  match _h : p.statementStep with
  | (.error fault, p') => (.error fault, p')
  | (.ok none, p') => (.ok [], p')
  | (.ok (some first), p') =>
    match parse p' with
    | (.ok rest, q) => (.ok (first :: rest), q)
    | (.error fault, q) => (.error fault, q)
termination_by p.size
decreasing_by exact size_lt_of_statementStep _h

end Parser

/-- Reads the program of a text. -/
def Program.parse (input : Input) : Except Fault Program :=
  (Parser.ofInput input).parse.1

end LetExit
