import LetExit.Proofs.ParserSteps

/-!
# Two parsers side by side

Several results compare two parsers that find the same tokens in streams of different
kinds.  A `Parser.Pairing` says which parsers belong together, and what happens when their
streams fail.  It `Simulates` if it is kept by the steps that touch the state, which are
consuming a token and declaring a name; then reading a whole statement keeps it as well
(`Parser.Pairing.Simulates.statement`).

A parser decides by the kind, the content and the value of a token.  The position is only
copied into faults, so the second parser may find its tokens at other positions.
-/

set_option autoImplicit false

namespace LetExit

/-- The token at another position. -/
def Token.relocate (move : Position → Position) (t : Token) : Token :=
  { t with position := move t.position }

/-- The fault at another position. -/
def Fault.relocate (move : Position → Position) : Fault → Fault
  | endOfInput => endOfInput
  | readFailed reason => readFailed reason
  | invalidEncoding p => invalidEncoding (move p)
  | invalidCharacter point p => invalidCharacter point (move p)
  | invalidWord word p => invalidWord word (move p)
  | unexpectedToken t => unexpectedToken (t.relocate move)
  | expectedToken kind t => expectedToken kind (t.relocate move)
  | duplicateDeclaration name t => duplicateDeclaration name (t.relocate move)
  | undeclaredReference name t => undeclaredReference name (t.relocate move)
  | tokensExhausted => tokensExhausted

/-- A fault that is not moved is the same fault. -/
theorem Fault.relocate_id (fault : Fault) : fault.relocate id = fault := by
  cases fault <;> rfl

namespace Parser

/-- Which parsers belong together. -/
structure Pairing where
  /-- The position at which the second parser finds a token of the first. -/
  move : Position → Position
  Related : Parser → Parser → Prop
  /-- Faults that the two streams may report at the same time, with the parsers after them. -/
  Fails : Fault × Parser → Fault × Parser → Prop

namespace Pairing

variable {c : Pairing}

/-- The answers to a step: both give a result, both report the same fault of their own, or both
streams fail. -/
inductive Answers (c : Pairing) {α : Type} (value : α → α) :
    Except Fault α × Parser → Except Fault α × Parser → Prop
  | ok {a : α} {p q : Parser} : c.Related p q → Answers c value (.ok a, p) (.ok (value a), q)
  | own {fault : Fault} {p q : Parser} : fault ≠ .tokensExhausted → c.Related p q →
      Answers c value (.error fault, p) (.error (fault.relocate c.move), q)
  | stream {f g : Fault} {p q : Parser} : c.Fails (f, p) (g, q) →
      Answers c value (.error f, p) (.error g, q)

/-- The steps answer parsers that belong together in the same way. -/
def Matches (c : Pairing) {α : Type} (value : α → α) (first second : Step α) : Prop :=
  ∀ p q, c.Related p q → c.Answers value (run first p) (run second q)

/-- What a pairing has to satisfy for statements to be read in the same way. -/
structure Simulates (c : Pairing) : Prop where
  declared_eq : ∀ p q, c.Related p q → q.declared = p.declared
  related_withDeclared : ∀ p q, c.Related p q → ∀ d,
    c.Related (p.withDeclared d) (q.withDeclared d)
  next : c.Matches (Token.relocate c.move) next next

section Steps

variable {α β : Type} {value : α → α} {value' : β → β}

/-- An answer alone matches itself. -/
theorem matches_pure (a : α) : c.Matches id (pure a) (pure a) :=
  fun _ _ h => .ok h

/-- A fault of the parser itself matches the fault at the other position. -/
theorem matches_throw (fault : Fault) (h : fault ≠ .tokensExhausted) :
    c.Matches value (throw fault) (throw (fault.relocate c.move)) :=
  fun _ _ hpq => .own h hpq

/-- Steps that match do so one after the other. -/
theorem Matches.bind {first second : Step α} {f g : α → Step β} (h : c.Matches value first second)
    (hf : ∀ a, c.Matches value' (f a) (g (value a))) :
    c.Matches value' (first >>= f) (second >>= g) := by
  intro p q hpq
  have hanswers := h p q hpq
  rw [run_bind, run_bind]
  generalize run first p = a at hanswers
  generalize run second q = b at hanswers
  cases hanswers with
  | ok hafter => exact hf _ _ _ hafter
  | own hfault hafter => exact .own hfault hafter
  | stream hfails => exact .stream hfails

end Steps

namespace Simulates

variable (h : c.Simulates)

include h

/-- Of the state of a parser, only the declared names may be looked at. -/
theorem get_bind {α : Type} {value : α → α} {f g : Parser → Step α}
    (hf : ∀ p q, q.declared = p.declared → c.Matches value (f p) (g q)) :
    c.Matches value ((get : Step Parser) >>= f) ((get : Step Parser) >>= g) := by
  intro p q hpq
  rw [run_bind, run_bind, run_get, run_get]
  exact hf p q (h.declared_eq p q hpq) p q hpq

/-- Declaring a name matches itself. -/
theorem declare (name : String) (complete : Bool) :
    c.Matches id (declare name complete) (declare name complete) := by
  intro p q hpq
  have hafter := h.related_withDeclared p q hpq (p.declared.insert name complete)
  have hq : run (Parser.declare name complete) q =
      (.ok (), q.withDeclared (p.declared.insert name complete)) := by
    rw [← h.declared_eq p q hpq]
    rfl
  rw [hq]
  exact .ok hafter

/-- Expecting a token matches itself, up to the position of the token. -/
theorem expect (kind : Token.Kind) :
    c.Matches (Token.relocate c.move) (expect kind) (expect kind) := by
  apply h.next.bind
  intro token
  show c.Matches _ (if token.kind = kind then pure token else throw (.expectedToken kind token))
    (if token.kind = kind then pure (token.relocate c.move)
      else throw (.expectedToken kind (token.relocate c.move)))
  by_cases hkind : token.kind = kind
  · rw [if_pos hkind, if_pos hkind]
    exact fun _ _ hpq => .ok hpq
  · rw [if_neg hkind, if_neg hkind]
    exact matches_throw (.expectedToken kind token) Fault.noConfusion

/-- Reading an expression matches itself. -/
theorem expression : c.Matches id expression expression := by
  apply h.next.bind
  intro token
  have hkind : (token.relocate c.move).kind = token.kind := rfl
  rw [hkind]
  split
  · exact matches_pure (Expr.literal token.value)
  · apply h.get_bind
    intro p q hdeclared
    have hcontent : (token.relocate c.move).content = token.content := rfl
    rw [hdeclared, hcontent]
    split
    · exact matches_pure (Expr.name token.content)
    · exact matches_throw (.undeclaredReference token.content token) Fault.noConfusion
  · exact matches_throw (.unexpectedToken token) Fault.noConfusion

/-- Reading a new name matches itself. -/
theorem newName : c.Matches id newName newName := by
  apply (h.expect _).bind
  intro token
  apply h.get_bind
  intro p q hdeclared
  have hcontent : (token.relocate c.move).content = token.content := rfl
  rw [hdeclared, hcontent]
  split
  · exact matches_throw (.duplicateDeclaration token.content token) Fault.noConfusion
  · exact (h.declare token.content false).bind fun _ => matches_pure token.content

/-- Reading a binding up to its value matches itself. -/
theorem openBinding : c.Matches id openBinding openBinding :=
  h.newName.bind fun name => (h.expect .equals).bind fun _ => h.expression.bind fun value =>
    (h.expect .semicolon).bind fun _ => matches_pure (name, value)

/-- Reading a binding matches itself. -/
theorem bindStatement : c.Matches id bindStatement bindStatement :=
  h.openBinding.bind fun (name, value) => (h.declare name true).bind fun _ =>
    matches_pure (Statement.bind name value)

/-- Reading an exit statement matches itself. -/
theorem exitStatement : c.Matches id exitStatement exitStatement :=
  (h.expect .parenOpen).bind fun _ => h.expression.bind fun status =>
    (h.expect .parenClose).bind fun _ => (h.expect .semicolon).bind fun _ =>
      matches_pure (Statement.exit status)

/-- Parsers that belong together read the same statement, report the same fault of their own, or
find that their streams fail. -/
theorem statement : c.Matches id statement statement := by
  apply h.next.bind
  intro token
  have hkind : (token.relocate c.move).kind = token.kind := rfl
  rw [hkind]
  split
  · exact h.bindStatement
  · exact h.exitStatement
  · exact matches_throw (.unexpectedToken token) Fault.noConfusion

end Simulates

end Pairing

end Parser

end LetExit
