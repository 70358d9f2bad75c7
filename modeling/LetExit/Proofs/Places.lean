import LetExit.Proofs.Language
import LetExit.Proofs.TokenSequence
import Mathlib.Data.List.Forall2

/-!
# Places

What may come next in a program depends on the `Place` that has been reached, and on the
names bound by the statements in front.  A place allows some tokens, and for any other
token it has a fault.

The steps of a parser are read off places.  A step that takes one token passes the tokens
that its place allows and stops at the others (`Parser.Reads`), and steps that are taken in
turn stop at the first place that is not filled (`Parser.Reads.bind`).  So does a whole
statement (`Parser.fails_statement`).
-/

set_option autoImplicit false

namespace LetExit

/-- Where a token stands in a program. -/
inductive Place where
  /-- At the start of a statement. -/
  | statement
  /-- Where a `let` has its name. -/
  | binding
  | expression
  /-- Where the grammar has one kind of token that means nothing by itself. -/
  | symbol (kind : Token.Kind)
deriving DecidableEq, Repr

namespace Place

/-- Whether a token may stand at a place, behind statements that bind the given names. -/
def Allows (names : List String) : Place → Token → Prop
  | statement, t => t.kind = .letWord ∨ t.kind = .exitWord
  | binding, t => t.kind = .identifier ∧ t.content ∉ names
  | expression, t => t.kind = .integer ∨ t.kind = .identifier ∧ t.content ∈ names
  | symbol kind, t => t.kind = kind

/-- The fault of a token that is not allowed at a place. -/
def fault : Place → Token → Fault
  | statement, t => .unexpectedToken t
  | binding, t =>
    if t.kind = .identifier then .duplicateDeclaration t.content t
    else .expectedToken .identifier t
  | expression, t =>
    if t.kind = .identifier then .undeclaredReference t.content t else .unexpectedToken t
  | symbol kind, t => .expectedToken kind t

/-- The places behind the first token of a statement. -/
def behind (k : Token) : List Place :=
  match k.kind with
  | .letWord => [binding, symbol .equals, expression, symbol .semicolon]
  | .exitWord => [symbol .parenOpen, expression, symbol .parenClose, symbol .semicolon]
  | _ => []

/-- Every place is filled with a token that it allows. -/
def Filled (names : List String) : List Place → List Token → Prop :=
  List.Forall₂ (Allows names)

/-- There is no token that could go on at a place: the tokens have ended, or the first of them is
not allowed.  With it goes the fault, and how many tokens have to be taken to see it. -/
inductive Stops (names : List String) (place : Place) : List Token → Fault → Nat → Prop
  | ended : Stops names place [] .tokensExhausted 0
  | refused {t : Token} {later : List Token} : ¬place.Allows names t →
      Stops names place (t :: later) (place.fault t) 1

/-- Some name is not among the given ones. -/
theorem exists_new_name (names : List String) : ∃ x, x ∉ names := by
  have hbound : ∃ n : Nat, ∀ x ∈ names, x.length < n := by
    induction names with
    | nil => exact ⟨0, by simp⟩
    | cons y later ih =>
      obtain ⟨n, hn⟩ := ih
      refine ⟨n + y.length + 1, fun x hx => ?_⟩
      rcases List.mem_cons.mp hx with rfl | hx
      · omega
      · have := hn x hx
        omega
  obtain ⟨n, hn⟩ := hbound
  refine ⟨String.ofList (List.replicate n 'x'), fun hmem => ?_⟩
  have hlt := hn _ hmem
  rw [String.length_ofList, List.length_replicate] at hlt
  exact absurd hlt (Nat.lt_irrefl n)

/-- Every place can be filled. -/
theorem exists_allows (names : List String) (place : Place) : ∃ t, place.Allows names t := by
  cases place with
  | statement => exact ⟨⟨.exitWord, "exit", 0, .start⟩, .inr rfl⟩
  | binding =>
    obtain ⟨x, hx⟩ := exists_new_name names
    exact ⟨⟨.identifier, x, 0, .start⟩, rfl, hx⟩
  | expression => exact ⟨⟨.integer, "0", 0, .start⟩, .inl rfl⟩
  | symbol kind => exact ⟨⟨kind, "", 0, .start⟩, rfl⟩

/-- All places can be filled. -/
theorem exists_filled (names : List String) (places : List Place) :
    ∃ ts, Filled names places ts := by
  induction places with
  | nil => exact ⟨[], .nil⟩
  | cons place later ih =>
    obtain ⟨t, ht⟩ := exists_allows names place
    obtain ⟨ts, hts⟩ := ih
    exact ⟨t :: ts, .cons ht hts⟩

/-- Places are filled one after the other. -/
theorem Filled.append {names : List String} {places later : List Place} {ts us : List Token}
    (h : Filled names places ts) (hlater : Filled names later us) :
    Filled names (places ++ later) (ts ++ us) :=
  List.rel_append h hlater

/-- The places of a binding. -/
theorem behind_letWord {k : Token} (h : k.kind = .letWord) :
    behind k = [binding, symbol .equals, expression, symbol .semicolon] := by
  rw [behind, h]

/-- The places of an exit statement. -/
theorem behind_exitWord {k : Token} (h : k.kind = .exitWord) :
    behind k = [symbol .parenOpen, expression, symbol .parenClose, symbol .semicolon] := by
  rw [behind, h]

/-- A token that starts a statement has places behind it. -/
theorem behind_ne_nil {names : List String} {k : Token} (h : statement.Allows names k) :
    behind k ≠ [] := by
  rcases h with h | h
  · simp [behind_letWord h]
  · simp [behind_exitWord h]

/-- No statement stands within a statement. -/
theorem statement_notMem_behind {k : Token} : statement ∉ behind k := by
  unfold behind
  split <;> simp

section Fault

variable {names : List String} {place : Place} {t : Token} (h : ¬place.Allows names t)

include h

/-- Only a name that is already there is refused as declared twice. -/
theorem fault_eq_duplicateDeclaration_iff :
    place.fault t = .duplicateDeclaration t.content t ↔
      place = .binding ∧ t.kind = .identifier ∧ t.content ∈ names := by
  cases place with
  | statement => simp [fault]
  | binding =>
    by_cases hkind : t.kind = .identifier
    · have hmem : t.content ∈ names := Decidable.byContradiction fun hnew => h ⟨hkind, hnew⟩
      simp [fault, hkind, hmem]
    · simp [fault, hkind]
  | expression => by_cases hkind : t.kind = .identifier <;> simp [fault, hkind]
  | symbol kind => simp [fault]

/-- Only a name that is not there is refused as not declared. -/
theorem fault_eq_undeclaredReference_iff :
    place.fault t = .undeclaredReference t.content t ↔
      place = .expression ∧ t.kind = .identifier ∧ t.content ∉ names := by
  cases place with
  | statement => simp [fault]
  | binding => by_cases hkind : t.kind = .identifier <;> simp [fault, hkind]
  | expression =>
    by_cases hkind : t.kind = .identifier
    · have hout : t.content ∉ names := fun hmem => h (.inr ⟨hkind, hmem⟩)
      simp [fault, hkind, hout]
    · simp [fault, hkind]
  | symbol kind => simp [fault]

/-- Tokens are unexpected where a statement or an expression has to start. -/
theorem fault_eq_unexpectedToken_iff :
    place.fault t = .unexpectedToken t ↔
      place = .statement ∧ t.kind ≠ .letWord ∧ t.kind ≠ .exitWord ∨
      place = .expression ∧ t.kind ≠ .integer ∧ t.kind ≠ .identifier := by
  cases place with
  | statement =>
    have hkind : t.kind ≠ .letWord ∧ t.kind ≠ .exitWord := not_or.mp h
    simp [fault, hkind]
  | binding => by_cases hkind : t.kind = .identifier <;> simp [fault, hkind]
  | expression =>
    have hinteger : t.kind ≠ .integer := fun hkind => h (.inl hkind)
    by_cases hkind : t.kind = .identifier <;> simp [fault, hkind, hinteger]
  | symbol kind => simp [fault]

end Fault

/-- In all other cases the place allows one kind of token only, and the fault names it. -/
theorem exists_fault_eq_expectedToken {place : Place} {t : Token} (names : List String)
    (hduplicate : place.fault t ≠ .duplicateDeclaration t.content t)
    (hundeclared : place.fault t ≠ .undeclaredReference t.content t)
    (hunexpected : place.fault t ≠ .unexpectedToken t) :
    ∃ kind, place.fault t = .expectedToken kind t ∧
      ∀ u : Token, place.Allows names u → u.kind = kind := by
  cases place with
  | statement => exact absurd rfl hunexpected
  | binding =>
    by_cases hkind : t.kind = .identifier
    · exact absurd (if_pos hkind) hduplicate
    · exact ⟨.identifier, if_neg hkind, fun u hu => hu.1⟩
  | expression =>
    by_cases hkind : t.kind = .identifier
    · exact absurd (if_pos hkind) hundeclared
    · exact absurd (if_neg hkind) hunexpected
  | symbol kind => exact ⟨kind, rfl, fun u hu => hu⟩

end Place

/-- A token that is allowed as an expression is one, over the given names. -/
theorem Expr.exists_derives {names : List String} {t : Token}
    (h : Place.expression.Allows names t) :
    ∃ e : Expr, e.Derives t ∧ ∀ x, e = .name x → x ∈ names := by
  rcases h with hkind | ⟨hkind, hmem⟩
  · exact ⟨_, .integer hkind, fun x hx => by cases hx⟩
  · refine ⟨_, .name hkind, fun x hx => ?_⟩
    rw [← Expr.name.inj hx]
    exact hmem

/-- Once all places behind its first token are filled, a statement is complete: it binds no given
name again and refers only to given names. -/
theorem Statement.exists_derives {names : List String} {k : Token} {us : List Token}
    (hk : Place.statement.Allows names k) (h : Place.Filled names (Place.behind k) us) :
    ∃ s : Statement, s.Derives (k :: us) ∧ (∀ x ∈ s.binds, x ∉ names) ∧
      ∀ x, s.expr? = some (.name x) → x ∈ names := by
  rcases hk with hk | hk
  · rw [Place.behind_letWord hk] at h
    obtain _ | ⟨⟨hx, hnew⟩, _ | ⟨hq, _ | ⟨he, _ | ⟨hz, ⟨⟩⟩⟩⟩⟩ := h
    obtain ⟨e, hderives, hnames⟩ := Expr.exists_derives he
    refine ⟨_, .bind hk hx hq hderives hz, fun x hx => ?_, fun x hx => ?_⟩
    · rw [List.mem_singleton.mp hx]
      exact hnew
    · exact hnames x (Option.some.inj hx)
  · rw [Place.behind_exitWord hk] at h
    obtain _ | ⟨ho, _ | ⟨he, _ | ⟨hc, _ | ⟨hz, ⟨⟩⟩⟩⟩⟩ := h
    obtain ⟨e, hderives, hnames⟩ := Expr.exists_derives he
    refine ⟨_, .exit hk ho hderives hc hz, fun x hx => ?_, fun x hx => ?_⟩
    · exact absurd hx List.not_mem_nil
    · exact hnames x (Option.some.inj hx)

namespace Declarations

variable {names : List String} {d : Declarations}

/-- The names that can be referred to are the given ones. -/
def Visible (names : List String) (d : Declarations) : Prop :=
  ∀ x : String, d[x]? = some true ↔ x ∈ names

/-- The names that a table holds are the visible ones. -/
theorem Holds.visible (h : d.Holds names) : Visible names d := by
  intro x
  rw [h x]
  split <;> simp_all

/-- A table contains the names that it holds. -/
theorem Holds.contains_iff (h : d.Holds names) (x : String) :
    d.contains x = true ↔ x ∈ names := by
  rw [Std.ExtTreeMap.contains_eq_isSome_getElem?, h x]
  split <;> simp_all

end Declarations

namespace Parser

/-- A parser over a list of tokens. -/
def ofTokens (ts : List Token) (d : Declarations) (n : Nat) : Parser :=
  ⟨.answers (ts.map .ok), none, d, n⟩

/-- The step fails with a fault after it has taken so many tokens. -/
def Fails {α : Type} (step : Step α) (p : Parser) (fault : Fault) (count : Nat) : Prop :=
  ∃ q, run step p = (.error fault, q) ∧ q.pulled = p.pulled + count

/-- The step takes one token, which has to be allowed at the place.  The declared names satisfy one
condition before it and another one behind it. -/
structure Reads {α : Type} (names : List String) (before after : Declarations → Prop)
    (step : Step α) (place : Place) : Prop where
  passes : ∀ t ts d n, before d → place.Allows names t →
    ∃ a d', run step (ofTokens (t :: ts) d n) = (.ok a, ofTokens ts d' (n + 1)) ∧ after d'
  stops : ∀ ts d n fault count, before d → place.Stops names ts fault count →
    Fails step (ofTokens ts d n) fault count

/-- The step stops at the first of the given places that is not filled. -/
def Follows {α : Type} (names : List String) (before : Declarations → Prop) (step : Step α)
    (places : List Place) : Prop :=
  ∀ done place todo us rest d n fault count, before d → places = done ++ place :: todo →
    Place.Filled names done us → place.Stops names rest fault count →
    Fails step (ofTokens (us ++ rest) d n) fault (us.length + count)

/-- The first of the tokens is consumed and counted. -/
theorem run_next_ofTokens_cons (t : Token) (ts : List Token) (d : Declarations) (n : Nat) :
    run next (ofTokens (t :: ts) d n) = (.ok t, ofTokens ts d (n + 1)) :=
  rfl

/-- Tokens in front are consumed and counted. -/
theorem advances_ofTokens (ts later : List Token) (d : Declarations) (n : Nat) :
    (ofTokens (ts ++ later) d n).Advances ts (ofTokens later d (n + ts.length)) := by
  induction ts generalizing n with
  | nil => exact .refl _
  | cons t ts ih =>
    have hlater := ih (n + 1)
    rw [Nat.add_assoc, Nat.add_comm 1] at hlater
    exact .step (run_next_ofTokens_cons t (ts ++ later) d n) hlater

/-- Where the tokens have ended, whatever starts by taking one fails. -/
theorem fails_next_bind {α : Type} (f : Token → Step α) (d : Declarations) (n : Nat) :
    Fails (next >>= f) (ofTokens [] d n) .tokensExhausted 0 :=
  ⟨ofTokens [] d n, rfl, rfl⟩

section Steps

variable {names : List String}

/-- To read a place it is enough to pass the tokens that are allowed and to refuse the others. -/
theorem reads_next_bind {α : Type} {before after : Declarations → Prop} {f : Token → Step α}
    {place : Place}
    (hpasses : ∀ t p, before p.declared → place.Allows names t →
      ∃ a d, run (f t) p = (.ok a, p.withDeclared d) ∧ after d)
    (hrefuses : ∀ t p, before p.declared → ¬place.Allows names t →
      run (f t) p = (.error (place.fault t), p)) :
    Reads names before after (next >>= f) place where
  passes t ts d n hd ht := by
    obtain ⟨a, d', hrun, hafter⟩ := hpasses t (ofTokens ts d (n + 1)) hd ht
    exact ⟨a, d', by rw [run_bind, run_next_ofTokens_cons]; exact hrun, hafter⟩
  stops ts d n fault count hd hstops := by
    cases hstops with
    | ended => exact fails_next_bind f d n
    | @refused t later ht =>
      refine ⟨ofTokens later d (n + 1), ?_, rfl⟩
      rw [run_bind, run_next_ofTokens_cons]
      exact hrefuses t (ofTokens later d (n + 1)) hd ht

/-- Expecting a kind reads the place of a symbol. -/
theorem reads_expect (before : Declarations → Prop) (kind : Token.Kind) :
    Reads names before before (expect kind) (.symbol kind) := by
  apply reads_next_bind
  · intro t p hp ht
    have hkind : t.kind = kind := ht
    rw [if_pos hkind]
    exact ⟨t, p.declared, rfl, hp⟩
  · intro t p _ ht
    have hkind : t.kind ≠ kind := ht
    rw [if_neg hkind]
    rfl

/-- An expression is read at its place, if it refers to visible names. -/
theorem reads_expression :
    Reads names (Declarations.Visible names) (Declarations.Visible names) expression
      .expression := by
  apply reads_next_bind
  · intro t p hp ht
    rcases ht with hkind | ⟨hkind, hmem⟩
    · refine ⟨.literal t.value, p.declared, ?_, hp⟩
      simp only [hkind]
      rfl
    · refine ⟨.name t.content, p.declared, ?_, hp⟩
      simp only [hkind]
      rw [run_bind, run_get]
      dsimp only
      rw [if_pos ((hp _).mpr hmem)]
      rfl
  · intro t p hp ht
    by_cases hkind : t.kind = .identifier
    · have hout : t.content ∉ names := fun hmem => ht (.inr ⟨hkind, hmem⟩)
      have hvisible : p.declared[t.content]? ≠ some true := fun h => hout ((hp _).mp h)
      simp only [hkind, Place.fault, if_true]
      rw [run_bind, run_get]
      dsimp only
      rw [if_neg hvisible]
      rfl
    · have hinteger : t.kind ≠ .integer := fun h => ht (.inl h)
      rw [Place.fault, if_neg hkind]
      split
      · rename_i h
        exact absurd h hinteger
      · rename_i h
        exact absurd h hkind
      · rfl

/-- A name that is being bound cannot be referred to yet. -/
theorem reads_newName :
    Reads names (Declarations.Holds · names) (Declarations.Visible names) newName .binding where
  passes t ts d n hd ht := by
    obtain ⟨hkind, hnew⟩ := ht
    have hcontains : d.contains t.content = false :=
      eq_false_of_ne_true fun h => hnew ((hd.contains_iff _).mp h)
    refine ⟨t.content, d.insert t.content false, ?_, fun x => ?_⟩
    · have hnext := run_next_ofTokens_cons t ts d n
      exact run_newName_eq_ok_iff.mpr ⟨t, _, hnext, hkind, hcontains, rfl, rfl⟩
    · rw [getElem?_insert_false_eq_true_iff hcontains]
      exact hd.visible x
  stops ts d n fault count hd hstops := by
    cases hstops with
    | ended => exact ⟨ofTokens [] d n, rfl, rfl⟩
    | @refused t later ht =>
      refine ⟨ofTokens later d (n + 1), ?_, rfl⟩
      rw [newName, run_bind]
      by_cases hkind : t.kind = .identifier
      · have hmem : t.content ∈ names := Decidable.byContradiction fun hnew => ht ⟨hkind, hnew⟩
        have hexpect : run (expect .identifier) (ofTokens (t :: later) d n) =
            (.ok t, ofTokens later d (n + 1)) := run_expect_eq_ok_iff.mpr ⟨rfl, hkind⟩
        have hcontains : (ofTokens later d (n + 1)).declared.contains t.content = true :=
          (hd.contains_iff _).mpr hmem
        rw [hexpect, Place.fault, if_pos hkind]
        dsimp only
        rw [run_bind, run_get]
        dsimp only
        rw [if_pos hcontains]
        rfl
      · rw [expect, run_bind, run_next_ofTokens_cons, Place.fault, if_neg hkind]
        dsimp only
        rw [if_neg hkind]
        rfl

/-- Without places there is none to stop at. -/
theorem follows_nil {α : Type} {before : Declarations → Prop} (step : Step α) :
    Follows names before step [] := by
  intro done place todo us rest d n fault count _ hplaces
  exact absurd hplaces (by simp)

/-- A step that reads one place, and then a step that follows the others. -/
theorem Reads.bind {α β : Type} {before after : Declarations → Prop} {step : Step α}
    {f : α → Step β} {place : Place} {places : List Place}
    (h : Reads names before after step place) (hf : ∀ a, Follows names after (f a) places) :
    Follows names before (step >>= f) (place :: places) := by
  intro done stop todo us rest d n fault count hd hplaces hfilled hstops
  cases done with
  | nil =>
    obtain ⟨rfl, -⟩ := List.cons.inj hplaces
    cases hfilled
    obtain ⟨q, hrun, hpulled⟩ := h.stops rest d n fault count hd hstops
    refine ⟨q, ?_, ?_⟩
    · rw [run_bind, List.nil_append, hrun]
    · rw [hpulled, List.length_nil, Nat.zero_add]
      rfl
  | cons first done =>
    obtain ⟨rfl, hrest⟩ := List.cons.inj hplaces
    cases hfilled with
    | @cons _ t _ us ht hus =>
      obtain ⟨a, d', hrun, hafter⟩ := h.passes t (us ++ rest) d n hd ht
      obtain ⟨q, hlater, hpulled⟩ :=
        hf a done stop todo us rest d' (n + 1) fault count hafter hrest hus hstops
      refine ⟨q, ?_, ?_⟩
      · rw [run_bind, List.cons_append, hrun]
        exact hlater
      · have hcount : q.pulled = n + 1 + (us.length + count) := hpulled
        show q.pulled = n + (us.length + 1 + count)
        omega

/-- A step that follows places fails with whatever is done after it. -/
theorem Follows.bind {α β : Type} {before : Declarations → Prop} {step : Step α}
    {places : List Place} (h : Follows names before step places) (f : α → Step β) :
    Follows names before (step >>= f) places := by
  intro done place todo us rest d n fault count hd hplaces hfilled hstops
  obtain ⟨q, hrun, hpulled⟩ := h done place todo us rest d n fault count hd hplaces hfilled hstops
  refine ⟨q, ?_, hpulled⟩
  rw [run_bind, hrun]

/-- The parts of a binding stop at the first place that is not filled. -/
theorem follows_openBinding : Follows names (Declarations.Holds · names) openBinding
    [.binding, .symbol .equals, .expression, .symbol .semicolon] :=
  reads_newName.bind fun _ => (reads_expect _ _).bind fun _ => reads_expression.bind fun _ =>
    (reads_expect _ _).bind fun _ => follows_nil _

/-- A binding stops at the first place that is not filled. -/
theorem follows_bindStatement : Follows names (Declarations.Holds · names) bindStatement
    [.binding, .symbol .equals, .expression, .symbol .semicolon] :=
  follows_openBinding.bind _

/-- An exit statement stops at the first place that is not filled. -/
theorem follows_exitStatement : Follows names (Declarations.Visible names) exitStatement
    [.symbol .parenOpen, .expression, .symbol .parenClose, .symbol .semicolon] :=
  (reads_expect _ _).bind fun _ => reads_expression.bind fun _ => (reads_expect _ _).bind fun _ =>
    (reads_expect _ _).bind fun _ => follows_nil _

/-- A statement fails at the first place that is not filled. -/
theorem fails_statement {d : Declarations} {k : Token} {us rest : List Token}
    {done todo : List Place} {place : Place} {fault : Fault} {count : Nat} (hd : d.Holds names)
    (hk : Place.statement.Allows names k) (hplaces : Place.behind k = done ++ place :: todo)
    (hfilled : Place.Filled names done us) (hstops : place.Stops names rest fault count) (n : Nat) :
    Fails statement (ofTokens (k :: us ++ rest) d n) fault (us.length + 1 + count) := by
  have hrun : run statement (ofTokens (k :: us ++ rest) d n) =
      run (match k.kind with
        | .letWord => bindStatement
        | .exitWord => exitStatement
        | _ => throw (.unexpectedToken k)) (ofTokens (us ++ rest) d (n + 1)) := rfl
  -- what follows the keyword counts from the keyword on
  have hcount {step : Step Statement}
      (h : Fails step (ofTokens (us ++ rest) d (n + 1)) fault (us.length + count)) :
      ∃ q, run step (ofTokens (us ++ rest) d (n + 1)) = (.error fault, q) ∧
        q.pulled = n + (us.length + 1 + count) := by
    obtain ⟨q, hstep, hpulled⟩ := h
    refine ⟨q, hstep, ?_⟩
    have hsum : q.pulled = n + 1 + (us.length + count) := hpulled
    omega
  rw [Fails, hrun]
  rcases hk with hk | hk
  · rw [Place.behind_letWord hk] at hplaces
    rw [hk]
    exact hcount (follows_bindStatement done place todo us rest d (n + 1) fault count hd hplaces
      hfilled hstops)
  · rw [Place.behind_exitWord hk] at hplaces
    rw [hk]
    exact hcount (follows_exitStatement done place todo us rest d (n + 1) fault count hd.visible
      hplaces hfilled hstops)

/-- A token that starts no statement is refused at once. -/
theorem fails_statement_of_not_allows {t : Token} (h : ¬Place.statement.Allows names t)
    (later : List Token) (d : Declarations) (n : Nat) :
    Fails statement (ofTokens (t :: later) d n) (.unexpectedToken t) 1 := by
  refine ⟨ofTokens later d (n + 1), ?_, rfl⟩
  rw [statement, run_bind, run_next_ofTokens_cons]
  dsimp only
  split
  · rename_i hkind
    exact absurd (.inl hkind) h
  · rename_i hkind
    exact absurd (.inr hkind) h
  · rfl

/-- A program fails if its first statement does. -/
theorem exists_parse_of_fails {t : Token} {later : List Token} {d : Declarations} {n count : Nat}
    {fault : Fault} (h : Fails statement (ofTokens (t :: later) d n) fault count) :
    ∃ q, (ofTokens (t :: later) d n).parse = (.error fault, q) ∧ q.pulled = n + count := by
  obtain ⟨q, hrun, hpulled⟩ := h
  refine ⟨q, ?_, hpulled⟩
  have hpeek : run peek (ofTokens (t :: later) d n) =
      (.ok t, ⟨.answers (later.map .ok), some t, d, n + 1⟩) := rfl
  rw [parse_eq, hpeek, hrun]

end Steps

end Parser

end LetExit
