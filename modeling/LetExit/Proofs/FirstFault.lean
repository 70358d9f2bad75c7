import LetExit.Proofs.Places
import LetExit.Proofs.Resumption
import LetExit.Proofs.TokenList

/-!
# The first fault

A list of tokens is viable if it can be continued to the tokens of a program.  A parser
refuses a list at the first token that ends its viability, and it takes no token behind
that one (`fault_at_first_refused_token`).

`Program.Reaches` says which place has been reached behind the statements of a program.  A
token that the place allows leads to another place (`Program.Reaches.step`), every place
that is reached can be left in the end (`Program.Reaches.viable`), and at a token that the
place does not allow the parser stops with the fault of the place
(`Program.Reaches.parse_stops`).
-/

set_option autoImplicit false

namespace LetExit

namespace Program

/-- A list of tokens that can be continued to the tokens of a program. -/
def Viable (ts : List Token) : Prop :=
  ∃ later program, ofTokens (ts ++ later) = .ok program

/-- No name is bound twice, and every name is bound before it is used. -/
structure WellBound (p : Program) : Prop where
  nodup : p.names.Nodup
  scopedAfter : p.ScopedAfter []

/-- The tokens are those of the program and then those of one more statement up to a place in it. -/
inductive Reaches (p : Program) : List Token → Place → Prop
  | between {ts : List Token} : p.Derives ts → Reaches p ts .statement
  | inside {ts us : List Token} {k : Token} {done todo : List Place} {place : Place} :
      p.Derives ts → Place.statement.Allows p.names k → Place.behind k = done ++ place :: todo →
      Place.Filled p.names done us → Reaches p (ts ++ k :: us) place

/-- What can be continued to more tokens can be continued to a program. -/
theorem Viable.of_append {ts us : List Token} (h : Viable (ts ++ us)) : Viable ts := by
  obtain ⟨later, p, hp⟩ := h
  exact ⟨us ++ later, p, by rwa [← List.append_assoc]⟩

/-- A statement behind a program makes a longer program. -/
theorem Derives.concat {p : Program} {s : Statement} {ts us : List Token} (h : p.Derives ts)
    (hs : s.Derives us) : Derives (p ++ [s]) (ts ++ us) := by
  induction h with
  | nil =>
    rw [← List.append_nil ([] ++ us)]
    exact .cons hs .nil
  | cons hfirst _ ih =>
    rw [List.append_assoc]
    exact .cons hfirst ih

variable {p : Program} {ts : List Token}

/-- A well-bound program fits a table without names. -/
theorem WellBound.admitsAll (h : p.WellBound) : Declarations.AdmitsAll ∅ p :=
  Declarations.holds_empty.admitsAll_iff.mpr ⟨h.nodup, by simp, h.scopedAfter⟩

/-- The tokens of a well-bound program are read as that program. -/
theorem WellBound.ofTokens_eq (h : p.WellBound) (hderives : p.Derives ts) :
    ofTokens ts = .ok p :=
  Parser.parse_eq_ok_iff.mpr ⟨ts, Parser.ahead_answers_iff.mpr rfl, hderives, h.admitsAll⟩

/-- A parser passes the statements of a program, and what comes behind them it reads with their
names declared. -/
theorem WellBound.exists_parse (h : p.WellBound) (hderives : p.Derives ts) {later : List Token}
    {fault : Fault} {count : Nat}
    (hlater : ∀ d : Declarations, d.Holds p.names →
      ∃ q, (Parser.ofTokens later d ts.length).parse = (.error fault, q) ∧ q.pulled = count) :
    ∃ q, (Parser.ofTokens (ts ++ later) ∅ 0).parse = (.error fault, q) ∧ q.pulled = count := by
  have hadvances := Parser.advances_ofTokens ts later ∅ 0
  have hholds : (Declarations.complete ∅ p.names).Holds p.names := by
    intro x
    simpa using Declarations.holds_empty.complete p.names x
  obtain ⟨q, hparse, hpulled⟩ := hlater _ hholds
  refine ⟨q, ?_, hpulled⟩
  rw [Nat.zero_add] at hadvances
  rw [Parser.parse_of_advances hadvances hderives h.admitsAll]
  show Prod.map _ id (Parser.ofTokens later (Declarations.complete ∅ p.names) ts.length).parse = _
  rw [hparse]
  rfl

/-- A statement whose first token and whose places are filled makes the program longer. -/
theorem WellBound.exists_concat {k : Token} {us : List Token} (h : p.WellBound)
    (hderives : p.Derives ts) (hk : Place.statement.Allows p.names k)
    (hus : Place.Filled p.names (Place.behind k) us) :
    ∃ q : Program, q.WellBound ∧ q.Derives (ts ++ k :: us) := by
  obtain ⟨s, hs, hnew, hrefers⟩ := Statement.exists_derives hk hus
  refine ⟨p ++ [s], ⟨?_, ?_⟩, hderives.concat hs⟩
  · have hbinds : s.binds.Nodup := by cases s <;> simp [Statement.binds]
    have hnames : names [s] = s.binds := List.flatMap_singleton Statement.binds s
    rw [names_append, hnames, List.nodup_append]
    exact ⟨h.nodup, hbinds, fun x hx y hy hxy => hnew y hy (hxy ▸ hx)⟩
  · rw [scopedAfter_append_iff, List.append_nil]
    refine ⟨h.scopedAfter, fun x hx => ?_, trivial⟩
    exact List.mem_reverse.mpr (hrefers x hx)

namespace Reaches

variable {place : Place}

/-- A token that is allowed leads on, behind the statement if it was the last one of it. -/
theorem step (h : p.Reaches ts place) (hp : p.WellBound) {t : Token}
    (ht : place.Allows p.names t) : ∃ q next, WellBound q ∧ q.Reaches (ts ++ [t]) next := by
  cases h with
  | between hderives =>
    obtain ⟨next, todo, hnext⟩ := List.exists_cons_of_ne_nil (Place.behind_ne_nil ht)
    exact ⟨p, next, hp, .inside hderives ht hnext .nil⟩
  | @inside ts us k done todo _ hderives hk hplaces hus =>
    have hfilled : Place.Filled p.names (done ++ [place]) (us ++ [t]) :=
      hus.append (.cons ht .nil)
    rw [List.append_assoc, List.cons_append]
    cases todo with
    | nil =>
      rw [← hplaces] at hfilled
      obtain ⟨q, hq, hderives⟩ := hp.exists_concat hderives hk hfilled
      exact ⟨q, .statement, hq, .between hderives⟩
    | cons next todo =>
      have hnext : Place.behind k = done ++ [place] ++ next :: todo := by
        rw [hplaces, List.append_assoc]
        rfl
      exact ⟨p, next, hp, .inside hderives hk hnext hfilled⟩

/-- What reaches a place can be continued to a program. -/
theorem viable (h : p.Reaches ts place) (hp : p.WellBound) : Viable ts := by
  cases h with
  | between hderives =>
    refine ⟨[], p, ?_⟩
    rw [List.append_nil]
    exact hp.ofTokens_eq hderives
  | @inside ts us k done todo _ hderives hk hplaces hus =>
    obtain ⟨later, hlater⟩ := Place.exists_filled p.names (place :: todo)
    have hfilled := Place.Filled.append hus hlater
    rw [← hplaces] at hfilled
    obtain ⟨q, hq, hderives⟩ := hp.exists_concat hderives hk hfilled
    refine ⟨later, q, ?_⟩
    rw [List.append_assoc, List.cons_append]
    exact hq.ofTokens_eq hderives

/-- If nothing allowed comes next, the parser stops with the fault of the place.  Between two
statements the tokens may end. -/
theorem parse_stops (h : p.Reaches ts place) (hp : p.WellBound) {rest : List Token} {fault : Fault}
    {count : Nat} (hstops : place.Stops p.names rest fault count)
    (hrest : place = .statement → rest ≠ []) :
    ∃ q, (Parser.ofTokens (ts ++ rest) ∅ 0).parse = (.error fault, q) ∧
      q.pulled = ts.length + count := by
  cases h with
  | between hderives =>
    cases hstops with
    | ended => exact absurd rfl (hrest rfl)
    | @refused t later ht =>
      refine hp.exists_parse hderives fun d _ => ?_
      exact Parser.exists_parse_of_fails (Parser.fails_statement_of_not_allows ht later d _)
  | @inside ts us k done todo _ hderives hk hplaces hus =>
    rw [List.append_assoc, List.length_append, Nat.add_assoc]
    refine hp.exists_parse hderives fun d hd => ?_
    exact Parser.exists_parse_of_fails (Parser.fails_statement hd hk hplaces hus hstops _)

/-- Reading on from a place ends with a program, or at a place where nothing allowed comes next. -/
theorem read_on (h : p.Reaches ts place) (hp : p.WellBound) (rest : List Token) :
    (∃ q, ofTokens (ts ++ rest) = .ok q) ∨
    ∃ q done stop todo fault count, WellBound q ∧ q.Reaches done stop ∧ ts ++ rest = done ++ todo ∧
      stop.Stops q.names todo fault count ∧ (stop = .statement → todo ≠ []) := by
  induction rest generalizing p ts place with
  | nil =>
    cases h with
    | between hderives =>
      refine Or.inl ⟨p, ?_⟩
      rw [List.append_nil]
      exact hp.ofTokens_eq hderives
    | inside hderives hk hplaces hus =>
      have hplace : place ≠ .statement := by
        rintro rfl
        apply Place.statement_notMem_behind
        rw [hplaces]
        simp
      refine Or.inr ⟨p, _, place, [], _, _, hp, .inside hderives hk hplaces hus, rfl, .ended, ?_⟩
      exact fun heq => absurd heq hplace
  | cons t later ih =>
    by_cases ht : place.Allows p.names t
    · obtain ⟨q, next, hq, hnext⟩ := h.step hp ht
      rw [← List.singleton_append, ← List.append_assoc]
      exact ih hnext hq
    · exact Or.inr ⟨p, ts, place, t :: later, _, _, hp, h, rfl, .refused ht, fun _ => by simp⟩

/-- A token can follow exactly if the place allows it. -/
theorem viable_concat_iff (h : p.Reaches ts place) (hp : p.WellBound) {t : Token} :
    Viable (ts ++ [t]) ↔ place.Allows p.names t := by
  constructor
  · rintro ⟨later, q, hq⟩
    by_contra ht
    obtain ⟨after, hparse, -⟩ := h.parse_stops hp (.refused ht) fun _ => List.cons_ne_nil t later
    rw [List.append_assoc] at hq
    have hfst : ofTokens (ts ++ t :: later) = .error (place.fault t) := congrArg Prod.fst hparse
    rw [List.singleton_append, hfst] at hq
    cases hq
  · intro ht
    obtain ⟨q, next, hq, hnext⟩ := h.step hp ht
    exact hnext.viable hq

end Reaches

end Program

/-- **A fault is reported at the first token that cannot be right.**  Let a parser refuse a list of
tokens.  Either the list can be continued to the tokens of a program; then the tokens have run out,
and all of them were taken.  Or there is a first token that ends the viability of the list; then
exactly the tokens up to this one were taken, and the fault names it.  With the place that is
reached in front of the token, behind the statements of a program, it is a duplicate declaration
exactly if the token is the name of a binding and the program binds it already, an undeclared
reference exactly if it is a name in an expression and the program does not bind it, and an
unexpected token exactly if its kind starts no statement or is no expression.  In all other cases it
says which kind was expected, and that is the only kind of token that can follow there. -/
theorem fault_at_first_refused_token {ts : List Token} {fault : Fault} {after : Parser}
    (h : (Parser.ofStream (.answers (ts.map .ok))).parse = (.error fault, after)) :
    (Program.Viable ts ∧ fault = .tokensExhausted ∧ after.pulled = ts.length) ∨
    ∃ (i : Nat) (t : Token) (p : Program) (place : Place), ts[i]? = some t ∧
      ¬Program.Viable (ts.take (i + 1)) ∧ (∀ j ≤ i, Program.Viable (ts.take j)) ∧
      after.pulled = i + 1 ∧ p.Reaches (ts.take i) place ∧
      (fault = .duplicateDeclaration t.content t ↔
        place = .binding ∧ t.kind = .identifier ∧ t.content ∈ p.names) ∧
      (fault = .undeclaredReference t.content t ↔
        place = .expression ∧ t.kind = .identifier ∧ t.content ∉ p.names) ∧
      (fault = .unexpectedToken t ↔
        place = .statement ∧ t.kind ≠ .letWord ∧ t.kind ≠ .exitWord ∨
        place = .expression ∧ t.kind ≠ .integer ∧ t.kind ≠ .identifier) ∧
      (fault ≠ .duplicateDeclaration t.content t → fault ≠ .undeclaredReference t.content t →
        fault ≠ .unexpectedToken t →
        ∃ kind, fault = .expectedToken kind t ∧
          (∃ u, Program.Viable (ts.take i ++ [u])) ∧
          ∀ u, Program.Viable (ts.take i ++ [u]) → u.kind = kind) := by
  obtain ⟨q, hok⟩ | ⟨p, done, place, todo, found, count, hp, hreaches, heq, hstops, htodo⟩ :=
    (Program.Reaches.between .nil).read_on ⟨List.nodup_nil, trivial⟩ ts
  · have herror : Program.ofTokens ts = .error fault := congrArg Prod.fst h
    rw [List.nil_append, herror] at hok
    cases hok
  · rw [List.nil_append] at heq
    subst heq
    obtain ⟨q, hparse, hpulled⟩ := hreaches.parse_stops hp hstops htodo
    have hsame : (Except.error fault, after) = (Except.error found, q) := h.symm.trans hparse
    obtain ⟨hfault, rfl⟩ := Prod.mk.inj hsame
    rw [Except.error.injEq] at hfault
    subst hfault
    have hviable := hreaches.viable hp
    cases hstops with
    | ended =>
      rw [List.append_nil]
      exact Or.inl ⟨hviable, rfl, hpulled⟩
    | @refused t later ht =>
      have htake : (done ++ t :: later).take done.length = done := List.take_left
      have htake_succ : (done ++ t :: later).take (done.length + 1) = done ++ [t] := by
        rw [List.take_length_add_append]
        rfl
      refine Or.inr ⟨done.length, t, p, place, ?_, ?_, fun j hj => ?_, hpulled, ?_,
        Place.fault_eq_duplicateDeclaration_iff ht, Place.fault_eq_undeclaredReference_iff ht,
        Place.fault_eq_unexpectedToken_iff ht, fun hduplicate hundeclared hunexpected => ?_⟩
      · exact List.getElem?_append_right (Nat.le_refl _) |>.trans (by simp)
      · rw [htake_succ]
        exact fun hviable => ht ((hreaches.viable_concat_iff hp).mp hviable)
      · -- every shorter prefix is viable since the longest one is
        rw [List.take_append_of_le_length hj]
        rw [← List.take_append_drop j done] at hviable
        exact hviable.of_append
      · rw [htake]
        exact hreaches
      · obtain ⟨kind, hkind, hsingle⟩ :=
          Place.exists_fault_eq_expectedToken p.names hduplicate hundeclared hunexpected
        obtain ⟨u, hu⟩ := Place.exists_allows p.names place
        rw [htake]
        refine ⟨kind, hkind, ⟨u, (hreaches.viable_concat_iff hp).mpr hu⟩, fun v hv => ?_⟩
        exact hsingle v ((hreaches.viable_concat_iff hp).mp hv)

/-- The tokens of `let x = x;`. -/
def Program.selfReference : List Token :=
  [⟨.letWord, "let", 0, ⟨1, 1⟩⟩, ⟨.identifier, "x", 0, ⟨1, 5⟩⟩, ⟨.equals, "=", 0, ⟨1, 7⟩⟩,
    ⟨.identifier, "x", 0, ⟨1, 9⟩⟩, ⟨.semicolon, ";", 0, ⟨1, 10⟩⟩]

/-- The name that is being bound is refused where an expression has to stand, and the semicolon
behind it is not taken. -/
theorem fault_at_first_refused_token_selfReference :
    ∃ after, (Parser.ofStream (.answers (Program.selfReference.map .ok))).parse =
        (.error (.undeclaredReference "x" ⟨.identifier, "x", 0, ⟨1, 9⟩⟩), after) ∧
      ∃ (i : Nat) (p : Program), ¬Program.Viable (Program.selfReference.take (i + 1)) ∧
        (∀ j ≤ i, Program.Viable (Program.selfReference.take j)) ∧ after.pulled = i + 1 ∧
        p.Reaches (Program.selfReference.take i) .expression := by
  have hfault : (Parser.ofStream (.answers (Program.selfReference.map .ok))).parse.1 =
      .error (.undeclaredReference "x" ⟨.identifier, "x", 0, ⟨1, 9⟩⟩) := by
    with_unfolding_all rfl
  refine ⟨_, Prod.ext hfault rfl, ?_⟩
  obtain ⟨-, hexhausted, -⟩ | ⟨i, t, p, place, -, hrefused, hviable, hpulled, hreaches, hduplicate,
    hundeclared, hunexpected, hexpected⟩ := fault_at_first_refused_token (Prod.ext hfault rfl)
  · cases hexhausted
  · refine ⟨i, p, hrefused, hviable, hpulled, ?_⟩
    by_cases hplace : place = .expression
    · rw [← hplace]
      exact hreaches
    · -- at any other place the fault would be of another kind
      obtain ⟨kind, hkind, -⟩ := hexpected Fault.noConfusion
        (fun heq => hplace (hundeclared.mp heq).1) Fault.noConfusion
      cases hkind

end LetExit
