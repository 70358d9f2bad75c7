import LetExit.Proofs.ParserSteps

/-!
# The language of the parser

A parser over a list of tokens accepts exactly the programs whose tokens these are, in
which no name is bound twice and every name is bound before it is used.  A program
read from a text has the same properties, so all its nodes are there and every name
it refers to has been bound (`Program.complete_of_parse`, `Program.scoped_of_parse`).
-/

set_option autoImplicit false

namespace LetExit

/-- The declared names are the given ones, and all their statements are complete. -/
def Declarations.Holds (d : Declarations) (names : List String) : Prop :=
  ∀ x, d[x]? = if x ∈ names then some true else none

namespace Declarations

/-- A table without names holds no names. -/
theorem holds_empty : Holds ∅ [] := by
  intro x
  simp

/-- A statement adds the name that it binds. -/
theorem Holds.after {d : Declarations} {earlier : List String} (h : d.Holds earlier)
    (s : Statement) : (d.after s).Holds (s.binds ++ earlier) := by
  intro x
  cases s with
  | bind ident value =>
    simp only [Declarations.after, Statement.binds, List.singleton_append, List.mem_cons]
    rw [Std.ExtTreeMap.getElem?_insert, h x]
    by_cases hx : x = ident
    · simp [hx]
    · have hne : compare ident x ≠ .eq := by
        intro heq
        exact hx (Std.compare_eq_iff_eq.mp heq).symm
      simp [hne, hx]
  | exit status => exact h x
  | hole => exact h x

/-- A statement fits a table if it binds a new name and refers to names in it. -/
theorem Holds.admits_iff {d : Declarations} {earlier : List String} (h : d.Holds earlier)
    {s : Statement} : d.Admits s ↔
      (∀ x ∈ s.binds, x ∉ earlier) ∧ ∀ x, s.expr? = some (.name x) → x ∈ earlier := by
  have hcontains : ∀ x, d.contains x = false ↔ x ∉ earlier := by
    intro x
    rw [Std.ExtTreeMap.contains_eq_isSome_getElem?, h x]
    split <;> simp_all
  have hvisible : ∀ x, d[x]? = some true ↔ x ∈ earlier := by
    intro x
    rw [h x]
    split <;> simp_all
  simp only [Admits, hcontains, hvisible]

/-- The statements of a program fit the declared names if they bind new names, each of them once,
and refer only to names bound in front of them. -/
theorem Holds.admitsAll_iff {d : Declarations} {earlier : List String} (h : d.Holds earlier)
    {p : Program} : d.AdmitsAll p ↔
      p.names.Nodup ∧ (∀ x ∈ p.names, x ∉ earlier) ∧ p.ScopedAfter earlier := by
  induction p generalizing d earlier with
  | nil => simp [AdmitsAll, Program.names, Program.ScopedAfter]
  | cons s later ih =>
    rw [AdmitsAll, h.admits_iff, ih (h.after s), Program.names_cons, Program.ScopedAfter]
    have hbinds : s.binds.Nodup := by cases s <;> simp [Statement.binds]
    rw [List.nodup_append]
    -- a name of the rest is new both to the names in front and to this statement
    grind

end Declarations

/-- No token is read as an expression that is missing. -/
theorem Expr.Derives.ne_hole {e : Expr} {t : Token} (h : e.Derives t) : e ≠ .hole := by
  cases h <;> simp

/-- No tokens are read as a statement that is missing, nor as one with a missing expression. -/
theorem Statement.Derives.ne_hole {s : Statement} {ts : List Token} (h : s.Derives ts) :
    s ≠ .hole ∧ s.expr? ≠ some .hole := by
  cases h with
  | bind _ _ _ he _ =>
    refine ⟨by simp, ?_⟩
    simpa [Statement.expr?] using he.ne_hole
  | exit _ _ he _ _ =>
    refine ⟨by simp, ?_⟩
    simpa [Statement.expr?] using he.ne_hole

/-- A program that is read from tokens has nothing missing. -/
theorem Program.Derives.complete {p : Program} {ts : List Token} (h : p.Derives ts) :
    p.Complete := by
  induction h with
  | nil => simp [Program.Complete]
  | cons hs _ ih =>
    intro s hmem
    rcases List.mem_cons.mp hmem with rfl | hmem
    · exact hs.ne_hole
    · exact ih s hmem

/-- The tokens ahead of a parser over a list of tokens are those of the list. -/
theorem Parser.ahead_answers_iff {ts us : List Token} {d : Declarations} {n : Nat} :
    Ahead ⟨.answers (ts.map .ok), none, d, n⟩ us ↔ us = ts := by
  induction ts generalizing us n with
  | nil =>
    constructor
    · rintro (_ | ⟨hnext, -⟩)
      · rfl
      · cases hnext
    · rintro rfl
      exact .nil rfl
  | cons t ts ih =>
    constructor
    · rintro (hpeek | ⟨hnext, hahead⟩)
      · cases hpeek
      · obtain ⟨ht, rfl⟩ := Prod.mk.inj hnext
        rw [Except.ok.inj ht, ih.mp hahead]
    · rintro rfl
      exact .cons rfl (ih.mpr rfl)

namespace Program

/-- **The language of the parser.**  A list of tokens is read as a program exactly if the grammar
derives it from the program, the names bound by the program are pairwise distinct, and every name
in an expression is bound by a `let` of smaller index. -/
theorem parse_tokens_eq_ok_iff (ts : List Token) (p : Program) :
    (Parser.ofStream (.answers (ts.map .ok))).parse.1 = .ok p ↔
      p.Derives ts ∧ p.names.Nodup ∧ p.Scoped := by
  rw [Parser.parse_eq_ok_iff, scoped_iff_scopedAfter]
  have hadmits := Declarations.holds_empty.admitsAll_iff (p := p)
  have hahead : ∀ us, (Parser.ofStream (.answers (ts.map .ok))).Ahead us ↔ us = ts :=
    fun us => Parser.ahead_answers_iff
  constructor
  · rintro ⟨us, hus, hderives, hall⟩
    obtain ⟨hnodup, -, hscoped⟩ := hadmits.mp hall
    rw [(hahead us).mp hus] at hderives
    exact ⟨hderives, hnodup, hscoped⟩
  · rintro ⟨hderives, hnodup, hscoped⟩
    exact ⟨ts, (hahead ts).mpr rfl, hderives, hadmits.mpr ⟨hnodup, by simp, hscoped⟩⟩

/-- A program read from a text has all its nodes. -/
theorem complete_of_parse {input : Input} {p : Program} (h : parse input = .ok p) :
    p.Complete := by
  obtain ⟨ts, -, hderives, -⟩ := Parser.parse_eq_ok_iff.mp h
  exact hderives.complete

/-- A program read from a text refers only to names that are bound before. -/
theorem scoped_of_parse {input : Input} {p : Program} (h : parse input = .ok p) : p.Scoped := by
  obtain ⟨ts, -, -, hall⟩ := Parser.parse_eq_ok_iff.mp h
  exact scoped_iff_scopedAfter.mpr (Declarations.holds_empty.admitsAll_iff.mp hall).2.2

end Program

end LetExit
