import LetExit.Program

/-!
# Scope

A program binds names one after the other, and an expression may refer to those bound
further up.  `Program.Scoped` says so of all its expressions, in terms of the indices of
the statements.  The proofs walk through a program from the front, and so they use
`Program.ScopedAfter`, which says the same of the rest of a program whose first part
has bound some names already (`Program.scoped_iff_scopedAfter`).
-/

set_option autoImplicit false

namespace LetExit

namespace Statement

/-- The expression of a statement. -/
def expr? : Statement → Option Expr
  | .bind _ value => some value
  | .exit status => some status
  | .hole => none

/-- The names that a statement binds: one or none. -/
def binds : Statement → List String
  | .bind ident _ => [ident]
  | .exit _ => []
  | .hole => []

/-- A statement binds a name exactly if it is a `let` of that name. -/
theorem mem_binds_iff {s : Statement} {x : String} : x ∈ s.binds ↔ ∃ e, s = .bind x e := by
  cases s with
  | bind y value =>
    simp only [binds, List.mem_singleton, bind.injEq]
    constructor
    · rintro rfl
      exact ⟨value, rfl, rfl⟩
    · rintro ⟨e, rfl, -⟩
      rfl
  | exit status => simp [binds]
  | hole => simp [binds]

/-- A statement binds at most one name. -/
theorem reverse_binds (s : Statement) : s.binds.reverse = s.binds := by
  cases s with
  | bind x value => rfl
  | exit status => rfl
  | hole => rfl

end Statement

namespace Program

/-- The names that a program binds, in order. -/
def names (p : Program) : List String :=
  p.flatMap Statement.binds

/-- No node of the program is missing. -/
def Complete (p : Program) : Prop :=
  ∀ s ∈ p, s ≠ .hole ∧ s.expr? ≠ some .hole

/-- Every name that an expression refers to is bound by a `let` of smaller index. -/
def Scoped (p : Program) : Prop :=
  ∀ (i : Nat) (s : Statement) (x : String), p[i]? = some s → s.expr? = some (.name x) →
    ∃ j < i, ∃ e, p[j]? = some (.bind x e)

/-- The names of a program are those of its first statement and then the later ones. -/
theorem names_cons (s : Statement) (p : Program) : names (s :: p) = s.binds ++ p.names :=
  List.flatMap_cons

/-- The names of programs one after the other. -/
theorem names_append (p q : Program) : names (p ++ q) = p.names ++ q.names :=
  List.flatMap_append

/-- The names bound in front of an index are those of the `let`s of smaller index. -/
theorem mem_names_take_iff {p : Program} {i : Nat} {x : String} :
    x ∈ names (p.take i) ↔ ∃ j < i, ∃ e, p[j]? = some (.bind x e) := by
  rw [names, List.mem_flatMap]
  constructor
  · rintro ⟨s, hs, hx⟩
    obtain ⟨e, rfl⟩ := Statement.mem_binds_iff.mp hx
    obtain ⟨j, hj⟩ := List.mem_iff_getElem?.mp hs
    rw [List.getElem?_take] at hj
    split at hj
    · rename_i hlt
      exact ⟨j, hlt, e, hj⟩
    · cases hj
  · rintro ⟨j, hlt, e, hj⟩
    refine ⟨.bind x e, ?_, Statement.mem_binds_iff.mpr ⟨e, rfl⟩⟩
    apply List.mem_iff_getElem?.mpr
    exact ⟨j, by rw [List.getElem?_take, if_pos hlt, hj]⟩

/-- Every name that an expression refers to is bound in front of it, or is one of the given ones,
which are the names bound before the program starts. -/
def ScopedAfter (earlier : List String) : Program → Prop
  | [] => True
  | s :: later =>
    (∀ x, s.expr? = some (.name x) → x ∈ earlier) ∧ ScopedAfter (s.binds ++ earlier) later

/-- A program is scoped if each of its parts is, with the names in front of it. -/
theorem scopedAfter_append_iff {earlier : List String} {p q : Program} :
    ScopedAfter earlier (p ++ q) ↔
      p.ScopedAfter earlier ∧ q.ScopedAfter (p.names.reverse ++ earlier) := by
  induction p generalizing earlier with
  | nil => simp [ScopedAfter, names]
  | cons s later ih =>
    rw [List.cons_append, ScopedAfter, ScopedAfter, ih, names_cons, List.reverse_append,
      s.reverse_binds, List.append_assoc, and_assoc]

/-- A program is scoped if every name in it is bound in front of its statement. -/
theorem scopedAfter_iff {earlier : List String} {p : Program} :
    p.ScopedAfter earlier ↔ ∀ i s x, p[i]? = some s → s.expr? = some (.name x) →
      x ∈ names (p.take i) ∨ x ∈ earlier := by
  induction p generalizing earlier with
  | nil => simp [ScopedAfter]
  | cons first later ih =>
    rw [ScopedAfter, ih]
    constructor
    · rintro ⟨hfirst, hlater⟩ i s x hi hx
      cases i with
      | zero =>
        rw [List.getElem?_cons_zero, Option.some.injEq] at hi
        rw [← hi] at hx
        exact Or.inr (hfirst x hx)
      | succ i =>
        rw [List.getElem?_cons_succ] at hi
        rw [List.take_succ_cons, names_cons]
        have := hlater i s x hi hx
        grind
    · intro h
      refine ⟨fun x hx => ?_, fun i s x hi hx => ?_⟩
      · have := h 0 first x rfl hx
        simpa [names] using this
      · have := h (i + 1) s x (by rw [List.getElem?_cons_succ, hi]) hx
        rw [List.take_succ_cons, names_cons] at this
        grind

/-- A program is scoped if the walk from its front finds it so with nothing bound before. -/
theorem scoped_iff_scopedAfter {p : Program} : p.Scoped ↔ p.ScopedAfter [] := by
  rw [scopedAfter_iff]
  simp only [Scoped, mem_names_take_iff, List.not_mem_nil, or_false]

end Program

end LetExit
