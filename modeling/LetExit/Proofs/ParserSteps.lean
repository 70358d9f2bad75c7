import LetExit.Proofs.Loops
import LetExit.Proofs.Scope

/-!
# What the steps of a parser do

A parser consumes tokens (`Parser.Advances`) and keeps a table of declared names, and
consuming a token never looks at the table.  So a step that succeeds is described by
the tokens it consumes, by what it asks of the table, and by the table it leaves.
The grammar is stated here as well, since it is what the consumed tokens have to
follow: `Expr.Derives`, `Statement.Derives` and `Program.Derives`.

The main statements are `Parser.run_statement_eq_ok_iff`, for one statement, and
`Parser.parse_eq_ok_iff`, for the whole loop from any state of a parser.
-/

set_option autoImplicit false

namespace LetExit

/-- The tokens of an expression: an integer or a name. -/
inductive Expr.Derives : Expr → Token → Prop
  | integer {t : Token} : t.kind = .integer → Derives (.literal t.value) t
  | name {t : Token} : t.kind = .identifier → Derives (.name t.content) t

/-- The tokens of a statement: `let` name `=` expression `;` or `exit` `(` expression `)` `;`. -/
inductive Statement.Derives : Statement → List Token → Prop
  | bind {k x q t z : Token} {e : Expr} : k.kind = .letWord → x.kind = .identifier →
      q.kind = .equals → e.Derives t → z.kind = .semicolon →
      Derives (.bind x.content e) [k, x, q, t, z]
  | exit {k o t c z : Token} {e : Expr} : k.kind = .exitWord → o.kind = .parenOpen →
      e.Derives t → c.kind = .parenClose → z.kind = .semicolon →
      Derives (.exit e) [k, o, t, c, z]

/-- The tokens of a program: those of its statements, one after the other. -/
inductive Program.Derives : Program → List Token → Prop
  | nil : Derives [] []
  | cons {s : Statement} {p : Program} {ts us : List Token} : s.Derives ts → Derives p us →
      Derives (s :: p) (ts ++ us)

namespace Declarations

/-- The names declared after a complete statement. -/
def after (d : Declarations) : Statement → Declarations
  | .bind ident _ => d.insert ident true
  | .exit _ => d
  | .hole => d

/-- A statement fits the declared names if it binds none of them again and refers only to names
whose statements are complete. -/
def Admits (d : Declarations) (s : Statement) : Prop :=
  (∀ x ∈ s.binds, d.contains x = false) ∧ ∀ x, s.expr? = some (.name x) → d[x]? = some true

/-- All statements of a program fit the names declared in front of them. -/
def AdmitsAll (d : Declarations) : Program → Prop
  | [] => True
  | s :: later => d.Admits s ∧ AdmitsAll (d.after s) later

end Declarations

namespace Parser

/-- The parser with other declared names. -/
def withDeclared (p : Parser) (d : Declarations) : Parser :=
  { p with declared := d }

/-- Consuming the given tokens leads from one parser to another. -/
inductive Advances : Parser → List Token → Parser → Prop
  | refl (p : Parser) : Advances p [] p
  | step {p q r : Parser} {t : Token} {ts : List Token} : run next p = (.ok t, q) →
      Advances q ts r → Advances p (t :: ts) r

/-- The tokens still to come are the given ones, and then the stream reports its end. -/
inductive Ahead : Parser → List Token → Prop
  | nil {p q : Parser} : run peek p = (.error .endOfInput, q) → Ahead p []
  | cons {p q : Parser} {t : Token} {ts : List Token} : run next p = (.ok t, q) → Ahead q ts →
      Ahead p (t :: ts)

/-- Steps succeed one after the other exactly if each of them does. -/
theorem run_bind_eq_ok_iff {α β : Type} {step : Step α} {f : α → Step β} {p r : Parser} {b : β} :
    run (step >>= f) p = (.ok b, r) ↔ ∃ a q, run step p = (.ok a, q) ∧ run (f a) q = (.ok b, r) := by
  rw [run_bind]
  constructor
  · intro h
    split at h
    · rename_i a q hq
      exact ⟨a, q, hq, h⟩
    · cases h
  · rintro ⟨a, q, hq, h⟩
    rw [hq]
    exact h

/-- An answer alone succeeds with that answer and changes nothing. -/
theorem run_pure_eq_ok_iff {α : Type} {a b : α} {p q : Parser} :
    run (pure a : Step α) p = (.ok b, q) ↔ a = b ∧ p = q := by
  simp [run_pure]

/-- Looking ahead does not depend on the declared names and keeps them. -/
theorem run_peek_withDeclared (p : Parser) (d : Declarations) :
    run peek (p.withDeclared d) = ((run peek p).1, (run peek p).2.withDeclared d) := by
  obtain ⟨stream, peeked, declared, pulled⟩ := p
  simp only [peek, run_of, withDeclared]
  cases peeked with
  | some t => rfl
  | none => rcases stream.next with ⟨_ | _, _⟩ <;> rfl

/-- Consuming a token does not look at the declared names. -/
theorem run_next_withDeclared (p : Parser) (d : Declarations) :
    run next (p.withDeclared d) = ((run next p).1, (run next p).2.withDeclared d) := by
  simp only [next, run_of, run_peek_withDeclared]
  rcases run peek p with ⟨fault | t, q⟩
  · cases fault <;> rfl
  · rfl

/-- A token that is consumed with other names declared is consumed with these. -/
theorem run_next_withDeclared_eq_ok_iff {p r : Parser} {d : Declarations} {t : Token} :
    run next (p.withDeclared d) = (.ok t, r) ↔
      ∃ q, run next p = (.ok t, q) ∧ r = q.withDeclared d := by
  rw [run_next_withDeclared]
  constructor
  · intro h
    obtain ⟨h₁, h₂⟩ := Prod.mk.inj h
    exact ⟨(run next p).2, Prod.ext h₁ rfl, h₂.symm⟩
  · rintro ⟨q, hq, rfl⟩
    rw [hq]

/-- Consuming a token declares nothing. -/
theorem declared_of_run_next {p q : Parser} {t : Token} (h : run next p = (.ok t, q)) :
    q.declared = p.declared := by
  have hd := run_next_withDeclared p p.declared
  have hp : p.withDeclared p.declared = p := rfl
  rw [hp, h] at hd
  have hq : q = q.withDeclared p.declared := (Prod.mk.inj hd).2
  rw [hq]
  rfl

/-- Consuming tokens declares nothing. -/
theorem declared_of_advances {p q : Parser} {ts : List Token} (h : Advances p ts q) :
    q.declared = p.declared := by
  induction h with
  | refl p => rfl
  | step hnext _ ih => rw [ih, declared_of_run_next hnext]

/-- Behind a look the same token is consumed. -/
theorem run_next_of_run_peek {p q : Parser} {t : Token} (h : run peek p = (.ok t, q)) :
    run next q = run next p := by
  have hq : run peek q = (.ok t, q) := by
    rw [peek, run_of, peeked_of_run_peek h]
  simp only [next, run_of, hq, h]

/-- A token that can be consumed can be looked at. -/
theorem exists_run_peek_of_run_next {p q : Parser} {t : Token} (h : run next p = (.ok t, q)) :
    ∃ r, run peek p = (.ok t, r) := by
  rw [next, run_of] at h
  split at h
  · rename_i u r hr
    obtain ⟨h₁, -⟩ := Prod.mk.inj h
    rw [Except.ok.injEq] at h₁
    exact ⟨r, by rw [hr, h₁]⟩
  · cases h
  · cases h

/-- A token is consumed as expected exactly if it is of that kind. -/
theorem run_expect_eq_ok_iff {kind : Token.Kind} {p q : Parser} {t : Token} :
    run (expect kind) p = (.ok t, q) ↔ run next p = (.ok t, q) ∧ t.kind = kind := by
  rw [expect, run_bind_eq_ok_iff]
  constructor
  · rintro ⟨u, r, hr, h⟩
    split at h
    · rename_i hk
      obtain ⟨rfl, rfl⟩ := run_pure_eq_ok_iff.mp h
      exact ⟨hr, hk⟩
    · cases h
  · rintro ⟨hr, hk⟩
    exact ⟨t, q, hr, by rw [if_pos hk]; rfl⟩

/-- An expression is one token, and a name has to be declared by a complete statement. -/
theorem run_expression_eq_ok_iff {p q : Parser} {e : Expr} :
    run expression p = (.ok e, q) ↔ ∃ t, run next p = (.ok t, q) ∧ e.Derives t ∧
      ∀ x, e = .name x → p.declared[x]? = some true := by
  rw [expression, run_bind_eq_ok_iff]
  constructor
  · rintro ⟨t, r, hr, h⟩
    have hd := declared_of_run_next hr
    split at h
    · rename_i hk
      obtain ⟨rfl, rfl⟩ := run_pure_eq_ok_iff.mp h
      exact ⟨t, hr, .integer hk, fun x hx => by cases hx⟩
    · rename_i hk
      rw [run_bind, run_get] at h
      dsimp only at h
      split at h
      · rename_i hdecl
        obtain ⟨rfl, rfl⟩ := run_pure_eq_ok_iff.mp h
        refine ⟨t, hr, .name hk, fun x hx => ?_⟩
        rw [Expr.name.injEq] at hx
        rw [← hd, ← hx, hdecl]
      · cases h
    · cases h
  · rintro ⟨t, hr, hderives, hvisible⟩
    refine ⟨t, q, hr, ?_⟩
    cases hderives with
    | integer hk => simp only [hk, run_pure]
    | name hk =>
      have hdecl : q.declared[t.content]? = some true := by
        rw [declared_of_run_next hr]
        exact hvisible _ rfl
      simp only [hk, run_bind, run_get, hdecl, if_true, run_pure]

/-- An exit statement is four tokens behind its keyword, over visible names. -/
theorem run_exitStatement_eq_ok_iff {p r : Parser} {s : Statement} :
    run exitStatement p = (.ok s, r) ↔ ∃ o t c z e, Advances p [o, t, c, z] r ∧
      o.kind = .parenOpen ∧ e.Derives t ∧ c.kind = .parenClose ∧ z.kind = .semicolon ∧
      (∀ x, e = .name x → p.declared[x]? = some true) ∧ s = .exit e := by
  simp only [exitStatement, run_bind_eq_ok_iff, run_expect_eq_ok_iff, run_expression_eq_ok_iff,
    run_pure_eq_ok_iff]
  constructor
  · rintro ⟨o, q₁, ⟨h₁, ho⟩, e, q₂, ⟨t, h₂, ht, hv⟩, c, q₃, ⟨h₃, hc⟩, z, q₄, ⟨h₄, hz⟩, rfl, rfl⟩
    refine ⟨o, t, c, z, e, ?_, ho, ht, hc, hz, ?_, rfl⟩
    · exact .step h₁ (.step h₂ (.step h₃ (.step h₄ (.refl _))))
    · rw [← declared_of_run_next h₁]
      exact hv
  · rintro ⟨o, t, c, z, e, hadv, ho, ht, hc, hz, hv, rfl⟩
    obtain _ | ⟨h₁, _ | ⟨h₂, _ | ⟨h₃, _ | ⟨h₄, ⟨⟩⟩⟩⟩⟩ := hadv
    rw [← declared_of_run_next h₁] at hv
    exact ⟨o, _, ⟨h₁, ho⟩, e, _, ⟨t, h₂, ht, hv⟩, c, _, ⟨h₃, hc⟩, z, _, ⟨h₄, hz⟩, rfl, rfl⟩

/-- The name of a binding has to be new, and is declared without being complete. -/
theorem run_newName_eq_ok_iff {p r : Parser} {x : String} :
    run newName p = (.ok x, r) ↔ ∃ t q, run next p = (.ok t, q) ∧ t.kind = .identifier ∧
      p.declared.contains x = false ∧ x = t.content ∧
      r = q.withDeclared (p.declared.insert x false) := by
  rw [newName, run_bind_eq_ok_iff]
  constructor
  · rintro ⟨t, q, hq, h⟩
    obtain ⟨hnext, hk⟩ := run_expect_eq_ok_iff.mp hq
    rw [run_bind, run_get] at h
    dsimp only at h
    split at h
    · cases h
    · rename_i hnew
      obtain ⟨_, m, hm, h'⟩ := run_bind_eq_ok_iff.mp h
      obtain ⟨rfl, rfl⟩ := run_pure_eq_ok_iff.mp h'
      have hd := declared_of_run_next hnext
      have hm' : m = q.withDeclared (q.declared.insert t.content false) :=
        (Prod.mk.inj hm).2.symm
      rw [hd] at hm' hnew
      exact ⟨t, q, hnext, hk, eq_false_of_ne_true hnew, rfl, hm'⟩
  · rintro ⟨t, q, hnext, hk, hnew, rfl, rfl⟩
    refine ⟨t, q, run_expect_eq_ok_iff.mpr ⟨hnext, hk⟩, ?_⟩
    -- the names are looked up after the token was consumed
    have hd := declared_of_run_next hnext
    rw [← hd] at hnew ⊢
    rw [run_bind, run_get]
    simp only [hnew, Bool.false_eq_true, if_false]
    rfl

/-- A name that is not in the table has no entry. -/
theorem getElem?_eq_none_of_contains {d : Declarations} {x : String} (h : d.contains x = false) :
    d[x]? = none := by
  cases hx : d[x]? with
  | none => rfl
  | some complete =>
    rw [Std.ExtTreeMap.contains_eq_isSome_getElem?, hx] at h
    cases h

/-- A name whose own statement is not complete is not visible, and all others are as before. -/
theorem getElem?_insert_false_eq_true_iff {d : Declarations} {x y : String}
    (h : d.contains x = false) : (d.insert x false)[y]? = some true ↔ d[y]? = some true := by
  rw [Std.ExtTreeMap.getElem?_insert]
  split
  · rename_i hxy
    rw [← Std.compare_eq_iff_eq.mp hxy, getElem?_eq_none_of_contains h]
    simp
  · rfl

/-- That a name was declared first does not show once it is complete. -/
theorem insert_false_insert_true (d : Declarations) (x : String) :
    (d.insert x false).insert x true = d.insert x true := by
  apply Std.ExtTreeMap.ext_getElem?
  intro y
  simp only [Std.ExtTreeMap.getElem?_insert]
  split <;> rfl

/-- A binding that is complete but for its name is four tokens, of which the first is a new name and
the third an expression over visible names. -/
theorem run_openBinding_eq_ok_iff {p r : Parser} {x : String} {e : Expr} :
    run openBinding p = (.ok (x, e), r) ↔ ∃ i q t z m, Advances p [i, q, t, z] m ∧
      i.kind = .identifier ∧ q.kind = .equals ∧ e.Derives t ∧ z.kind = .semicolon ∧
      p.declared.contains i.content = false ∧ (∀ y, e = .name y → p.declared[y]? = some true) ∧
      x = i.content ∧ r = m.withDeclared (p.declared.insert i.content false) := by
  simp only [openBinding, run_bind_eq_ok_iff, run_expect_eq_ok_iff, run_expression_eq_ok_iff,
    run_newName_eq_ok_iff, run_pure_eq_ok_iff, Prod.mk.injEq]
  constructor
  · rintro ⟨_, q₁, ⟨i, m₁, h₁, hi, hnew, rfl, rfl⟩, q, q₂, ⟨h₂, hq⟩, _, q₃, ⟨t, h₃, ht, hv⟩,
      z, q₄, ⟨h₄, hz⟩, ⟨rfl, rfl⟩, rfl⟩
    -- the tokens are the same as without the half-declared name
    obtain ⟨m₂, hm₂, rfl⟩ := run_next_withDeclared_eq_ok_iff.mp h₂
    obtain ⟨m₃, hm₃, rfl⟩ := run_next_withDeclared_eq_ok_iff.mp h₃
    obtain ⟨m₄, hm₄, rfl⟩ := run_next_withDeclared_eq_ok_iff.mp h₄
    refine ⟨i, q, t, z, m₄, ?_, hi, hq, ht, hz, hnew, fun y hy => ?_, rfl, rfl⟩
    · exact .step h₁ (.step hm₂ (.step hm₃ (.step hm₄ (.refl _))))
    · exact (getElem?_insert_false_eq_true_iff hnew).mp (hv y hy)
  · rintro ⟨i, q, t, z, m, hadv, hi, hq, ht, hz, hnew, hv, rfl, rfl⟩
    obtain _ | ⟨h₁, _ | ⟨h₂, _ | ⟨h₃, _ | ⟨h₄, ⟨⟩⟩⟩⟩⟩ := hadv
    refine ⟨i.content, _, ⟨i, _, h₁, hi, hnew, rfl, rfl⟩, q, _,
      ⟨run_next_withDeclared_eq_ok_iff.mpr ⟨_, h₂, rfl⟩, hq⟩, e, _,
      ⟨t, run_next_withDeclared_eq_ok_iff.mpr ⟨_, h₃, rfl⟩, ht, fun y hy => ?_⟩, z, _,
      ⟨run_next_withDeclared_eq_ok_iff.mpr ⟨_, h₄, rfl⟩, hz⟩, ⟨rfl, rfl⟩, rfl⟩
    exact (getElem?_insert_false_eq_true_iff hnew).mpr (hv y hy)

/-- A binding is read by its parts, and then its name is complete. -/
theorem run_bindStatement_eq (p : Parser) :
    run bindStatement p =
      match run openBinding p with
      | (.ok (name, value), q) =>
        (.ok (.bind name value), q.withDeclared (q.declared.insert name true))
      | (.error fault, q) => (.error fault, q) := by
  rw [bindStatement, run_bind]
  rcases run openBinding p with ⟨fault | ⟨name, value⟩, q⟩ <;> rfl

/-- Completing the name of a binding changes nothing but the declared names. -/
theorem exists_run_bindStatement_snd_eq (p : Parser) :
    ∃ d, (run bindStatement p).2 = (run openBinding p).2.withDeclared d := by
  rw [run_bindStatement_eq]
  rcases run openBinding p with ⟨fault | ⟨name, value⟩, q⟩
  · exact ⟨q.declared, rfl⟩
  · exact ⟨q.declared.insert name true, rfl⟩

/-- A binding is four tokens behind its keyword, and its name is complete after it. -/
theorem run_bindStatement_eq_ok_iff {p r : Parser} {s : Statement} :
    run bindStatement p = (.ok s, r) ↔ ∃ i q t z e m, Advances p [i, q, t, z] m ∧
      i.kind = .identifier ∧ q.kind = .equals ∧ e.Derives t ∧ z.kind = .semicolon ∧
      p.declared.contains i.content = false ∧ (∀ x, e = .name x → p.declared[x]? = some true) ∧
      s = .bind i.content e ∧ r = m.withDeclared (p.declared.insert i.content true) := by
  rw [run_bindStatement_eq]
  constructor
  · intro h
    rcases hopen : run openBinding p with ⟨fault | ⟨x, e⟩, opened⟩
    · rw [hopen] at h
      cases h
    · rw [hopen] at h
      cases h
      obtain ⟨i, q, t, z, m, hadv, hi, hq, ht, hz, hnew, hv, rfl, rfl⟩ :=
        run_openBinding_eq_ok_iff.mp hopen
      refine ⟨i, q, t, z, e, m, hadv, hi, hq, ht, hz, hnew, hv, rfl, ?_⟩
      exact congrArg m.withDeclared (insert_false_insert_true p.declared i.content)
  · rintro ⟨i, q, t, z, e, m, hadv, hi, hq, ht, hz, hnew, hv, rfl, rfl⟩
    rw [run_openBinding_eq_ok_iff.mpr ⟨i, q, t, z, m, hadv, hi, hq, ht, hz, hnew, hv, rfl, rfl⟩,
      ← insert_false_insert_true]
    rfl

/-- A statement is read exactly if the tokens ahead start with its tokens and it fits the declared
names; then these tokens are consumed and its name is declared. -/
theorem run_statement_eq_ok_iff {p r : Parser} {s : Statement} :
    run statement p = (.ok s, r) ↔ ∃ ts q, Advances p ts q ∧ s.Derives ts ∧
      p.declared.Admits s ∧ r = q.withDeclared (p.declared.after s) := by
  rw [statement, run_bind_eq_ok_iff]
  constructor
  · rintro ⟨k, q, hk, h⟩
    have hd := declared_of_run_next hk
    split at h
    · rename_i hkind
      obtain ⟨i, e, t, z, value, m, hadv, hi, he, ht, hz, hnew, hv, rfl, rfl⟩ :=
        run_bindStatement_eq_ok_iff.mp h
      rw [hd] at hnew hv ⊢
      refine ⟨_, m, .step hk hadv, .bind hkind hi he ht hz, ⟨?_, ?_⟩, rfl⟩
      · simpa [Statement.binds] using hnew
      · simpa [Statement.expr?] using hv
    · rename_i hkind
      obtain ⟨o, t, c, z, e, hadv, ho, ht, hc, hz, hv, rfl⟩ := run_exitStatement_eq_ok_iff.mp h
      rw [hd] at hv
      refine ⟨_, r, .step hk hadv, .exit hkind ho ht hc hz, ⟨?_, ?_⟩, ?_⟩
      · simp [Statement.binds]
      · simpa [Statement.expr?] using hv
      · rw [Declarations.after, ← hd, ← declared_of_advances hadv]
        rfl
    · cases h
  · rintro ⟨ts, m, hadv, hderives, ⟨hnew, hv⟩, rfl⟩
    cases hderives with
    | bind hk hi he ht hz =>
      obtain _ | ⟨h₁, hadv⟩ := hadv
      have hd := declared_of_run_next h₁
      refine ⟨_, _, h₁, ?_⟩
      simp only [hk]
      apply run_bindStatement_eq_ok_iff.mpr
      refine ⟨_, _, _, _, _, m, hadv, hi, he, ht, hz, ?_, ?_, rfl, ?_⟩
      · rw [hd]
        exact hnew _ (by simp [Statement.binds])
      · rw [hd]
        intro x hx
        exact hv x (congrArg some hx)
      · rw [hd]
        rfl
    | exit hk ho ht hc hz =>
      obtain _ | ⟨h₁, hadv⟩ := hadv
      have hd := declared_of_run_next h₁
      refine ⟨_, _, h₁, ?_⟩
      have hm : m.withDeclared p.declared = m := by
        rw [← hd, ← declared_of_advances hadv]
        rfl
      simp only [hk, Declarations.after, hm]
      apply run_exitStatement_eq_ok_iff.mpr
      refine ⟨_, _, _, _, _, hadv, ho, ht, hc, hz, ?_, rfl⟩
      rw [hd]
      intro x hx
      exact hv x (congrArg some hx)

/-- Behind a look the same statement is read. -/
theorem run_statement_of_run_peek {p q : Parser} {t : Token} (h : run peek p = (.ok t, q)) :
    run statement q = run statement p := by
  rw [statement, run_bind, run_bind, run_next_of_run_peek h]

/-- One round of the loop. -/
theorem parse_eq (p : Parser) :
    p.parse =
      match run peek p with
      | (.error .endOfInput, q) => (.ok [], q)
      | (.error fault, q) => (.error fault, q)
      | (.ok _, _) =>
        match run statement p with
        | (.error fault, q) => (.error fault, q)
        | (.ok s, q) => (q.parse.1.map (s :: ·), q.parse.2) := by
  rw [collects_parse.unroll, statementStep]
  rcases hpeek : run peek p with ⟨fault | token, q⟩
  · cases fault <;> rfl
  · dsimp only
    rw [← run_statement_of_run_peek hpeek]
    rcases run statement q with ⟨fault | first, r⟩ <;> rfl

/-- The program is empty exactly if the tokens end. -/
theorem parse_eq_ok_nil_iff {p : Parser} :
    p.parse.1 = .ok [] ↔ (run peek p).1 = .error .endOfInput := by
  rw [parse_eq]
  rcases run peek p with ⟨fault | t, q⟩
  · cases fault <;> simp
  · dsimp only
    rcases run statement p with ⟨fault | s, r⟩
    · simp
    · dsimp only
      cases r.parse.1 <;> simp [Except.map]

/-- The loop reads a statement first and goes on behind it. -/
theorem parse_eq_ok_cons_iff {p : Parser} {s : Statement} {later : Program} :
    p.parse.1 = .ok (s :: later) ↔ ∃ q, run statement p = (.ok s, q) ∧ q.parse.1 = .ok later := by
  constructor
  · intro h
    rw [parse_eq] at h
    rcases hp : run peek p with ⟨fault | t, m⟩
    · rw [hp] at h
      cases fault <;> cases h
    · rw [hp] at h
      dsimp only at h
      rcases hs : run statement p with ⟨fault | first, q⟩
      · rw [hs] at h
        cases h
      · rw [hs] at h
        dsimp only at h
        cases hq : q.parse.1 with
        | error fault =>
          rw [hq] at h
          cases h
        | ok rest =>
          rw [hq] at h
          cases h
          exact ⟨q, rfl, hq⟩
  · rintro ⟨q, hs, hq⟩
    -- a statement starts by consuming a token, so the loop sees one when it looks ahead
    obtain ⟨t, m, ht, -⟩ := run_bind_eq_ok_iff.mp hs
    obtain ⟨r, hr⟩ := exists_run_peek_of_run_next ht
    rw [parse_eq, hr, hs]
    dsimp only
    rw [hq]
    rfl

/-- The tokens ahead do not depend on the declared names. -/
theorem ahead_withDeclared_iff {p : Parser} {d : Declarations} {ts : List Token} :
    (p.withDeclared d).Ahead ts ↔ p.Ahead ts := by
  induction ts generalizing p with
  | nil =>
    constructor
    · rintro ⟨h⟩
      rw [run_peek_withDeclared] at h
      exact .nil (Prod.ext (Prod.mk.inj h).1 rfl)
    · rintro ⟨h⟩
      refine .nil (q := (run peek p).2.withDeclared d) ?_
      rw [run_peek_withDeclared, h]
  | cons t ts ih =>
    constructor
    · rintro (_ | ⟨hnext, hahead⟩)
      obtain ⟨q, hq, rfl⟩ := run_next_withDeclared_eq_ok_iff.mp hnext
      exact .cons hq (ih.mp hahead)
    · rintro (_ | ⟨hnext, hahead⟩)
      exact .cons (run_next_withDeclared_eq_ok_iff.mpr ⟨_, hnext, rfl⟩) (ih.mpr hahead)

/-- Tokens ahead are consumed from the front. -/
theorem ahead_append_iff {p : Parser} {ts us : List Token} :
    p.Ahead (ts ++ us) ↔ ∃ q, p.Advances ts q ∧ q.Ahead us := by
  induction ts generalizing p with
  | nil =>
    constructor
    · intro h
      exact ⟨p, .refl p, h⟩
    · rintro ⟨q, ⟨⟩, h⟩
      exact h
  | cons t ts ih =>
    constructor
    · rintro (_ | ⟨hnext, hahead⟩)
      obtain ⟨q, hadv, hq⟩ := ih.mp hahead
      exact ⟨q, .step hnext hadv, hq⟩
    · rintro ⟨q, _ | ⟨hnext, hadv⟩, hq⟩
      exact .cons hnext (ih.mpr ⟨q, hadv, hq⟩)

/-- From any state, a program is read exactly if the tokens ahead are its tokens and its statements
fit the declared names. -/
theorem parse_eq_ok_iff {p : Parser} {program : Program} :
    p.parse.1 = .ok program ↔
      ∃ ts, p.Ahead ts ∧ program.Derives ts ∧ p.declared.AdmitsAll program := by
  -- on the program and not on the tokens: a round of the loop is a statement
  induction program generalizing p with
  | nil =>
    rw [parse_eq_ok_nil_iff]
    constructor
    · intro h
      exact ⟨[], .nil (Prod.ext h rfl), .nil, trivial⟩
    · rintro ⟨ts, hahead, ⟨⟩, -⟩
      obtain ⟨h⟩ := hahead
      rw [h]
  | cons s later ih =>
    rw [parse_eq_ok_cons_iff]
    constructor
    · rintro ⟨q, hs, hq⟩
      obtain ⟨ts, m, hadv, hderives, hadmits, rfl⟩ := run_statement_eq_ok_iff.mp hs
      obtain ⟨us, hahead, hlater, hall⟩ := ih.mp hq
      refine ⟨ts ++ us, ?_, .cons hderives hlater, hadmits, hall⟩
      exact ahead_append_iff.mpr ⟨m, hadv, ahead_withDeclared_iff.mp hahead⟩
    · rintro ⟨_, hahead, _ | ⟨hderives, hlater⟩, hadmits, hall⟩
      obtain ⟨m, hadv, hm⟩ := ahead_append_iff.mp hahead
      refine ⟨_, run_statement_eq_ok_iff.mpr ⟨_, m, hadv, hderives, hadmits, rfl⟩, ?_⟩
      exact ih.mpr ⟨_, ahead_withDeclared_iff.mpr hm, hlater, hall⟩

end Parser

end LetExit
