import LetExit.Proofs.Execution

/-!
# Programs up to names

Names do not reach the assembly of a program: a reference is written as the distance of a
cell, and which cell that is depends on the `let` that the reference resolves to.
`Program.SameUpToNames` says that two programs differ only in their names, in terms of the
indices of the statements.  Two programs have the same assembly exactly if they are the
same up to names (`assembly_eq_iff_sameUpToNames`).

One direction follows two programs side by side: the cells of their stacks belong to `let`s
of the same indices (`Program.lets`), so the distances are the same.  For the other
direction the instructions are taken apart again: a statement ends where no `pop` follows,
and in front of it stands what it pushes.
-/

set_option autoImplicit false

namespace LetExit

/-- A name in the statement at an index refers to the `let` at another index: the latest one in
front of the statement that binds the name. -/
def Program.Resolves (p : Program) (i : Nat) (x : String) (j : Nat) : Prop :=
  j < i ∧ (∃ e, p[j]? = some (.bind x e)) ∧ ∀ k, j < k → k < i → ∀ e, p[k]? ≠ some (.bind x e)

/-- Expressions in the statements at an index of two programs that differ only in names: the same
number, or two names that refer to `let`s of the same index. -/
inductive Expr.Same (p q : Program) (i : Nat) : Expr → Expr → Prop
  | literal (value : Int64) : Same p q i (.literal value) (.literal value)
  | name {x y : String} {j : Nat} : p.Resolves i x j → q.Resolves i y j →
      Same p q i (.name x) (.name y)

/-- Statements at an index of two programs that differ only in names. -/
inductive Statement.Same (p q : Program) (i : Nat) : Statement → Statement → Prop
  | bind {x y : String} {e f : Expr} : e.Same p q i f → Same p q i (.bind x e) (.bind y f)
  | exit {e f : Expr} : e.Same p q i f → Same p q i (.exit e) (.exit f)

/-- Programs that differ only in names. -/
def Program.SameUpToNames (p q : Program) : Prop :=
  p.length = q.length ∧
    ∀ (i : Nat) (s t : Statement), p[i]? = some s → q[i]? = some t → s.Same p q i t

/-- What a program does: the values that it binds, latest first, and those that it reports. -/
def Program.meaning? (p : Program) : Option (List Int64 × List Int64) :=
  (p.eval []).map fun (env, exits) => (env.map Prod.snd, exits)

/-- Whether a statement is a `let`. -/
def Statement.isLet : Statement → Bool
  | .bind _ _ => true
  | .exit _ => false
  | .hole => false

namespace Program

/-- The `let`s in front of an index, latest first: their names and their own indices. -/
def lets (p : Program) : Nat → List (String × Nat)
  | 0 => []
  | i + 1 =>
    match p[i]? with
    | some (.bind x _) => (x, i) :: p.lets i
    | _ => p.lets i

/-- Behind a `let` it is the latest one. -/
theorem lets_succ_of_bind {p : Program} {i : Nat} {x : String} {e : Expr}
    (h : p[i]? = some (.bind x e)) : p.lets (i + 1) = (x, i) :: p.lets i := by
  rw [lets, h]

/-- Behind another statement the `let`s are those in front of it. -/
theorem lets_succ_of_ne_bind {p : Program} {i : Nat} (h : ∀ x e, p[i]? ≠ some (.bind x e)) :
    p.lets (i + 1) = p.lets i := by
  rw [lets]
  split
  · rename_i x e hbind
    exact absurd hbind (h x e)
  · rfl

/-- The statement at an index is a `let`, or no statement there is. -/
theorem bind_or_ne_bind (p : Program) (i : Nat) :
    (∃ x e, p[i]? = some (.bind x e)) ∨ ∀ x e, p[i]? ≠ some (.bind x e) := by
  by_cases h : ∃ x e, p[i]? = some (.bind x e)
  · exact Or.inl h
  · right
    intro x e hbind
    exact h ⟨x, e, hbind⟩

/-- The names of these `let`s are the names of the cells on the stack. -/
theorem map_fst_lets (p : Program) (i : Nat) :
    (p.lets i).map Prod.fst = (names (p.take i)).reverse := by
  induction i with
  | zero => rfl
  | succ i ih =>
    rw [List.take_add_one, names, List.flatMap_append, List.reverse_append]
    change _ = _ ++ (names (p.take i)).reverse
    rw [← ih]
    cases hi : p[i]? with
    | none =>
      rw [lets_succ_of_ne_bind (by simp [hi])]
      rfl
    | some s =>
      cases s with
      | bind x e =>
        rw [lets_succ_of_bind hi]
        rfl
      | exit e =>
        rw [lets_succ_of_ne_bind (by simp [hi])]
        rfl
      | hole =>
        rw [lets_succ_of_ne_bind (by simp [hi])]
        rfl

/-- The `let`s in front of an index have smaller indices. -/
theorem lt_of_mem_lets {p : Program} {i j : Nat} (h : j ∈ (p.lets i).map Prod.snd) : j < i := by
  induction i with
  | zero => cases h
  | succ i ih =>
    obtain ⟨x, e, hi⟩ | hi := p.bind_or_ne_bind i
    · rw [lets_succ_of_bind hi, List.map_cons, List.mem_cons] at h
      cases h with
      | inl heq => omega
      | inr hmem => exact Nat.lt_succ_of_lt (ih hmem)
    · rw [lets_succ_of_ne_bind hi] at h
      exact Nat.lt_succ_of_lt (ih h)

/-- No two `let`s have the same index. -/
theorem nodup_lets (p : Program) (i : Nat) : ((p.lets i).map Prod.snd).Nodup := by
  induction i with
  | zero => exact List.nodup_nil
  | succ i ih =>
    obtain ⟨x, e, hi⟩ | hi := p.bind_or_ne_bind i
    · rw [lets_succ_of_bind hi, List.map_cons, List.nodup_cons]
      refine ⟨fun hmem => ?_, ih⟩
      exact Nat.lt_irrefl i (lt_of_mem_lets hmem)
    · rw [lets_succ_of_ne_bind hi]
      exact ih

/-- The statement at an index is a `let` exactly if it binds a name. -/
theorem isLet_eq_true_iff {p : Program} {i : Nat} :
    p[i]?.map Statement.isLet = some true ↔ ∃ x e, p[i]? = some (.bind x e) := by
  cases p[i]? with
  | none => simp
  | some s => cases s <;> simp [Statement.isLet]

/-- Where two programs have their `let`s at the same places, the indices are the same. -/
theorem map_snd_lets_eq {p q : Program} (h : p.map Statement.isLet = q.map Statement.isLet)
    (i : Nat) : (p.lets i).map Prod.snd = (q.lets i).map Prod.snd := by
  induction i with
  | zero => rfl
  | succ i ih =>
    have hkind : p[i]?.map Statement.isLet = q[i]?.map Statement.isLet := by
      rw [← List.getElem?_map, ← List.getElem?_map, h]
    obtain ⟨x, e, hp⟩ | hp := p.bind_or_ne_bind i
    · obtain ⟨y, f, hq⟩ := isLet_eq_true_iff.mp (hkind ▸ isLet_eq_true_iff.mpr ⟨x, e, hp⟩)
      rw [lets_succ_of_bind hp, lets_succ_of_bind hq, List.map_cons, List.map_cons, ih]
    · have hq : ∀ y f, q[i]? ≠ some (.bind y f) := by
        intro y f hq
        have hlet := hkind.trans (isLet_eq_true_iff.mpr ⟨y, f, hq⟩)
        obtain ⟨x, e, hbind⟩ := isLet_eq_true_iff.mp hlet
        exact hp x e hbind
      rw [lets_succ_of_ne_bind hp, lets_succ_of_ne_bind hq, ih]

/-- Right behind a `let` its name refers to it. -/
theorem resolves_succ_of_bind {p : Program} {i j : Nat} {x : String} {e : Expr}
    (h : p[i]? = some (.bind x e)) : p.Resolves (i + 1) x j ↔ j = i := by
  constructor
  · rintro ⟨hlt, -, hlatest⟩
    by_cases hji : j = i
    · exact hji
    · exact absurd h (hlatest i (by omega) (by omega) e)
  · rintro rfl
    exact ⟨Nat.lt_succ_self j, ⟨e, h⟩, fun k hjk hki => by omega⟩

/-- A statement that does not bind a name does not change what it refers to. -/
theorem resolves_succ_of_ne_bind {p : Program} {i j : Nat} {x : String}
    (h : ∀ e, p[i]? ≠ some (.bind x e)) : p.Resolves (i + 1) x j ↔ p.Resolves i x j := by
  constructor
  · rintro ⟨hlt, ⟨e, hj⟩, hlatest⟩
    have hne : j ≠ i := by
      rintro rfl
      exact h e hj
    exact ⟨by omega, ⟨e, hj⟩, fun k hjk hki => hlatest k hjk (by omega)⟩
  · rintro ⟨hlt, hbind, hlatest⟩
    refine ⟨by omega, hbind, fun k hjk hki => ?_⟩
    by_cases hk : k = i
    · rw [hk]
      exact h
    · exact hlatest k hjk (by omega)

/-- Looking a name up finds the `let` that it refers to. -/
theorem lookup_lets_eq_some_iff {p : Program} {i j : Nat} {x : String} :
    (p.lets i).lookup x = some j ↔ p.Resolves i x j := by
  induction i with
  | zero =>
    constructor
    · intro h
      cases h
    · rintro ⟨hlt, -⟩
      omega
  | succ i ih =>
    obtain ⟨y, e, hi⟩ | hi := p.bind_or_ne_bind i
    · rw [lets_succ_of_bind hi, List.lookup_cons]
      by_cases hxy : x = y
      · subst hxy
        rw [resolves_succ_of_bind hi]
        simp [eq_comm]
      · have hother : ∀ f, p[i]? ≠ some (.bind x f) := by
          intro f hbind
          rw [hi] at hbind
          cases hbind
          exact hxy rfl
        have hne : (x == y) = false := by simpa using hxy
        rw [resolves_succ_of_ne_bind hother, ← ih, hne]
    · rw [lets_succ_of_ne_bind hi, resolves_succ_of_ne_bind (hi x), ih]

end Program

/-- The two forms of the code of an expression. -/
theorem Expr.exists_of_stackCode_ok {e : Expr} {cells : List String} {code : List Instruction}
    (h : e.stackCode cells = .ok code) :
    (∃ value, e = .literal value ∧ code = [.load value.toInt, .push (.register "rax")]) ∨
      ∃ x i, e = .name x ∧ cells.idxOf? x = some i ∧ code = [.push (.cell (8 * (i : Int)))] := by
  cases e with
  | literal value => exact Or.inl ⟨value, rfl, (Except.ok.inj h).symm⟩
  | name x =>
    rw [stackCode] at h
    split at h
    · rename_i i hi
      exact Or.inr ⟨x, i, rfl, hi, (Except.ok.inj h).symm⟩
    · cases h
  | hole => cases h

/-- Where the code of an expression ends can be seen from the code. -/
theorem Expr.stackCode_append_inj {e f : Expr} {cells others : List String}
    {a b later rest : List Instruction} (he : e.stackCode cells = .ok a)
    (hf : f.stackCode others = .ok b) (h : a ++ later = b ++ rest) : a = b ∧ later = rest := by
  obtain ⟨v, -, rfl⟩ | ⟨x, i, -, -, rfl⟩ := exists_of_stackCode_ok he
  · obtain ⟨w, -, rfl⟩ | ⟨y, j, -, -, rfl⟩ := exists_of_stackCode_ok hf
    · simpa using h
    · cases h
  · obtain ⟨w, -, rfl⟩ | ⟨y, j, -, -, rfl⟩ := exists_of_stackCode_ok hf
    · cases h
    · simpa using h

/-- No instruction with which the code of an `exit` could go on. -/
def EndsStatement (code : List Instruction) : Prop :=
  code.head? ≠ some (.pop "rdi")

/-- The code of a statement is that of its expression, and the exit call unless it is a `let`. -/
theorem Statement.exists_of_stackCode_ok {s : Statement} {cells : List String}
    {code : List Instruction} (h : s.stackCode cells = .ok code) :
    ∃ e first, s.expr? = some e ∧ e.stackCode cells = .ok first ∧
      code = first ++ if s.isLet then [] else exitCode := by
  cases s with
  | bind x e => exact ⟨e, code, rfl, h, (List.append_nil code).symm⟩
  | exit e =>
    rw [stackCode] at h
    cases he : e.stackCode cells with
    | error reason =>
      rw [he] at h
      cases h
    | ok first =>
      rw [he] at h
      exact ⟨e, first, rfl, he, (Except.ok.inj h).symm⟩
  | hole => cases h

/-- The code of a statement can be told from what follows it, if that does not look like the end of
an `exit`. -/
theorem Statement.stackCode_append_inj {s t : Statement} {cells others : List String}
    {a b later rest : List Instruction} (hs : s.stackCode cells = .ok a)
    (ht : t.stackCode others = .ok b) (hlater : EndsStatement later) (hrest : EndsStatement rest)
    (h : a ++ later = b ++ rest) : a = b ∧ later = rest ∧ s.isLet = t.isLet := by
  obtain ⟨e, first, -, he, rfl⟩ := exists_of_stackCode_ok hs
  obtain ⟨f, first', -, hf, rfl⟩ := exists_of_stackCode_ok ht
  rw [List.append_assoc, List.append_assoc] at h
  obtain ⟨rfl, htail⟩ := Expr.stackCode_append_inj he hf h
  cases hkind : s.isLet <;> cases hkind' : t.isLet <;> rw [hkind, hkind'] at htail
  · have htail := List.append_cancel_left htail
    exact ⟨rfl, htail, rfl⟩
  · simp only [if_true, List.nil_append, Bool.false_eq_true, if_false] at htail
    subst htail
    exact absurd rfl hrest
  · simp only [if_true, List.nil_append, Bool.false_eq_true, if_false] at htail
    subst htail
    exact absurd rfl hlater
  · exact ⟨rfl, htail, rfl⟩

/-- The code of a statement is not empty and does not continue an `exit`. -/
theorem Statement.endsStatement_stackCode {s : Statement} {cells : List String}
    {code : List Instruction} (h : s.stackCode cells = .ok code) (later : List Instruction) :
    EndsStatement (code ++ later) ∧ code ≠ [] := by
  obtain ⟨e, first, -, he, rfl⟩ := exists_of_stackCode_ok h
  obtain ⟨v, -, rfl⟩ | ⟨x, i, -, -, rfl⟩ := Expr.exists_of_stackCode_ok he
  · simp [EndsStatement]
  · simp [EndsStatement]

namespace Program

/-- The code of a program does not continue an `exit`. -/
theorem endsStatement_stackCode (p : Program) (cells : List String) :
    EndsStatement (p.stackCode cells).instructions := by
  cases p with
  | nil => simp [EndsStatement, stackCode]
  | cons s later =>
    rw [stackCode]
    cases hs : s.stackCode cells with
    | error reason => simp [EndsStatement]
    | ok code => exact (Statement.endsStatement_stackCode hs _).1

/-- The cells in front of a later statement are those of the first one, with its own on top. -/
theorem reverse_names_take_succ (s : Statement) (p : Program) (i : Nat) (cells : List String) :
    (names ((s :: p).take (i + 1))).reverse ++ cells =
      (names (p.take i)).reverse ++ (s.binds ++ cells) := by
  rw [List.take_succ_cons, names_cons, List.reverse_append, s.reverse_binds, List.append_assoc]

/-- Statement by statement, the code of two programs is the same. -/
def SameCode (cells others : List String) (p q : Program) : Prop :=
  p.length = q.length ∧ ∀ (i : Nat) (s t : Statement), p[i]? = some s → q[i]? = some t →
    s.stackCode ((names (p.take i)).reverse ++ cells) =
      t.stackCode ((names (q.take i)).reverse ++ others)

/-- Programs have the same code if their first statements and what follows do. -/
theorem sameCode_cons_iff {cells others : List String} {s t : Statement} {p q : Program} :
    SameCode cells others (s :: p) (t :: q) ↔
      s.stackCode cells = t.stackCode others ∧
        SameCode (s.binds ++ cells) (t.binds ++ others) p q := by
  constructor
  · rintro ⟨hlength, hcode⟩
    refine ⟨hcode 0 s t rfl rfl, Nat.succ.inj hlength, fun i s' t' hs ht => ?_⟩
    have hlater := hcode (i + 1) s' t' hs ht
    rwa [reverse_names_take_succ, reverse_names_take_succ] at hlater
  · rintro ⟨hfirst, hlength, hcode⟩
    refine ⟨congrArg Nat.succ hlength, fun i s' t' hs ht => ?_⟩
    cases i with
    | zero =>
      obtain rfl := Option.some.inj hs
      obtain rfl := Option.some.inj ht
      exact hfirst
    | succ i =>
      rw [reverse_names_take_succ, reverse_names_take_succ]
      exact hcode i s' t' hs ht

/-- A program with a statement has code. -/
theorem instructions_ne_nil {cells : List String} {s : Statement} {p : Program}
    (h : (stackCode cells (s :: p)).outcome = .ok ()) :
    (stackCode cells (s :: p)).instructions ≠ [] := by
  obtain ⟨code, hs, hcode, -⟩ := exists_of_outcome_cons_ok h
  intro hnil
  rw [hcode] at hnil
  exact (Statement.endsStatement_stackCode hs []).2 (List.append_eq_nil_iff.mp hnil).1

/-- The instructions of a program can be taken apart into those of its statements. -/
theorem instructions_eq_iff_sameCode {cells others : List String} {p q : Program}
    (hp : (p.stackCode cells).outcome = .ok ()) (hq : (q.stackCode others).outcome = .ok ()) :
    (p.stackCode cells).instructions = (q.stackCode others).instructions ↔
      SameCode cells others p q := by
  induction p generalizing q cells others with
  | nil =>
    cases q with
    | nil => simp [stackCode, SameCode]
    | cons t q =>
      have hne := instructions_ne_nil hq
      constructor
      · intro h
        exact absurd h.symm hne
      · rintro ⟨hlength, -⟩
        cases hlength
  | cons s p ih =>
    cases q with
    | nil =>
      have hne := instructions_ne_nil hp
      constructor
      · intro h
        exact absurd h hne
      · rintro ⟨hlength, -⟩
        cases hlength
    | cons t q =>
      obtain ⟨a, ha, hcode, hp⟩ := exists_of_outcome_cons_ok hp
      obtain ⟨b, hb, hcode', hq⟩ := exists_of_outcome_cons_ok hq
      rw [hcode, hcode', sameCode_cons_iff, ← ih hp hq, ha, hb, Except.ok.injEq]
      constructor
      · intro h
        obtain ⟨hfirst, hlater, -⟩ := Statement.stackCode_append_inj ha hb
          (endsStatement_stackCode p _) (endsStatement_stackCode q _) h
        exact ⟨hfirst, hlater⟩
      · rintro ⟨rfl, hlater⟩
        rw [hlater]

end Program

/-- Expressions are the same up to names exactly if they have the same code. -/
theorem Expr.stackCode_eq_iff_same {p q : Program} {i : Nat} {e f : Expr} {a b : List Instruction}
    (hkinds : p.map Statement.isLet = q.map Statement.isLet)
    (he : e.stackCode ((p.lets i).map Prod.fst) = .ok a)
    (hf : f.stackCode ((q.lets i).map Prod.fst) = .ok b) : a = b ↔ e.Same p q i f := by
  obtain ⟨v, rfl, rfl⟩ | ⟨x, m, rfl, hm, rfl⟩ := exists_of_stackCode_ok he
  · obtain ⟨w, rfl, rfl⟩ | ⟨y, n, rfl, hn, rfl⟩ := exists_of_stackCode_ok hf
    · constructor
      · intro h
        have hvalue : v = w := by simpa [Int64.toInt_inj] using h
        subst hvalue
        exact .literal v
      · rintro ⟨⟩
        rfl
    · constructor
      · intro h
        cases h
      · rintro ⟨⟩
  · obtain ⟨w, rfl, rfl⟩ | ⟨y, n, rfl, hn, rfl⟩ := exists_of_stackCode_ok hf
    · constructor
      · intro h
        cases h
      · rintro ⟨⟩
    · -- the cell at a distance belongs to the same `let` in both programs
      obtain ⟨j, hx, hj⟩ := exists_lookup_of_idxOf? hm
      obtain ⟨k, hy, hk⟩ := exists_lookup_of_idxOf? hn
      rw [Program.map_snd_lets_eq hkinds] at hj
      constructor
      · intro h
        have hmn : m = n := by
          simp only [List.cons.injEq, Instruction.push.injEq, Operand.cell.injEq, and_true] at h
          omega
        rw [hmn, hk] at hj
        obtain rfl := Option.some.inj hj
        exact .name (Program.lookup_lets_eq_some_iff.mp hx) (Program.lookup_lets_eq_some_iff.mp hy)
      · intro h
        obtain _ | ⟨hx', hy'⟩ := h
        rw [Program.lookup_lets_eq_some_iff.mpr hx'] at hx
        rw [Program.lookup_lets_eq_some_iff.mpr hy'] at hy
        have hjk : some j = some k := hx.symm.trans hy
        have hlt : m < ((q.lets i).map Prod.snd).length := (List.getElem?_eq_some_iff.mp hj).1
        have hmn : m = n :=
          (List.getElem?_inj hlt (q.nodup_lets i)).mp (hj.trans (hjk.trans hk.symm))
        rw [hmn]

/-- Statements with the same code are both `let`s or neither is. -/
theorem Statement.isLet_eq_of_stackCode {s t : Statement} {cells others : List String}
    {code : List Instruction} (hs : s.stackCode cells = .ok code)
    (ht : t.stackCode others = .ok code) : s.isLet = t.isLet := by
  have hnil : EndsStatement [] := by simp [EndsStatement]
  exact (stackCode_append_inj hs ht hnil hnil rfl).2.2

/-- Statements are the same up to names exactly if they have the same code. -/
theorem Statement.stackCode_eq_iff_same {p q : Program} {i : Nat} {s t : Statement}
    {a b : List Instruction} (hkinds : p.map Statement.isLet = q.map Statement.isLet)
    (hs : s.stackCode ((p.lets i).map Prod.fst) = .ok a)
    (ht : t.stackCode ((q.lets i).map Prod.fst) = .ok b) : a = b ↔ s.Same p q i t := by
  obtain ⟨e, first, hexpr, he, hfirst⟩ := exists_of_stackCode_ok hs
  obtain ⟨f, first', hexpr', hf, hfirst'⟩ := exists_of_stackCode_ok ht
  have hsame := Expr.stackCode_eq_iff_same hkinds he hf
  constructor
  · rintro rfl
    have hkind := isLet_eq_of_stackCode hs ht
    rw [hfirst, hkind] at hfirst'
    have hefs := hsame.mp (List.append_cancel_right hfirst')
    cases s with
    | bind x e' =>
      cases t with
      | bind y f' =>
        cases hexpr
        cases hexpr'
        exact .bind hefs
      | exit f' => cases hkind
      | hole => cases ht
    | exit e' =>
      cases t with
      | bind y f' => cases hkind
      | exit f' =>
        cases hexpr
        cases hexpr'
        exact .exit hefs
      | hole => cases ht
    | hole => cases hs
  · intro h
    rw [hfirst, hfirst']
    cases h with
    | bind hefs =>
      cases hexpr
      cases hexpr'
      rw [hsame.mpr hefs]
      rfl
    | exit hefs =>
      cases hexpr
      cases hexpr'
      rw [hsame.mpr hefs]
      rfl

namespace Program

/-- Programs that agree on which statements are `let`s have them in the same places. -/
theorem map_isLet_eq {p q : Program} (hlength : p.length = q.length)
    (h : ∀ (i : Nat) (s t : Statement), p[i]? = some s → q[i]? = some t → s.isLet = t.isLet) :
    p.map Statement.isLet = q.map Statement.isLet := by
  apply List.ext_getElem
  · rw [List.length_map, List.length_map, hlength]
  · intro i hi hi'
    rw [List.length_map] at hi hi'
    rw [List.getElem_map, List.getElem_map]
    exact h i _ _ (List.getElem?_eq_getElem hi) (List.getElem?_eq_getElem hi')

/-- Every statement of a program that is accepted has code. -/
theorem exists_code_of_outcome_ok {cells : List String} {p : Program} {i : Nat} {s : Statement}
    (h : (p.stackCode cells).outcome = .ok ()) (hi : p[i]? = some s) :
    ∃ code, s.stackCode ((names (p.take i)).reverse ++ cells) = .ok code := by
  induction p generalizing cells i with
  | nil => cases hi
  | cons first later ih =>
    obtain ⟨code, hfirst, -, hlater⟩ := exists_of_outcome_cons_ok h
    cases i with
    | zero =>
      obtain rfl := Option.some.inj hi
      exact ⟨code, hfirst⟩
    | succ i =>
      rw [reverse_names_take_succ]
      exact ih hlater hi

/-- Programs that have code to their end have the same instructions exactly if they are the same up
to names. -/
theorem instructions_eq_iff_sameUpToNames {p q : Program} (hp : (p.stackCode []).outcome = .ok ())
    (hq : (q.stackCode []).outcome = .ok ()) :
    (p.stackCode []).instructions = (q.stackCode []).instructions ↔ p.SameUpToNames q := by
  have hcells (r : Program) (i : Nat) :
      (names (r.take i)).reverse ++ [] = (r.lets i).map Prod.fst := by
    rw [List.append_nil, map_fst_lets]
  have hcode {r : Program} (hr : (r.stackCode []).outcome = .ok ()) {i : Nat} {s : Statement}
      (hi : r[i]? = some s) : ∃ code, s.stackCode ((r.lets i).map Prod.fst) = .ok code := by
    rw [← hcells]
    exact exists_code_of_outcome_ok hr hi
  rw [instructions_eq_iff_sameCode hp hq, SameCode]
  simp only [hcells]
  constructor
  · rintro ⟨hlength, hsame⟩
    have hboth (i : Nat) (s t : Statement) (hs : p[i]? = some s) (ht : q[i]? = some t) :
        ∃ code, s.stackCode ((p.lets i).map Prod.fst) = .ok code ∧
          t.stackCode ((q.lets i).map Prod.fst) = .ok code := by
      obtain ⟨code, hfirst⟩ := hcode hp hs
      exact ⟨code, hfirst, (hsame i s t hs ht).symm.trans hfirst⟩
    have hkinds := map_isLet_eq hlength fun i s t hs ht => by
      obtain ⟨code, hfirst, hsecond⟩ := hboth i s t hs ht
      exact Statement.isLet_eq_of_stackCode hfirst hsecond
    refine ⟨hlength, fun i s t hs ht => ?_⟩
    obtain ⟨code, hfirst, hsecond⟩ := hboth i s t hs ht
    exact (Statement.stackCode_eq_iff_same hkinds hfirst hsecond).mp rfl
  · rintro ⟨hlength, hsame⟩
    have hkinds := map_isLet_eq hlength fun i s t hs ht => by
      cases hsame i s t hs ht <;> rfl
    refine ⟨hlength, fun i s t hs ht => ?_⟩
    obtain ⟨a, ha⟩ := hcode hp hs
    obtain ⟨b, hb⟩ := hcode hq ht
    rw [ha, hb, (Statement.stackCode_eq_iff_same hkinds ha hb).mpr (hsame i s t hs ht)]

end Program

/-- Files are the same only if their instructions are. -/
theorem assemblyFile_inj {code other : List Instruction} (h : ∀ i ∈ code, Assembly.Known i)
    (hother : ∀ i ∈ other, Assembly.Known i) :
    assemblyFile code = assemblyFile other ↔ code = other := by
  constructor
  · intro hfile
    have hread := Assembly.read?_assemblyFile h
    rw [hfile, Assembly.read?_assemblyFile hother] at hread
    exact (Option.some.inj hread).symm
  · rintro rfl
    rfl

/-- Programs with the same file have the same meaning. -/
theorem Assembly.Realizes.meaning?_eq {file : Bytes} {p q : Program} (hp : Realizes file p)
    (hq : Realizes file q) : p.meaning? = q.meaning? ∧ p.meaning? ≠ none := by
  obtain ⟨code, last, exits, hread, heval, -, hrun⟩ := hp
  obtain ⟨code', last', exits', hread', heval', -, hrun'⟩ := hq
  rw [hread] at hread'
  obtain rfl := Option.some.inj hread'
  obtain ⟨m, hm, hcalls, -, hstack⟩ := hrun 0 0
  obtain ⟨m', hm', hcalls', -, hstack'⟩ := hrun' 0 0
  rw [hm] at hm'
  obtain rfl := Option.some.inj hm'
  have hexits : exits = exits' := by
    have := congrArg (List.map Prod.snd) (hcalls.symm.trans hcalls')
    simpa [List.map_map, Function.comp_def] using this
  rw [Program.meaning?, Program.meaning?, heval, heval', hexits]
  refine ⟨?_, by simp⟩
  show some (last.map Prod.snd, exits') = some (last'.map Prod.snd, exits')
  rw [← hstack, ← hstack']

/-- **Names do not reach the assembly, and everything else does.**  Two programs without missing
nodes, in which each name is bound before it is used, are both written out.  They are written as the
same bytes exactly if they are the same up to names, and then they also have the same meaning. -/
theorem assembly_eq_iff_sameUpToNames {p q : Program} (hp : p.Complete) (hpscoped : p.Scoped)
    (hq : q.Complete) (hqscoped : q.Scoped) :
    ∃ s t : Sink, p.generate (.fresh none) = (.ok (), s) ∧ q.generate (.fresh none) = (.ok (), t) ∧
      (s.written = t.written ↔ p.SameUpToNames q) ∧
      (s.written = t.written → p.meaning? = q.meaning? ∧ p.meaning? ≠ none) := by
  have hpcode := Program.outcome_stackCode_eq_ok hp hpscoped
  have hqcode := Program.outcome_stackCode_eq_ok hq hqscoped
  obtain ⟨s, hgenerate, hwritten⟩ := Program.generate_fresh hpcode
  obtain ⟨t, hgenerate', hwritten'⟩ := Program.generate_fresh hqcode
  refine ⟨s, t, hgenerate, hgenerate', ?_, fun hsame => ?_⟩
  · rw [hwritten, hwritten', assemblyFile_inj (Program.known_stackCode p [])
      (Program.known_stackCode q []), Program.instructions_eq_iff_sameUpToNames hpcode hqcode]
  · have hrealizes := Assembly.realizes_assemblyFile hpcode
    rw [← hwritten, hsame, hwritten'] at hrealizes
    exact hrealizes.meaning?_eq (Assembly.realizes_assemblyFile hqcode)

/-- The second `let` of `x` hides the first, so `x` is written as `b` is and not as `a` is. -/
theorem assembly_eq_iff_sameUpToNames_shadowed :
    (∃ s t : Sink,
      Program.generate [.bind "x" (.literal 1), .bind "x" (.literal 2), .exit (.name "x")]
        (.fresh none) = (.ok (), s) ∧
      Program.generate [.bind "a" (.literal 1), .bind "b" (.literal 2), .exit (.name "b")]
        (.fresh none) = (.ok (), t) ∧ s.written = t.written) ∧
    (∃ s t : Sink,
      Program.generate [.bind "x" (.literal 1), .bind "x" (.literal 2), .exit (.name "x")]
        (.fresh none) = (.ok (), s) ∧
      Program.generate [.bind "a" (.literal 1), .bind "b" (.literal 2), .exit (.name "a")]
        (.fresh none) = (.ok (), t) ∧ s.written ≠ t.written) := by
  have hcomplete (x y z : String) :
      Program.Complete [.bind x (.literal 1), .bind y (.literal 2), .exit (.name z)] := by
    simp [Program.Complete, Statement.expr?]
  have hscoped (x y z : String) (h : z = x ∨ z = y) :
      Program.Scoped [.bind x (.literal 1), .bind y (.literal 2), .exit (.name z)] := by
    simpa [Program.scoped_iff_scopedAfter, Program.ScopedAfter, Statement.expr?, Statement.binds,
      or_comm] using h
  have hlatest (x y : String) :
      Program.Resolves [.bind x (.literal 1), .bind y (.literal 2), .exit (.name y)] 2 y 1 :=
    ⟨by decide, ⟨_, rfl⟩, fun k hlow hhigh => by omega⟩
  constructor
  · obtain ⟨s, t, hs, ht, hwritten, -⟩ := assembly_eq_iff_sameUpToNames
      (hcomplete "x" "x" "x") (hscoped "x" "x" "x" (by simp))
      (hcomplete "a" "b" "b") (hscoped "a" "b" "b" (by simp))
    refine ⟨s, t, hs, ht, hwritten.mpr ⟨rfl, fun i s t hs ht => ?_⟩⟩
    rcases i with _ | _ | _ | i <;> cases hs <;> cases ht
    · exact .bind (.literal 1)
    · exact .bind (.literal 2)
    · exact .exit (.name (hlatest "x" "x") (hlatest "a" "b"))
  · obtain ⟨s, t, hs, ht, hwritten, -⟩ := assembly_eq_iff_sameUpToNames
      (hcomplete "x" "x" "x") (hscoped "x" "x" "x" (by simp))
      (hcomplete "a" "b" "a") (hscoped "a" "b" "a" (by simp))
    refine ⟨s, t, hs, ht, fun hsame => ?_⟩
    obtain ⟨-, hstatements⟩ := hwritten.mp hsame
    obtain _ | hexit := hstatements 2 _ _ rfl rfl
    obtain _ | @⟨_, _, j, ⟨hlow, -, hhidden⟩, -, ⟨e, ha⟩, -⟩ := hexit
    rcases j with _ | _ | j
    · exact hhidden 1 (by decide) (by decide) _ rfl
    · simp at ha
    · omega

end LetExit
