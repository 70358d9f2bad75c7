import LetExit.Proofs.Consistency
import LetExit.Proofs.Rendering

/-!
# Reading on

A text that is read as a program ends in a semicolon and white space, so what is appended to
it cannot change how its tokens are cut.  Reading the whole is then the same as reading the
appended part alone, with a lexer that counts on from the position where the first part
ends and a parser that knows the names bound there (`parse_append`).

The code of the first part stays in front of the code of the whole.
-/

set_option autoImplicit false

namespace LetExit

/-- The declared names after complete statements that bind the given names. -/
def Declarations.complete (d : Declarations) (names : List String) : Declarations :=
  names.foldl (fun d x => d.insert x true) d

/-- A parser that starts on a source in the middle of a text: at a position, and behind statements
that bind the given names. -/
def Parser.resume (names : List String) (position : Position) (input : Input) : Parser :=
  ⟨.lexer ⟨input, none, position⟩, none, .complete ∅ names, 0⟩

/-- The names of a statement are complete after it. -/
theorem Declarations.complete_binds_append (d : Declarations) (s : Statement)
    (names : List String) : d.complete (s.binds ++ names) = (d.after s).complete names := by
  cases s with
  | bind x value => rfl
  | exit status => rfl
  | hole => rfl

/-- The table holds the names that are completed, behind those it held. -/
theorem Declarations.Holds.complete {d : Declarations} {earlier : List String} (h : d.Holds earlier)
    (names : List String) : (d.complete names).Holds (names.reverse ++ earlier) := by
  induction names generalizing d earlier with
  | nil => exact h
  | cons x later ih =>
    rw [List.reverse_cons, List.append_assoc]
    exact ih (h.after (.bind x .hole))

namespace Layout

/-- A layout that does not end in a word. -/
def Closed (layout : Layout) : Prop :=
  ∀ part ∈ layout.parts.getLast?, part.1.Symbol

variable {gap : List Char} {x : Lexeme} {later : Layout}

/-- Whether a layout ends in a word depends on its last part. -/
theorem closed_cons_iff (hgap : ∀ c ∈ gap, isBlank c = true) (hx : x.Symbol ∨ x.Word)
    (hseparated : ∀ second ∈ later.parts.head?, x.Word → second.1.Word → later.indent ≠ []) :
    (cons gap x later hgap hx hseparated).Closed ↔
      (later.parts = [] → x.Symbol) ∧ later.Closed := by
  have hparts :
      (cons gap x later hgap hx hseparated).parts = (x, later.indent) :: later.parts := rfl
  rw [Closed, Closed, hparts]
  cases later.parts with
  | nil => simp
  | cons part parts => simp [List.getLast?_cons_cons]

/-- A layout with a part has a text that is not empty. -/
theorem text_ne_nil {layout : Layout} (h : layout.parts ≠ []) : layout.text ≠ [] := by
  cases layout using rec_cons with
  | hblank gap hgap => exact absurd rfl h
  | hcons gap x later hgap hx hseparated =>
    rw [text_cons]
    have hcontent : x.content.toList ≠ [] := by
      cases hx with
      | inl hsymbol =>
        obtain ⟨c, hcontent, -⟩ := hsymbol.exists_toList_content
        simp [hcontent]
      | inr hword => exact hword.toList_content_ne_nil
    simp [hcontent]

end Layout

/-- Texts advance a position one after the other. -/
theorem Position.after_append (p : Position) (text later : List Char) :
    p.after (text ++ later) = (p.after text).after later :=
  List.foldl_append

namespace Lexer

/-- A text that does not go on with a word ends the word in front of it. -/
theorem wordEnd_append {text : List Char} (h : ∀ c ∈ text.head?, endsWord c = true)
    (hne : text ≠ []) (rest : List Reading) :
    WordEnd (text.map .char ++ rest) (text.map .char ++ rest) := by
  obtain ⟨c, later, rfl⟩ := List.exists_cons_of_ne_nil hne
  exact .char (h c rfl)

/-- A parser passes the lexemes of a closed layout whatever comes behind it, and then it sees what
comes behind it. -/
theorem exists_advances_of_layout {layout : Layout} (hclosed : layout.Closed) {l : Lexer}
    {rest : List Reading} (h : l.view.readings = layout.text.map .char ++ rest) (d : Declarations)
    (n : Nat) : ∃ (ts : List Token) (m : Lexer) (k : Nat),
      Parser.Advances ⟨.lexer l, none, d, n⟩ ts ⟨.lexer m, none, d, k⟩ ∧
      ts.map Token.lexeme = layout.lexemes ∧
      View.next m.view.position m.view.readings =
        View.next (l.view.position.after layout.text) rest := by
  induction layout using Layout.rec_cons generalizing l n with
  | hblank gap hgap =>
    refine ⟨[], l, n, .refl _, rfl, ?_⟩
    rw [h, Layout.text_blank, View.next_blank_append hgap]
  | hcons gap x later hgap hx hseparated ih =>
    obtain ⟨hlast, hlater⟩ := (Layout.closed_cons_iff hgap hx hseparated).mp hclosed
    have hend : x.Word → WordEnd (later.text.map .char ++ rest) (later.text.map .char ++ rest) := by
      intro hword
      -- a word is not the last lexeme, so it ends inside the layout
      have hparts : later.parts ≠ [] := fun hnil => (hlast hnil).not_word hword
      apply wordEnd_append _ (Layout.text_ne_nil hparts)
      apply Layout.endsWord_head_text_iff.mpr
      intro second hsecond
      exact hseparated second hsecond hword
    have htoken := View.next_text_cons hgap hx hseparated l.view.position hend
    rw [← h] at htoken
    obtain ⟨after, hnext, hafter⟩ := exists_next_of_view htoken
    obtain ⟨ts, m, k, hadvances, hlexemes, hview⟩ := ih hlater (l := after) (by rw [hafter]) (n + 1)
    have hrun : (TokenStream.lexer l).next =
        (.ok ⟨x.kind, x.content, x.value, l.view.position.after gap⟩, .lexer after) := by
      rw [TokenStream.next, hnext]
    refine ⟨_ :: ts, m, k, .step (Parser.run_next_eq_ok_iff.mpr ⟨_, hrun, rfl⟩) hadvances, ?_, ?_⟩
    · rw [List.map_cons, hlexemes]
      rfl
    · rw [hview, hafter, Layout.text_cons, Position.after_append, Position.after_append]

/-- Bytes in memory are not interrupted. -/
theorem uninterrupted_memory (bytes : Bytes) (position : Position) :
    Uninterrupted ⟨.memory bytes, none, position⟩ := by
  intro cause hmem
  obtain ⟨piece, -, hpiece⟩ := List.mem_map.mp hmem
  cases piece <;> cases hpiece

end Lexer

/-- A statement ends in a semicolon. -/
theorem Statement.Derives.kind_of_getLast? {s : Statement} {ts : List Token} (h : s.Derives ts) :
    ∀ t ∈ ts.getLast?, t.kind = .semicolon := by
  cases h with
  | bind _ _ _ _ hz => simpa using hz
  | exit _ _ _ _ hz => simpa using hz

/-- A program that is not empty ends in a semicolon. -/
theorem Program.Derives.kind_of_getLast? {p : Program} {ts : List Token} (h : p.Derives ts) :
    ∀ t ∈ ts.getLast?, t.kind = .semicolon := by
  induction h with
  | nil => simp
  | cons hs _ ih =>
    intro t ht
    rw [List.getLast?_append, Option.mem_def, Option.or_eq_some_iff] at ht
    obtain ht | ⟨-, ht⟩ := ht
    · exact ih t ht
    · exact hs.kind_of_getLast? t ht

/-- A layout of a program ends in a semicolon. -/
theorem Program.Derives.closed {p : Program} {ts : List Token} (h : p.Derives ts)
    {layout : Layout} (hlexemes : layout.lexemes = ts.map Token.lexeme) : layout.Closed := by
  intro part hpart
  have hlast : layout.lexemes.getLast? = some part.1 := by
    rw [Layout.lexemes, List.getLast?_map, hpart]
    rfl
  rw [hlexemes, List.getLast?_map, Option.map_eq_some_iff] at hlast
  obtain ⟨t, ht, hlexeme⟩ := hlast
  have hkind : part.1.kind = .semicolon := by
    rw [← hlexeme]
    exact h.kind_of_getLast? t ht
  cases layout.symbol_or_word part (List.mem_of_getLast? hpart) with
  | inl hsymbol => exact hsymbol
  | inr hword =>
    generalize part.1 = x at hkind hword
    cases hword <;> cases hkind

namespace Parser

/-- Tokens are consumed one after the other. -/
theorem advances_append_iff {p r : Parser} {ts us : List Token} :
    p.Advances (ts ++ us) r ↔ ∃ q, p.Advances ts q ∧ q.Advances us r := by
  induction ts generalizing p with
  | nil =>
    constructor
    · intro h
      exact ⟨p, .refl p, h⟩
    · rintro ⟨q, ⟨⟩, h⟩
      exact h
  | cons t ts ih =>
    constructor
    · rintro (_ | ⟨hnext, hadv⟩)
      obtain ⟨q, hfirst, hlater⟩ := ih.mp hadv
      exact ⟨q, .step hnext hfirst, hlater⟩
    · rintro ⟨q, _ | ⟨hnext, hfirst⟩, hlater⟩
      exact .step hnext (ih.mpr ⟨q, hfirst, hlater⟩)

/-- Consuming tokens does not depend on the declared names. -/
theorem Advances.withDeclared {p q : Parser} {ts : List Token} (h : p.Advances ts q)
    (d : Declarations) : (p.withDeclared d).Advances ts (q.withDeclared d) := by
  induction h with
  | refl p => exact .refl _
  | step hnext _ ih => exact .step (run_next_withDeclared_eq_ok_iff.mpr ⟨_, hnext, rfl⟩) ih

/-- A statement that is read comes first, whatever the rest comes to. -/
theorem parse_of_run_statement {p q : Parser} {s : Statement}
    (h : run statement p = (.ok s, q)) : p.parse = Prod.map (Except.map (s :: ·)) id q.parse := by
  obtain ⟨t, m, ht, -⟩ := run_bind_eq_ok_iff.mp h
  obtain ⟨r, hr⟩ := exists_run_peek_of_run_next ht
  rw [parse_eq, hr, h]
  rfl

/-- Once the tokens of a program have been passed, the rest is read by a parser that has declared
the names of the program. -/
theorem parse_of_advances {p q : Parser} {ts : List Token} {program : Program}
    (hadvances : p.Advances ts q) (hderives : program.Derives ts)
    (hadmits : p.declared.AdmitsAll program) :
    p.parse = Prod.map (Except.map (program ++ ·)) id
      (q.withDeclared (p.declared.complete program.names)).parse := by
  induction hderives generalizing p q with
  | nil =>
    cases hadvances
    show p.parse = Prod.map (Except.map ([] ++ ·)) id p.parse
    rcases p.parse with ⟨_ | _, _⟩ <;> rfl
  | @cons s later ts us hs hlater ih =>
    obtain ⟨m, hfirst, hrest⟩ := advances_append_iff.mp hadvances
    obtain ⟨hadmits, hall⟩ := hadmits
    have hrun := run_statement_eq_ok_iff.mpr ⟨ts, m, hfirst, hs, hadmits, rfl⟩
    have hlast : (m.withDeclared (p.declared.after s)).parse =
        Prod.map (Except.map (later ++ ·)) id
          (q.withDeclared ((p.declared.after s).complete later.names)).parse :=
      ih (q := q.withDeclared (p.declared.after s)) (hrest.withDeclared _) hall
    rw [parse_of_run_statement hrun, hlast, Program.names_cons, Declarations.complete_binds_append]
    rcases (q.withDeclared ((p.declared.after s).complete later.names)).parse with ⟨_ | _, _⟩ <;> rfl

end Parser

/-- An encoded text gives its characters, whatever bytes follow it. -/
theorem Input.bytesReadings_encode_append (text : List Char) (bytes : Bytes) :
    bytesReadings (Utf8.encode text ++ bytes) = text.map .char ++ bytesReadings bytes := by
  induction text with
  | nil => rfl
  | cons c text ih =>
    rw [bytesReadings, bytesReadings] at ih
    rw [bytesReadings, Utf8.encode, List.flatMap_cons, List.append_assoc,
      Utf8.pieces_utf8EncodeChar_append, List.map_cons]
    exact congrArg _ ih

/-- Reading on behind a text that was read as a program. -/
theorem Program.parse_append_eq {a : Bytes} {p : Program} (h : parse (.memory a) = .ok p)
    (b : Bytes) : ∃ text : List Char, a = Utf8.encode text ∧
      parse (.memory (a ++ b)) =
        (Parser.resume p.names (Position.start.after text) (.memory b)).parse.1.map (p ++ ·) := by
  obtain ⟨ts, hahead, hderives, hadmits⟩ := Parser.parse_eq_ok_iff.mp h
  obtain ⟨layout, hlexemes, htext⟩ := Lexer.exists_layout_of_tokenize
    (Lexer.uninterrupted_memory a .start) (Parser.ahead_lexer_iff.mp hahead)
  have ha : a = Utf8.encode layout.text := Input.bytesReadings_eq_map_char_iff.mp htext
  have hreadings : (Lexer.ofInput (.memory (a ++ b))).view.readings =
      layout.text.map .char ++ Input.bytesReadings b := by
    rw [ha]
    exact Input.bytesReadings_encode_append layout.text b
  obtain ⟨us, m, k, hadvances, hus, hview⟩ :=
    Lexer.exists_advances_of_layout (hderives.closed hlexemes) hreadings ∅ 0
  refine ⟨layout.text, ha, ?_⟩
  have hparse := congrArg Prod.fst (Parser.parse_of_advances hadvances
    (hderives.of_lexemes (hus.trans hlexemes)) hadmits)
  -- the parser that has read on and the one that starts there see the same tokens
  have halike : Parser.Alike
      (Parser.withDeclared ⟨.lexer m, none, ∅, k⟩ (Declarations.complete ∅ p.names))
      (Parser.resume p.names (Position.start.after layout.text) (.memory b)) :=
    ⟨TokenStream.alike_lexer hview, rfl, rfl⟩
  rw [← (Parser.parse_alike halike).1]
  exact hparse

/-- More code makes the assembly file longer at its end. -/
theorem assemblyFile_isPrefix (code later : List Instruction) :
    assemblyFile code <+: assemblyFile (code ++ later) := by
  rw [assemblyFile_eq, assemblyFile_eq, instructionLines_append, ← List.append_assoc]
  exact List.prefix_append _ _

/-- **Compiling is incremental.**  Let a byte string be read as a program.  Whatever is appended to
it is read by a parser that has declared exactly the names bound so far, at the position behind the
text of the first part: with the same faults, and with the statements of the first part in front of
those that it reads.  If the whole is read, the assembly of the whole starts with the assembly of
the first part. -/
theorem parse_append {a : Bytes} {p : Program} (h : Program.parse (.memory a) = .ok p) (b : Bytes) :
    (∃ text : List Char, a = Utf8.encode text ∧
      Program.parse (.memory (a ++ b)) =
        (Parser.resume p.names (Position.start.after text) (.memory b)).parse.1.map (p ++ ·)) ∧
    ∀ q, Program.parse (.memory (a ++ b)) = .ok q → ∃ s t : Sink,
      compile (.memory a) (.fresh none) = (.ok (), s) ∧
      compile (.memory (a ++ b)) (.fresh none) = (.ok (), t) ∧ s.written <+: t.written := by
  have happend := Program.parse_append_eq h b
  refine ⟨happend, fun q hq => ?_⟩
  obtain ⟨s, hs, hwritten⟩ := Program.generate_fresh (Program.outcome_stackCode_of_parse h)
  obtain ⟨t, ht, hwritten'⟩ := Program.generate_fresh (Program.outcome_stackCode_of_parse hq)
  refine ⟨s, t, ?_, ?_, ?_⟩
  · rw [compile, h]
    exact hs
  · rw [compile, hq]
    exact ht
  · obtain ⟨text, -, hparse⟩ := happend
    rw [hq] at hparse
    cases hrest : (Parser.resume p.names (Position.start.after text) (.memory b)).parse.1 with
    | error fault =>
      rw [hrest] at hparse
      cases hparse
    | ok later =>
      rw [hrest] at hparse
      obtain rfl : q = p ++ later := Except.ok.inj hparse
      rw [hwritten, hwritten',
        Program.instructions_append later (Program.outcome_stackCode_of_parse h)]
      exact assemblyFile_isPrefix _ _

/-- The first part ends on a new line.  A `let` of the same name behind it is refused there, and an
`exit` can refer to the name. -/
theorem parse_append_second_line :
    (Program.parse (.memory (Utf8.ofString "let x=7;\n" ++ Utf8.ofString " let x=2;")) =
        .error (.duplicateDeclaration "x" ⟨.identifier, "x", 0, ⟨2, 6⟩⟩) ∧
      ∃ text : List Char, Utf8.ofString "let x=7;\n" = Utf8.encode text ∧
        (Parser.resume ["x"] (Position.start.after text)
          (.memory (Utf8.ofString " let x=2;"))).parse.1.map ([.bind "x" (.literal 7)] ++ ·) =
          .error (.duplicateDeclaration "x" ⟨.identifier, "x", 0, ⟨2, 6⟩⟩)) ∧
    ∃ s t : Sink,
      compile (.memory (Utf8.ofString "let x=7;\n")) (.fresh none) = (.ok (), s) ∧
      compile (.memory (Utf8.ofString "let x=7;\n" ++ Utf8.ofString "exit(x);")) (.fresh none) =
        (.ok (), t) ∧ s.written <+: t.written := by
  have hfirst : Program.parse (.memory (Utf8.ofString "let x=7;\n")) =
      .ok [.bind "x" (.literal 7)] := by
    with_unfolding_all rfl
  have hrefused : Program.parse (.memory (Utf8.ofString "let x=7;\n" ++
      Utf8.ofString " let x=2;")) =
      .error (.duplicateDeclaration "x" ⟨.identifier, "x", 0, ⟨2, 6⟩⟩) := by
    with_unfolding_all rfl
  have hread : Program.parse (.memory (Utf8.ofString "let x=7;\n" ++ Utf8.ofString "exit(x);")) =
      .ok [.bind "x" (.literal 7), .exit (.name "x")] := by
    with_unfolding_all rfl
  obtain ⟨text, hencode, hresume⟩ := (parse_append hfirst (Utf8.ofString " let x=2;")).1
  refine ⟨⟨hrefused, text, hencode, ?_⟩, (parse_append hfirst (Utf8.ofString "exit(x);")).2 _ hread⟩
  rw [← hrefused, hresume]
  rfl

end LetExit
