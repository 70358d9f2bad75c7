import LetExit.Proofs.Calls
import LetExit.Proofs.Places
import LetExit.Proofs.Session

/-!
# Declared names over a run

A parser may be asked for anything in any order, and its requests may fail anywhere.  The table of
declared names stays sound all the same.  It only grows, and after every call the complete names
in it are those of the bindings that have been read to their end so far
(`Parser.declared_exact`).

Between two states of a run a name keeps what is known of it (`Declarations.KeptBy`): only the
binding that declares a name also completes it.  Inside that binding the name is there and not
complete, so the calls in between are compared by a weaker relation, `Declarations.GrowsTo`.
-/

set_option autoImplicit false

namespace LetExit

namespace Declarations

/-- Every name of the first table is in the second one, and complete there if it was before. -/
def GrowsTo (d e : Declarations) : Prop :=
  ∀ (x : String) (complete : Bool), d[x]? = some complete →
    e[x]? = some complete ∨ e[x]? = some true

/-- Every name of the first table is in the second one, as it was. -/
def KeptBy (d e : Declarations) : Prop :=
  ∀ (x : String) (complete : Bool), d[x]? = some complete → e[x]? = some complete

variable {d e f : Declarations}

/-- A table grows to itself. -/
theorem GrowsTo.refl (d : Declarations) : d.GrowsTo d :=
  fun _ _ h => .inl h

/-- Growth can be put together: a name that is complete stays so. -/
theorem GrowsTo.trans (h : d.GrowsTo e) (h' : e.GrowsTo f) : d.GrowsTo f := by
  intro x complete hx
  rcases h x complete hx with hx | hx
  · exact h' x complete hx
  · exact .inr (or_self_iff.mp (h' x true hx))

/-- A table keeps itself. -/
theorem KeptBy.refl (d : Declarations) : d.KeptBy d :=
  fun _ _ h => h

/-- What is kept twice is kept. -/
theorem KeptBy.trans (h : d.KeptBy e) (h' : e.KeptBy f) : d.KeptBy f :=
  fun x complete hx => h' x complete (h x complete hx)

/-- A table that keeps everything has only grown. -/
theorem KeptBy.growsTo (h : d.KeptBy e) : d.GrowsTo e :=
  fun x complete hx => .inl (h x complete hx)

/-- A new name changes nothing about the others. -/
theorem keptBy_insert {x : String} (h : d.contains x = false) (complete : Bool) :
    d.KeptBy (d.insert x complete) := by
  intro y known hy
  rw [Std.ExtTreeMap.getElem?_insert]
  split
  · rename_i hxy
    rw [← Std.compare_eq_iff_eq.mp hxy, Parser.getElem?_eq_none_of_contains h] at hy
    cases hy
  · exact hy

/-- A name that is made complete becomes visible, and no other does. -/
theorem getElem?_insert_true_eq_true_iff {x y : String} :
    (d.insert x true)[y]? = some true ↔ d[y]? = some true ∨ y = x := by
  rw [Std.ExtTreeMap.getElem?_insert]
  split
  · rename_i hxy
    rw [Std.compare_eq_iff_eq.mp hxy]
    simp
  · rename_i hxy
    have hne : y ≠ x := fun heq => hxy (heq ▸ Std.compare_self)
    simp [hne]

/-- Making a name complete is growth, whether it was in the table or not. -/
theorem growsTo_insert_true (d : Declarations) (x : String) : d.GrowsTo (d.insert x true) := by
  intro y complete hy
  rw [Std.ExtTreeMap.getElem?_insert]
  split
  · exact .inr rfl
  · exact .inl hy

/-- A statement hides no name. -/
theorem getElem?_after_of_visible (s : Statement) {x : String} (h : d[x]? = some true) :
    (d.after s)[x]? = some true := by
  cases s with
  | bind ident value => exact getElem?_insert_true_eq_true_iff.mpr (.inl h)
  | exit status => exact h
  | hole => exact h

/-- Completing names hides no name. -/
theorem getElem?_complete_of_visible (names : List String) {x : String} (h : d[x]? = some true) :
    (d.complete names)[x]? = some true := by
  induction names generalizing d with
  | nil => exact h
  | cons y later ih => exact ih (getElem?_after_of_visible (.bind y .hole) h)

/-- A name to which a statement of a program refers is complete after the program. -/
theorem AdmitsAll.visible {program : Program} (h : d.AdmitsAll program) {s : Statement}
    (hs : s ∈ program) {x : String} (hx : s.expr? = some (.name x)) :
    (d.complete program.names)[x]? = some true := by
  induction program generalizing d with
  | nil => cases hs
  | cons first later ih =>
    obtain ⟨hadmits, hlater⟩ := h
    rw [Program.names_cons, complete_binds_append]
    cases hs with
    | head => exact getElem?_complete_of_visible _ (getElem?_after_of_visible s (hadmits.2 x hx))
    | tail _ hs => exact ih hlater hs

end Declarations

namespace Parser

/-- A reply that holds an expression which refers to the given name. -/
def Reply.Refers (x : String) : Reply → Prop
  | .expr answer => answer = .ok (.name x)
  | .statement answer => ∃ s, answer = .ok s ∧ s.expr? = some (.name x)
  | .program answer => ∃ program, answer = .ok program ∧ ∃ s ∈ program, s.expr? = some (.name x)
  | .ahead _ => False
  | .token _ => False

/-- The name of a binding that has been read to its end. -/
def Call.bound? (c : Call) : Option String :=
  match c.request, c.reply with
  | .bind, .statement (.ok (.bind x _)) => some x
  | _, _ => none

/-- The names of the bindings that have been read to their end, in order. -/
def boundNames (calls : List Call) : List String :=
  calls.filterMap Call.bound?

/-- No calls bind no names. -/
theorem append_boundNames_nil (names : List String) : names ++ boundNames [] = names :=
  List.append_nil names

/-- The names bound by a run are those of its parts, in order. -/
theorem boundNames_append (earlier later : List Call) :
    boundNames (earlier ++ later) = boundNames earlier ++ boundNames later :=
  List.filterMap_append

/-- A call binds at most one name. -/
theorem mem_boundNames_singleton_iff {c : Call} {x : String} :
    x ∈ boundNames [c] ↔ c.bound? = some x := by
  simp [boundNames]

/-- Looking at a token declares nothing. -/
theorem declared_run_peek (p : Parser) : (run peek p).2.declared = p.declared :=
  congrArg (fun answer => answer.2.declared) (run_peek_withDeclared p p.declared)

/-- Consuming a token declares nothing. -/
theorem declared_run_next (p : Parser) : (run next p).2.declared = p.declared :=
  congrArg (fun answer => answer.2.declared) (run_next_withDeclared p p.declared)

/-- An expression, or a statement or program, that has been returned refers to complete names. -/
theorem visible_of_refers {p : Parser} {request : Request} {x : String}
    (h : (p.serve request).1.Refers x) : (p.serve request).2.declared[x]? = some true := by
  cases request with
  | peek => cases h
  | next => cases h
  | expect kind => cases h
  | expression =>
    obtain ⟨t, hnext, -, hvisible⟩ := run_expression_eq_ok_iff.mp (Prod.ext h rfl)
    rw [← declared_of_run_next hnext] at hvisible
    exact hvisible x rfl
  | exit =>
    obtain ⟨s, hs, hx⟩ := h
    obtain ⟨o, t, c, z, e, hadvances, -, -, -, -, hvisible, rfl⟩ :=
      run_exitStatement_eq_ok_iff.mp (Prod.ext hs rfl)
    rw [← declared_of_advances hadvances] at hvisible
    exact hvisible x (Option.some.inj hx)
  | bind =>
    obtain ⟨s, hs, hx⟩ := h
    obtain ⟨i, q, t, z, e, m, -, -, -, -, -, -, hvisible, rfl, hafter⟩ :=
      run_bindStatement_eq_ok_iff.mp (Prod.ext hs rfl)
    have hvalue := hvisible x (Option.some.inj hx)
    exact (congrArg (fun q => q.declared[x]?) hafter).trans
      (Declarations.getElem?_after_of_visible (.bind i.content e) hvalue)
  | statement =>
    obtain ⟨s, hs, hx⟩ := h
    obtain ⟨ts, q, -, -, hadmits, hafter⟩ := run_statement_eq_ok_iff.mp (Prod.ext hs rfl)
    have hexpr := hadmits.2 x hx
    exact (congrArg (fun q => q.declared[x]?) hafter).trans
      (Declarations.getElem?_after_of_visible s hexpr)
  | parse =>
    obtain ⟨program, hprogram, s, hs, hx⟩ := h
    obtain ⟨ts, -, -, hadmits⟩ := parse_eq_ok_iff.mp hprogram
    change p.parse.2.declared[x]? = some true
    rw [declared_of_parse hprogram]
    exact hadmits.visible hs hx

/-- A binding declares a name that is new, and refers to a name that was complete before. -/
theorem declared_of_run_openBinding {p q : Parser} {x : String} {value : Expr}
    (h : run openBinding p = (.ok (x, value), q)) :
    p.declared.contains x = false ∧ q.declared = p.declared.insert x false ∧
      ∀ y, value = .name y → p.declared[y]? = some true := by
  obtain ⟨i, -, -, -, m, -, -, -, -, -, hnew, hvisible, rfl, rfl⟩ :=
    run_openBinding_eq_ok_iff.mp h
  exact ⟨hnew, rfl, hvisible⟩

/-- Calls whose replies and tables are sound, where the given names have been bound before: a call
refers to names bound before it and binds a new one, and after it exactly the names bound so far
are complete. -/
def Sound (names : List String) : List Call → Prop
  | [] => True
  | c :: later =>
    (∀ x, c.reply.Refers x → x ∈ names) ∧ (∀ x, c.bound? = some x → x ∉ names) ∧
      Declarations.Visible (names ++ boundNames [c]) c.after.declared ∧
      Sound (names ++ boundNames [c]) later

/-- Calls are sound behind calls that are, where the names bound by these count as bound. -/
theorem sound_append {names : List String} {earlier later : List Call} (h : Sound names earlier)
    (h' : Sound (names ++ boundNames earlier) later) : Sound names (earlier ++ later) := by
  induction earlier generalizing names with
  | nil =>
    rw [append_boundNames_nil] at h'
    exact h'
  | cons c earlier ih =>
    obtain ⟨hrefers, hnew, hafter, hrest⟩ := h
    refine ⟨hrefers, hnew, hafter, ih hrest ?_⟩
    rw [List.append_assoc, ← boundNames_append]
    exact h'

/-- What is sound is sound at each call, with the names bound in front of it. -/
theorem Sound.at {names : List String} {front : List Call} {c : Call} {back : List Call}
    (h : Sound names (front ++ c :: back)) :
    Sound (names ++ boundNames front) (c :: back) := by
  induction front generalizing names with
  | nil =>
    rw [append_boundNames_nil]
    exact h
  | cons first front ih =>
    have hrest := ih h.2.2.2
    rw [List.append_assoc, ← boundNames_append] at hrest
    exact hrest

/-- In sound calls no name is bound twice. -/
theorem Sound.nodup {names : List String} {calls : List Call} (h : Sound names calls)
    (hnames : names.Nodup) : (names ++ boundNames calls).Nodup := by
  induction calls generalizing names with
  | nil =>
    rw [append_boundNames_nil]
    exact hnames
  | cons c later ih =>
    obtain ⟨-, hnew, -, hrest⟩ := h
    have hone : (boundNames [c]).Nodup := by
      cases hbound : c.bound? <;> simp [boundNames, hbound]
    have hnext : (names ++ boundNames [c]).Nodup := by
      refine List.nodup_append.mpr ⟨hnames, hone, fun x hx y hy heq => ?_⟩
      exact hnew y (mem_boundNames_singleton_iff.mp hy) (heq ▸ hx)
    have hall := ih hrest hnext
    rw [List.append_assoc, ← boundNames_append] at hall
    exact hall

/-- What a run does to the declared names. -/
structure Declares (p : Parser) (calls : List Call) (q : Parser) : Prop where
  kept : p.declared.KeptBy q.declared
  /-- The table after each call lies between the first and the last one. -/
  between : ∀ c ∈ calls,
    p.declared.GrowsTo c.after.declared ∧ c.after.declared.GrowsTo q.declared
  ordered : calls.Pairwise fun c c' => c.after.declared.GrowsTo c'.after.declared
  sound : ∀ names, Declarations.Visible names p.declared →
    Sound names calls ∧ Declarations.Visible (names ++ boundNames calls) q.declared

namespace Declares

variable {p q r : Parser} {earlier later calls : List Call}

/-- A change without a call: nothing is lost and no name becomes visible. -/
theorem of_nil (hkept : p.declared.KeptBy q.declared)
    (hvisible : ∀ x : String, q.declared[x]? = some true ↔ p.declared[x]? = some true) :
    Declares p [] q where
  kept := hkept
  between := by
    intro c hc
    cases hc
  ordered := .nil
  sound := by
    intro names hnames
    refine ⟨trivial, fun x => ?_⟩
    rw [append_boundNames_nil, hvisible]
    exact hnames x

/-- Runs can be put together. -/
theorem trans (h : Declares p earlier q) (h' : Declares q later r) :
    Declares p (earlier ++ later) r where
  kept := h.kept.trans h'.kept
  between := by
    intro c hc
    rcases List.mem_append.mp hc with hc | hc
    · obtain ⟨hp, hq⟩ := h.between c hc
      exact ⟨hp, hq.trans h'.kept.growsTo⟩
    · obtain ⟨hq, hr⟩ := h'.between c hc
      exact ⟨h.kept.growsTo.trans hq, hr⟩
  ordered := by
    refine List.pairwise_append.mpr ⟨h.ordered, h'.ordered, fun c hc c' hc' => ?_⟩
    exact (h.between c hc).2.trans (h'.between c' hc').1
  sound := by
    intro names hnames
    obtain ⟨hearlier, hq⟩ := h.sound names hnames
    obtain ⟨hlater, hr⟩ := h'.sound _ hq
    rw [List.append_assoc, ← boundNames_append] at hr
    exact ⟨sound_append hearlier hlater, hr⟩

/-- A call that returns.  The calls made inside it have led to a table that differs from the table
after it at most in the name that it binds. -/
theorem returned {c : Call} (h : Declares p calls q) (hkept : p.declared.KeptBy c.after.declared)
    (hgrows : q.declared.GrowsTo c.after.declared)
    (hrefers : ∀ x, c.reply.Refers x → q.declared[x]? = some true)
    (hnew : ∀ x, c.bound? = some x → q.declared[x]? ≠ some true)
    (hafter : ∀ x,
      c.after.declared[x]? = some true ↔ q.declared[x]? = some true ∨ c.bound? = some x) :
    Declares p (calls ++ [c]) c.after where
  kept := hkept
  between := by
    intro c' hc'
    rcases List.mem_append.mp hc' with hc' | hc'
    · obtain ⟨hp, hq⟩ := h.between c' hc'
      exact ⟨hp, hq.trans hgrows⟩
    · rw [List.mem_singleton.mp hc']
      exact ⟨hkept.growsTo, .refl _⟩
  ordered := by
    refine List.pairwise_append.mpr ⟨h.ordered, List.pairwise_singleton _ c, ?_⟩
    intro c₁ hc₁ c₂ hc₂
    rw [List.mem_singleton.mp hc₂]
    exact (h.between c₁ hc₁).2.trans hgrows
  sound := by
    intro names hnames
    obtain ⟨hcalls, hq⟩ := h.sound names hnames
    have hvisible : Declarations.Visible (names ++ boundNames calls ++ boundNames [c])
        c.after.declared := by
      intro x
      rw [hafter x, hq x, List.mem_append (s := names ++ boundNames calls),
        mem_boundNames_singleton_iff]
    refine ⟨sound_append hcalls ⟨?_, ?_, hvisible, trivial⟩, ?_⟩
    · intro x hx
      exact (hq x).mp (hrefers x hx)
    · intro x hx hmem
      exact hnew x hx ((hq x).mpr hmem)
    · rw [boundNames_append, ← List.append_assoc]
      exact hvisible

/-- A call that binds nothing itself, and leaves the table as the calls inside it did. -/
theorem returned_of_eq {c : Call} (h : Declares p calls q)
    (hdeclared : c.after.declared = q.declared)
    (hrefers : ∀ x, c.reply.Refers x → q.declared[x]? = some true) (hbound : c.bound? = none) :
    Declares p (calls ++ [c]) c.after := by
  apply h.returned
  · rw [hdeclared]
    exact h.kept
  · rw [hdeclared]
    exact .refl _
  · exact hrefers
  · intro x hx
    rw [hbound] at hx
    cases hx
  · intro x
    rw [hdeclared, hbound]
    simp

/-- Looking at a token is a call that leaves the table as it is. -/
theorem peek (p : Parser) : Declares p [⟨.peek, p⟩] (run peek p).2 :=
  returned_of_eq (c := ⟨.peek, p⟩) (of_nil (.refl _) fun _ => Iff.rfl) (declared_run_peek p)
    (fun _ h => h.elim) rfl

/-- Consuming a token makes two calls that leave the table as it is. -/
theorem next (p : Parser) : Declares p (nextCalls p) (run next p).2 := by
  refine returned_of_eq (c := ⟨.next, p⟩) (peek p) ?_ (fun _ h => h.elim) rfl
  rw [declared_run_peek]
  exact declared_run_next p

/-- A binding completes the name that its parts declared, if they were read. -/
theorem bind (h : Declares p calls (run openBinding p).2) :
    Declares p (calls ++ [⟨.bind, p⟩]) (run bindStatement p).2 := by
  have heq := run_bindStatement_eq p
  rcases hopen : run openBinding p with ⟨fault | ⟨x, value⟩, q⟩
  · rw [hopen] at heq h
    have hafter : Call.after ⟨.bind, p⟩ = q := congrArg Prod.snd heq
    have hreply : Call.reply ⟨.bind, p⟩ = .statement (.error fault) :=
      congrArg Reply.statement (congrArg Prod.fst heq)
    apply returned_of_eq (c := ⟨.bind, p⟩) h
    · rw [hafter]
    · rw [hreply]
      rintro y ⟨s, hs, -⟩
      cases hs
    · rw [Call.bound?, hreply]
  · rw [hopen] at heq h
    obtain ⟨hnew, hdeclared, hvisible⟩ := declared_of_run_openBinding hopen
    have hafter : (Call.after ⟨.bind, p⟩).declared = q.declared.insert x true :=
      congrArg (fun answer => answer.2.declared) heq
    have hreply : Call.reply ⟨.bind, p⟩ = .statement (.ok (.bind x value)) :=
      congrArg Reply.statement (congrArg Prod.fst heq)
    have hbound : Call.bound? ⟨.bind, p⟩ = some x := by rw [Call.bound?, hreply]
    apply returned (c := ⟨.bind, p⟩) h
    · rw [hafter, hdeclared, insert_false_insert_true]
      exact Declarations.keptBy_insert hnew true
    · rw [hafter]
      exact Declarations.growsTo_insert_true _ x
    · rw [hreply]
      rintro y ⟨s, hs, hy⟩
      cases hs
      rw [hdeclared, getElem?_insert_false_eq_true_iff hnew]
      exact hvisible y (Option.some.inj hy)
    · intro y hy
      rw [hbound, Option.some.injEq] at hy
      rw [← hy, hdeclared, Std.ExtTreeMap.getElem?_insert_self]
      decide
    · intro y
      rw [hafter, hbound, Declarations.getElem?_insert_true_eq_true_iff, Option.some.injEq,
        eq_comm (a := y)]

/-- A call that delegates its work binds nothing itself. -/
theorem close {request : Request} (hrequest : request.Delegates)
    (h : Declares p calls (p.serve request).2) :
    Declares p (calls ++ [⟨request, p⟩]) (p.serve request).2 := by
  refine returned_of_eq (c := ⟨request, p⟩) h rfl (fun x hx => visible_of_refers hx) ?_
  cases request with
  | bind => cases hrequest
  | _ => rfl

/-- Every operation that touches the state does to the names what it should. -/
theorem tracks : Tracks Declares where
  refl _ := of_nil (.refl _) fun _ => Iff.rfl
  trans := trans
  peek := peek
  next := next
  declare _ _ hnew :=
    of_nil (Declarations.keptBy_insert hnew false) fun _ => getElem?_insert_false_eq_true_iff hnew
  bind _ _ := bind
  close _ _ _ := close

end Declares

/-- The calls of any run are sound, and the names bound by them are the visible ones. -/
theorem sound_history (s : TokenStream) (requests : List Request) :
    Sound [] ((ofStream s).history requests) ∧
      Declarations.Visible (boundNames ((ofStream s).history requests))
        ((ofStream s).served requests).declared := by
  apply (Declares.tracks.history (ofStream s) requests).sound []
  intro x
  simp [ofStream]

/-- A name that is complete in some state of a run was bound in front of it, so a name that is not
complete is neither bound nor referred to. -/
theorem idle_of_incomplete {s : TokenStream} {requests : List Request} {x : String}
    (hx : ((ofStream s).served requests).declared[x]? ≠ some true) :
    ∀ c ∈ (ofStream s).history requests, c.bound? ≠ some x ∧ ¬c.reply.Refers x := by
  obtain ⟨hsound, hvisible⟩ := sound_history s requests
  have hbound : x ∉ boundNames ((ofStream s).history requests) := fun h => hx ((hvisible x).mpr h)
  intro c hc
  constructor
  · intro hcx
    exact hbound (List.mem_filterMap.mpr ⟨c, hc, hcx⟩)
  · intro hrefers
    obtain ⟨front, back, hsplit⟩ := List.append_of_mem hc
    rw [hsplit] at hsound hbound
    have hmem := hsound.at.1 x hrefers
    rw [boundNames_append] at hbound
    exact hbound (List.mem_append_left _ hmem)

/-- In every run of a parser, whatever it is asked for and wherever it fails: the table of declared
names grows from each call to the later ones; after each call the complete names are those of the
bindings read to their end so far, and so they are at the end; no name is bound twice; what a call
returns refers only to names bound in front of it; and a name that is left incomplete stays so, and
is never bound or referred to again. -/
theorem declared_exact (s : TokenStream) (requests : List Request) :
    let history := (ofStream s).history requests
    let p := (ofStream s).served requests
    history.Pairwise (fun c c' => c.after.declared.GrowsTo c'.after.declared) ∧
    (∀ c ∈ history, c.after.declared.GrowsTo p.declared) ∧
    (∀ front c back, history = front ++ c :: back →
      (∀ x, c.after.declared[x]? = some true ↔ x ∈ boundNames (front ++ [c])) ∧
      ∀ x, c.reply.Refers x → x ∈ boundNames front) ∧
    (∀ x, p.declared[x]? = some true ↔ x ∈ boundNames history) ∧
    (boundNames history).Nodup ∧
    ∀ x, p.declared[x]? = some false → ∀ later,
      (p.served later).declared[x]? = some false ∧
        ∀ c ∈ p.history later, c.bound? ≠ some x ∧ ¬c.reply.Refers x := by
  intro history p
  have hrun : Declares (ofStream s) history p := Declares.tracks.history (ofStream s) requests
  obtain ⟨hsound, hvisible⟩ := sound_history s requests
  refine ⟨hrun.ordered, fun c hc => (hrun.between c hc).2, ?_, hvisible, ?_, ?_⟩
  · intro front c back hsplit
    have hall : Sound [] history := hsound
    rw [hsplit] at hall
    obtain ⟨hrefers, -, hafter, -⟩ := hall.at
    rw [List.nil_append] at hrefers hafter
    rw [boundNames_append]
    exact ⟨hafter, hrefers⟩
  · exact hsound.nodup .nil
  · intro x hx later
    have hlater := (Declares.tracks.history p later).kept x false hx
    refine ⟨hlater, fun c hc => ?_⟩
    have hserved : (ofStream s).served (requests ++ later) = p.served later :=
      Requests.served_append _ _ _
    have hidle : ((ofStream s).served (requests ++ later)).declared[x]? ≠ some true := by
      rw [hserved, hlater]
      decide
    apply idle_of_incomplete hidle c
    rw [history_append]
    exact List.mem_append_right _ hc

end Parser

end LetExit
