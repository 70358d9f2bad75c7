import LetExit.Compile
import LetExit.Proofs.Requests
import LetExit.Proofs.TokenSequence

/-!
# Deliveries cannot be seen

The bytes of a source may arrive in any pieces: a piece may be empty, and it may end
within the encoding of a character, within bytes that encode none, or within a word.  Only
a hundred empty pieces in a row are too many, since the source is given up then.  Otherwise
nothing that a lexer answers depends on where the pieces end, and neither does its state,
the character in the lookahead included.

What is kept from one step to the next is `Lexer.Alike`: the readings to come are the
same, and so are lookahead and position.  The view of a lexer is not enough here, since it
forgets whether the first of the readings has been taken from the source already.
-/

set_option autoImplicit false

namespace LetExit

/-- Pieces give the readings of the bytes that they make up. -/
theorem Input.deliveryReadings_bytes (buffer : Bytes) (chunks : List Bytes) :
    deliveryReadings buffer (chunks.map .bytes) = bytesReadings (buffer ++ chunks.flatten) := by
  induction chunks generalizing buffer with
  | nil => rw [List.map_nil, deliveryReadings, List.flatten_nil, List.append_nil]
  | cons chunk later ih =>
    rw [List.map_cons, deliveryReadings, ih, List.flatten_cons, List.append_assoc]

/-- Bytes that arrive in pieces, of which not too many in a row are empty, give the readings of the
whole. -/
theorem Input.readings_ofDeliveries_bytes {chunks : List Bytes}
    (h : Delivery.Steady (chunks.map .bytes)) :
    (ofDeliveries (chunks.map .bytes)).readings = (memory chunks.flatten).readings := by
  show deliveryReadings [] (Delivery.heeded 0 (chunks.map .bytes)) = _
  rw [Delivery.heeded_of_steady h]
  exact deliveryReadings_bytes [] chunks

namespace Lexer

/-- What a lexer can be asked for. -/
inductive Request where
  | next
  | tokenize
  | peek
  | read

/-- What a lexer answers. -/
inductive Reply where
  | token (answer : Except Fault Token)
  | tokens (answer : Except Fault (List Token))
  | ahead (answer : Except Fault Char)
  | char (answer : Except Fault (Char × Position))

/-- The answer to a request, and the lexer after it. -/
def serve (l : Lexer) : Request → Reply × Lexer
  | .next => (.token l.next.1, l.next.2)
  | .tokenize => (.tokens l.tokenize.1, l.tokenize.2)
  | .peek => (.ahead l.peek.1, l.peek.2)
  | .read => (.char l.read.1, l.read.2)

/-- The lexer after requests that are made one after the other. -/
def served (l : Lexer) (requests : List Request) : Lexer :=
  Requests.served serve l requests

/-- The answers to requests that are made one after the other, each with the position and the
lookahead after it. -/
def transcript (l : Lexer) (requests : List Request) : List (Reply × Position × Option Char) :=
  Requests.transcript serve (fun after => (after.position, after.lookahead)) l requests

/-- The lexers are in the same state, though their sources may hold the bytes in other pieces. -/
structure Alike (l m : Lexer) : Prop where
  readings : l.input.readings = m.input.readings
  lookahead : l.lookahead = m.lookahead
  position : l.position = m.position

/-- An operation that gives lexers which are alike the same answer, and leaves them alike. -/
def Respects {α : Type} (operation : Lexer → α × Lexer) : Prop :=
  ∀ l m, l.Alike m → Corresponds Alike (operation l) (operation m)

/-- A look at the next character does not see the pieces. -/
theorem respects_peek : Respects peek := by
  intro l m h
  obtain ⟨input, lookahead, position⟩ := l
  obtain ⟨input', lookahead', position'⟩ := m
  obtain ⟨hreadings, hlookahead, hposition⟩ := h
  dsimp only at hreadings hlookahead hposition
  subst hlookahead hposition
  cases lookahead with
  | some c => exact ⟨rfl, hreadings, rfl, rfl⟩
  | none =>
    -- a source answers with the first of its readings and keeps the others
    have hreads : Corresponds (fun i j => i.readings = j.readings) input.read input'.read := by
      obtain ⟨hanswer, hrest⟩ := Input.takes_read input
      obtain ⟨hanswer', hrest'⟩ := Input.takes_read input'
      rw [hreadings] at hanswer hrest
      exact ⟨hanswer.trans hanswer'.symm, hrest.trans hrest'.symm⟩
    rcases hread : input.read with ⟨reading, rest⟩
    obtain ⟨rest', hread', hrest⟩ := hreads.exists_eq hread
    simp only [peek, hread, hread']
    cases reading with
    | char c => exact ⟨rfl, hrest, rfl, rfl⟩
    | malformed => exact ⟨rfl, hrest, rfl, rfl⟩
    | interrupted cause => exact ⟨rfl, hrest, rfl, rfl⟩

/-- Consuming a character does not see them. -/
theorem respects_read : Respects read := by
  intro l m h
  rcases hl : l.peek with ⟨ahead, l'⟩
  obtain ⟨m', hm, hafter⟩ := (respects_peek l m h).exists_eq hl
  simp only [read, hl, hm]
  cases ahead with
  | ok c =>
    dsimp only
    rw [hafter.position]
    exact ⟨rfl, hafter.readings, rfl, rfl⟩
  | error fault => exact ⟨rfl, hafter⟩

/-- A step within a word does not see the pieces. -/
theorem respects_wordStep : Respects wordStep := by
  intro l m h
  rcases hl : l.peek with ⟨ahead, l'⟩
  obtain ⟨m', hm, hafter⟩ := (respects_peek l m h).exists_eq hl
  rw [wordStep, wordStep, hl, hm]
  cases ahead with
  | error fault => cases fault <;> exact ⟨rfl, hafter⟩
  | ok c =>
    dsimp only
    by_cases hends : endsWord c = true
    · rw [if_pos hends, if_pos hends]
      exact ⟨rfl, hafter⟩
    · rw [if_neg hends, if_neg hends]
      exact ⟨rfl, (respects_read l' m' hafter).2⟩

/-- Neither does the rest of a word. -/
theorem respects_takeWord : Respects takeWord :=
  fun _ _ => collects_takeWord.corresponds respects_wordStep

/-- Neither does the token that a character starts. -/
theorem respects_startToken (c : Char) (position : Position) :
    Respects fun l => l.startToken c position := by
  intro l m h
  dsimp only
  rw [startToken, startToken]
  cases Token.Kind.ofSymbol? c with
  | some kind => exact ⟨rfl, h⟩
  | none =>
    dsimp only
    by_cases hword : (!CharClass.isWord (.ofChar c)) = true
    · rw [if_pos hword, if_pos hword]
      exact ⟨rfl, h⟩
    · rw [if_neg hword, if_neg hword]
      rcases hl : l.takeWord with ⟨rest, l'⟩
      obtain ⟨m', hm, hafter⟩ := (respects_takeWord l m h).exists_eq hl
      rw [hm]
      cases rest <;> exact ⟨rfl, hafter⟩

/-- Nor does the search for a token. -/
theorem respects_next : Respects next := by
  intro l m h
  induction hsize : l.size using Nat.strongRecOn generalizing l m with
  | ind size ih =>
    rcases hl : l.read with ⟨answer, l'⟩
    obtain ⟨m', hm, hafter⟩ := (respects_read l m h).exists_eq hl
    rw [next_eq l, next_eq m, nextRound, nextRound, hl, hm]
    rcases answer with fault | ⟨c, p⟩
    · exact ⟨rfl, hafter⟩
    · dsimp only
      by_cases hblank : isBlank c = true
      · rw [if_pos hblank, if_pos hblank]
        have hsmaller := size_lt_of_read_ok hl
        exact ih l'.size (by omega) l' m' hafter rfl
      · rw [if_neg hblank, if_neg hblank]
        exact respects_startToken c p l' m' hafter

/-- Nor does the collection of all tokens. -/
theorem respects_tokenize : Respects tokenize := by
  have hstep : Respects tokenStep := by
    intro l m h
    rcases hl : l.next with ⟨answer, l'⟩
    obtain ⟨m', hm, hafter⟩ := (respects_next l m h).exists_eq hl
    rw [tokenStep, tokenStep, hl, hm]
    cases answer with
    | error fault => cases fault <;> exact ⟨rfl, hafter⟩
    | ok token => exact ⟨rfl, hafter⟩
  exact fun _ _ => collects_tokenize.corresponds hstep

/-- No request sees the pieces. -/
theorem respects_serve (request : Request) : Respects fun l => l.serve request := by
  intro l m h
  cases request with
  | next =>
    obtain ⟨hanswer, hafter⟩ := respects_next l m h
    exact ⟨congrArg Reply.token hanswer, hafter⟩
  | tokenize =>
    obtain ⟨hanswer, hafter⟩ := respects_tokenize l m h
    exact ⟨congrArg Reply.tokens hanswer, hafter⟩
  | peek =>
    obtain ⟨hanswer, hafter⟩ := respects_peek l m h
    exact ⟨congrArg Reply.ahead hanswer, hafter⟩
  | read =>
    obtain ⟨hanswer, hafter⟩ := respects_read l m h
    exact ⟨congrArg Reply.char hanswer, hafter⟩

/-- Lexers that are alike answer every sequence of requests in the same way. -/
theorem Alike.transcript_eq {l m : Lexer} (h : l.Alike m) (requests : List Request) :
    l.transcript requests = m.transcript requests := by
  refine Requests.transcript_eq_of_corresponds (r := Alike) ?_ ?_ h requests
  · intro l m h request
    exact respects_serve request l m h
  · intro l m h
    rw [h.position, h.lookahead]

/-- A lexer over pieces is like a lexer over the whole. -/
theorem alike_ofDeliveries_bytes {chunks : List Bytes}
    (h : Delivery.Steady (chunks.map .bytes)) :
    (ofInput (.ofDeliveries (chunks.map .bytes))).Alike (ofInput (.memory chunks.flatten)) :=
  ⟨Input.readings_ofDeliveries_bytes h, rfl, rfl⟩

/-- Lexers that are alike have the same view. -/
theorem Alike.view_eq {l m : Lexer} (h : l.Alike m) : l.view = m.view := by
  rw [view, view, h.readings, h.lookahead, h.position]

end Lexer

/-- Lexers that are alike are read as the same program, or with the same fault. -/
theorem Program.parse_eq_of_alike {i j : Input} (h : (Lexer.ofInput i).Alike (.ofInput j)) :
    parse i = parse j := by
  have hstream : (TokenStream.lexer (.ofInput i)).Alike (.lexer (.ofInput j)) := by
    apply TokenStream.alike_lexer
    rw [h.view_eq]
  have hparser : (Parser.ofInput i).Alike (.ofInput j) := ⟨hstream, rfl, rfl⟩
  exact (Parser.parse_alike hparser).1

/-- **Deliveries cannot be seen.**  However a byte string is cut into pieces, as long as fewer than
a hundred in a row are empty, a lexer over the pieces answers every sequence of requests as a lexer
over the whole does, with the same position and lookahead after each of them.  The pieces are read
as the same program or with the same fault, and compiling them does the same to every sink. -/
theorem deliveries_invisible (chunks : List Bytes) (h : Delivery.Steady (chunks.map .bytes)) :
    (∀ requests, (Lexer.ofInput (.ofDeliveries (chunks.map .bytes))).transcript requests =
      (Lexer.ofInput (.memory chunks.flatten)).transcript requests) ∧
    Program.parse (.ofDeliveries (chunks.map .bytes)) = Program.parse (.memory chunks.flatten) ∧
    ∀ sink, compile (.ofDeliveries (chunks.map .bytes)) sink =
      compile (.memory chunks.flatten) sink := by
  have halike := Lexer.alike_ofDeliveries_bytes h
  have hparse := Program.parse_eq_of_alike halike
  refine ⟨halike.transcript_eq, hparse, fun sink => ?_⟩
  rw [compile, compile, hparse]

/-- A program that arrives behind as many empty pieces as there may be, and in pieces that end
within its words. -/
theorem deliveries_invisible_broken_words :
    let chunks := List.replicate 99 [] ++ [Utf8.ofString "exi", [], Utf8.ofString "t(4",
      Utf8.ofString "2);"]
    Delivery.Steady (chunks.map .bytes) ∧
    Program.parse (.ofDeliveries (chunks.map .bytes)) = .ok [.exit (.literal 42)] := by
  intro chunks
  have hsteady : Delivery.Steady (chunks.map .bytes) := by decide +kernel
  have hwhole : Program.parse (.memory (Utf8.ofString "exit(42);")) =
      .ok [.exit (.literal 42)] := by
    with_unfolding_all rfl
  obtain ⟨-, hparse, -⟩ := deliveries_invisible chunks hsteady
  exact ⟨hsteady, hparse.trans hwhole⟩

end LetExit
