import LetExit.Token.Lexer

/-!
# Streams of tokens

A parser takes its tokens one at a time, from a lexer or from a list of prepared
answers.  A list may hold faults and ends between its tokens, and has ended for good
after its last answer.
-/

set_option autoImplicit false

namespace LetExit

/-- The tokens still to come. -/
inductive TokenStream where
  | lexer (l : Lexer)
  | answers (list : List (Except Fault Token))

namespace TokenStream

/-- The next token. -/
def next : TokenStream → Except Fault Token × TokenStream
  | .lexer l => (l.next.1, .lexer l.next.2)
  | .answers [] => (.error .endOfInput, .answers [])
  | .answers (answer :: later) => (answer, .answers later)

/-- A bound on the tokens to come. -/
def size : TokenStream → Nat
  | .lexer l => l.size
  | .answers list => list.length

/-- A token makes the rest of the stream smaller. -/
theorem size_lt_of_next_ok {s s' : TokenStream} {t : Token} (h : s.next = (.ok t, s')) :
    s'.size < s.size := by
  match s with
  | .lexer l =>
    simp only [next, Prod.mk.injEq] at h
    rw [← h.2]
    exact Lexer.size_lt_of_next_ok (Prod.ext h.1 rfl)
  | .answers [] => simp [next] at h
  | .answers (answer :: later) =>
    simp only [next, Prod.mk.injEq] at h
    simp [← h.2, size]

end TokenStream

end LetExit
