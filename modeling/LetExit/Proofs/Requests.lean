import LetExit.Proofs.Loops

/-!
# Requests

A lexer and a parser can be asked for many things, in any order and also behind faults.  Each of
them is a state together with a function that serves a request: it answers the request and leaves a
state that can go on.  What is said here is true of every such function.

`Requests.served` is the state after requests that are made one after the other, and
`Requests.transcript` is what they are answered, each with as much of the state as shows after it.
What one request keeps, a run keeps (`Requests.served_of_step`), and a request behind which
everything is served as before can be left out of a run (`Requests.transcript_erase`).
-/

set_option autoImplicit false

namespace LetExit

namespace Requests

variable {σ ρ ω τ : Type} (serve : σ → ρ → ω × σ)

/-- The state after requests that are made one after the other. -/
def served (s : σ) (requests : List ρ) : σ :=
  requests.foldl (fun s request => (serve s request).2) s

/-- The answers to requests that are made one after the other, each with what shows of the state
after it. -/
def transcript (shown : σ → τ) (s : σ) : List ρ → List (ω × τ)
  | [] => []
  | request :: later =>
    ((serve s request).1, shown (serve s request).2) ::
      transcript shown (serve s request).2 later

variable {serve} {shown : σ → τ}

/-- Requests are served one after the other. -/
theorem served_append (s : σ) (earlier later : List ρ) :
    served serve s (earlier ++ later) = served serve (served serve s earlier) later :=
  List.foldl_append

/-- What every request keeps, a run keeps. -/
theorem served_of_step {P : σ → Prop} (hstep : ∀ s request, P s → P (serve s request).2) {s : σ}
    (h : P s) (requests : List ρ) : P (served serve s requests) := by
  induction requests generalizing s with
  | nil => exact h
  | cons request later ih => exact ih (hstep s request h)

/-- States that every request leaves related are left related by a run. -/
theorem served_related {r : σ → σ → Prop}
    (hstep : ∀ s t, r s t → ∀ request, r (serve s request).2 (serve t request).2) {s t : σ}
    (h : r s t) (requests : List ρ) : r (served serve s requests) (served serve t requests) := by
  induction requests generalizing s t with
  | nil => exact h
  | cons request later ih => exact ih (hstep s t h request)

/-- Every request has one answer. -/
theorem length_transcript (s : σ) (requests : List ρ) :
    (transcript serve shown s requests).length = requests.length := by
  induction requests generalizing s with
  | nil => rfl
  | cons request later ih => rw [transcript, List.length_cons, List.length_cons, ih]

/-- The answers to later requests are given in the state that the earlier ones leave. -/
theorem transcript_append (s : σ) (earlier later : List ρ) :
    transcript serve shown s (earlier ++ later) =
      transcript serve shown s earlier ++
        transcript serve shown (served serve s earlier) later := by
  induction earlier generalizing s with
  | nil => rfl
  | cons request earlier ih =>
    rw [List.cons_append, transcript, transcript, ih, List.cons_append]
    rfl

/-- States that every request is served alike in, and that show alike, have the same transcripts. -/
theorem transcript_eq_of_corresponds {r : σ → σ → Prop}
    (hserve : ∀ s t, r s t → ∀ request, Corresponds r (serve s request) (serve t request))
    (hshown : ∀ s t, r s t → shown s = shown t) {s t : σ} (h : r s t) (requests : List ρ) :
    transcript serve shown s requests = transcript serve shown t requests := by
  induction requests generalizing s t with
  | nil => rfl
  | cons request later ih =>
    obtain ⟨hanswer, hafter⟩ := hserve s t h request
    rw [transcript, transcript, hanswer, hshown _ _ hafter, ih hafter]

/-- A request behind which all others are served as they would be without it can be left out of a
run, and with it only its own answer. -/
theorem transcript_erase {s : σ} {earlier : List ρ} {request : ρ}
    (h : ∀ other, serve (serve (served serve s earlier) request).2 other =
      serve (served serve s earlier) other) (later : List ρ) :
    (transcript serve shown s (earlier ++ request :: later)).eraseIdx earlier.length =
      transcript serve shown s (earlier ++ later) := by
  have hlength : (transcript serve shown s earlier).length = earlier.length :=
    length_transcript s earlier
  have hlater : transcript serve shown (serve (served serve s earlier) request).2 later =
      transcript serve shown (served serve s earlier) later := by
    cases later with
    | nil => rfl
    | cons other later => rw [transcript, transcript, h other]
  rw [transcript_append, transcript_append, transcript,
    List.eraseIdx_append_of_length_le (Nat.le_of_eq hlength), hlength, Nat.sub_self,
    List.eraseIdx_cons_zero, hlater]

end Requests

end LetExit
