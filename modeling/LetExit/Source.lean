import LetExit.Text.Utf8

/-!
# Sources of text

A text is read character by character from an `Input`.  Its bytes either lie in
memory, or they arrive in deliveries.  Between deliveries the source may be
interrupted: it may fail, or report an end although more follows when it is asked
again.  A source that delivers nothing a hundred times in a row has stalled, which is a
failure too.  After the last delivery it has ended for good.

`Input.size` counts what is left to read, and every character read makes it smaller
(`Input.size_lt_of_read_char`).
-/

set_option autoImplicit false

namespace LetExit

/-- Why a source gave no character. -/
inductive Interruption where
  | ended
  | failed (reason : String)
deriving DecidableEq, Repr

/-- The failure of a source that delivers nothing again and again. -/
def Interruption.stalled : Interruption :=
  .failed "multiple Read calls return no data or error"

/-- What a source hands over when it is asked for bytes. -/
inductive Delivery where
  | bytes (content : Bytes)
  | interruption (cause : Interruption)
deriving DecidableEq, Repr

/-- The text still to be read. -/
inductive Input where
  /-- Bytes in memory. -/
  | memory (rest : Bytes)
  /-- Bytes that have arrived and are not read yet, an interruption that has arrived after them,
  and the deliveries to come. -/
  | feed (buffer : Bytes) (pending : Option Interruption) (deliveries : List Delivery)
deriving DecidableEq, Repr

/-- The answer to a request for one character. -/
inductive Reading where
  | char (c : Char)
  | malformed
  | interrupted (cause : Interruption)
deriving DecidableEq, Repr

/-- The answer that a piece of the text gives. -/
def Reading.ofPiece : Utf8.Piece → Reading
  | .char c => .char c
  | .stray _ => .malformed

/-- How many deliveries in a row have to bring nothing for a source to be given up. -/
def patience : Nat :=
  100

namespace Delivery

/-- What a delivery comes to behind `idle` deliveries in a row that brought nothing, and how many
these are after it. -/
def heed (idle : Nat) : Delivery → Delivery × Nat
  | bytes [] => if idle + 1 < patience then (bytes [], idle + 1) else (interruption .stalled, 0)
  | delivery => (delivery, 0)

/-- Deliveries as they are heeded: one that brings nothing is a failure if it exhausts the
patience. -/
def heeded (idle : Nat) : List Delivery → List Delivery
  | [] => []
  | delivery :: later => (delivery.heed idle).1 :: heeded (delivery.heed idle).2 later

/-- Empty deliveries are counted only as long as the buffer does not settle how it starts. -/
theorem eq_zero_or_unsettled_of_heed {buffer content : Bytes} {delivery : Delivery}
    {idle next : Nat} (hbuffer : Utf8.isSettled buffer = false)
    (h : delivery.heed idle = (bytes content, next)) :
    next = 0 ∨ Utf8.isSettled (buffer ++ content) = false := by
  unfold heed at h
  split at h
  · split at h
    · cases h
      exact Or.inr (by rw [List.append_nil, hbuffer])
    · cases h
  · cases h
    exact Or.inl rfl

/-- Behind an interruption the empty deliveries are counted anew. -/
theorem eq_zero_of_heed_interruption {delivery : Delivery} {idle next : Nat}
    {cause : Interruption} (h : delivery.heed idle = (interruption cause, next)) : next = 0 := by
  unfold heed at h
  split at h
  · split at h
    · cases h
    · cases h
      rfl
  · cases h
    rfl

end Delivery

/-- Takes deliveries until the buffer settles how it starts or an interruption arrives.  The last
`idle` deliveries that were taken brought nothing. -/
def refill (buffer : Bytes) (idle : Nat) :
    List Delivery → Bytes × Option Interruption × List Delivery
  | [] => (buffer, none, [])
  | delivery :: later =>
    if Utf8.isSettled buffer then (buffer, none, delivery :: later)
    else match delivery.heed idle with
      | (.bytes content, idle) => refill (buffer ++ content) idle later
      | (.interruption cause, _) => (buffer, some cause, later)

namespace Input

/-- A source of deliveries from which nothing has arrived yet. -/
def ofDeliveries (deliveries : List Delivery) : Input :=
  .feed [] none deliveries

/-- Reads a character from bytes that have arrived, or hands on the interruption after them. -/
def readArrived :
    Bytes × Option Interruption × List Delivery → Reading × Input
  | ([], pending, later) => (.interrupted (pending.getD .ended), .feed [] none later)
  | (b :: rest, pending, later) =>
    (.ofPiece (Utf8.first b rest).1, .feed (Utf8.first b rest).2 pending later)

/-- Reads one character.  A byte that belongs to no character is read alone.  An interruption
comes only after all bytes that arrived before it, and reading goes on behind it. -/
def read : Input → Reading × Input
  | .memory [] => (.interrupted .ended, .memory [])
  | .memory (b :: rest) => (.ofPiece (Utf8.first b rest).1, .memory (Utf8.first b rest).2)
  | .feed buffer (some cause) deliveries => readArrived (buffer, some cause, deliveries)
  | .feed buffer none deliveries => readArrived (refill buffer 0 deliveries)

/-- The bytes and interruptions in deliveries. -/
def deliveriesSize : List Delivery → Nat
  | [] => 0
  | .bytes content :: later => content.length + deliveriesSize later
  | .interruption _ :: later => 1 + deliveriesSize later

/-- The bytes not yet read and the interruptions not yet handed on, stalls included. -/
def size : Input → Nat
  | .memory rest => rest.length
  | .feed buffer pending deliveries =>
    buffer.length + pending.toList.length + deliveriesSize (Delivery.heeded 0 deliveries)

/-- Refilling loses nothing and adds nothing.  Empty deliveries are only counted while the buffer
does not settle how it starts. -/
theorem size_refill_of_idle (buffer : Bytes) {idle : Nat}
    (h : idle = 0 ∨ Utf8.isSettled buffer = false) (deliveries : List Delivery) :
    (Input.feed (refill buffer idle deliveries).1 (refill buffer idle deliveries).2.1
      (refill buffer idle deliveries).2.2).size =
        buffer.length + deliveriesSize (Delivery.heeded idle deliveries) := by
  induction deliveries generalizing buffer idle with
  | nil => simp [refill, size, Delivery.heeded, deliveriesSize]
  | cons delivery later ih =>
    simp only [refill]
    split
    · rename_i hsettled
      have hidle : idle = 0 := h.resolve_right (by simp [hsettled])
      simp [size, hidle]
    · rename_i hsettled
      have hbuffer : Utf8.isSettled buffer = false := Bool.eq_false_iff.mpr hsettled
      rcases hheed : delivery.heed idle with ⟨content | cause, next⟩
      · have hnext := Delivery.eq_zero_or_unsettled_of_heed hbuffer hheed
        simp only [Delivery.heeded, hheed, ih _ hnext, List.length_append, deliveriesSize]
        omega
      · have hnext := Delivery.eq_zero_of_heed_interruption hheed
        simp [Delivery.heeded, hheed, size, deliveriesSize, hnext]
        omega

/-- Refilling loses nothing and adds nothing. -/
theorem size_refill (buffer : Bytes) (deliveries : List Delivery) :
    (Input.feed (refill buffer 0 deliveries).1 (refill buffer 0 deliveries).2.1
      (refill buffer 0 deliveries).2.2).size = (Input.feed buffer none deliveries).size :=
  size_refill_of_idle buffer (Or.inl rfl) deliveries

/-- Reading from what has arrived does not make the input larger. -/
theorem size_readArrived_le (buffer : Bytes) (pending : Option Interruption)
    (later : List Delivery) :
    (readArrived (buffer, pending, later)).2.size ≤ (Input.feed buffer pending later).size := by
  cases buffer with
  | nil => simp [readArrived, size]
  | cons b rest =>
    have := Utf8.length_first_le b rest
    simp only [readArrived, size, List.length_cons]
    omega

/-- A character that is read from what has arrived makes the input smaller. -/
theorem size_lt_of_readArrived_char {buffer : Bytes} {pending : Option Interruption}
    {later : List Delivery} {c : Char} {after : Input}
    (h : readArrived (buffer, pending, later) = (.char c, after)) :
    after.size < (Input.feed buffer pending later).size := by
  cases buffer with
  | nil => simp [readArrived] at h
  | cons b rest =>
    have := Utf8.length_first_le b rest
    simp only [readArrived, Prod.mk.injEq] at h
    simp only [← h.2, size, List.length_cons]
    omega

/-- Reading does not make the input larger. -/
theorem size_read_le (input : Input) : input.read.2.size ≤ input.size := by
  unfold read
  split
  · exact Nat.le_refl _
  · rename_i b rest
    have := Utf8.length_first_le b rest
    simp only [size, List.length_cons]
    omega
  · exact size_readArrived_le _ _ _
  · rename_i buffer deliveries
    rw [← size_refill]
    exact size_readArrived_le _ _ _

/-- A character read makes the input smaller. -/
theorem size_lt_of_read_char {input after : Input} {c : Char}
    (h : input.read = (.char c, after)) : after.size < input.size := by
  unfold read at h
  split at h
  · simp at h
  · rename_i b rest
    have := Utf8.length_first_le b rest
    simp only [Prod.mk.injEq] at h
    simp only [← h.2, size, List.length_cons]
    omega
  · exact size_lt_of_readArrived_char h
  · rw [← size_refill]
    exact size_lt_of_readArrived_char h

end Input

end LetExit
