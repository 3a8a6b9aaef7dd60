import Mathlib.Algebra.Order.Ring.Nat

/-!
# Requests in flight

An asynchronous request/response network. A request is in flight until its server processes it or the
network loses it, whether or not its sender still waits; the response is there from then on and may or may
not be read. Requests are numbered as they are sent, so two requests are never the same one, and a request
that has been answered is in flight no more.
-/

namespace Async

universe u v

/-- A request with a number of its own. -/
structure Envelope (ρ : Type u) where
  id : Nat
  request : ρ
deriving DecidableEq

/-- Requests and replies that are under way; a request that has a reply is gone. -/
structure Wire (ρ : Type u) (β : Type v) where
  nextId : Nat
  inFlight : List (Envelope ρ)
  replies : List (Envelope ρ × β)
  flight_lt : ∀ e ∈ inFlight, e.id < nextId
  reply_lt : ∀ p ∈ replies, p.1.id < nextId
  answered : ∀ p ∈ replies, p.1 ∉ inFlight

namespace Wire

variable {ρ : Type u} {β : Type v}

/-- Nothing was sent. -/
def empty : Wire ρ β := ⟨0, [], [], by simp, by simp, by simp⟩

/-- The envelope the next request goes out in. -/
def next (w : Wire ρ β) (r : ρ) : Envelope ρ := ⟨w.nextId, r⟩

/-- A new request. -/
def send (w : Wire ρ β) (r : ρ) : Wire ρ β where
  nextId := w.nextId + 1
  inFlight := w.next r :: w.inFlight
  replies := w.replies
  flight_lt e he := by
    rcases List.mem_cons.1 he with rfl | he
    · exact Nat.lt_succ_self _
    · exact Nat.lt_succ_of_lt (w.flight_lt e he)
  reply_lt p hp := Nat.lt_succ_of_lt (w.reply_lt p hp)
  answered p hp hm := by
    rcases List.mem_cons.1 hm with he | hm
    · have hlt := w.reply_lt p hp
      rw [he] at hlt
      exact Nat.lt_irrefl _ hlt
    · exact w.answered p hp hm

variable [DecidableEq ρ]

/-- The server has processed `e` and answers `b`. -/
def reply (w : Wire ρ β) (e : Envelope ρ) (h : e ∈ w.inFlight) (b : β) : Wire ρ β where
  nextId := w.nextId
  inFlight := w.inFlight.filter (· ≠ e)
  replies := (e, b) :: w.replies
  flight_lt x hx := w.flight_lt x (List.mem_filter.1 hx).1
  reply_lt p hp := by
    rcases List.mem_cons.1 hp with rfl | hp
    · exact w.flight_lt e h
    · exact w.reply_lt p hp
  answered p hp hm := by
    rcases List.mem_cons.1 hp with rfl | hp
    · simp at hm
    · exact w.answered p hp (List.mem_filter.1 hm).1

/-- The network drops `e`. -/
def lose (w : Wire ρ β) (e : Envelope ρ) : Wire ρ β where
  nextId := w.nextId
  inFlight := w.inFlight.filter (· ≠ e)
  replies := w.replies
  flight_lt x hx := w.flight_lt x (List.mem_filter.1 hx).1
  reply_lt := w.reply_lt
  answered p hp hm := w.answered p hp (List.mem_filter.1 hm).1

omit [DecidableEq ρ] in
@[simp] theorem mem_send {w : Wire ρ β} {r : ρ} {e : Envelope ρ} :
    e ∈ (w.send r).inFlight ↔ e = w.next r ∨ e ∈ w.inFlight := by
  simp [send]

omit [DecidableEq ρ] in
@[simp] theorem replies_send (w : Wire ρ β) (r : ρ) : (w.send r).replies = w.replies := rfl

@[simp] theorem mem_reply {w : Wire ρ β} {e x : Envelope ρ} {h : e ∈ w.inFlight} {b : β} :
    x ∈ (w.reply e h b).inFlight ↔ x ∈ w.inFlight ∧ x ≠ e := by
  simp [reply]

@[simp] theorem replies_reply (w : Wire ρ β) {e : Envelope ρ} (h : e ∈ w.inFlight) (b : β) :
    (w.reply e h b).replies = (e, b) :: w.replies := rfl

@[simp] theorem mem_lose {w : Wire ρ β} {e x : Envelope ρ} : x ∈ (w.lose e).inFlight ↔ x ∈ w.inFlight ∧ x ≠ e := by
  simp [lose]

@[simp] theorem replies_lose (w : Wire ρ β) (e : Envelope ρ) : (w.lose e).replies = w.replies := rfl

omit [DecidableEq ρ] in
/-- Nobody has an answer yet to the request that goes out next. -/
theorem next_not_replied (w : Wire ρ β) (r : ρ) (b : β) : (w.next r, b) ∉ w.replies := by
  intro h
  exact Nat.lt_irrefl _ (w.reply_lt _ h)

omit [DecidableEq ρ] in
theorem not_inFlight_of_replied {w : Wire ρ β} {e : Envelope ρ} {b : β} (h : (e, b) ∈ w.replies) : e ∉ w.inFlight :=
  w.answered (e, b) h

end Wire

end Async
