/-
# Broadcast channels

A channel that keeps the last `cap` values for all receivers.  A receiver is a position in
what was ever sent; one that falls behind further than the channel reaches is told so, and
moved to the oldest value that is kept.
-/
import Mathlib.Tactic

namespace Chorrent.Lib.Broadcast

variable {α : Type}

/-- What a receiver gets. -/
inductive Received (α : Type) where
  | value (a : α)
  /-- It fell behind, and goes on at this position. -/
  | lagged (next : ℕ)
deriving DecidableEq

/-- `recv` at position `next`; nothing if all that was sent has been received. -/
def recv (cap : ℕ) (sent : List α) (next : ℕ) : Option (Received α) :=
  if cap < sent.length - next then some (.lagged (sent.length - cap))
  else sent[next]?.map .value

variable {cap next : ℕ} {sent : List α}

lemma recv_eq_none : recv cap sent next = none ↔ sent.length ≤ next := by
  rw [recv]
  split_ifs with hlag
  · exact iff_of_false (by simp) (by omega)
  · rw [Option.map_eq_none_iff, List.getElem?_eq_none_iff]

lemma recv_eq_value {a : α} (h : recv cap sent next = some (.value a)) : sent[next]? = some a := by
  rw [recv] at h
  split_ifs at h with hlag
  · cases Option.some.inj h
  · obtain ⟨b, hb, heq⟩ := Option.map_eq_some_iff.1 h
    rw [hb, Received.value.inj heq]

lemma recv_eq_lagged {n : ℕ} (h : recv cap sent next = some (.lagged n)) :
    cap < sent.length - next ∧ n = sent.length - cap := by
  rw [recv] at h
  split_ifs at h with hlag
  · exact ⟨hlag, (Received.lagged.inj (Option.some.inj h)).symm⟩
  · obtain ⟨b, -, heq⟩ := Option.map_eq_some_iff.1 h
    cases heq

end Chorrent.Lib.Broadcast
