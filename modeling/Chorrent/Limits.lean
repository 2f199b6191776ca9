/-
# Rate limits

The limiter of `limits.rs` is a token bucket that holds at most one second's worth.  Its
numbers and times are taken as exact.
-/
import Mathlib.Algebra.Order.Field.Rat
import Chorrent.Lib.TokenBucket

namespace Chorrent

open Lib

structure RateLimiter where
  bytesPerSec : ℚ
  state : Bucket ℚ

namespace RateLimiter

/-- A new limiter, at a time; a rate of zero counts as one. -/
def new (bytesPerSec : ℕ) (now : ℚ) : RateLimiter :=
  let rate : ℚ := max bytesPerSec 1
  { bytesPerSec := rate, state := ⟨rate, now⟩ }

/-- `acquire`, when it has the lock: the limiter after it, and how long the caller waits. -/
def acquire (l : RateLimiter) (now : ℚ) (bytes : ℕ) : RateLimiter × ℚ :=
  let tokens := min (l.state.tokens + max (now - l.state.last) 0 * l.bytesPerSec) l.bytesPerSec
  let tokens := tokens - bytes
  let wait := if tokens < 0 then -tokens / l.bytesPerSec else 0
  ({ l with state := ⟨tokens, now⟩ }, wait)

/-- The calls of `acquire` in the order in which they take the lock, by time: when each caller
is released, and its bytes. -/
def acquireAll : RateLimiter → List (ℚ × ℕ) → List (ℚ × ℕ)
  | _, [] => []
  | l, (now, bytes) :: calls =>
      let (l, wait) := l.acquire now bytes
      (now + wait, bytes) :: acquireAll l calls

/-- The limiter after some calls. -/
def after (l : RateLimiter) (calls : List (ℚ × ℕ)) : RateLimiter :=
  calls.foldl (fun l call => (l.acquire call.1 call.2).1) l

/-- The calls as callers of a token bucket. -/
def amounts (calls : List (ℚ × ℕ)) : List (ℚ × ℚ) := calls.map fun call => (call.1, (call.2 : ℚ))

/-- The times of the calls, after the limiter was created, do not go back. -/
def InOrder (created : ℚ) (calls : List (ℚ × ℕ)) : Prop := Bucket.InOrder created (amounts calls)

/-- The calls released within `length` of `start`. -/
def window (start length : ℚ) (released : List (ℚ × ℕ)) : List (ℚ × ℕ) :=
  released.filter fun r => start ≤ r.1 ∧ r.1 ≤ start + length

/-! ## The limiter is a token bucket -/

/-- The promise of a limiter about some calls: they are released in the order in which they took
the lock, in a window no more than its rate allows besides the first of them, and at once where
the bucket holds enough. -/
structure KeepsPromise (l : RateLimiter) (calls : List (ℚ × ℕ)) : Prop where
  ordered : (l.acquireAll calls).Pairwise fun r r' => r.1 ≤ r'.1
  paced : ∀ start length, 0 ≤ length →
    (((window start length (l.acquireAll calls)).map Prod.snd).sum : ℚ) ≤
      l.bytesPerSec * (length + 1) +
        ((window start length (l.acquireAll calls)).head?.elim 0 Prod.snd : ℕ)
  prompt : ∀ pre now (bytes : ℕ) post, calls = pre ++ (now, bytes) :: post →
    (bytes : ℚ) ≤ (l.after pre).state.holds l.bytesPerSec l.bytesPerSec now →
      ((l.after pre).acquire now bytes).2 = 0

variable {l : RateLimiter}

lemma acquireAll_eq (calls : List (ℚ × ℕ)) : ∀ l : RateLimiter,
    amounts (l.acquireAll calls) =
      l.state.releases l.bytesPerSec l.bytesPerSec (amounts calls) := by
  induction calls with
  | nil => exact fun _ => rfl
  | cons call calls ih =>
    intro l
    have hrest := ih (l.acquire call.1 call.2).1
    exact congrArg (_ :: ·) hrest

lemma bytesPerSec_after (calls : List (ℚ × ℕ)) : ∀ l : RateLimiter,
    (l.after calls).bytesPerSec = l.bytesPerSec := by
  induction calls with
  | nil => exact fun _ => rfl
  | cons call calls ih => exact fun l => ih (l.acquire call.1 call.2).1

lemma amounts_window (start length : ℚ) (released : List (ℚ × ℕ)) :
    amounts (window start length released) = Bucket.window start length (amounts released) := by
  rw [amounts, amounts, Bucket.window, List.filter_map]
  rfl

lemma sum_amounts (calls : List (ℚ × ℕ)) :
    ((amounts calls).map Prod.snd).sum = ((calls.map Prod.snd).sum : ℕ) := by
  induction calls with
  | nil => simp [amounts]
  | cons call calls ih =>
    rw [amounts] at ih ⊢
    simp only [List.map_cons, List.sum_cons, ih, Nat.cast_add]

/-- For every rate and all calls, a limiter keeps its promise. -/
theorem keepsPromise (bytesPerSec : ℕ) (created : ℚ) (calls : List (ℚ × ℕ))
    (horder : InOrder created calls) : (new bytesPerSec created).KeepsPromise calls := by
  set l := new bytesPerSec created with hl
  have hrate : 0 < l.bytesPerSec := lt_of_lt_of_le one_pos (le_max_right _ _)
  have hnonneg : ∀ call ∈ amounts calls, 0 ≤ call.2 := by
    intro call hcall
    obtain ⟨_, _, rfl⟩ := List.mem_map.1 hcall
    exact Nat.cast_nonneg _
  refine ⟨?_, fun start length hlength => ?_, fun pre now bytes post _ henough => ?_⟩
  · have hsorted : (l.state.releases l.bytesPerSec l.bytesPerSec (amounts calls)).Pairwise
        fun r r' => r.1 ≤ r'.1 :=
      Bucket.pairwise_releases hrate _ l.state horder hnonneg
    rw [← acquireAll_eq, amounts, List.pairwise_map] at hsorted
    exact hsorted
  · have hsum := Bucket.sum_window_le hrate hrate.le start hlength _ l.state horder hnonneg
    rw [← acquireAll_eq, ← amounts_window, sum_amounts] at hsum
    have hfirst : (amounts (window start length (l.acquireAll calls))).head?.elim 0 Prod.snd =
        (((window start length (l.acquireAll calls)).head?.elim 0 Prod.snd : ℕ) : ℚ) := by
      cases window start length (l.acquireAll calls) <;> simp [amounts]
    rw [hfirst] at hsum
    linarith
  · have hsame := bytesPerSec_after pre l
    rw [acquire, hsame]
    exact if_neg (not_lt.2 (sub_nonneg.2 henough))

/-- Four calls of a second's worth at once. -/
theorem keepsPromise_four_calls :
    (new 1000 0).KeepsPromise [(0, 1000), (0, 1000), (0, 1000), (0, 1000)] :=
  keepsPromise 1000 0 _ ⟨le_rfl, le_rfl, le_rfl, le_rfl, trivial⟩

example : (new 1000 0).acquireAll [(0, 1000), (0, 1000), (0, 1000)] =
    [(0, 1000), (1, 1000), (2, 1000)] := by decide +kernel

end RateLimiter

end Chorrent
