/-
# Token buckets

A bucket that fills at a constant rate up to its capacity and may go into debt: whoever takes
more than there is waits until the debt is paid.  Callers go on in the order in which they
took, and in any window of time those that go on took no more than the rate allows in it, a
full bucket, and what the first of them took.
-/
import Mathlib.Algebra.Order.Field.Basic
import Mathlib.Data.List.TakeWhile
import Mathlib.Tactic.FieldSimp
import Mathlib.Tactic.Linarith
import Mathlib.Tactic.Ring

namespace Chorrent.Lib

variable {K : Type*} [Field K] [LinearOrder K]

/-- The tokens in a bucket at the time it was last used; below zero they are a debt. -/
structure Bucket (K : Type*) where
  tokens : K
  last : K

namespace Bucket

variable (rate cap : K)

/-- What the bucket holds at a time. -/
def holds (b : Bucket K) (now : K) : K := min (b.tokens + max (now - b.last) 0 * rate) cap

def take (b : Bucket K) (now amount : K) : Bucket K := ⟨b.holds rate cap now - amount, now⟩

/-- How long whoever took last has to wait. -/
def wait (b : Bucket K) : K := if b.tokens < 0 then -b.tokens / rate else 0

/-- When whoever took last goes on. -/
def release (b : Bucket K) : K := b.last + b.wait rate

/-- When callers go on that take these amounts at these times, with what they take. -/
def releases : Bucket K → List (K × K) → List (K × K)
  | _, [] => []
  | b, (now, amount) :: calls =>
      let b := b.take rate cap now amount
      (b.release rate, amount) :: releases b calls

/-- The times of the calls do not go back. -/
def InOrder : K → List (K × K) → Prop
  | _, [] => True
  | last, (now, _) :: calls => last ≤ now ∧ InOrder now calls

variable {rate cap} {b : Bucket K}

variable [IsStrictOrderedRing K]

lemma wait_nonneg (hrate : 0 < rate) : 0 ≤ b.wait rate := by
  rw [wait]
  split_ifs with h
  · exact div_nonneg (neg_nonneg.2 h.le) hrate.le
  · exact le_rfl

/-- A debt is paid when its caller goes on. -/
lemma neg_tokens_le (hrate : 0 < rate) : -b.tokens ≤ rate * (b.release rate - b.last) := by
  rw [release, wait, add_sub_cancel_left]
  split_ifs with h
  · rw [mul_div_cancel₀ _ hrate.ne']
  · simpa using not_lt.1 h

omit [IsStrictOrderedRing K] in
/-- What is left after a call, and what comes in while it waits, is at most a full bucket. -/
lemma tokens_le (hrate : 0 < rate) (hcap : 0 ≤ cap) (hle : b.tokens ≤ cap) :
    b.tokens + rate * (b.release rate - b.last) ≤ cap := by
  rw [release, wait, add_sub_cancel_left]
  split_ifs with h
  · rw [mul_div_cancel₀ _ hrate.ne', add_neg_cancel]
    exact hcap
  · simpa using hle

lemma holds_le {now : K} (hnow : b.last ≤ now) :
    b.holds rate cap now ≤ b.tokens + rate * (now - b.last) := by
  rw [holds, max_eq_left (sub_nonneg.2 hnow), mul_comm]
  exact min_le_left _ _

lemma tokens_take_le {now amount : K} (hamount : 0 ≤ amount) :
    (b.take rate cap now amount).tokens ≤ cap := by
  have hcap : b.holds rate cap now ≤ cap := min_le_right _ _
  rw [take]
  linarith

/-- A caller goes on no earlier than the one before. -/
lemma release_le (hrate : 0 < rate) {now amount : K} (hnow : b.last ≤ now)
    (hamount : 0 ≤ amount) : b.release rate ≤ (b.take rate cap now amount).release rate := by
  have hwait := wait_nonneg (b := b.take rate cap now amount) hrate
  have hlast : (b.take rate cap now amount).last = now := rfl
  by_cases hdebt : b.tokens < 0
  · have hpaid := neg_tokens_le (b := b.take rate cap now amount) hrate
    have htokens : (b.take rate cap now amount).tokens = b.holds rate cap now - amount := rfl
    have hholds : b.holds rate cap now ≤ _ := holds_le hnow
    have hrelease : rate * (b.release rate - b.last) = -b.tokens := by
      rw [release, wait, if_pos hdebt, add_sub_cancel_left, mul_div_cancel₀ _ hrate.ne']
    rw [hlast] at hpaid
    refine le_of_mul_le_mul_left ?_ hrate
    linarith [mul_sub rate (b.release rate) b.last, mul_sub rate now b.last,
      mul_sub rate ((b.take rate cap now amount).release rate) now]
  · rw [release, wait, if_neg hdebt, add_zero]
    rw [release, hlast]
    linarith

/-- From a bucket on, what is taken up to any caller is at most what is in the bucket and comes
in until that caller goes on. -/
lemma sum_le (hrate : 0 < rate) (calls : List (K × K)) : ∀ (b : Bucket K),
    InOrder b.last calls → ∀ pre r, pre ++ [r] <+: b.releases rate cap calls →
      ((pre ++ [r]).map Prod.snd).sum ≤ b.tokens + rate * (r.1 - b.last) := by
  induction calls with
  | nil =>
    intro b _ pre r hstart
    have := hstart.length_le
    simp [releases] at this
  | cons call calls ih =>
    obtain ⟨now, amount⟩ := call
    rintro b ⟨hnow, horder⟩ pre r hstart
    have hholds : b.holds rate cap now ≤ _ := holds_le hnow
    have htokens : (b.take rate cap now amount).tokens = b.holds rate cap now - amount := rfl
    have hlast : (b.take rate cap now amount).last = now := rfl
    rw [releases] at hstart
    cases pre with
    | nil =>
      rw [List.nil_append, List.cons_prefix_cons] at hstart
      rw [hstart.1]
      have hpaid := neg_tokens_le (b := b.take rate cap now amount) hrate
      rw [hlast] at hpaid
      simp only [List.nil_append, List.map_cons, List.map_nil, List.sum_cons,
        List.sum_nil, add_zero]
      linarith [mul_sub rate now b.last,
        mul_sub rate ((b.take rate cap now amount).release rate) now,
        mul_sub rate ((b.take rate cap now amount).release rate) b.last]
    | cons first pre =>
      rw [List.cons_append, List.cons_prefix_cons] at hstart
      obtain ⟨rfl, hstart⟩ := hstart
      have hrest := ih (b.take rate cap now amount) horder pre r hstart
      rw [hlast] at hrest
      rw [List.cons_append, List.map_cons, List.sum_cons]
      linarith [mul_sub rate now b.last, mul_sub rate r.1 now, mul_sub rate r.1 b.last]

/-- Everybody goes on no earlier than whoever took last. -/
lemma le_of_mem_releases (hrate : 0 < rate) (calls : List (K × K)) : ∀ (b : Bucket K),
    InOrder b.last calls → (∀ call ∈ calls, 0 ≤ call.2) →
      ∀ r ∈ b.releases rate cap calls, b.release rate ≤ r.1 := by
  induction calls with
  | nil => exact fun _ _ _ r hr => absurd hr List.not_mem_nil
  | cons call calls ih =>
    obtain ⟨now, amount⟩ := call
    rintro b ⟨hnow, horder⟩ hnonneg r hr
    have hle : b.release rate ≤ (b.take rate cap now amount).release rate :=
      release_le hrate hnow (hnonneg _ List.mem_cons_self)
    rcases List.mem_cons.1 hr with rfl | hr
    · exact hle
    · exact hle.trans
        (ih _ horder (fun call hcall => hnonneg call (List.mem_cons_of_mem _ hcall)) r hr)

/-- Callers go on in the order in which they took. -/
lemma pairwise_releases (hrate : 0 < rate) (calls : List (K × K)) : ∀ (b : Bucket K),
    InOrder b.last calls → (∀ call ∈ calls, 0 ≤ call.2) →
      (b.releases rate cap calls).Pairwise fun r r' => r.1 ≤ r'.1 := by
  induction calls with
  | nil => exact fun _ _ _ => .nil
  | cons call calls ih =>
    obtain ⟨now, amount⟩ := call
    rintro b ⟨hnow, horder⟩ hnonneg
    have hrest : ∀ call ∈ calls, 0 ≤ call.2 :=
      fun call hcall => hnonneg call (List.mem_cons_of_mem _ hcall)
    exact .cons (le_of_mem_releases hrate calls _ horder hrest) (ih _ horder hrest)

/-- Those that go on within a window of this length. -/
def window (start length : K) (rs : List (K × K)) : List (K × K) :=
  rs.filter fun r => start ≤ r.1 ∧ r.1 ≤ start + length

omit [IsStrictOrderedRing K] in
/-- A window that starts no later than the first of a list in order. -/
lemma window_eq_takeWhile {start length : K} {rs : List (K × K)}
    (hsorted : rs.Pairwise fun r r' => r.1 ≤ r'.1) (hstart : ∀ r ∈ rs, start ≤ r.1) :
    window start length rs = rs.takeWhile fun r => r.1 ≤ start + length := by
  induction hsorted with
  | nil => rfl
  | @cons r rs hle _ ih =>
    have hr := hstart r List.mem_cons_self
    have ih := ih fun r hr => hstart r (List.mem_cons_of_mem _ hr)
    by_cases hin : r.1 ≤ start + length
    · rw [window, List.filter_cons_of_pos (by simp [hr, hin]),
        List.takeWhile_cons_of_pos (by simp [hin])]
      exact congrArg _ ih
    · rw [window, List.filter_cons_of_neg (by simp [hin]),
        List.takeWhile_cons_of_neg (by simp [hin]),
        List.filter_eq_nil_iff]
      intro r' hr'
      simp [(not_le.1 hin).trans_le (hle r' hr')]

/-- In a window, those that go on took no more than comes in during it, a full bucket, and what
the first of them took. -/
theorem sum_window_le (hrate : 0 < rate) (hcap : 0 ≤ cap) (start : K) {length : K}
    (hlength : 0 ≤ length) (calls : List (K × K)) : ∀ (b : Bucket K), InOrder b.last calls →
    (∀ call ∈ calls, 0 ≤ call.2) →
      ((window start length (b.releases rate cap calls)).map Prod.snd).sum ≤
        rate * length + cap +
          ((window start length (b.releases rate cap calls)).head?.elim 0 Prod.snd) := by
  induction calls with
  | nil =>
    intro b _ _
    simpa [releases, window] using add_nonneg (mul_nonneg hrate.le hlength) hcap
  | cons call calls ih =>
    obtain ⟨now, amount⟩ := call
    rintro b ⟨hnow, horder⟩ hnonneg
    have hrest : ∀ call ∈ calls, 0 ≤ call.2 :=
      fun call hcall => hnonneg call (List.mem_cons_of_mem _ hcall)
    set b' := b.take rate cap now amount with hb'
    have horder' : InOrder b'.last calls := horder
    rw [releases]
    by_cases hin : start ≤ b'.release rate ∧ b'.release rate ≤ start + length
    · have hfirst : window start length ((b'.release rate, amount) :: b'.releases rate cap calls) =
          (b'.release rate, amount) :: window start length (b'.releases rate cap calls) :=
        List.filter_cons_of_pos (by simpa using hin)
      have hle : ∀ r ∈ b'.releases rate cap calls, b'.release rate ≤ r.1 :=
        le_of_mem_releases hrate calls b' horder' hrest
      rw [hfirst, List.map_cons, List.sum_cons, List.head?_cons, Option.elim_some,
        window_eq_takeWhile (pairwise_releases hrate calls b' horder' hrest)
          fun r hr => hin.1.trans (hle r hr)]
      -- the window is the first of them and a prefix of the others
      rcases List.eq_nil_or_concat ((b'.releases rate cap calls).takeWhile
        fun r => r.1 ≤ start + length) with hnil | ⟨pre, r, hpre⟩
      · rw [hnil, List.map_nil, List.sum_nil]
        linarith [mul_nonneg hrate.le hlength]
      · rw [List.concat_eq_append] at hpre
        have hmem : r ∈ (b'.releases rate cap calls).takeWhile fun r => r.1 ≤ start + length := by
          rw [hpre]
          exact List.mem_concat_self
        have hr : r.1 ≤ start + length := by simpa using List.mem_takeWhile_imp hmem
        have hsum := sum_le hrate calls b' horder' pre r (hpre ▸ List.takeWhile_prefix _)
        have htake : (b.take rate cap now amount).tokens ≤ cap :=
          tokens_take_le (hnonneg _ List.mem_cons_self)
        have htokens := tokens_le hrate hcap htake
        rw [hpre]
        have hspan : rate * (r.1 - b'.release rate) ≤ rate * length :=
          mul_le_mul_of_nonneg_left (by linarith [hin.1]) hrate.le
        linarith [mul_sub rate r.1 b'.last, mul_sub rate (b'.release rate) b'.last,
          mul_sub rate r.1 (b'.release rate)]
    · have hskip : window start length ((b'.release rate, amount) :: b'.releases rate cap calls) =
          window start length (b'.releases rate cap calls) :=
        List.filter_cons_of_neg (by simpa using hin)
      rw [hskip]
      exact ih b' horder' hrest

end Bucket

end Chorrent.Lib
