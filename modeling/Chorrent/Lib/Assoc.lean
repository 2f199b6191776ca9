/-
# Counting in association lists

How many entries of an association list have a value with a given property, and how that
number changes when a key is inserted or erased; erasing adds no entry.
-/
import Mathlib.Data.List.AList

namespace Chorrent.Lib

variable {α : Type*} {β : Type*}

/-- The number of entries whose value satisfies `p`. -/
def countValues (m : AList fun _ : α => β) (p : β → Bool) : ℕ :=
  m.entries.countP fun e => p e.2

@[simp] lemma countValues_empty (p : β → Bool) :
    countValues (∅ : AList fun _ : α => β) p = 0 := rfl

lemma countValues_le (m : AList fun _ : α => β) (p : β → Bool) :
    countValues m p ≤ m.keys.length := by
  have h : m.keys.length = m.entries.length := by simp [AList.keys, List.keys]
  rw [h]
  exact List.countP_le_length

variable [DecidableEq α]

lemma countValues_insert (m : AList fun _ : α => β) (p : β → Bool) (a : α) (b : β) :
    countValues (m.insert a b) p = countValues (m.erase a) p + (p b).toNat := by
  have herase : (m.erase a).entries = m.entries.kerase a := rfl
  rw [countValues, countValues, AList.entries_insert, List.countP_cons, herase]
  cases p b <;> simp

/-- Erasing a present key takes its value out of the count. -/
lemma countValues_erase {m : AList fun _ : α => β} {a : α} {b : β}
    (h : m.lookup a = some b) (p : β → Bool) :
    countValues m p = countValues (m.erase a) p + (p b).toNat := by
  have hmem : a ∈ m.entries.keys := AList.mem_keys.1 (AList.lookup_isSome.1 (by simp [h]))
  obtain ⟨b', l₁, l₂, hnot, heq, her⟩ := List.exists_of_kerase hmem
  have hb : b' = b := by
    have h₁ : (⟨a, b'⟩ : Sigma fun _ : α => β) ∈ m.entries := by rw [heq]; simp
    have h₂ := List.mem_dlookup m.nodupKeys h₁
    have h₃ : List.dlookup a m.entries = some b := h
    rw [h₃] at h₂
    simpa using h₂.symm
  have h₄ : (m.erase a).entries = l₁ ++ l₂ := her
  rw [countValues, countValues, h₄, heq]
  subst hb
  cases hp : p b'
  · simp [hp]
  · simp [hp]
    omega

lemma erase_of_lookup_none {m : AList fun _ : α => β} {a : α} (h : m.lookup a = none) :
    m.erase a = m := by
  apply AList.ext
  exact List.kerase_of_notMem_keys (AList.lookup_eq_none.1 h)

lemma length_keys_erase_le (m : AList fun _ : α => β) (a : α) :
    (m.erase a).keys.length ≤ m.keys.length := by
  rw [AList.keys_erase]
  exact List.length_erase_le

lemma length_keys_insert_of_mem {m : AList fun _ : α => β} {a : α} (h : a ∈ m) (b : β) :
    (m.insert a b).keys.length = m.keys.length := by
  have hmem := AList.mem_keys.1 h
  have := List.length_pos_of_mem hmem
  rw [AList.keys_insert, List.length_cons, List.length_erase_of_mem hmem]
  omega

lemma length_keys_insert_le (m : AList fun _ : α => β) (a : α) (b : β) :
    (m.insert a b).keys.length ≤ m.keys.length + 1 := by
  rw [AList.keys_insert, List.length_cons]
  exact Nat.succ_le_succ List.length_erase_le

lemma lookup_of_erase {m : AList fun _ : α => β} {a a' : α} {b : β}
    (h : (m.erase a').lookup a = some b) : m.lookup a = some b := by
  by_cases ha : a = a'
  · rw [ha, AList.lookup_erase] at h
    cases h
  · rwa [AList.lookup_erase_ne ha] at h

end Chorrent.Lib
