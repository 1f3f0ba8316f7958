import Mathlib.Data.Nat.Digits.Lemmas

/-!
# Positional numerals

A number is written with the digits of a base, the greatest first, in an alphabet with a character for each digit.
`read_text` reads it back, with any number of zeros before it.
-/

namespace Airix.Numeral

variable {α : Type*}

/-- Without leading zeros; a zero has one digit. -/
def text (digit : Nat → α) (base n : Nat) : List α :=
  if n = 0 then [digit 0] else (Nat.digits base n).reverse.map digit

/-- One more digit. -/
def readDigit (value : α → Option Nat) (base n : Nat) (c : α) : Option Nat :=
  match value c with
  | some r => if r < base then some (n * base + r) else none
  | none => none

/-- At least one digit, and nothing else. -/
def read (value : α → Option Nat) (base : Nat) (cs : List α) : Option Nat :=
  if cs = [] then none else cs.foldlM (readDigit value base) 0

section
variable {digit : Nat → α} {value : α → Option Nat} {base n k : Nat} {c : α} {cs : List α}

theorem text_ne_nil : text digit base n ≠ [] := by
  unfold text
  split
  · simp
  · rw [Ne, List.map_eq_nil_iff, List.reverse_eq_nil_iff]
    exact Nat.digits_ne_nil_iff_ne_zero.mpr ‹n ≠ 0›

/-- One digit, or the digits of the quotient and the remainder. -/
theorem text_step (hbase : 2 ≤ base) :
    text digit base n = (if n / base = 0 then [] else text digit base (n / base)) ++ [digit (n % base)] := by
  unfold text
  rcases Nat.eq_zero_or_pos n with rfl | hn
  · simp
  · rw [if_neg (by omega), Nat.digits_def' hbase hn, List.reverse_cons, List.map_append]
    split
    · next h => rw [h, Nat.digits_zero]; rfl
    · rfl

theorem mem_text (hbase : 2 ≤ base) (h : c ∈ text digit base n) : ∃ r < base, c = digit r := by
  unfold text at h
  split at h
  · exact ⟨0, by omega, List.mem_singleton.mp h⟩
  · obtain ⟨r, hr, rfl⟩ := List.mem_map.mp h
    exact ⟨r, Nat.digits_lt_base hbase (List.mem_reverse.mp hr), rfl⟩

theorem length_text_le (hbase : 2 ≤ base) (hk : 0 < k) (h : n < base ^ k) : (text digit base n).length ≤ k := by
  unfold text
  split
  · exact hk
  · rw [List.length_map, List.length_reverse]
    exact (Nat.digits_length_le_iff hbase n).mpr h

theorem foldlM_digits (hvalue : ∀ r < base, value (digit r) = some r) :
    ∀ {l : List Nat} {m : Nat}, (∀ r ∈ l, r < base) →
      (l.map digit).foldlM (readDigit value base) m = some (l.foldl (fun m r => m * base + r) m)
  | [], _, _ => rfl
  | r :: l, m, h => by
    have hr : r < base := h r (.head l)
    have hstep : readDigit value base m (digit r) = some (m * base + r) := by
      rw [readDigit, hvalue r hr]
      exact if_pos hr
    rw [List.map_cons, List.foldlM_cons, hstep]
    exact foldlM_digits hvalue fun r' hr' => h r' (.tail r hr')

/-- The digits of a number, the greatest first, make the number again. -/
theorem foldl_digits : (Nat.digits base n).reverse.foldl (fun m r => m * base + r) 0 = n := by
  rw [List.foldl_reverse]
  conv_rhs => rw [← Nat.ofDigits_digits base n, Nat.ofDigits_eq_foldr]
  congr 1
  funext r m
  rw [Nat.cast_id, Nat.mul_comm, Nat.add_comm]

theorem foldlM_text (hbase : 2 ≤ base) (hvalue : ∀ r < base, value (digit r) = some r) :
    (text digit base n).foldlM (readDigit value base) 0 = some n := by
  have hzero : (readDigit value base 0 (digit 0)) = some 0 := by
    rw [readDigit, hvalue 0 (by omega)]
    simp only [Nat.zero_mul, Nat.add_zero, if_pos (show 0 < base by omega)]
  unfold text
  split
  · next h => rw [h, List.foldlM_cons, hzero]; rfl
  · rw [foldlM_digits hvalue fun r hr => Nat.digits_lt_base hbase (List.mem_reverse.mp hr), foldl_digits]

/-- A number is read back, also behind zeros. -/
theorem read_text (hbase : 2 ≤ base) (hvalue : ∀ r < base, value (digit r) = some r) (k : Nat) :
    read value base (List.replicate k (digit 0) ++ text digit base n) = some n := by
  have hzeros : ∀ k, (List.replicate k (digit 0)).foldlM (readDigit value base) 0 = some 0 := fun k => by
    have h := foldlM_digits hvalue (m := 0) (l := List.replicate k 0)
      fun r hr => by rw [List.eq_of_mem_replicate hr]; omega
    rw [List.map_replicate] at h
    rw [h]
    clear h
    induction k with
    | zero => rfl
    | succ k ih => simpa [List.replicate_succ] using ih
  rw [read, if_neg (by simp [text_ne_nil]), List.foldlM_append, hzeros]
  exact foldlM_text hbase hvalue

/-- What has a character that is no digit is not read. -/
theorem read_eq_none (h : c ∈ cs) (hc : value c = none) : read value base cs = none := by
  unfold read
  split
  · rfl
  · have hnone : ∀ (cs : List α) (m : Nat), c ∈ cs → cs.foldlM (readDigit value base) m = none := by
      intro cs
      induction cs with
      | nil => intro m h; cases h
      | cons c' cs ih =>
        intro m h
        rw [List.foldlM_cons]
        rcases List.mem_cons.mp h with rfl | h
        · rw [show readDigit value base m c = none by rw [readDigit, hc]]
          rfl
        · cases readDigit value base m c' with
          | none => rfl
          | some m' => exact ih m' h
    exact hnone cs 0 h

end

end Airix.Numeral
