import Airix.Lib.Numeral
import Airix.Vsnprintf
import Mathlib.Data.List.DropRight

/-!
# Number fields

A field is read back by the rules of its directive, which know neither how it was made nor the width: an optional
sign and decimal digits for `%d`, decimal digits for `%u`, hexadecimal ones for `%x`, and `0x` and hexadecimal
digits for `%p`. `readsBack_iff` says for which flags, widths and arguments this gives the argument again.
-/

namespace Airix.Vsnprintf

open Numeral

/-! ### Directives that print a number -/

inductive Conv
  | d
  | u
  | x
  | p
deriving DecidableEq, Repr

namespace Conv

def char : Conv → UInt8
  | d => 100
  | u => 117
  | x => 120
  | p => 112

/-- The number that an argument is. -/
def value : Conv → UInt32 → Int
  | d, v => v.toInt32.toInt
  | _, v => v.toNat

/-- The text without padding. -/
def natural : Conv → UInt32 → List UInt8
  | d, v => (if d.value v < 0 then [minus] else []) ++ Numeral.text digit 10 (d.value v).natAbs
  | u, v => Numeral.text digit 10 v.toNat
  | x, v => Numeral.text digit 16 v.toNat
  | p, v => zero :: 120 :: Numeral.text digit 16 v.toNat

end Conv

def digitValue (c : UInt8) : Option Nat :=
  if zero ≤ c ∧ c ≤ nine then some (c.toNat - 48)
  else if 65 ≤ c ∧ c ≤ 70 then some (c.toNat - 55)
  else if 97 ≤ c ∧ c ≤ 102 then some (c.toNat - 87)
  else none

/-- The number that a text is; `none` when it is not one. -/
def Conv.parse : Conv → List UInt8 → Option Int
  | .d, [] => none
  | .d, c :: cs =>
    if c = minus then (read digitValue 10 cs).map fun n : Nat => -(n : Int)
    else (read digitValue 10 (c :: cs)).map Int.ofNat
  | .u, cs => (read digitValue 10 cs).map Int.ofNat
  | .x, cs => (read digitValue 16 cs).map Int.ofNat
  | .p, c :: c' :: cs => if c = zero ∧ c' = 120 then (read digitValue 16 cs).map Int.ofNat else none
  | .p, _ => none

/-- Without blanks at its two ends. -/
def strip (field : List UInt8) : List UInt8 := (field.dropWhile (· == space)).rdropWhile (· == space)

/-- `%`, the flags, the width without leading zeros, and the character of the directive. -/
def fieldFormat (c : Conv) (fs : List UInt8) (w : Nat) : List UInt8 :=
  percent :: (fs ++ ((Nat.digits 10 w).reverse.map digit ++ [c.char]))

/-- The characters that were printed. -/
def output (r : (Nat → UInt8) × Nat) : List UInt8 := (List.range r.2).map r.1

structure ReadsBack (c : Conv) (fs : List UInt8) (w : Nat) (v : UInt32) (field : List UInt8) : Prop where
  length : field.length = max w (c.natural v).length
  /-- Blanks are at the right side with the flag `-`, and at the left side without it. -/
  side : if minus ∈ fs then ∃ n, field = strip field ++ List.replicate n space
    else ∃ n, field = List.replicate n space ++ strip field
  value : c.parse (strip field) = some (c.value v)

/-- The flags ask for zeros: there is no `-`, and the last one is a `0`. -/
def ZeroPadded (fs : List UInt8) : Prop := minus ∉ fs ∧ fs.getLast? = some zero

/-- The digits are behind a sign or behind `0x`. -/
def Conv.Prefixed : Conv → UInt32 → Prop
  | .d, v => Conv.d.value v < 0
  | .p, _ => True
  | _, _ => False

/-! ### The text of a number -/

section
variable {base v w k len : Nat} {c : Conv} {fs : List UInt8} {arg : UInt32} {b : UInt8}

theorem digitValue_digit : ∀ r < 16, digitValue (digit r) = some r := by decide

theorem digit_ne : ∀ r < 16, digit r ≠ space ∧ digit r ≠ 0 ∧ digit r ≠ minus := by decide

theorem utoaLoop_eq (hbase : 2 ≤ base) (v : Nat) (data : List UInt8) :
    utoaLoop base hbase v data = data ++ (Numeral.text digit base v).reverse := by
  fun_induction utoaLoop base hbase v data with
  | case1 v data h ih => rw [ih, text_step hbase (n := v), if_neg h]; simp
  | case2 v data h => rw [text_step hbase, if_pos (not_not.mp h)]; simp

theorem utoaS_eq (hbase : 2 ≤ base) (hbase' : base ≤ 16) (hlen : (Numeral.text digit base v).length < len) :
    utoaS v base len = Numeral.text digit base v := by
  rw [utoaS, dif_neg (by omega)]
  dsimp only
  rw [utoaLoop_eq, List.nil_append, List.length_reverse, if_neg (by omega), List.reverse_reverse]

theorem length_text_ten (h : v < 2 ^ 32) : (Numeral.text digit 10 v).length ≤ 10 :=
  length_text_le (by decide) (by decide) (by omega)

theorem length_text_sixteen (h : v < 2 ^ 32) : (Numeral.text digit 16 v).length ≤ 8 :=
  length_text_le (by decide) (by decide) (by omega)

/-- An `int` as `itoa_s` sees it. -/
theorem value_d (arg : UInt32) :
    Conv.d.value arg = if arg.toNat < 2 ^ 31 then (arg.toNat : Int) else arg.toNat - 2 ^ 32 := by
  show BitVec.toInt arg.toBitVec = _
  rw [BitVec.toInt_eq_toNat_cond]
  show (if 2 * arg.toNat < 2 ^ 32 then (arg.toNat : Int) else arg.toNat - 2 ^ 32) = _
  congr 1
  exact propext ⟨fun h => by omega, fun h => by omega⟩

theorem itoaS_eq (arg : UInt32) : itoaS arg.toNat 10 33 = Conv.d.natural arg := by
  have hlt : arg.toNat < 2 ^ 32 := arg.toNat_lt
  have hv := value_d arg
  rw [itoaS, Conv.natural]
  by_cases h : arg.toNat < 2 ^ 31
  · rw [if_neg (by omega), if_neg (by rw [hv, if_pos h]; omega), hv, if_pos h, Int.natAbs_natCast, List.nil_append]
    exact utoaS_eq (by decide) (by decide) (by have := length_text_ten hlt; omega)
  · have hneg : (Conv.d.value arg).natAbs = u32 (2 ^ 32 - arg.toNat) := by
      rw [hv, if_neg h, u32]
      omega
    have hlen : (Numeral.text digit 10 (u32 (2 ^ 32 - arg.toNat))).length < 33 - 1 := by
      have := length_text_ten (v := u32 (2 ^ 32 - arg.toNat)) (Nat.mod_lt _ (by decide))
      omega
    rw [if_pos ⟨rfl, by omega⟩, if_neg (by decide)]
    dsimp only
    rw [utoaS_eq (by decide) (by decide) hlen, if_neg text_ne_nil, if_pos (by rw [hv, if_neg h]; omega), hneg]
    rfl

theorem pointerStr_eq (arg : UInt32) : pointerStr arg.toNat = Conv.p.natural arg := by
  have h : utoaS arg.toNat 16 33 = Numeral.text digit 16 arg.toNat :=
    utoaS_eq (by decide) (by decide) (by have := length_text_sixteen arg.toNat_lt; omega)
  rw [pointerStr, h, if_neg text_ne_nil]
  rfl

/-- What a number consists of. -/
theorem mem_natural (h : b ∈ c.natural arg) : b ≠ space ∧ b ≠ 0 := by
  have hdigit : ∀ base, 2 ≤ base → base ≤ 16 → ∀ v, b ∈ Numeral.text digit base v → b ≠ space ∧ b ≠ 0 := by
    intro base hbase hbase' v hb
    obtain ⟨r, hr, rfl⟩ := mem_text hbase hb
    exact ⟨(digit_ne r (by omega)).1, (digit_ne r (by omega)).2.1⟩
  cases c with
  | d =>
    rcases List.mem_append.mp h with h | h
    · split at h
      · obtain rfl := List.mem_singleton.mp h
        decide
      · cases h
    · exact hdigit 10 (by decide) (by decide) _ h
  | u => exact hdigit 10 (by decide) (by decide) _ h
  | x => exact hdigit 16 (by decide) (by decide) _ h
  | p =>
    rcases List.mem_cons.mp h with rfl | h
    · decide
    rcases List.mem_cons.mp h with rfl | h
    · decide
    exact hdigit 16 (by decide) (by decide) _ h

theorem natural_ne_nil : c.natural arg ≠ [] := by
  cases c with
  | d => exact fun h => text_ne_nil (List.append_eq_nil_iff.mp h).2
  | u => exact text_ne_nil
  | x => exact text_ne_nil
  | p => exact List.cons_ne_nil _ _

/-! ### The flags and the width -/

/-- The character that a list of flags pads with, when none of them is `-`. -/
def padChar (fs : List UInt8) : UInt8 := fs.foldl (fun padding f => if f = minus then padding else f) space

theorem flags_append (rest : List UInt8) : ∀ {fs : List UInt8} {left : Bool} {padding : UInt8},
    (∀ f ∈ fs, f = minus ∨ f = space ∨ f = zero) → flags (fs ++ rest) left padding =
      flags rest (left || fs.contains minus) (fs.foldl (fun padding f => if f = minus then padding else f) padding)
  | [], left, padding, _ => by simp
  | f :: fs, left, padding, h => by
    have ih := @flags_append rest fs
    rw [List.cons_append, flags, List.foldl_cons]
    rcases h f (.head _) with rfl | rfl | rfl
    · rw [if_pos rfl, ih fun f hf => h f (.tail _ hf)]
      simp
    · rw [if_neg (by decide), if_pos rfl, ih fun f hf => h f (.tail _ hf)]
      simp [minus, space]
    · rw [if_neg (by decide), if_neg (by decide), if_pos rfl, ih fun f hf => h f (.tail _ hf)]
      simp [minus, zero]

theorem widthDigits_append {rest : List UInt8} : ∀ {l : List Nat} {m : Nat}, (∀ r ∈ l, r < 10) →
    l.foldl (fun m r => m * 10 + r) m < 2 ^ 32 →
    widthDigits (l.map digit ++ rest) m = widthDigits rest (l.foldl (fun m r => m * 10 + r) m)
  | [], m, _, _ => rfl
  | r :: l, m, h, hlt => by
    have hdigit : ∀ r < 10, (zero ≤ digit r ∧ digit r ≤ nine) ∧ (digit r).toNat - zero.toNat = r := by decide
    have hmono : ∀ (l : List Nat) (m : Nat), m ≤ l.foldl (fun m r => m * 10 + r) m := by
      intro l
      induction l with
      | nil => exact fun m => le_rfl
      | cons r l ih => exact fun m => le_trans (by omega) (ih (m * 10 + r))
    have hstep : u32 (m * 10 + r) = m * 10 + r := Nat.mod_eq_of_lt (lt_of_le_of_lt (hmono l _) hlt)
    obtain ⟨hd, hv⟩ := hdigit r (h r (.head _))
    rw [List.map_cons, List.cons_append, widthDigits, if_pos hd, hv, hstep]
    exact widthDigits_append (fun r hr => h r (.tail _ hr)) hlt

theorem spec_field (hfs : ∀ f ∈ fs, f = minus ∨ f = space ∨ f = zero) (hw : w < 2 ^ 32) :
    spec (fs ++ ((Nat.digits 10 w).reverse.map digit ++ [c.char])) =
      ⟨[c.char], fs.contains minus, if fs.contains minus then space else padChar fs, w⟩ := by
  have hchar : c.char ≠ minus ∧ c.char ≠ space ∧ c.char ≠ zero ∧ ¬ (zero ≤ c.char ∧ c.char ≤ nine) := by
    cases c <;> decide
  have hflags : ∀ left padding, flags ((Nat.digits 10 w).reverse.map digit ++ [c.char]) left padding =
      ((Nat.digits 10 w).reverse.map digit ++ [c.char], left, padding) := by
    intro left padding
    -- the first digit of a width is not a zero
    have hfirst : ∀ r < 10, r ≠ 0 → digit r ≠ minus ∧ digit r ≠ space ∧ digit r ≠ zero := by decide
    rcases hds : (Nat.digits 10 w).reverse with _ | ⟨r, l⟩
    · exact ((if_neg hchar.1).trans (if_neg hchar.2.1)).trans (if_neg hchar.2.2.1)
    · have hdigits : Nat.digits 10 w = l.reverse ++ [r] := by
        rw [← List.reverse_reverse (Nat.digits 10 w), hds, List.reverse_cons]
      have hne : Nat.digits 10 w ≠ [] := by rw [hdigits]; simp
      have hr : r ≠ 0 := by
        have := Nat.getLast_digit_ne_zero 10 (Nat.digits_ne_nil_iff_ne_zero.mp hne)
        simpa only [hdigits, List.getLast_append_singleton] using this
      have hlt : r < 10 := Nat.digits_lt_base (by decide) (show r ∈ Nat.digits 10 w by rw [hdigits]; simp)
      obtain ⟨h₁, h₂, h₃⟩ := hfirst r hlt hr
      exact ((if_neg h₁).trans (if_neg h₂)).trans (if_neg h₃)
  have hwidth : widthDigits ((Nat.digits 10 w).reverse.map digit ++ [c.char]) 0 = ([c.char], w) := by
    have hlt : ∀ r ∈ (Nat.digits 10 w).reverse, r < 10 := fun r hr =>
      Nat.digits_lt_base (by decide) (List.mem_reverse.mp hr)
    rw [widthDigits_append hlt (by rwa [foldl_digits]), foldl_digits, widthDigits, if_neg hchar.2.2.2]
  unfold spec
  rw [flags_append _ hfs, hflags]
  dsimp only
  rw [hwidth, Bool.false_or]
  rfl

/-- The text of a field: the number, and as much padding as the width asks for. -/
def fieldText (c : Conv) (fs : List UInt8) (w : Nat) (arg : UInt32) : List UInt8 :=
  if minus ∈ fs then c.natural arg ++ List.replicate (w - (c.natural arg).length) space
  else List.replicate (w - (c.natural arg).length) (padChar fs) ++ c.natural arg

theorem numberText_natural (left : Bool) (padding : UInt8) (w : Nat) :
    numberText (c.natural arg) left padding w =
      if left then c.natural arg ++ List.replicate (w - (c.natural arg).length) padding
      else List.replicate (w - (c.natural arg).length) padding ++ c.natural arg := by
  have hlen : (c.natural arg).length ≠ 0 := fun h => natural_ne_nil (List.length_eq_zero_iff.mp h)
  have htake : (c.natural arg).takeWhile (· ≠ 0) = c.natural arg :=
    List.takeWhile_eq_self_iff.mpr fun b hb => decide_eq_true (mem_natural hb).2
  have hfill : (if (c.natural arg).length < w then w - (c.natural arg).length else 0) = w - (c.natural arg).length := by
    split <;> omega
  rw [numberText, if_neg natural_ne_nil, padded, if_neg hlen, htake, hfill]

theorem directiveText_field (a : Args) (left : Bool) (padding : UInt8) (rest : List UInt8) :
    directiveText a 0 ⟨rest, left, padding, w⟩ c.char = some (numberText (c.natural (a.arg 0)) left padding w, 1) := by
  have hutoa : ∀ base, base = 10 ∨ base = 16 →
      utoaS (a.arg 0).toNat base 33 = Numeral.text digit base (a.arg 0).toNat := by
    rintro base (rfl | rfl)
    · exact utoaS_eq (by decide) (by decide) (by have := length_text_ten (a.arg 0).toNat_lt; omega)
    · exact utoaS_eq (by decide) (by decide) (by have := length_text_sixteen (a.arg 0).toNat_lt; omega)
  cases c with
  | d => rw [← itoaS_eq]; rfl
  | u => rw [show Conv.u.natural (a.arg 0) = utoaS (a.arg 0).toNat 10 33 from (hutoa 10 (.inl rfl)).symm]; rfl
  | x => rw [show Conv.x.natural (a.arg 0) = utoaS (a.arg 0).toNat 16 33 from (hutoa 16 (.inr rfl)).symm]; rfl
  | p => rw [← pointerStr_eq]; rfl

theorem text_field (a : Args) (hfs : ∀ f ∈ fs, f = minus ∨ f = space ∨ f = zero) (hw : w < 2 ^ 32) :
    text a (fieldFormat c fs w) 0 = fieldText c fs w (a.arg 0) := by
  have hspec := spec_field (c := c) hfs hw
  have htext : ∀ rest ap, rest = [] → text a rest ap = [] := by rintro _ _ rfl; rw [text]
  rw [fieldFormat, text, if_pos rfl]
  split
  · next h => rw [hspec] at h; cases h
  · next c' rest h =>
    rw [hspec] at h
    obtain ⟨rfl, rfl⟩ := List.cons.inj h
    rw [hspec, directiveText_field]
    dsimp only
    rw [htext _ _ rfl, List.append_nil, numberText_natural, fieldText]
    by_cases hm : minus ∈ fs <;> simp [hm]

theorem output_vsnprintf (a : Args) (buf : Nat → UInt8) {size : Nat} {fmt : List UInt8}
    (h : (text a fmt 0).length < size) : output (vsnprintf a buf size fmt) = text a fmt 0 := by
  obtain ⟨hlen, -, -, hchars⟩ := (vsnprintf_written a fmt buf size).2 (by omega)
  have hcount : (vsnprintf a buf size fmt).2 = (text a fmt 0).length := by omega
  unfold output
  refine List.ext_getElem (by simp [hcount]) fun i h₁ h₂ => ?_
  rw [List.getElem_map, List.getElem_range, hchars i (by omega), List.getD_eq_getElem _ _ h₂]

/-! ### Reading a field back -/

theorem dropWhile_blanks {core tail : List UInt8} (hne : core ≠ []) (h : ∀ b ∈ core, b ≠ space) (k : Nat) :
    (List.replicate k space ++ (core ++ tail)).dropWhile (· == space) = core ++ tail := by
  rw [List.dropWhile_append_of_pos fun b hb => beq_iff_eq.mpr (List.eq_of_mem_replicate hb)]
  obtain ⟨b, core, rfl⟩ := List.exists_cons_of_ne_nil hne
  exact List.dropWhile_cons_of_neg (by simpa using h b (.head _))

theorem strip_eq {core : List UInt8} (hne : core ≠ []) (h : ∀ b ∈ core, b ≠ space) (k j : Nat) :
    strip (List.replicate k space ++ (core ++ List.replicate j space)) = core := by
  have hrev : (List.replicate j space ++ (core.reverse ++ [])).dropWhile (· == space) = core.reverse ++ [] :=
    dropWhile_blanks (mt List.reverse_eq_nil_iff.mp hne) (fun b hb => h b (List.mem_reverse.mp hb)) j
  rw [List.append_nil] at hrev
  rw [strip, dropWhile_blanks hne h, List.rdropWhile, List.reverse_append, List.reverse_replicate, hrev,
    List.reverse_reverse]

theorem read_zeros (base n : Nat) (hbase : 2 ≤ base) (hbase' : base ≤ 16) (k : Nat) :
    read digitValue base (List.replicate k zero ++ Numeral.text digit base n) = some n :=
  read_text hbase (fun r hr => digitValue_digit r (by omega)) k

/-- Zeros do not change the number, but the sign and `0x` have to come first. -/
theorem parse_zeros (c : Conv) (arg : UInt32) (k : Nat) :
    c.parse (List.replicate k zero ++ c.natural arg) = some (c.value arg) ↔ ¬ (0 < k ∧ c.Prefixed arg) := by
  cases c with
  | d =>
    have habs : ∀ i : Int, 0 ≤ i → Int.ofNat i.natAbs = i := fun i hi => by simpa using hi
    by_cases hneg : Conv.d.value arg < 0
    · rw [show Conv.d.natural arg = minus :: Numeral.text digit 10 (Conv.d.value arg).natAbs by
        rw [Conv.natural, if_pos hneg]; rfl]
      rcases k with _ | k
      · refine iff_of_true ?_ fun h => absurd h.1 (lt_irrefl 0)
        have hread := read_zeros 10 (Conv.d.value arg).natAbs (by decide) (by decide) 0
        rw [List.replicate_zero, List.nil_append] at hread ⊢
        rw [Conv.parse, if_pos rfl, hread, Option.map_some, Option.some.injEq]
        omega
      · refine iff_of_false (fun h => ?_) fun h => h ⟨Nat.succ_pos k, hneg⟩
        -- the sign is not the first character
        have hnone : read digitValue 10 (zero :: (List.replicate k zero ++
            minus :: Numeral.text digit 10 (Conv.d.value arg).natAbs)) = none :=
          read_eq_none (c := minus) (by simp) (by decide)
        rw [List.replicate_succ, List.cons_append, Conv.parse, if_neg (by decide), hnone] at h
        cases h
    · rw [show Conv.d.natural arg = Numeral.text digit 10 (Conv.d.value arg).natAbs by
        rw [Conv.natural, if_neg hneg]; rfl]
      refine iff_of_true ?_ fun h => hneg h.2
      have hread := read_zeros 10 (Conv.d.value arg).natAbs (by decide) (by decide) k
      have hmem : ∀ b ∈ List.replicate k zero ++ Numeral.text digit 10 (Conv.d.value arg).natAbs, b ≠ minus := by
        intro b hb
        rcases List.mem_append.mp hb with hb | hb
        · rw [List.eq_of_mem_replicate hb]
          decide
        · obtain ⟨r, hr, rfl⟩ := mem_text (by decide) hb
          exact (digit_ne r (by omega)).2.2
      have hne : List.replicate k zero ++ Numeral.text digit 10 (Conv.d.value arg).natAbs ≠ [] :=
        List.append_ne_nil_of_right_ne_nil _ text_ne_nil
      obtain ⟨b, cs, hcons⟩ := List.exists_cons_of_ne_nil hne
      rw [hcons] at hread hmem ⊢
      rw [Conv.parse, if_neg (hmem b (.head _)), hread, Option.map_some, habs _ (by omega)]
  | u =>
    rw [Conv.parse, Conv.natural, read_zeros _ _ (by decide) (by decide)]
    exact iff_of_true rfl fun h => h.2
  | x =>
    rw [Conv.parse, Conv.natural, read_zeros _ _ (by decide) (by decide)]
    exact iff_of_true rfl fun h => h.2
  | p =>
    have hread := read_zeros 16 arg.toNat (by decide) (by decide) 0
    rcases k with _ | _ | k
    · refine iff_of_true ?_ fun h => absurd h.1 (lt_irrefl 0)
      rw [List.replicate_zero, List.nil_append] at hread ⊢
      rw [Conv.natural, Conv.parse, if_pos ⟨rfl, rfl⟩, hread]
      rfl
    · exact iff_of_false (fun h => by cases h) fun h => h ⟨Nat.one_pos, trivial⟩
    · exact iff_of_false (fun h => by cases h) fun h => h ⟨by omega, trivial⟩

theorem padChar_eq (h : ∀ f ∈ fs, f = minus ∨ f = space ∨ f = zero) (hm : minus ∉ fs) :
    padChar fs = if fs.getLast? = some zero then zero else space := by
  rcases List.eq_nil_or_concat fs with rfl | ⟨l, f, rfl⟩
  · rfl
  · have hf : f ≠ minus := fun hf => hm (by simp [hf])
    rw [padChar, List.concat_eq_append, List.foldl_append, List.foldl_cons, List.foldl_nil, if_neg hf,
      List.getLast?_concat]
    rcases (h f (by simp)).resolve_left hf with rfl | rfl
    · rw [if_neg (by decide)]
    · rw [if_pos rfl]

/-- A field reads back, with the exception of a number with a sign or `0x` that zeros are put before. -/
theorem readsBack_iff (a : Args) (buf : Nat → UInt8) {size : Nat} (c : Conv)
    (hfs : ∀ f ∈ fs, f = minus ∨ f = space ∨ f = zero) (hsize : max w (c.natural (a.arg 0)).length < size)
    (hword : size < 2 ^ 32) :
    ReadsBack c fs w (a.arg 0) (output (vsnprintf a buf size (fieldFormat c fs w))) ↔
      ¬ (ZeroPadded fs ∧ (c.natural (a.arg 0)).length < w ∧ c.Prefixed (a.arg 0)) := by
  generalize harg : a.arg 0 = arg at hsize ⊢
  have hlen : (fieldText c fs w arg).length = max w (c.natural arg).length := by
    unfold fieldText
    split <;> simp only [List.length_append, List.length_replicate] <;> omega
  have htext : text a (fieldFormat c fs w) 0 = fieldText c fs w arg := by
    rw [text_field a hfs (by omega), harg]
  rw [output_vsnprintf a buf (by rwa [htext, hlen]), htext]
  have hblank : ∀ b ∈ c.natural arg, b ≠ space := fun b hb => (mem_natural hb).1
  have hvalue : c.parse (c.natural arg) = some (c.value arg) := (parse_zeros c arg 0).mpr fun h => absurd h.1 (lt_irrefl 0)
  by_cases hm : minus ∈ fs
  · have hfield : fieldText c fs w arg = c.natural arg ++ List.replicate (w - (c.natural arg).length) space :=
      if_pos hm
    have hstrip : strip (fieldText c fs w arg) = c.natural arg := by
      rw [hfield]
      exact strip_eq natural_ne_nil hblank 0 _
    refine iff_of_true ⟨hlen, ?_, by rw [hstrip, hvalue]⟩ fun h => h.1.1 hm
    rw [if_pos hm, hstrip]
    exact ⟨_, hfield⟩
  · have hfield : fieldText c fs w arg = List.replicate (w - (c.natural arg).length) (padChar fs) ++ c.natural arg :=
      if_neg hm
    rw [padChar_eq hfs hm] at hfield
    by_cases hz : fs.getLast? = some zero
    · rw [if_pos hz] at hfield
      have hstrip : strip (fieldText c fs w arg) = fieldText c fs w arg := by
        have hne : fieldText c fs w arg ≠ [] := by rw [hfield]; simp [natural_ne_nil]
        have hchars : ∀ b ∈ fieldText c fs w arg, b ≠ space := by
          intro b hb
          rw [hfield] at hb
          rcases List.mem_append.mp hb with hb | hb
          · rw [List.eq_of_mem_replicate hb]
            decide
          · exact hblank b hb
        simpa using strip_eq hne hchars 0 0
      have hparse := parse_zeros c arg (w - (c.natural arg).length)
      rw [← hfield] at hparse
      have hzero : ZeroPadded fs := ⟨hm, hz⟩
      constructor
      · intro h hbad
        have := h.value
        rw [hstrip] at this
        exact hparse.mp this ⟨by omega, hbad.2.2⟩
      · intro h
        refine ⟨hlen, ?_, by rw [hstrip]; exact hparse.mpr fun hbad => h ⟨hzero, by omega, hbad.2⟩⟩
        rw [if_neg hm, hstrip]
        exact ⟨0, rfl⟩
    · rw [if_neg hz] at hfield
      have hstrip : strip (fieldText c fs w arg) = c.natural arg := by
        have h := strip_eq natural_ne_nil hblank (w - (c.natural arg).length) 0
        rw [List.replicate_zero, List.append_nil, ← hfield] at h
        exact h
      refine iff_of_true ⟨hlen, ?_, by rw [hstrip, hvalue]⟩ fun h => hz h.1.2
      rw [if_neg hm, hstrip]
      exact ⟨_, hfield⟩

end

/-- The arguments of a call with one number. -/
def oneArg (v : UInt32) : Args := ⟨fun _ => v, fun _ => []⟩

theorem readsBack_minimum :
    ReadsBack .d [zero, minus] 12 0x80000000 (output (vsnprintf (oneArg 0x80000000) (fun _ => 0) 64
        (fieldFormat .d [zero, minus] 12))) ↔
      ¬ (ZeroPadded [zero, minus] ∧ (Conv.d.natural 0x80000000).length < 12 ∧ Conv.d.Prefixed 0x80000000) :=
  readsBack_iff (oneArg 0x80000000) (fun _ => 0) .d (by decide +kernel) (by decide +kernel) (by decide)

/-- `"%05d"` of -5 is `000-5`. -/
theorem not_readsBack :
    ¬ ReadsBack .d [zero] 5 0xfffffffb
      (output (vsnprintf (oneArg 0xfffffffb) (fun _ => 0) 64 (fieldFormat .d [zero] 5))) := by
  have htext : text (oneArg 0xfffffffb) (fieldFormat .d [zero] 5) 0 = [48, 48, 48, 45, 53] :=
    (text_field (oneArg 0xfffffffb) (by decide +kernel) (by decide)).trans (by decide +kernel)
  rw [output_vsnprintf _ _ (by rw [htext]; decide), htext]
  exact fun h => absurd h.value (by decide)

end Airix.Vsnprintf
