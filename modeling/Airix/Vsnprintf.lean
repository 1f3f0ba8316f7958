import Airix.Base
import Mathlib.Data.List.GetD
import Mathlib.Logic.Function.Basic
import Mathlib.Tactic.SplitIfs

/-!
# Formatted printing (`lib/vsnprintf.c`)

The buffer is a function on indices, `str` is index 0 and `end` is `size`. The format and the other strings are
lists without their terminators. Every argument is one word of the caller's stack: `arg` are these words, and
`str` is the string at an address.
-/

namespace Airix.Vsnprintf

/-- What `ap` points to. -/
structure Args where
  arg : Nat → UInt32
  str : UInt32 → List UInt8

def minus : UInt8 := 45
def space : UInt8 := 32
def zero : UInt8 := 48
def nine : UInt8 := 57
def percent : UInt8 := 37

/-! ### Numbers -/

/-- `'0' + r`, or `'A' + r - 10`. -/
def digit (r : Nat) : UInt8 := if r < 10 then zero + r.toUInt8 else 65 + r.toUInt8 - 10

/-- The loop of `utoa_s`. -/
def utoaLoop (base : Nat) (hbase : 2 ≤ base) (v : Nat) (data : List UInt8) : List UInt8 :=
  if v / base ≠ 0 then utoaLoop base hbase (v / base) (data ++ [digit (v % base)]) else data ++ [digit (v % base)]
termination_by v
decreasing_by
  rename_i h
  refine Nat.div_lt_self (Nat.pos_of_ne_zero ?_) hbase
  rintro rfl
  exact h (Nat.zero_div base)

/-- The digits; nothing when they do not fit. -/
def utoaS (v base len : Nat) : List UInt8 :=
  if h : base > 16 ∨ base < 2 then []
  else
    let data := utoaLoop base (by omega) v []
    if len < data.length + 1 then [] else data.reverse

/-- `i` is an `int`: negative from `2 ^ 31` on. -/
def itoaS (i base len : Nat) : List UInt8 :=
  if base = 10 ∧ 2 ^ 31 ≤ i then
    if len < 1 then []
    else
      let digits := utoaS (u32 (2 ^ 32 - i)) base (len - 1)
      if digits = [] then [] else minus :: digits
  else utoaS i base len

/-! ### Copying -/

def strlen (str : List UInt8) : Nat := (str.takeWhile (· ≠ 0)).length

/-- The buffer after the copy, and the number of characters. -/
def copyStr : (Nat → UInt8) → Nat → List UInt8 → Nat → (Nat → UInt8) × Nat
  | buf, _, [], _ => (buf, 0)
  | buf, _, _ :: _, 0 => (buf, 0)
  | buf, dst, c :: src, n + 1 =>
    if c ≠ 0 then
      let r := copyStr (Function.update buf dst c) (dst + 1) src n
      (r.1, r.2 + 1)
    else (buf, 0)

def fillPadding : (Nat → UInt8) → Nat → Nat → UInt8 → Nat → (Nat → UInt8) × Nat
  | buf, _, 0, _, _ => (buf, 0)
  | buf, _, _ + 1, _, 0 => (buf, 0)
  | buf, ptr, size + 1, padding, paddingLen + 1 =>
    let r := fillPadding (Function.update buf ptr padding) (ptr + 1) size padding paddingLen
    (r.1, r.2 + 1)

def copyWithPadding (buf : Nat → UInt8) (cur size : Nat) (str : List UInt8) (len : Nat) (left : Bool) (padding : UInt8)
    (width : Nat) : (Nat → UInt8) × Nat :=
  let len := if len = 0 then strlen str else len
  let paddingLen := if len < width then width - len else 0
  if left then
    let r := copyStr buf cur str size
    let r' := fillPadding r.1 (cur + r.2) (size - r.2) padding paddingLen
    (r'.1, r.2 + r'.2)
  else
    let r := fillPadding buf cur size padding paddingLen
    let r' := copyStr r.1 (cur + r.2) str (size - r.2)
    (r'.1, r'.2 + r.2)

/-- The common end of the three `snprint_*`. -/
def snprint (buf : Nat → UInt8) (cur size : Nat) (str : List UInt8) (left : Bool) (padding : UInt8) (width : Nat) :
    (Nat → UInt8) × Nat :=
  if str = [] then (buf, 0) else copyWithPadding buf cur size str str.length left padding width

def snprintInt (buf : Nat → UInt8) (cur size i base : Nat) (left : Bool) (padding : UInt8) (width : Nat) :
    (Nat → UInt8) × Nat :=
  snprint buf cur size (itoaS i base 33) left padding width

def snprintUint (buf : Nat → UInt8) (cur size i base : Nat) (left : Bool) (padding : UInt8) (width : Nat) :
    (Nat → UInt8) × Nat :=
  snprint buf cur size (utoaS i base 33) left padding width

/-- `"0x"` and the digits. -/
def pointerStr (ptr : Nat) : List UInt8 := if utoaS ptr 16 33 = [] then [] else zero :: 120 :: utoaS ptr 16 33

def snprintPointer (buf : Nat → UInt8) (cur size ptr : Nat) (left : Bool) (padding : UInt8) (width : Nat) :
    (Nat → UInt8) × Nat :=
  snprint buf cur size (pointerStr ptr) left padding width

/-! ### Directives -/

/-- Zero or more flags. -/
def flags : List UInt8 → Bool → UInt8 → List UInt8 × Bool × UInt8
  | [], left, padding => ([], left, padding)
  | c :: fmt, left, padding =>
    if c = minus then flags fmt true padding
    else if c = space then flags fmt left space
    else if c = zero then flags fmt left zero
    else (c :: fmt, left, padding)

def widthDigits : List UInt8 → Nat → List UInt8 × Nat
  | [], width => ([], width)
  | c :: fmt, width =>
    if zero ≤ c ∧ c ≤ nine then widthDigits fmt (u32 (width * 10 + (c.toNat - zero.toNat))) else (c :: fmt, width)

/-- The flags and the width of a directive, with the format from its character on. -/
structure Spec where
  fmt : List UInt8
  left : Bool
  padding : UInt8
  width : Nat

def spec (fmt : List UInt8) : Spec :=
  let f := flags fmt false space
  let padding := if f.2.1 then space else f.2.2
  let w := widthDigits f.1 0
  ⟨w.1, f.2.1, padding, w.2⟩

structure State where
  buf : Nat → UInt8
  cur : Nat
  ap : Nat

/-- `cur += ..`, and the next argument. -/
def State.print (s : State) (r : (Nat → UInt8) × Nat) : State := ⟨r.1, s.cur + r.2, s.ap + 1⟩

/-- `*cur++ = c`. -/
def State.put (s : State) (c : UInt8) : State := { s with buf := Function.update s.buf s.cur c, cur := s.cur + 1 }

/-- The switch for the directive character `c`; `none` when it is not one. -/
def directive (a : Args) (size : Nat) (s : State) (d : Spec) (c : UInt8) : Option State :=
  let arg := a.arg s.ap
  if c = 99 then some { s.put arg.toUInt8 with ap := s.ap + 1 }
  else if c = 115 then
    some (s.print (copyWithPadding s.buf s.cur (size - s.cur) (a.str arg) 0 d.left d.padding d.width))
  else if c = 100 then
    some (s.print (snprintInt s.buf s.cur (size - s.cur) arg.toNat 10 d.left d.padding d.width))
  else if c = 112 then
    some (s.print (snprintPointer s.buf s.cur (size - s.cur) arg.toNat d.left d.padding d.width))
  else if c = 120 then
    some (s.print (snprintUint s.buf s.cur (size - s.cur) arg.toNat 16 d.left d.padding d.width))
  else if c = 117 then
    some (s.print (snprintUint s.buf s.cur (size - s.cur) arg.toNat 10 d.left d.padding d.width))
  else if c = percent then some (s.put c)
  else none

theorem flags_length (fmt : List UInt8) (left : Bool) (padding : UInt8) :
    (flags fmt left padding).1.length ≤ fmt.length := by
  fun_induction flags fmt left padding <;> simp only [List.length_cons] at * <;> omega

theorem widthDigits_length (fmt : List UInt8) (width : Nat) : (widthDigits fmt width).1.length ≤ fmt.length := by
  fun_induction widthDigits fmt width <;> simp only [List.length_cons] at * <;> omega

theorem spec_length (fmt : List UInt8) : (spec fmt).fmt.length ≤ fmt.length :=
  Nat.le_trans (widthDigits_length _ _) (flags_length _ _ _)

/-- The loop of `vsnprintf`. -/
def loop (a : Args) (size : Nat) (fmt : List UInt8) (s : State) : State :=
  match fmt with
  | [] => s
  | c :: fmt =>
    if s.cur < size then
      if c = percent then
        match _hd : (spec fmt).fmt with
        | [] => s
        | c :: rest =>
          match directive a size s (spec fmt) c with
          | some s => loop a size rest s
          -- not a directive: the character is printed in the next round
          | none => loop a size (c :: rest) s
      else loop a size fmt (s.put c)
    else s
termination_by fmt.length
decreasing_by
  · have h := spec_length fmt
    rw [_hd] at h
    simp only [List.length_cons] at *
    omega
  · have h := spec_length fmt
    rw [_hd] at h
    simp only [List.length_cons] at *
    omega
  · simp

/-- The buffer and the result. -/
def vsnprintf (a : Args) (buf : Nat → UInt8) (size : Nat) (fmt : List UInt8) : (Nat → UInt8) × Nat :=
  let s := loop a size fmt ⟨buf, 0, 0⟩
  if s.cur < size then (Function.update s.buf s.cur 0, s.cur)
  else if 0 < size then (Function.update s.buf (size - 1) 0, size - 1)
  else (s.buf, 0)

/-! ### What is written

`text` goes to the buffer from `cur` on, as far as `stop` allows. -/

structure Wrote (stop : Nat) (buf : Nat → UInt8) (cur : Nat) (text : List UInt8) (buf' : Nat → UInt8) (cur' : Nat) :
    Prop where
  reached : cur' = min stop (cur + text.length)
  new : ∀ i, cur ≤ i → i < cur' → buf' i = text.getD (i - cur) 0
  old : ∀ i, i < cur ∨ cur' ≤ i → buf' i = buf i

namespace Wrote
variable {stop cur cur₁ cur₂ : Nat} {buf buf₁ buf₂ : Nat → UInt8} {text text₁ text₂ : List UInt8}

theorem nil (h : cur ≤ stop) : Wrote stop buf cur [] buf cur :=
  ⟨by rw [List.length_nil]; omega, fun i h₁ h₂ => by omega, fun _ _ => rfl⟩

/-- There is no room. -/
theorem full : Wrote stop buf stop text buf stop :=
  ⟨by omega, fun i h₁ h₂ => by omega, fun _ _ => rfl⟩

theorem append (h₁ : Wrote stop buf cur text₁ buf₁ cur₁) (h₂ : Wrote stop buf₁ cur₁ text₂ buf₂ cur₂) :
    Wrote stop buf cur (text₁ ++ text₂) buf₂ cur₂ := by
  have e₁ := h₁.reached
  have e₂ := h₂.reached
  refine ⟨by rw [List.length_append]; omega, fun i hi hi' => ?_, fun i hi => ?_⟩
  · rcases Nat.lt_or_ge i cur₁ with hlt | hge
    · rw [h₂.old i (.inl hlt), h₁.new i hi hlt, List.getD_append _ _ _ _ (by omega)]
    · rw [h₂.new i hge hi', List.getD_append_right _ _ _ _ (by omega)]
      congr 1
      omega
  · rw [h₂.old i (by omega), h₁.old i (by omega)]

/-- One character. -/
theorem single {c : UInt8} (h : cur < stop) : Wrote stop buf cur [c] (Function.update buf cur c) (cur + 1) := by
  refine ⟨by rw [List.length_singleton]; omega, fun i h₁ h₂ => ?_, fun i hi => Function.update_of_ne (by omega) _ _⟩
  obtain rfl : i = cur := by omega
  simp

theorem cons {c : UInt8} (hlt : cur < stop) (h : Wrote stop (Function.update buf cur c) (cur + 1) text buf₂ cur₂) :
    Wrote stop buf cur (c :: text) buf₂ cur₂ :=
  (single hlt).append h

end Wrote

theorem copyStr_wrote (buf : Nat → UInt8) (dst : Nat) (src : List UInt8) (n : Nat) :
    Wrote (dst + n) buf dst (src.takeWhile (· ≠ 0)) (copyStr buf dst src n).1 (dst + (copyStr buf dst src n).2) := by
  fun_induction copyStr buf dst src n with
  | case1 buf dst n => exact .nil (by omega)
  | case2 buf dst c src => exact .full
  | case3 buf dst c src n hc r ih =>
    rw [List.takeWhile_cons_of_pos (by simpa using hc)]
    refine .cons (by omega) ?_
    rw [Nat.add_right_comm, Nat.add_assoc dst n 1] at ih
    rw [← Nat.add_assoc, Nat.add_right_comm]
    exact ih
  | case4 buf dst c src n hc =>
    rw [List.takeWhile_cons_of_neg (by simpa using hc)]
    exact .nil (by omega)

theorem fillPadding_wrote (buf : Nat → UInt8) (ptr size : Nat) (padding : UInt8) (paddingLen : Nat) :
    Wrote (ptr + size) buf ptr (List.replicate paddingLen padding) (fillPadding buf ptr size padding paddingLen).1
      (ptr + (fillPadding buf ptr size padding paddingLen).2) := by
  fun_induction fillPadding buf ptr size padding paddingLen with
  | case1 buf ptr padding paddingLen => exact .full
  | case2 buf ptr size padding => exact .nil (by omega)
  | case3 buf ptr size padding paddingLen r ih =>
    rw [List.replicate_succ]
    refine .cons (by omega) ?_
    rw [Nat.add_right_comm, Nat.add_assoc ptr size 1] at ih
    rw [← Nat.add_assoc, Nat.add_right_comm]
    exact ih

/-- A string with its padding. -/
def padded (str : List UInt8) (len : Nat) (left : Bool) (padding : UInt8) (width : Nat) : List UInt8 :=
  let len := if len = 0 then strlen str else len
  let fill := List.replicate (if len < width then width - len else 0) padding
  if left then str.takeWhile (· ≠ 0) ++ fill else fill ++ str.takeWhile (· ≠ 0)

theorem copyWithPadding_wrote (buf : Nat → UInt8) (cur size : Nat) (str : List UInt8) (len : Nat) (left : Bool)
    (padding : UInt8) (width : Nat) :
    Wrote (cur + size) buf cur (padded str len left padding width)
      (copyWithPadding buf cur size str len left padding width).1
      (cur + (copyWithPadding buf cur size str len left padding width).2) := by
  cases left with
  | true =>
    simp only [copyWithPadding, padded, if_true]
    have h₁ := copyStr_wrote buf cur str size
    have hle : (copyStr buf cur str size).2 ≤ size := by
      have := h₁.reached
      omega
    have h₂ := fillPadding_wrote (copyStr buf cur str size).1 (cur + (copyStr buf cur str size).2)
      (size - (copyStr buf cur str size).2) padding
      (if (if len = 0 then strlen str else len) < width then width - (if len = 0 then strlen str else len) else 0)
    rw [Nat.add_assoc, Nat.add_sub_cancel' hle, Nat.add_assoc] at h₂
    exact h₁.append h₂
  | false =>
    simp only [copyWithPadding, padded, Bool.false_eq_true, if_false]
    generalize (if (if len = 0 then strlen str else len) < width then
      width - (if len = 0 then strlen str else len) else 0) = paddingLen
    have h₁ := fillPadding_wrote buf cur size padding paddingLen
    have hle : (fillPadding buf cur size padding paddingLen).2 ≤ size := by
      have := h₁.reached
      omega
    have h₂ := copyStr_wrote (fillPadding buf cur size padding paddingLen).1
      (cur + (fillPadding buf cur size padding paddingLen).2) str (size - (fillPadding buf cur size padding paddingLen).2)
    rw [Nat.add_assoc, Nat.add_sub_cancel' hle, Nat.add_assoc,
      Nat.add_comm (fillPadding buf cur size padding paddingLen).2] at h₂
    exact h₁.append h₂

/-- The text of a number; nothing when there are no digits. -/
def numberText (str : List UInt8) (left : Bool) (padding : UInt8) (width : Nat) : List UInt8 :=
  if str = [] then [] else padded str str.length left padding width

theorem snprint_wrote (buf : Nat → UInt8) (cur size : Nat) (str : List UInt8) (left : Bool) (padding : UInt8)
    (width : Nat) : Wrote (cur + size) buf cur (numberText str left padding width)
      (snprint buf cur size str left padding width).1 (cur + (snprint buf cur size str left padding width).2) := by
  unfold snprint numberText
  split_ifs with h
  · exact .nil (by omega)
  · exact copyWithPadding_wrote buf cur size str str.length left padding width

/-- The text of a directive and the number of its arguments; `none` when the character is not one. -/
def directiveText (a : Args) (ap : Nat) (d : Spec) (c : UInt8) : Option (List UInt8 × Nat) :=
  let arg := a.arg ap
  if c = 99 then some ([arg.toUInt8], 1)
  else if c = 115 then some (padded (a.str arg) 0 d.left d.padding d.width, 1)
  else if c = 100 then some (numberText (itoaS arg.toNat 10 33) d.left d.padding d.width, 1)
  else if c = 112 then some (numberText (pointerStr arg.toNat) d.left d.padding d.width, 1)
  else if c = 120 then some (numberText (utoaS arg.toNat 16 33) d.left d.padding d.width, 1)
  else if c = 117 then some (numberText (utoaS arg.toNat 10 33) d.left d.padding d.width, 1)
  else if c = percent then some ([c], 0)
  else none

/-- The text goes from the state `s` to the state `s'`, with `n` arguments. -/
structure Printed (size : Nat) (s : State) (text : List UInt8) (n : Nat) (s' : State) : Prop where
  wrote : Wrote size s.buf s.cur text s'.buf s'.cur
  ap : s'.ap = s.ap + n

theorem directive_printed (a : Args) {size : Nat} {s : State} (d : Spec) (c : UInt8) (hcur : s.cur < size) :
    (directive a size s d c = none ∧ directiveText a s.ap d c = none) ∨
      ∃ s' text n, directive a size s d c = some s' ∧ directiveText a s.ap d c = some (text, n) ∧
        Printed size s text n s' := by
  have hsize : s.cur + (size - s.cur) = size := by omega
  have hput : ∀ c, Wrote size s.buf s.cur [c] (s.put c).buf (s.put c).cur := fun c => .single hcur
  have hnumber := fun str => snprint_wrote s.buf s.cur (size - s.cur) str d.left d.padding d.width
  simp only [hsize] at hnumber
  have hstr := copyWithPadding_wrote s.buf s.cur (size - s.cur) (a.str (a.arg s.ap)) 0 d.left d.padding d.width
  rw [hsize] at hstr
  unfold directive directiveText
  dsimp only
  split_ifs
  · exact .inr ⟨_, _, _, rfl, rfl, hput _, rfl⟩
  · exact .inr ⟨_, _, _, rfl, rfl, hstr, rfl⟩
  · exact .inr ⟨_, _, _, rfl, rfl, hnumber _, rfl⟩
  · exact .inr ⟨_, _, _, rfl, rfl, hnumber _, rfl⟩
  · exact .inr ⟨_, _, _, rfl, rfl, hnumber _, rfl⟩
  · exact .inr ⟨_, _, _, rfl, rfl, hnumber _, rfl⟩
  · exact .inr ⟨_, _, _, rfl, rfl, hput _, rfl⟩
  · exact .inl ⟨rfl, rfl⟩

/-- The whole text of a format. -/
def text (a : Args) (fmt : List UInt8) (ap : Nat) : List UInt8 :=
  match fmt with
  | [] => []
  | c :: fmt =>
    if c = percent then
      match _hd : (spec fmt).fmt with
      | [] => []
      | c :: rest =>
        match directiveText a ap (spec fmt) c with
        | some (t, n) => t ++ text a rest (ap + n)
        | none => text a (c :: rest) ap
    else c :: text a fmt ap
termination_by fmt.length
decreasing_by
  · have h := spec_length fmt
    rw [_hd] at h
    simp only [List.length_cons] at *
    omega
  · have h := spec_length fmt
    rw [_hd] at h
    simp only [List.length_cons] at *
    omega
  · simp

theorem loop_wrote (a : Args) (size : Nat) (fmt : List UInt8) (s : State) (hcur : s.cur ≤ size) :
    Wrote size s.buf s.cur (text a fmt s.ap) (loop a size fmt s).buf (loop a size fmt s).cur := by
  fun_induction loop a size fmt s with
  | case1 s =>
    rw [text]
    exact .nil hcur
  | case2 s fmt hlt hd =>
    rw [text, if_pos rfl]
    split
    · exact .nil hcur
    · next c rest hd' => rw [hd] at hd'; cases hd'
  | case3 s fmt hlt c rest hd s' hs' ih =>
    rcases directive_printed a (spec fmt) c hlt with ⟨hn, -⟩ | ⟨s₁, t, n, hs₁, ht, hp⟩
    · rw [hs'] at hn; cases hn
    obtain rfl := Option.some.inj (hs'.symm.trans hs₁)
    rw [text, if_pos rfl]
    split
    · next hd' => rw [hd] at hd'; cases hd'
    · next c' rest' hd' =>
      obtain ⟨rfl, rfl⟩ := List.cons.inj (hd.symm.trans hd')
      rw [ht]
      dsimp only
      rw [← hp.ap]
      exact hp.wrote.append (ih (by have := hp.wrote.reached; omega))
  | case4 s fmt hlt c rest hd hs' ih =>
    rcases directive_printed a (spec fmt) c hlt with ⟨-, ht⟩ | ⟨s₁, t, n, hs₁, -, -⟩
    · rw [text, if_pos rfl]
      split
      · next hd' => rw [hd] at hd'; cases hd'
      · next c' rest' hd' =>
        obtain ⟨rfl, rfl⟩ := List.cons.inj (hd.symm.trans hd')
        rw [ht]
        exact ih hcur
    · rw [hs'] at hs₁; cases hs₁
  | case5 s c fmt hlt hc ih =>
    rw [text, if_neg hc]
    exact .cons hlt (ih hlt)
  | case6 s c fmt hlt =>
    obtain rfl : s.cur = size := by omega
    exact .full

theorem vsnprintf_written (a : Args) (fmt : List UInt8) (buf : Nat → UInt8) (size : Nat) :
    (∀ i, size ≤ i → (vsnprintf a buf size fmt).1 i = buf i) ∧
    (0 < size → (vsnprintf a buf size fmt).2 = min (size - 1) (text a fmt 0).length ∧
      (vsnprintf a buf size fmt).2 < size ∧ (vsnprintf a buf size fmt).1 (vsnprintf a buf size fmt).2 = 0 ∧
      ∀ i < (vsnprintf a buf size fmt).2, (vsnprintf a buf size fmt).1 i = (text a fmt 0).getD i 0) := by
  have h := loop_wrote a size fmt ⟨buf, 0, 0⟩ (Nat.zero_le size)
  have hcur : (loop a size fmt ⟨buf, 0, 0⟩).cur = min size (text a fmt 0).length := by
    rw [h.reached, Nat.zero_add]
  generalize hs : loop a size fmt ⟨buf, 0, 0⟩ = s at *
  have hnew : ∀ i < s.cur, s.buf i = (text a fmt 0).getD i 0 := fun i hi => h.new i (Nat.zero_le i) hi
  have hold : ∀ i, s.cur ≤ i → s.buf i = buf i := fun i hi => h.old i (.inr hi)
  unfold vsnprintf
  rw [hs]
  dsimp only
  split_ifs with h₁ h₂
  · refine ⟨fun i hi => ?_, fun _ => ⟨?_, h₁, Function.update_self _ _ _, fun i hi => ?_⟩⟩
    · exact (Function.update_of_ne (by omega) _ _).trans (hold i (by omega))
    · show s.cur = _
      omega
    · have hi' : i < s.cur := hi
      exact (Function.update_of_ne (by omega) _ _).trans (hnew i hi')
  · refine ⟨fun i hi => ?_, fun _ => ⟨?_, Nat.sub_lt h₂ Nat.one_pos, Function.update_self _ _ _, fun i hi => ?_⟩⟩
    · exact (Function.update_of_ne (by omega) _ _).trans (hold i (by omega))
    · show size - 1 = _
      omega
    · have hi' : i < size - 1 := hi
      exact (Function.update_of_ne (by omega) _ _).trans (hnew i (by omega))
  · exact ⟨fun i hi => hold i (by omega), fun h0 => absurd h0 h₂⟩

/-- Nothing is written behind the buffer, and what is in it are the first characters of a text that does not depend
on its size, with a NUL behind them. -/
theorem vsnprintf_truncates (a : Args) (fmt : List UInt8) : ∃ text : List UInt8, ∀ (buf : Nat → UInt8) (size : Nat),
    (∀ i, size ≤ i → (vsnprintf a buf size fmt).1 i = buf i) ∧
    (0 < size → (vsnprintf a buf size fmt).2 = min (size - 1) text.length ∧ (vsnprintf a buf size fmt).2 < size ∧
      (vsnprintf a buf size fmt).1 (vsnprintf a buf size fmt).2 = 0 ∧
      ∀ i < (vsnprintf a buf size fmt).2, (vsnprintf a buf size fmt).1 i = text.getD i 0) :=
  ⟨text a fmt 0, vsnprintf_written a fmt⟩

end Airix.Vsnprintf
