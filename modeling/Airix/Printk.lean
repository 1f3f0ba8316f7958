import Airix.Vsnprintf

/-!
# The screen (`kernel/printk.c`)

`video` is the memory from `video_memory` on, a cell of two bytes at each index; the screen are its first
`line * column` cells. What `Page` has is a terminal without an end: every line that was printed, at 80 columns.
-/

namespace Airix.Printk

def column : Nat := 80
def line : Nat := 25
def colorBlackWhite : UInt8 := 0x0F

structure Cell where
  char : UInt8
  color : UInt8
deriving DecidableEq, Repr

def blank : Cell := ⟨32, colorBlackWhite⟩

/-- `ports` are the bytes that went to the ports of the controller. -/
structure State where
  video : Nat → Cell
  cursorX : Nat
  cursorY : Nat
  ports : List (Nat × Nat)

def updateCursor (s : State) : State :=
  let pos := (s.cursorX + s.cursorY * column) % 2 ^ 16
  { s with ports := s.ports ++ [(0x3D4, 0x0F), (0x3D5, pos % 256), (0x3D4, 0x0E), (0x3D5, pos / 2 ^ 8 % 256)] }

/-- `memcpy`, from the first of `n` cells to the last. -/
def memcpy (video : Nat → Cell) (dst src : Nat) : Nat → (Nat → Cell)
  | 0 => video
  | n + 1 => memcpy (Function.update video dst (video src)) (dst + 1) (src + 1) n

def scrollUp (s : State) : State :=
  if s.cursorY ≥ line then
    { s with video := memcpy s.video 0 (1 * column) (line * column), cursorY := line - 1 }
  else s

def putChar (s : State) (color c : UInt8) : State :=
  let pos := s.cursorY * column + s.cursorX
  scrollUp
    (if c = 10 then { s with cursorX := 0, cursorY := s.cursorY + 1 }
    else if c = 13 then { s with cursorX := 0 }
    else
      let s := { s with video := Function.update s.video pos ⟨c, color⟩, cursorX := s.cursorX + 1 }
      if s.cursorX ≥ column then { s with cursorY := s.cursorY + 1, cursorX := 0 } else s)

def clearScreen (s : State) : State :=
  updateCursor { s with video := fun i => if i < column * line then blank else s.video i, cursorX := 0, cursorY := 0 }

def printString (s : State) (str : List UInt8) : State := str.foldl (fun s c => putChar s colorBlackWhite c) s

/-- A string as its reader sees it: up to the NUL. -/
def cString (buf : Nat → UInt8) (size : Nat) : List UInt8 := ((List.range size).map buf).takeWhile (· ≠ 0)

/-- A call of `printk`; `buf` is what the stack has in its buffer. -/
structure Call where
  buf : Nat → UInt8
  args : Vsnprintf.Args
  fmt : List UInt8

def printk (s : State) (call : Call) : State :=
  let buf := (Vsnprintf.vsnprintf call.args call.buf 1024 call.fmt).1
  updateCursor (printString s (cString buf 1024))

/-! ### The terminal -/

/-- What was written at each line and column, and where the next character goes. -/
structure Page where
  cells : Nat → Nat → Option Cell
  line : Nat
  column : Nat

namespace Page

def empty : Page := ⟨fun _ _ => none, 0, 0⟩

def newLine (p : Page) : Page := { p with line := p.line + 1, column := 0 }

/-- A character at the cursor. -/
def write (p : Page) (c : UInt8) : Page :=
  { p with
    cells := Function.update p.cells p.line (Function.update (p.cells p.line) p.column (some ⟨c, colorBlackWhite⟩))
    column := p.column + 1 }

def put (p : Page) (c : UInt8) : Page :=
  if c = 10 then p.newLine
  else if c = 13 then { p with column := 0 }
  else if p.column + 1 < Printk.column then p.write c
  else (p.write c).newLine

/-- The first of the last 25 lines. -/
def top (p : Page) : Nat := p.line + 1 - Printk.line

/-- What the row `r` of the screen is to show. -/
def visible (p : Page) (r c : Nat) : Cell := (p.cells (p.top + r) c).getD blank

end Page

/-- What a call prints: at most 1023 characters, and none from a NUL on. -/
def Call.text (call : Call) : List UInt8 := ((Vsnprintf.text call.args call.fmt 0).take 1023).takeWhile (· ≠ 0)

/-- The text of the calls, laid out. -/
def layout (calls : List Call) : Page := (calls.flatMap Call.text).foldl Page.put .empty

/-- The screen shows the page, and the memory behind it is as it was. -/
structure Shows (p : Page) (video : Nat → Cell) (s : State) : Prop where
  cursorX : s.cursorX < column
  cursorY : s.cursorY < line
  outside : ∀ i, line * column ≤ i → s.video i = video i
  screen : ∀ r < line, ∀ c < column, s.video (r * column + c) = p.visible r c

/-! ### Runs -/

/-- A line from 25 on starts with what the memory has behind the screen. -/
structure Relates (video : Nat → Cell) (p : Page) (s : State) : Prop where
  cursorX : s.cursorX = p.column
  cursorY : s.cursorY + p.top = p.line
  outside : ∀ i, line * column ≤ i → s.video i = video i
  screen : ∀ r < line, ∀ c < column, s.video (r * column + c) =
    (p.cells (p.top + r) c).getD (if p.top + r < line then blank else video (line * column + c))
  below : ∀ l, p.line < l → ∀ c, p.cells l c = none

section
variable {s : State} {p : Page} {video : Nat → Cell} {dst src i n : Nat}

theorem memcpy_apply (hle : dst ≤ src) :
    memcpy video dst src n i = if dst ≤ i ∧ i < dst + n then video (i + (src - dst)) else video i := by
  induction n generalizing video dst src with
  | zero => rw [memcpy, if_neg (by omega)]
  | succ n ih =>
    rw [memcpy, ih (by omega)]
    rcases lt_trichotomy i dst with hlt | rfl | hgt
    · rw [if_neg (by omega), if_neg (by omega), Function.update_of_ne (by omega)]
    · rw [if_neg (by omega), if_pos (by omega), Function.update_self]
      congr 1
      omega
    · by_cases h : i < dst + 1 + n
      · rw [if_pos (by omega), if_pos (by omega), Function.update_of_ne (by omega)]
        congr 1
        omega
      · rw [if_neg (by omega), if_neg (by omega), Function.update_of_ne (by omega)]

theorem scrollUp_of_lt (h : s.cursorY < line) : scrollUp s = s := if_neg (Nat.not_le.mpr h)

theorem scrollUp_of_ge (h : line ≤ s.cursorY) :
    (scrollUp s).cursorX = s.cursorX ∧ (scrollUp s).cursorY = 24 ∧
      ∀ i, (scrollUp s).video i = if i < line * column then s.video (i + column) else s.video i := by
  unfold scrollUp
  rw [if_pos h]
  refine ⟨rfl, rfl, fun i => ?_⟩
  dsimp only
  rw [memcpy_apply (Nat.zero_le _), Nat.one_mul, Nat.sub_zero, Nat.zero_add]
  simp only [Nat.zero_le, true_and]

theorem Page.cells_write (p : Page) (c : UInt8) (l c' : Nat) :
    (p.write c).cells l c' = if l = p.line ∧ c' = p.column then some ⟨c, colorBlackWhite⟩ else p.cells l c' := by
  unfold Page.write
  by_cases hl : l = p.line
  · by_cases hc : c' = p.column <;> simp [hl, hc]
  · simp [hl]

namespace Relates

/-- Scrolling starts a line with the row behind the screen. -/
theorem newLine (h : Relates video p s) :
    Relates video p.newLine (scrollUp { s with cursorX := 0, cursorY := s.cursorY + 1 }) := by
  have hy := h.cursorY
  have htop : p.newLine.top = p.line + 1 + 1 - 25 := rfl
  have htop' : p.top = p.line + 1 - 25 := rfl
  rcases Nat.lt_or_ge (s.cursorY + 1) line with hlt | hge
  · rw [scrollUp_of_lt (s := { s with cursorX := 0, cursorY := s.cursorY + 1 }) hlt]
    unfold line at hlt
    refine ⟨rfl, ?_, h.outside, fun r hr c hc => ?_, fun l hl c => h.below l (Nat.lt_of_succ_lt hl) c⟩
    · show s.cursorY + 1 + p.newLine.top = p.line + 1
      omega
    · rw [show p.newLine.top = p.top by omega]
      exact h.screen r hr c hc
  · obtain ⟨hx, hy', hvideo⟩ := scrollUp_of_ge (s := { s with cursorX := 0, cursorY := s.cursorY + 1 }) hge
    unfold line at hge
    refine ⟨hx, ?_, fun i hi => ?_, fun r hr c hc => ?_, fun l hl c => h.below l (Nat.lt_of_succ_lt hl) c⟩
    · rw [hy']
      show 24 + p.newLine.top = p.line + 1
      omega
    · rw [hvideo, if_neg (Nat.not_lt.mpr hi)]
      exact h.outside i hi
    · unfold line column at *
      rw [hvideo, if_pos (by omega), show r * 80 + c + 80 = (r + 1) * 80 + c by omega]
      rcases Nat.lt_or_ge (r + 1) 25 with hlt | hlast
      · rw [show p.newLine.top + r = p.top + (r + 1) by omega]
        exact h.screen (r + 1) hlt c hc
      · obtain rfl : r = 24 := by omega
        rw [show p.newLine.top + 24 = p.line + 1 by omega,
          show p.newLine.cells (p.line + 1) c = none from h.below _ (Nat.lt_succ_self _) c, if_neg (by omega)]
        exact h.outside _ (show 25 * 80 ≤ (24 + 1) * 80 + c by omega)

theorem write (h : Relates video p s) (hx : p.column < column) (c : UInt8) :
    Relates video (p.write c)
      { s with
        video := Function.update s.video (s.cursorY * column + s.cursorX) ⟨c, colorBlackWhite⟩
        cursorX := s.cursorX + 1 } := by
  have hy := h.cursorY
  have htop : p.top = p.line + 1 - 25 := rfl
  have hcx := h.cursorX
  refine ⟨congrArg (· + 1) h.cursorX, h.cursorY, fun i hi => ?_, fun r hr c' hc' => ?_, fun l hl c' => ?_⟩
  · unfold line column at *
    exact (Function.update_of_ne (by omega) _ _).trans (h.outside i hi)
  · have hscreen := h.screen r hr c' hc'
    unfold line column at *
    show Function.update s.video (s.cursorY * 80 + s.cursorX) ⟨c, colorBlackWhite⟩ (r * 80 + c') =
      ((p.write c).cells (p.top + r) c').getD (if p.top + r < 25 then blank else video (25 * 80 + c'))
    rw [Page.cells_write]
    by_cases hcell : p.top + r = p.line ∧ c' = p.column
    · rw [if_pos hcell, show r * 80 + c' = s.cursorY * 80 + s.cursorX by omega, Function.update_self]
      rfl
    · rw [if_neg hcell, Function.update_of_ne (by omega), hscreen]
  · rw [Page.cells_write, if_neg fun hcell => absurd hcell.1 (Nat.ne_of_gt hl)]
    exact h.below l hl c'

theorem putChar (h : Relates video p s) (hx : p.column < column) (c : UInt8) :
    Relates video (p.put c) (putChar s colorBlackWhite c) ∧ (p.put c).column < column := by
  have hcx := h.cursorX
  have hy : s.cursorY < 25 := by
    have := h.cursorY
    have htop : p.top = p.line + 1 - 25 := rfl
    omega
  dsimp only [Printk.putChar, Page.put]
  by_cases hnl : c = 10
  · rw [if_pos hnl, if_pos hnl]
    exact ⟨h.newLine, Nat.zero_lt_succ _⟩
  by_cases hcr : c = 13
  · rw [if_neg hnl, if_neg hnl, if_pos hcr, if_pos hcr, scrollUp_of_lt]
    · exact ⟨⟨rfl, h.cursorY, h.outside, h.screen, h.below⟩, Nat.zero_lt_succ _⟩
    · exact hy
  rw [if_neg hnl, if_neg hnl, if_neg hcr, if_neg hcr]
  by_cases hwrap : p.column + 1 < column
  · rw [if_pos hwrap, if_neg (by omega), scrollUp_of_lt]
    · exact ⟨h.write hx c, hwrap⟩
    · exact hy
  · rw [if_neg hwrap, if_pos (by omega)]
    exact ⟨(h.write hx c).newLine, Nat.zero_lt_succ _⟩

theorem printString : ∀ (str : List UInt8) {p : Page} {s : State}, Relates video p s → p.column < column →
    Relates video (str.foldl Page.put p) (printString s str) ∧ (str.foldl Page.put p).column < column
  | [], _, _, h, hx => ⟨h, hx⟩
  | c :: str, _, _, h, hx =>
    have hput := h.putChar hx c
    printString str hput.1 hput.2

theorem updateCursor (h : Relates video p s) : Relates video p (updateCursor s) :=
  ⟨h.cursorX, h.cursorY, h.outside, h.screen, h.below⟩

end Relates

/-- What `print_string` reads is the text that was cut. -/
theorem cString_vsnprintf (call : Call) :
    cString (Vsnprintf.vsnprintf call.args call.buf 1024 call.fmt).1 1024 = call.text := by
  obtain ⟨hlen, hlt, hnul, hchars⟩ := (Vsnprintf.vsnprintf_written call.args call.fmt call.buf 1024).2 (by decide)
  generalize Vsnprintf.vsnprintf call.args call.buf 1024 call.fmt = r at *
  generalize htext : Vsnprintf.text call.args call.fmt 0 = text at *
  have htake : ((List.range 1024).map r.1).take r.2 = text.take 1023 := by
    refine List.ext_getElem (by simp; omega) fun i h₁ h₂ => ?_
    rw [List.length_take] at h₁ h₂
    rw [List.getElem_take, List.getElem_take, List.getElem_map, List.getElem_range, hchars i (by omega),
      List.getD_eq_getElem _ _ (by omega)]
  have hdrop : ((List.range 1024).map r.1).drop r.2 = 0 :: ((List.range 1024).map r.1).drop (r.2 + 1) := by
    rw [List.drop_eq_getElem_cons (by simpa using hlt), List.getElem_map, List.getElem_range, hnul]
  rw [cString, Call.text, htext, ← List.take_append_drop r.2 ((List.range 1024).map r.1), htake, hdrop,
    List.takeWhile_append, List.takeWhile_cons_of_neg (by simp), List.append_nil]
  split
  · next hall => exact ((List.takeWhile_prefix _).eq_of_length hall).symm
  · rfl

theorem printk_relates (call : Call) (h : Relates video p s) (hx : p.column < column) :
    Relates video (call.text.foldl Page.put p) (printk s call) ∧ (call.text.foldl Page.put p).column < column := by
  rw [printk, cString_vsnprintf]
  have hstr := h.printString call.text hx
  exact ⟨hstr.1.updateCursor, hstr.2⟩

theorem run_relates : ∀ (calls : List Call) {p : Page} {s : State}, Relates video p s → p.column < column →
    Relates video ((calls.flatMap Call.text).foldl Page.put p) (calls.foldl printk s) ∧
      ((calls.flatMap Call.text).foldl Page.put p).column < column
  | [], _, _, h, hx => ⟨h, hx⟩
  | call :: calls, p, s, h, hx => by
    have hcall := printk_relates call h hx
    rw [List.flatMap_cons, List.foldl_append, List.foldl_cons]
    exact run_relates calls hcall.1 hcall.2

theorem clearScreen_relates (s : State) : Relates s.video .empty (clearScreen s) := by
  refine ⟨rfl, rfl, fun i hi => ?_, fun r hr c hc => ?_, fun _ _ _ => rfl⟩
  · exact if_neg (by unfold line column at *; omega)
  · have htop : Page.empty.top = 0 := rfl
    rw [htop, Nat.zero_add, if_pos hr]
    exact if_pos (by unfold line column at *; omega)

theorem Relates.shows_iff (h : Relates video p s) (hx : p.column < column) :
    Shows p video s ↔ ∀ r < line, ∀ c < column, line ≤ p.top + r → p.cells (p.top + r) c = none →
      video (line * column + c) = blank := by
  have hy : s.cursorY < line := by
    have hy := h.cursorY
    have htop : p.top = p.line + 1 - 25 := rfl
    unfold line
    omega
  constructor
  · intro hs r hr c hc hlate hnone
    have hcell := (h.screen r hr c hc).symm.trans (hs.screen r hr c hc)
    rwa [Page.visible, hnone, if_neg (Nat.not_lt.mpr hlate)] at hcell
  · intro hblank
    refine ⟨by rw [h.cursorX]; exact hx, hy, h.outside, fun r hr c hc => ?_⟩
    rw [h.screen r hr c hc, Page.visible]
    cases hcell : p.cells (p.top + r) c with
    | some cell => rfl
    | none =>
      rcases Nat.lt_or_ge (p.top + r) line with hlt | hge
      · rw [if_pos hlt]
      · rw [if_neg (Nat.not_lt.mpr hge)]
        exact hblank r hr c hc hge hcell

/-- The screen shows the last 25 lines where the row behind the screen is blank in the columns that they leave. -/
theorem screen_shows_iff (s : State) (calls : List Call) :
    Shows (layout calls) s.video (calls.foldl printk (clearScreen s)) ↔
      ∀ r < line, ∀ c < column, line ≤ (layout calls).top + r → (layout calls).cells ((layout calls).top + r) c = none →
        s.video (line * column + c) = blank :=
  have h := run_relates calls (clearScreen_relates s) (Nat.zero_lt_succ _)
  h.1.shows_iff h.2

end

/-- The video memory with a cell behind the screen that is not blank. -/
def dirty : State := ⟨fun _ => ⟨0, 0⟩, 3, 7, []⟩

/-- Without a directive. -/
def plain (str : List UInt8) : Call := ⟨fun _ => 0, ⟨fun _ => 0, fun _ => []⟩, str⟩

theorem text_plain (a : Vsnprintf.Args) (ap : Nat) : ∀ {str : List UInt8}, Vsnprintf.percent ∉ str →
    Vsnprintf.text a str ap = str
  | [], _ => by rw [Vsnprintf.text]
  | c :: str, h => by
    have hc : c ≠ Vsnprintf.percent := by
      rintro rfl
      exact h (.head _)
    rw [Vsnprintf.text, if_neg hc, text_plain a ap fun hc => h (.tail _ hc)]

/-- The first scroll brings what is behind the screen. -/
theorem not_screen_shows :
    ¬ Shows (layout [plain (List.replicate 25 10)]) dirty.video
      ([plain (List.replicate 25 10)].foldl printk (clearScreen dirty)) := by
  have hlayout : layout [plain (List.replicate 25 10)] = (List.replicate 25 10).foldl Page.put .empty := by
    rw [layout, List.flatMap_singleton, Call.text, plain, text_plain _ _ (by decide)]
    rfl
  have h := run_relates [plain (List.replicate 25 10)] (clearScreen_relates dirty) (Nat.zero_lt_succ _)
  intro hs
  have hblank := (h.1.shows_iff h.2).mp hs 24 (by decide) 0 (by decide)
  change line ≤ (layout _).top + 24 → (layout _).cells ((layout _).top + 24) 0 = none → _ at hblank
  rw [hlayout] at hblank
  exact absurd (hblank (by decide) rfl) (by decide)

end Airix.Printk
