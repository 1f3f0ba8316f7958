import Mathlib.Algebra.Order.Ring.Nat
import Mathlib.Data.Nat.Basic
import Mathlib.Tactic.Common

/-!
# Machine words and the macros of `kernel/base.h` and `mm/pmm.h`

A `uint32_t` is a `Nat` below `2 ^ 32`; `u32` is the conversion to it. The address macros are those
of the source, with the wrap-around of 32-bit arithmetic.
-/

namespace Airix

/-- Conversion to `uint32_t`. -/
def u32 (x : Nat) : Nat := x % 2 ^ 32

theorem u32_of_lt {x : Nat} (h : x < 2 ^ 32) : u32 x = x := Nat.mod_eq_of_lt h

theorem u32_lt (x : Nat) : u32 x < 2 ^ 32 := Nat.mod_lt _ (by decide)

def kernelBase : Nat := 0xC0000000

/-- `CAST_PHYSICAL_TO_VIRTUAL`. -/
def castPhysicalToVirtual (addr : Nat) : Nat := u32 (addr + kernelBase)

/-- `CAST_VIRTUAL_TO_PHYSICAL`. -/
def castVirtualToPhysical (addr : Nat) : Nat := u32 (addr + (2 ^ 32 - kernelBase))

theorem castVirtualToPhysical_castPhysicalToVirtual {a : Nat} (h : a < 2 ^ 32) :
    castVirtualToPhysical (castPhysicalToVirtual a) = a := by
  simp only [castVirtualToPhysical, castPhysicalToVirtual, u32, kernelBase]; omega

theorem castPhysicalToVirtual_inj {a b : Nat} (ha : a < 2 ^ 32) (hb : b < 2 ^ 32)
    (h : castPhysicalToVirtual a = castPhysicalToVirtual b) : a = b := by
  rw [← castVirtualToPhysical_castPhysicalToVirtual ha, h, castVirtualToPhysical_castPhysicalToVirtual hb]

/-- `ALIGN(x, align)` on a `uint32_t`: `(x + mask) & ~mask` for the mask `align - 1` of a power of
two clears the remainder. -/
def align (x a : Nat) : Nat := u32 (x + (a - 1)) / a * a

def pageSize : Nat := 4096

/-- `PAGE_NUMBER`. -/
def pageNumber (addr : Nat) : Nat := u32 addr / pageSize

/-- `PAGE_ADDRESS`. -/
def pageAddress (pageNum : Nat) : Nat := u32 (pageNum * pageSize)

/-- `ALIGN_SIZE`. -/
def alignSize (x : Nat) : Nat := align (u32 x) 4

/-- `ALIGN_PAGE`. -/
def alignPage (addr : Nat) : Nat := align (u32 addr) pageSize

end Airix
