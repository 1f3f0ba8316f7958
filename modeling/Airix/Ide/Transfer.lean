import Airix.Ide.Runs

/-!
# What the controller is told

`Channel` is one bus of the hardware as the ATA and the bus-master rules have it: each register that takes an
address or a count is a FIFO of two bytes, and the command register starts a transfer with what the registers
hold. `describes_iff` compares the transfer that `start_io_operation` programs with the request.
-/

namespace Airix.Ide

/-! ### The hardware -/

/-- A transfer that a drive was told to make. -/
structure Transfer where
  lba : Bool
  drive : Nat
  start : Nat
  count : Nat
  write : Bool
  /-- The bus master runs, and in which direction. -/
  running : Bool
  toMemory : Bool
  prdt : Nat
deriving DecidableEq, Repr

/-- A register of two bytes: the one written before, and the last one. -/
structure Fifo where
  previous : Nat
  current : Nat
deriving DecidableEq, Repr

def Fifo.push (f : Fifo) (v : Nat) : Fifo := ⟨f.current, v⟩

/-- One bus: the registers of its drives and of its bus master, and the transfers that were started. -/
structure Channel where
  count : Fifo
  lbaLo : Fifo
  lbaMid : Fifo
  lbaHi : Fifo
  device : Nat
  bmCmd : Nat
  prdt : Nat
  started : List Transfer
deriving DecidableEq, Repr

namespace Channel

/-- A count of 0 stands for the greatest. -/
def countOf (n max : Nat) : Nat := if n = 0 then max else n

/-- What a command means: the commands of LBA48 take both bytes of the registers, those of LBA28 the last ones and
four bits of the device register. -/
def decode (c : Channel) (cmd : Nat) : Transfer :=
  let ext := cmd = commandReadDmaExt ∨ cmd = commandWriteDmaExt
  { lba := c.device / 2 ^ 6 % 2 = 1
    drive := c.device / 2 ^ 4 % 2
    start := c.lbaLo.current + c.lbaMid.current * 2 ^ 8 + c.lbaHi.current * 2 ^ 16 +
      if ext then c.lbaLo.previous * 2 ^ 24 + c.lbaMid.previous * 2 ^ 32 + c.lbaHi.previous * 2 ^ 40
      else c.device % 2 ^ 4 * 2 ^ 24
    count := if ext then countOf (c.count.previous * 2 ^ 8 + c.count.current) 65536 else countOf c.count.current 256
    write := cmd = commandWriteDma ∨ cmd = commandWriteDmaExt
    running := c.bmCmd % 2 = 1
    toMemory := c.bmCmd / 2 ^ 3 % 2 = 1
    prdt := c.prdt }

/-- A byte written to a register of the drives. -/
def write (c : Channel) (reg v : Nat) : Channel :=
  if reg = regSectorCount then { c with count := c.count.push v }
  else if reg = regLbaLo then { c with lbaLo := c.lbaLo.push v }
  else if reg = regLbaMid then { c with lbaMid := c.lbaMid.push v }
  else if reg = regLbaHi then { c with lbaHi := c.lbaHi.push v }
  else if reg = regDriveSelect then { c with device := v }
  else if reg = regCommandStatus then { c with started := c.started ++ [c.decode v] }
  else c

/-- One access to a port, by a channel with its registers at `base` and its bus master at `bm`. -/
def out (base bm : Nat) (c : Channel) : Out → Channel
  | .byte port v =>
    if base ≤ port ∧ port < base + 8 then c.write (port - base) v
    else if port = bm + busMasterCmd then { c with bmCmd := v }
    else c
  | .dword port v => if port = bm + busMasterPrdt then { c with prdt := v } else c

end Channel

/-- The bytes that a PRD entry covers. -/
def PrdEntry.covers (e : PrdEntry) : Nat := Channel.countOf e.size 65536

/-! ### Requests -/

/-- The `struct dma_io_data` of a request, as `ide_dma_read_sectors` and `ide_dma_write_sectors` set it up. -/
def requestData (d : Drive) (io : DmaIo) (write : Bool) (retry serial : Nat) : DmaIoData where
  io := io
  retry := retry
  bmCmd := if write then busMasterCmdWrite else busMasterCmdRead
  cmd := if write then (if d.lba48 then commandWriteDmaExt else commandWriteDma)
    else (if d.lba48 then commandReadDmaExt else commandReadDma)
  serial := serial

/-- The registers of the bus masters are apart from those of the drives. -/
def Apart (bmDma : Nat) : Prop :=
  ∀ p, bmDma ≤ p → p < bmDma + 16 → ¬ (bar0 ≤ p ∧ p < bar0 + 8) ∧ ¬ (bar2 ≤ p ∧ p < bar2 + 8)

/-- What a request is to be programmed as: on its bus exactly this transfer is started, with a PRD table of one
entry that covers the buffer, and nothing is written to the other bus. -/
structure Describes (s s' : State) (io : DmaIo) (write : Bool) (outs : List Out) : Prop where
  ports : s'.ports = s.ports ++ outs
  prd : s'.prdt (s.drives io.drive).bus = ⟨io.buffer, (s'.prdt (s.drives io.drive).bus).size, 0x8000⟩
  covers : (s'.prdt (s.drives io.drive).bus).covers = io.size
  started : ∀ c : Channel,
    (outs.foldl (Channel.out (s.drives io.drive).baseReg (s.drives io.drive).bmReg) c).started = c.started ++ [⟨true, io.drive % driveCount, io.start, io.sectorCount, write, true, !write,
      castVirtualToPhysical (s.prdtAddr (s.drives io.drive).bus)⟩]
  other : ∀ i < busCount * driveCount, (s.drives i).bus ≠ (s.drives io.drive).bus → ∀ c : Channel,
    outs.foldl (Channel.out (s.drives i).baseReg (s.drives i).bmReg) c = c

section
variable {s : State} {io : DmaIo} {d e : Drive} {c : Channel} {w : Bool} {bmDma base bm reg port v a retry serial : Nat}
  {detected : Nat → Detected}

namespace Channel

theorem out_register (h : reg < 8) : out base bm c (.byte (base + reg) v) = c.write reg v := by
  rw [out, if_pos ⟨Nat.le_add_right _ _, Nat.add_lt_add_left h _⟩, Nat.add_sub_cancel_left]

theorem out_busMaster (h : ¬ (base ≤ bm ∧ bm < base + 8)) :
    out base bm c (.byte (bm + busMasterCmd) v) = { c with bmCmd := v } := by
  have h' : ¬ (base ≤ bm + busMasterCmd ∧ bm + busMasterCmd < base + 8) := h
  rw [out, if_neg h', if_pos rfl]

theorem out_prdt : out base bm c (.dword (bm + busMasterPrdt) v) = { c with prdt := v } := if_pos rfl

/-- A port of neither the drives nor the bus master. -/
theorem out_byte_other (h : ¬ (base ≤ port ∧ port < base + 8)) (hb : port ≠ bm + busMasterCmd) :
    out base bm c (.byte port v) = c := by
  rw [out, if_neg h, if_neg hb]

theorem out_dword_other (h : port ≠ bm + busMasterPrdt) : out base bm c (.dword port v) = c := if_neg h

end Channel

/-- The buses that a drive's registers belong to are apart. -/
structure Clear (base bm : Nat) (d : Drive) : Prop where
  register : ∀ reg < 8, ¬ (base ≤ d.baseReg + reg ∧ d.baseReg + reg < base + 8) ∧ d.baseReg + reg ≠ bm + busMasterCmd
  command : ¬ (base ≤ d.bmReg + busMasterCmd ∧ d.bmReg + busMasterCmd < base + 8) ∧
    d.bmReg + busMasterCmd ≠ bm + busMasterCmd
  table : d.bmReg + busMasterPrdt ≠ bm + busMasterPrdt

theorem Clear.untouched {data : DmaIoData} (h : Clear base bm d) :
    (startOutputs d a data).foldl (Channel.out base bm) c = c := by
  have hreg : ∀ reg < 8, ∀ (c : Channel) v, c.out base bm (.byte (d.baseReg + reg) v) = c := fun reg hr c v =>
    Channel.out_byte_other (h.register reg hr).1 (h.register reg hr).2
  have hcmd : ∀ (c : Channel) v, c.out base bm (.byte (d.bmReg + busMasterCmd) v) = c := fun c v =>
    Channel.out_byte_other h.command.1 h.command.2
  have htable : ∀ (c : Channel) v, c.out base bm (.dword (d.bmReg + busMasterPrdt) v) = c := fun c v =>
    Channel.out_dword_other h.table
  cases hl : d.lba48 <;>
    simp (disch := decide) only [startOutputs, hl, Bool.false_eq_true, if_false, if_true, List.foldl_append,
      List.foldl_cons, List.foldl_nil, hreg, hcmd, htable]

/-- The four bytes of a 28-bit number, and the six of a 48-bit one. -/
theorem bytes_lba28 (n : Nat) :
    n % 256 + n / 256 % 256 * 256 + n / 65536 % 256 * 65536 + n / 16777216 % 16 * 16777216 = n % 268435456 := by
  omega

theorem bytes_lba48 (n : Nat) :
    n % 256 + n / 256 % 256 * 256 + n / 65536 % 256 * 65536 + (n / 16777216 % 256 * 16777216 +
      n / 4294967296 % 256 * 4294967296 + n / 1099511627776 % 256 * 1099511627776) = n % 281474976710656 := by
  omega

/-- The device register: bit 6 selects LBA, bit 4 the drive. -/
theorem device_bits {drive b : Nat} (hd : drive < 2) (hb : b < 16) :
    (0x40 ||| drive * 16) / 64 % 2 = 1 ∧ (0x40 ||| drive * 16) / 16 % 2 = drive ∧
      (0xe0 ||| drive * 16 ||| b) / 64 % 2 = 1 ∧ (0xe0 ||| drive * 16 ||| b) / 16 % 2 = drive ∧
      (0xe0 ||| drive * 16 ||| b) % 16 = b := by
  have h : ∀ drive < 2, ∀ b < 16,
      (0x40 ||| drive * 16) / 64 % 2 = 1 ∧ (0x40 ||| drive * 16) / 16 % 2 = drive ∧
      (0xe0 ||| drive * 16 ||| b) / 64 % 2 = 1 ∧ (0xe0 ||| drive * 16 ||| b) / 16 % 2 = drive ∧
      (0xe0 ||| drive * 16 ||| b) % 16 = b := by decide
  exact h drive hd b hb

/-- The transfer that a request is programmed as. -/
def programmed (d : Drive) (a : Nat) (io : DmaIo) (w : Bool) : Transfer where
  lba := true
  drive := d.drive
  start := if d.lba48 then io.start % 2 ^ 48 else io.start % 2 ^ 28
  count := if d.lba48 then Channel.countOf (io.sectorCount % 65536) 65536
    else Channel.countOf (io.sectorCount % 256) 256
  write := w
  running := true
  toMemory := !w
  prdt := castVirtualToPhysical a

theorem started_eq (hd : d.drive < 2) (hapart : ¬ (d.baseReg ≤ d.bmReg ∧ d.bmReg < d.baseReg + 8)) :
    ((startOutputs d a (requestData d io w retry serial)).foldl (Channel.out d.baseReg d.bmReg) c).started =
      c.started ++ [programmed d a io w] := by
  obtain ⟨h1, h2, h3, h4, h5⟩ := device_bits hd (Nat.mod_lt (io.start / 16777216) (show 0 < 16 by decide))
  have hcount : io.sectorCount / 256 % 256 * 256 + io.sectorCount % 256 = io.sectorCount % 65536 := by omega
  rw [startOutputs]
  cases hl : d.lba48
  · simp (disch := decide) only [requestData, List.foldl_append, List.foldl_cons, List.foldl_nil,
      Channel.out_busMaster hapart, Channel.out_prdt, Channel.out_register, hl, Bool.false_eq_true, if_false]
    cases w <;>
      simp [Channel.write, Fifo.push, Channel.decode, programmed, regSectorCount, regLbaLo, regLbaMid, regLbaHi,
        regDriveSelect, regCommandStatus, regFeatureError, hl, h3, h4, h5, commandReadDma, commandWriteDma,
        commandReadDmaExt, commandWriteDmaExt, busMasterCmdRead, busMasterCmdWrite, bytes_lba28]
  · simp (disch := decide) only [requestData, List.foldl_append, List.foldl_cons, List.foldl_nil,
      Channel.out_busMaster hapart, Channel.out_prdt, Channel.out_register, hl, if_true]
    cases w <;>
      simp [Channel.write, Fifo.push, Channel.decode, programmed, regSectorCount, regLbaLo, regLbaMid, regLbaHi,
        regDriveSelect, regCommandStatus, hl, h1, h2, commandWriteDma, commandReadDmaExt, commandWriteDmaExt,
        busMasterCmdRead, busMasterCmdWrite, bytes_lba48, hcount]

/-! ### Which requests are described -/

/-- `requestData` is what is submitted. -/
theorem ideDmaReadSectors_eq : ideDmaReadSectors s a io = (do
    checkDrive s io
    let data := requestData (s.drives io.drive) io false 0 s.submitted
    dmaIoSectors s a io data.bmCmd data.cmd) := rfl

theorem ideDmaWriteSectors_eq : ideDmaWriteSectors s a io = (do
    checkDrive s io
    let data := requestData (s.drives io.drive) io true 0 s.submitted
    dmaIoSectors s a io data.bmCmd data.cmd) := rfl

theorem clear_initDrive (h : Apart bmDma) {i j : Nat} (hi : i < busCount * driveCount) (hj : j < busCount * driveCount)
    (hne : (initDrive bmDma detected i).bus ≠ (initDrive bmDma detected j).bus) :
    Clear (initDrive bmDma detected i).baseReg (initDrive bmDma detected i).bmReg (initDrive bmDma detected j) := by
  have hlo := h bmDma le_rfl (by omega)
  have hhi := h (bmDma + 8) (by omega) (by omega)
  have hi' : i / driveCount = 0 ∨ i / driveCount = 1 := by unfold busCount driveCount at *; omega
  have hj' : j / driveCount = 0 ∨ j / driveCount = 1 := by unfold busCount driveCount at *; omega
  rcases hi' with hi' | hi' <;> rcases hj' with hj' | hj' <;>
    simp only [initDrive, hi', hj', ne_eq, not_true_eq_false, if_true, Nat.one_ne_zero, if_false] at hne ⊢
  all_goals
    unfold bar0 bar2 at *
    refine ⟨fun reg hr => ?_, ?_, ?_⟩ <;> simp only [busMasterCmd, busMasterPrdt] <;> omega

/-- Where the transfer starts at the sector that was requested and has its sectors. -/
theorem programmed_start : (programmed d a io w).start = io.start ↔ io.start < if d.lba48 then 2 ^ 48 else 2 ^ 28 := by
  unfold programmed
  cases d.lba48 <;> simp only [Bool.false_eq_true, if_false, if_true] <;> omega

theorem programmed_count (h : 1 ≤ io.sectorCount) (h' : io.sectorCount ≤ 256) :
    (programmed d a io w).count = io.sectorCount := by
  unfold programmed Channel.countOf
  cases d.lba48 <;> simp only [Bool.false_eq_true, if_false, if_true] <;> split <;> omega

theorem programmed_eq (h : 1 ≤ io.sectorCount) (h' : io.sectorCount ≤ 256)
    (hs : io.start < if d.lba48 then 2 ^ 48 else 2 ^ 28) :
    programmed d a io w =
      ⟨true, d.drive, io.start, io.sectorCount, w, true, !w, castVirtualToPhysical a⟩ := by
  have hstart : (programmed d a io w).start = io.start := programmed_start.mpr hs
  have hcount : (programmed d a io w).count = io.sectorCount := programmed_count h h'
  rw [← hstart, ← hcount]
  rfl

theorem checkDrive_size (h : checkDrive s io = .ok ()) : io.size = io.sectorCount * sectorSize := by
  unfold checkDrive at h
  dsimp only at h
  split at h
  · cases h
  split at h
  · cases h
  split at h
  · cases h
  · exact not_not.mp ‹_›

/-- A PRD entry has 16 bits for its size. -/
theorem covers_iff (h : io.size = io.sectorCount * sectorSize) {e : PrdEntry} (he : e.size = io.size % 2 ^ 16) :
    e.covers = io.size ↔ 1 ≤ io.sectorCount ∧ io.sectorCount ≤ 128 := by
  unfold PrdEntry.covers Channel.countOf
  unfold sectorSize at h
  rw [he]
  split <;> omega

theorem registers_apart (h : Apart bmDma) (i : Nat) :
    ¬ ((initDrive bmDma detected i).baseReg ≤ (initDrive bmDma detected i).bmReg ∧
      (initDrive bmDma detected i).bmReg < (initDrive bmDma detected i).baseReg + 8) := by
  have hlo := h bmDma le_rfl (by omega)
  have hhi := h (bmDma + 8) (by omega) (by omega)
  rcases Nat.eq_zero_or_pos (i / driveCount) with hi | hi
  · simpa [initDrive, hi] using hlo.1
  · simpa [initDrive, Nat.pos_iff_ne_zero.mp hi] using hhi.2

/-- Exactly the requests for one to 128 sectors that start within the numbers of their command are described. -/
theorem describes_iff (hdrives : s.drives = initDrive bmDma detected) (hapart : Apart bmDma)
    (hcheck : checkDrive s io = .ok ()) :
    Describes s (startIoOperation s (requestData (s.drives io.drive) io w retry serial)) io w
        (startOutputs (s.drives io.drive) (s.prdtAddr (s.drives io.drive).bus)
          (requestData (s.drives io.drive) io w retry serial)) ↔
      1 ≤ io.sectorCount ∧ io.sectorCount ≤ 128 ∧ io.start < if (s.drives io.drive).lba48 then 2 ^ 48 else 2 ^ 28 := by
  have hd : (s.drives io.drive).drive = io.drive % driveCount := by rw [hdrives]; rfl
  have hprdt : (startIoOperation s (requestData (s.drives io.drive) io w retry serial)).prdt (s.drives io.drive).bus =
      ⟨io.buffer, io.size % 2 ^ 16, 0x8000⟩ := Function.update_self _ _ _
  have hcovers := covers_iff (checkDrive_size hcheck) (congrArg PrdEntry.size hprdt)
  have hdrive : (s.drives io.drive).drive < 2 := by rw [hd]; exact Nat.mod_lt _ (by decide)
  have hapart' : ¬ ((s.drives io.drive).baseReg ≤ (s.drives io.drive).bmReg ∧
      (s.drives io.drive).bmReg < (s.drives io.drive).baseReg + 8) := hdrives ▸ registers_apart hapart io.drive
  constructor
  · intro h
    obtain ⟨hpos, hle⟩ := hcovers.mp h.covers
    have hlist := (started_eq hdrive hapart').symm.trans (h.started ⟨⟨0, 0⟩, ⟨0, 0⟩, ⟨0, 0⟩, ⟨0, 0⟩, 0, 0, 0, []⟩)
    exact ⟨hpos, hle, programmed_start.mp (congrArg Transfer.start (List.singleton_injective hlist))⟩
  · rintro ⟨hpos, hle, hstart⟩
    refine ⟨rfl, by rw [hprdt], hcovers.mpr ⟨hpos, hle⟩, fun c => ?_, fun i hi hne c => ?_⟩
    · rw [started_eq hdrive hapart', programmed_eq hpos (hle.trans (by decide)) hstart, hd]
    · rw [hdrives] at hne ⊢
      exact (clear_initDrive hapart hi (checkDrive_ok hcheck) hne).untouched

end

theorem describes_first :
    let s := ideInitialize 0xc000 (fun bus => 0xc0100000 + 8 * bus) oneDrive
    let io : DmaIo := ⟨0, 8, 16, 0x200000, 4096, 0, .other 1⟩
    Describes s (startIoOperation s (requestData (s.drives 0) io false 0 0)) io false
        (startOutputs (s.drives 0) (s.prdtAddr (s.drives 0).bus) (requestData (s.drives 0) io false 0 0)) ↔
      1 ≤ io.sectorCount ∧ io.sectorCount ≤ 128 ∧ io.start < if (s.drives 0).lba48 then 2 ^ 48 else 2 ^ 28 :=
  describes_iff rfl (fun p hp _ => by unfold bar0 bar2; omega) rfl

/-- 129 sectors are more than the PRD entry covers. -/
def longIo : DmaIo := ⟨0, 129, 0, 0x200000, 66048, 0, .other 1⟩

theorem not_describes :
    let s := ideInitialize 0xc000 (fun bus => 0xc0100000 + 8 * bus) oneDrive
    checkDrive s longIo = .ok () ∧
      ¬ Describes s (startIoOperation s (requestData (s.drives 0) longIo false 0 0)) longIo false
        (startOutputs (s.drives 0) (s.prdtAddr (s.drives 0).bus) (requestData (s.drives 0) longIo false 0 0)) := by
  refine ⟨rfl, fun h => ?_⟩
  have : (512 : Nat) = 66048 := h.covers
  exact absurd this (by decide)

end Airix.Ide
