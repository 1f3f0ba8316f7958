import Airix.Base
import Airix.Lib.Rings

/-!
# The IDE driver (`kernel/ide.c`)

A `struct dma_io_data` is named by the address that `slab_alloc` returned for it. The lists of the two
buses share the heap of links; `dma_io_data[bus]` is the sentinel of a list. The bus-master status byte
that a poll reads is an argument of the poll.
-/

namespace Airix.Ide

def sectorSize : Nat := 512

/-- `IDE_ATA_BUS_COUNT` and `IDE_ATA_DRIVE_COUNT`. -/
def busCount : Nat := 2
def driveCount : Nat := 2

/-- `enum ide_bar`. -/
def bar0 : Nat := 0x1f0
def bar1 : Nat := 0x3f4
def bar2 : Nat := 0x170
def bar3 : Nat := 0x374

/-- `enum ide_ata_command`. -/
def commandReadDma : Nat := 0xc8
def commandReadDmaExt : Nat := 0x25
def commandWriteDma : Nat := 0xca
def commandWriteDmaExt : Nat := 0x35

/-- `enum ide_register`. -/
def regFeatureError : Nat := 1
def regSectorCount : Nat := 2
def regLbaLo : Nat := 3
def regLbaMid : Nat := 4
def regLbaHi : Nat := 5
def regDriveSelect : Nat := 6
def regCommandStatus : Nat := 7

/-- `enum ide_bus_master` and `enum bus_master_cmd`. -/
def busMasterCmd : Nat := 0
def busMasterStatus : Nat := 2
def busMasterPrdt : Nat := 4
def busMasterCmdWrite : Nat := 0x0
def busMasterCmdRead : Nat := 0x8

/-- `struct drive` without its model string. -/
structure Drive where
  bus : Nat
  drive : Nat
  bmReg : Nat
  baseReg : Nat
  controlReg : Nat
  exist : Bool
  lba48 : Bool
  sectors : Nat
deriving DecidableEq, Repr

/-- `ide_on_io_complete_t`: `sync_io_complete`, which is static, or a function of a caller. -/
inductive Complete
  | sync
  | other (func : Nat)
deriving DecidableEq, Repr

/-- `struct ide_dma_io`. -/
structure DmaIo where
  drive : Nat
  sectorCount : Nat
  start : Nat
  buffer : Nat
  size : Nat
  data : Nat
  completeFunc : Complete
deriving DecidableEq, Repr

/-- `struct ide_io`. -/
structure Io where
  drive : Nat
  sectorCount : Nat
  start : Nat
  buffer : Nat
  size : Nat
deriving DecidableEq, Repr

/-- `struct dma_io_data` without its links. `serial` numbers the submissions; the code has no such field and
nothing reads it. -/
structure DmaIoData where
  io : DmaIo
  retry : Nat
  bmCmd : Nat
  cmd : Nat
  serial : Nat
deriving DecidableEq, Repr

/-- `struct prd_entry`. -/
structure PrdEntry where
  physicalAddr : Nat
  size : Nat
  reserved : Nat
deriving DecidableEq, Repr

inductive Out
  | byte (port value : Nat)
  | dword (port value : Nat)
deriving DecidableEq, Repr

inductive Node
  | head (bus : Nat)
  | data (ptr : Nat)
deriving DecidableEq, Repr

/-- What happens to the requests of a bus, named by their serial numbers. -/
inductive Event
  | submit (serial : Nat) (io : DmaIo)
  | start (serial : Nat)
  /-- The status byte was read while the request was the first of the list. -/
  | poll (serial status : Nat)
  | unlink (serial : Nat)
  | callback (serial : Nat) (io : DmaIo) (error : Bool)
deriving DecidableEq, Repr

/-- `flags` are the variables that `sync_io_complete` writes to. `log` are the events of each bus and
`submitted` counts the submissions; nothing reads these two. -/
structure State where
  drives : Nat → Drive
  prdt : Nat → PrdEntry
  prdtAddr : Nat → Nat
  ports : List Out
  objs : Nat → Option DmaIoData
  links : Links Node
  flags : Nat → Bool
  submitted : Nat
  log : Nat → List Event

inductive Panic
  /-- "[IDE] - drive not exist, drive no: %d." -/
  | driveNotExist (drive : Nat)
  /-- "[IDE] - out of sector's range, total sectors: %u, start: %u, count: %u." -/
  | outOfRange (sectors start count : Nat)
  /-- "[IDE] - io buffer size(%u) != 512 * sector_count(%u)." -/
  | bufferSize (size count : Nat)
  /-- An access through a pointer to no object. -/
  | fault
deriving DecidableEq, Repr

namespace State

def emit (s : State) (bus : Nat) (e : Event) : State :=
  { s with log := Function.update s.log bus (s.log bus ++ [e]) }

def out (s : State) (outs : List Out) : State := { s with ports := s.ports ++ outs }

def setObj (s : State) (p : Nat) (d : Option DmaIoData) : State :=
  { s with objs := Function.update s.objs p d }

end State

/-! ### Programming the controller -/

/-- The register writes of `start_io_operation`. -/
def startOutputs (d : Drive) (prdtAddr : Nat) (data : DmaIoData) : List Out :=
  let count := data.io.sectorCount
  let start := data.io.start
  [.byte (d.bmReg + busMasterCmd) 0x0,
   .dword (d.bmReg + busMasterPrdt) (castVirtualToPhysical prdtAddr),
   .byte (d.bmReg + busMasterCmd) (data.bmCmd ||| 0x1)] ++
  (if d.lba48 then
    [.byte (d.baseReg + regDriveSelect) (0x40 ||| d.drive * 2 ^ 4),
     .byte (d.baseReg + regSectorCount) (count / 2 ^ 8 % 256),
     .byte (d.baseReg + regLbaLo) (start / 2 ^ 24 % 256),
     .byte (d.baseReg + regLbaMid) (start / 2 ^ 32 % 256),
     .byte (d.baseReg + regLbaHi) (start / 2 ^ 40 % 256),
     .byte (d.baseReg + regSectorCount) (count % 256),
     .byte (d.baseReg + regLbaLo) (start % 256),
     .byte (d.baseReg + regLbaMid) (start / 2 ^ 8 % 256),
     .byte (d.baseReg + regLbaHi) (start / 2 ^ 16 % 256)]
  else
    [.byte (d.baseReg + regDriveSelect) (0xe0 ||| d.drive * 2 ^ 4 ||| start / 2 ^ 24 % 16),
     .byte (d.baseReg + regFeatureError) 0,
     .byte (d.baseReg + regSectorCount) (count % 256),
     .byte (d.baseReg + regLbaLo) (start % 256),
     .byte (d.baseReg + regLbaMid) (start / 2 ^ 8 % 256),
     .byte (d.baseReg + regLbaHi) (start / 2 ^ 16 % 256)]) ++
  [.byte (d.baseReg + regCommandStatus) data.cmd]

def startIoOperation (s : State) (data : DmaIoData) : State :=
  let d := s.drives data.io.drive
  let s := { s with prdt := Function.update s.prdt d.bus ⟨data.io.buffer, data.io.size % 2 ^ 16, 0x8000⟩ }
  let s := s.out (startOutputs d (s.prdtAddr d.bus) data)
  s.emit d.bus (.start data.serial)

/-! ### Completion -/

/-- The call of `io.complete_func`; `sync_io_complete` writes to the variable that `data` points to. -/
def callComplete (s : State) (bus : Nat) (data : DmaIoData) (error : Bool) : State :=
  let s := match data.io.completeFunc with
    | .sync => { s with flags := Function.update s.flags data.io.data error }
    | .other _ => s
  s.emit bus (.callback data.serial data.io error)

def completeIoOperation (s : State) (bus ptr : Nat) (data : DmaIoData) (error : Bool) : Except Panic State := do
  let s := { s with links := s.links.unlink (.data ptr) }
  let s := (s.setObj ptr none).emit bus (.unlink data.serial)
  let s ← match s.links.next (.head bus) with
    | some (.data next) =>
      match s.objs next with
      | some d => pure (startIoOperation s d)
      | none => throw .fault
    | _ => pure s
  return callComplete s bus data error

/-- `status` is what `in_byte` reads from the bus master. -/
def checkIfIoComplete (s : State) (bus status : Nat) : Except Panic State :=
  match s.links.next (.head bus) with
  | some (.data ptr) =>
    match s.objs ptr with
    | none => throw .fault
    | some data =>
      let d := s.drives data.io.drive
      let s := s.emit bus (.poll data.serial status)
      if status &&& 0x2 ≠ 0 then
        let s := s.out [.byte (d.bmReg + busMasterStatus) 0x2, .byte d.controlReg 0x4, .byte d.controlReg 0]
        if data.retry = 0 then
          let data := { data with retry := 1 }
          pure (startIoOperation (s.setObj ptr (some data)) data)
        else completeIoOperation s bus ptr data true
      else if status &&& 0x1 = 0 then completeIoOperation s bus ptr data false
      else pure s
  | _ => pure s

/-! ### Submission -/

/-- `ptr` is what `slab_alloc` returns. -/
def dmaIoSectors (s : State) (ptr : Nat) (io : DmaIo) (bmCmd cmd : Nat) : Except Panic State :=
  if ptr = 0 then throw .fault
  else
    let bus := (s.drives io.drive).bus
    let data : DmaIoData := { io := io, retry := 0, bmCmd := bmCmd, cmd := cmd, serial := s.submitted }
    let s : State := { s.setObj ptr (some data) with submitted := s.submitted + 1 }
    let s := s.emit bus (.submit data.serial io)
    let s := if s.links.next (.head bus) = some (.head bus) then startIoOperation s data else s
    pure { s with links := s.links.insertBack (.head bus) (.data ptr) }

def checkDrive (s : State) (io : DmaIo) : Except Panic Unit :=
  let d := s.drives io.drive
  if io.drive ≥ busCount * driveCount ∨ !d.exist then throw (.driveNotExist io.drive)
  else if io.start ≥ d.sectors ∨ d.sectors - io.start < io.sectorCount then
    throw (.outOfRange (u32 d.sectors) (u32 io.start) io.sectorCount)
  else if io.size ≠ io.sectorCount * sectorSize then throw (.bufferSize io.size io.sectorCount)
  else pure ()

def ideDmaReadSectors (s : State) (ptr : Nat) (io : DmaIo) : Except Panic State := do
  checkDrive s io
  dmaIoSectors s ptr io busMasterCmdRead (if (s.drives io.drive).lba48 then commandReadDmaExt else commandReadDma)

def ideDmaWriteSectors (s : State) (ptr : Nat) (io : DmaIo) : Except Panic State := do
  checkDrive s io
  dmaIoSectors s ptr io busMasterCmdWrite (if (s.drives io.drive).lba48 then commandWriteDmaExt else commandWriteDma)

/-! ### Synchronous requests -/

/-- The wait loop of `sync_io_sectors`, with the status bytes of its polls; `none` when they run out. -/
def syncWait (bus : Nat) : List Nat → State → Except Panic (Option State)
  | [], s => pure (if s.links.next (.head bus) = some (.head bus) then some s else none)
  | status :: statuses, s =>
    if s.links.next (.head bus) = some (.head bus) then pure (some s)
    else do
      let s ← checkIfIoComplete s bus status
      syncWait bus statuses s

/-- The `struct ide_dma_io` of a synchronous request. -/
def syncIo (io : Io) (error : Nat) : DmaIo where
  drive := io.drive
  sectorCount := io.sectorCount
  start := io.start
  buffer := io.buffer
  size := io.size
  data := error
  completeFunc := .sync

/-- `error` is the address of the local variable. -/
def syncIoSectors (s : State) (ptr error : Nat) (io : Io) (ioFunc : State → Nat → DmaIo → Except Panic State)
    (statuses : List Nat) : Except Panic (Option (Bool × State)) := do
  let s := { s with flags := Function.update s.flags error false }
  let s ← ioFunc s ptr (syncIo io error)
  let s ← syncWait (s.drives io.drive).bus statuses s
  return s.map fun s => (!s.flags error, s)

def ideReadSectors (s : State) (ptr error : Nat) (io : Io) (statuses : List Nat) :
    Except Panic (Option (Bool × State)) :=
  syncIoSectors s ptr error io ideDmaReadSectors statuses

def ideWriteSectors (s : State) (ptr error : Nat) (io : Io) (statuses : List Nat) :
    Except Panic (Option (Bool × State)) :=
  syncIoSectors s ptr error io ideDmaWriteSectors statuses

/-! ### Initialisation -/

/-- What `detect_drive` finds: whether the drive exists, supports LBA48 and how many sectors it has. -/
structure Detected where
  exist : Bool
  lba48 : Bool
  sectors : Nat
deriving DecidableEq, Repr

/-- The registers that `ide_initialize` gives the drive `i`. -/
def initDrive (bmDma : Nat) (detected : Nat → Detected) (i : Nat) : Drive :=
  let bus := i / driveCount
  let primary := bus = 0
  { bus := bus
    drive := i % driveCount
    bmReg := if primary then bmDma else bmDma + 0x8
    baseReg := if primary then bar0 else bar2
    controlReg := if primary then bar1 + 2 else bar3 + 2
    exist := (detected i).exist
    lba48 := (detected i).lba48
    sectors := (detected i).sectors }

/-- The lists of `initialize_io_data`. -/
def initLinks : Links Node :=
  (List.range busCount).foldl (fun links i => links.init (.head i)) ⟨fun _ => none, fun _ => none⟩

def ideInitialize (bmDma : Nat) (prdtAddr : Nat → Nat) (detected : Nat → Detected) : State where
  drives := initDrive bmDma detected
  prdt := fun _ => ⟨0, 0, 0⟩
  prdtAddr := prdtAddr
  ports := []
  objs := fun _ => none
  links := initLinks
  flags := fun _ => false
  submitted := 0
  log := fun _ => []

end Airix.Ide
