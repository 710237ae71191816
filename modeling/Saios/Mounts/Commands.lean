/-
  THE MOUNT COMMANDS (`seed/saios/src/shell/native.rs`, `seed/saios/src/diskpart.rs`).

  Two programs mount volumes, and both keep TWO tables up to date: the mount records of the VFS and the
  `mounted_at` markers of the storage driver.

  1. **Program** — `Shell.cmdMount`, `Shell.cmdUmount`, `Diskpart.cmdMount`, `Diskpart.cmdUmount`,
     `Diskpart.cmdScan`.  Mounting makes the directory and ignores whether that worked, writes the VFS
     record, and then marks the volume; unmounting removes the record and then clears the mark, and
     ignores whether that worked.  What they print is left out.

  2. **Runs** — `Command` / `exec` / `step`.  The PCI devices that a scan finds are part of the command.
-/
import Saios.Vfs.Safety

namespace Saios.Mounts

open Path Vfs

/-! ## Program -/

/-- Both mount commands, once the volume is found. -/
def mountFound (w : World) (device mountpoint : Str) (vol : Storage.DetectedVolume) (readOnly : Bool) :
    Option (Except String Unit × World) := do
  -- the result of `mkdir` is ignored
  let made ← Vfs.mkdir w mountpoint
  match ← Vfs.mount made.2 mountpoint vol.filesystem.asStr readOnly with
  | (.error e, w) => some (.error e, w)
  | (.ok (), w) => some (w.viaStorage (Storage.mountVolume w.storage device mountpoint readOnly))

/-- Both unmount commands. -/
def umountAt (w : World) (mountpoint : Str) : Option (Except String Unit × World) := do
  match ← Vfs.umount w mountpoint with
  | (.error e, w) => some (.error e, w)
  | (.ok (), w) =>
      -- the result of `umount_volume` is ignored
      some (.ok (), { w with storage := (Storage.umountVolume w.storage mountpoint).2 })

def rescanned (w : World) (devs : List Storage.PciDevice) : World :=
  { w with storage := Storage.rescan w.storage devs }

namespace Shell

def cmdMount (w : World) (devs : List Storage.PciDevice) (args : List Str) :
    Option (Except String Unit × World) :=
  let sub := args.head?.getD "list".toList
  if sub = "list".toList ∨ sub = "ls".toList then some (.ok (), w)
  else if sub = "scan".toList then some (.ok (), rescanned w devs)
  else if sub = "help".toList then some (.ok (), w)
  else
    match args[1]? with
    | none => some (.error "mount: usage: mount <device> <path> [ro]", w)
    | some mountpoint =>
        if mountpoint = "/".toList ∨ mountpoint = "/boot".toList ∨ mountpoint = "/bin".toList then
          some (.error "mount: cannot mount over a system directory", w)
        else
          let readOnly := args[2]?.any fun f => Storage.eqIgnoreAsciiCase f "ro".toList
          match Storage.findVolume w.storage sub with
          | none => some (.error "mount: volume not found (run 'mount scan' to refresh)", w)
          | some vol => mountFound w sub mountpoint vol readOnly

def cmdUmount (w : World) (args : List Str) : Option (Except String Unit × World) :=
  match args.head? with
  | none => some (.error "umount: usage: umount <path>", w)
  | some mountpoint => umountAt w mountpoint

end Shell

namespace Diskpart

def cmdMount (w : World) (name path : Str) (readOnly : Bool) : Option (Except String Unit × World) :=
  match Storage.findVolume w.storage name with
  | none => some (.error "diskpart: volume not found (run 'diskpart scan' to refresh)", w)
  | some vol => mountFound w name path vol readOnly

def cmdUmount (w : World) (path : Str) : Option (Except String Unit × World) := umountAt w path

def cmdScan (w : World) (devs : List Storage.PciDevice) : Option (Except String Unit × World) :=
  some (.ok (), rescanned w devs)

end Diskpart

/-! ## Runs -/

inductive Command
  | shellMount (args : List Str) (devs : List Storage.PciDevice)
  | shellUmount (args : List Str)
  | diskpartMount (name path : Str) (readOnly : Bool)
  | diskpartUmount (path : Str)
  | diskpartScan (devs : List Storage.PciDevice)
  deriving DecidableEq

def exec (w : World) : Command → Option (Except String Unit × World)
  | .shellMount args devs => Shell.cmdMount w devs args
  | .shellUmount args => Shell.cmdUmount w args
  | .diskpartMount name path readOnly => Diskpart.cmdMount w name path readOnly
  | .diskpartUmount path => Diskpart.cmdUmount w path
  | .diskpartScan devs => Diskpart.cmdScan w devs

def step (w : Option World) (cmd : Command) : Option World := w.bind fun w => (exec w cmd).map Prod.snd

/-- What a command asks for, once its arguments are read. -/
inductive Request
  | mount (device mountpoint : Str) (readOnly : Bool)
  | umount (mountpoint : Str)
  | scan (devs : List Storage.PciDevice)

def Command.request : Command → Option Request
  | .shellMount args devs =>
      let sub := args.head?.getD "list".toList
      if sub = "list".toList ∨ sub = "ls".toList then none
      else if sub = "scan".toList then some (.scan devs)
      else if sub = "help".toList then none
      else
        match args[1]? with
        | none => none
        | some mountpoint =>
            if mountpoint = "/".toList ∨ mountpoint = "/boot".toList ∨ mountpoint = "/bin".toList then none
            else some (.mount sub mountpoint
              (args[2]?.any fun f => Storage.eqIgnoreAsciiCase f "ro".toList))
  | .shellUmount args => args.head?.map .umount
  | .diskpartMount name path readOnly => some (.mount name path readOnly)
  | .diskpartUmount path => some (.umount path)
  | .diskpartScan devs => some (.scan devs)

/-- The world after a request. -/
def after (w : World) : Option Request → Option World
  | none => some w
  | some (.mount device mountpoint readOnly) =>
      match Storage.findVolume w.storage device with
      | none => some w
      | some vol => (mountFound w device mountpoint vol readOnly).map Prod.snd
  | some (.umount mountpoint) => (umountAt w mountpoint).map Prod.snd
  | some (.scan devs) => some (rescanned w devs)

theorem after_missing {w : World} {device mountpoint : Str} {readOnly : Bool}
    (h : Storage.findVolume w.storage device = none) :
    after w (some (.mount device mountpoint readOnly)) = some w := by
  simp only [after, h]

theorem after_found {w : World} {device mountpoint : Str} {readOnly : Bool} {vol : Storage.DetectedVolume}
    (h : Storage.findVolume w.storage device = some vol) :
    after w (some (.mount device mountpoint readOnly)) =
      (mountFound w device mountpoint vol readOnly).map Prod.snd := by
  simp only [after, h]

/-- **A command does what it asks for**, whichever program it belongs to. -/
theorem step_eq (w : World) (cmd : Command) : step (some w) cmd = after w cmd.request := by
  cases cmd with
  | shellMount args devs =>
    show (Shell.cmdMount w devs args).map Prod.snd = _
    unfold Shell.cmdMount Command.request
    simp only
    split
    · rfl
    split
    · rfl
    split
    · rfl
    cases args[1]? with
    | none => rfl
    | some mountpoint =>
      simp only
      split
      · rfl
      · show _ = (match Storage.findVolume w.storage _ with | none => _ | some vol => _)
        split <;> rfl
  | shellUmount args =>
    show (Shell.cmdUmount w args).map Prod.snd = after w (args.head?.map .umount)
    unfold Shell.cmdUmount
    cases args.head? with
    | none => rfl
    | some mountpoint => rfl
  | diskpartMount name path readOnly =>
    show (Diskpart.cmdMount w name path readOnly).map Prod.snd = _
    unfold Diskpart.cmdMount
    show _ = (match Storage.findVolume w.storage name with | none => _ | some vol => _)
    split <;> rfl
  | diskpartUmount path => rfl
  | diskpartScan devs => rfl

end Saios.Mounts
