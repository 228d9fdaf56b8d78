import Manos.Lib.CStr

/-!
# Devices and their namespaces

The devices of `deviceTable` and the static namespaces that they serve, as the tables that
their sources and, for the uarts and the timers, the functions `resetUart` and `resetTimer`
build.
-/

namespace Dev

/-- A name, or another text without its end. -/
abbrev Name : Type := List Byte

/-- The characters of a text. -/
def text (s : String) : Name := s.toList.map fun c => .ofNat 8 c.toNat

/-! ### Crumbs -/

/-- `CRUMB_ISDIR` -/
def crumbIsDir : ℕ := 0x80

/-- `CRUMB_ISMOUNT` -/
def crumbIsMount : ℕ := 0x10

/-- `CRUMB_ISSTATIC` -/
def crumbIsStatic : ℕ := 0x02

/-- `CRUMB_ISFILE` -/
def crumbIsFile : ℕ := 0x01

/-- A namespace object identifier and metadata. -/
structure Crumb where
  flags : ℕ
  fid : ℕ
deriving DecidableEq

instance : Inhabited Crumb := ⟨0, 0⟩

/-- `STATICNS_SENTINEL` -/
def staticNSSentinel : ℕ := 0xffff

/-- `MKSTATICNS_FID` -/
def mkStaticNSFid (p s : ℕ) : ℕ := ((p &&& 0xfff) <<< 16) ||| (s &&& 0xffff)

/-- `MKSTATICNS_CRUMB` -/
def mkStaticNSCrumb (p s f : ℕ) : Crumb := ⟨f ||| crumbIsStatic, mkStaticNSFid p s⟩

namespace Crumb

/-- `STATICNS_CRUMB_ISSENTINEL` -/
def isSentinel (c : Crumb) : Bool :=
  c.flags &&& crumbIsStatic ≠ 0 ∧ c.fid = staticNSSentinel

/-- `STATICNS_CRUMB_PARENT_IDX` -/
def parentIdx (c : Crumb) : ℕ := (c.fid >>> 16) &&& 0xffff

/-- `STATICNS_CRUMB_SELF_IDX` -/
def selfIdx (c : Crumb) : ℕ := c.fid &&& 0xffff

def isDir (c : Crumb) : Bool := c.flags &&& crumbIsDir ≠ 0

def isMount (c : Crumb) : Bool := c.flags &&& crumbIsMount ≠ 0

def isStatic (c : Crumb) : Bool := c.flags &&& crumbIsStatic ≠ 0

end Crumb

/-! ### Tables -/

/-- What the field `contents` of a table entry points to. -/
inductive Contents where
  | null
  | text (s : Name)
  /-- a uart, such as the one at a place in `hotpluggedUarts` -/
  | uart (i : ℕ)
  /-- a place in `hotpluggedTimers` -/
  | timer (i : ℕ)
deriving DecidableEq

/-- An entry of a static namespace. -/
structure StaticNS where
  name : Name
  crumb : Crumb
  length : ℕ
  mode : ℕ
  contents : Contents
deriving DecidableEq

/-- The last entry of a static namespace. -/
def sentinel : StaticNS where
  name := []
  crumb := mkStaticNSCrumb staticNSSentinel staticNSSentinel 0
  length := 0
  mode := 0
  contents := .null

/-- A line of a `NAMESPACE_MAP`: name, parent, flags, length, mode and contents. -/
structure Row where
  name : String
  parent : ℕ
  flags : ℕ
  length : ℕ
  mode : ℕ
  contents : Option String

/-- The entries of a `NAMESPACE_MAP`, where the lines are numbered in their order. -/
def namespaceMap (rows : List Row) : List StaticNS :=
  rows.mapIdx fun i r =>
    ⟨text r.name, mkStaticNSCrumb r.parent i r.flags, r.length, r.mode,
      r.contents.elim .null fun s => .text (text s)⟩

/-- `FidDot`, in every table -/
def fidDot : ℕ := 0

/-! ### Devices -/

/-- The devices of `deviceTable`. -/
inductive Device where
  | root | led | swpb | uart | lcd | adc | timer | dev
deriving DecidableEq

/-- `deviceTable` -/
def deviceTable : List Device := [.root, .led, .swpb, .uart, .lcd, .adc, .timer, .dev]

/-- `DEV_DEVROOT` and so on -/
def Device.id : Device → ℕ
  | .root => 'R'.toNat
  | .led => 'l'.toNat
  | .swpb => 'B'.toNat
  | .uart => 'u'.toNat
  | .lcd => 'D'.toNat
  | .adc => 'A'.toNat
  | .timer => 'T'.toNat
  | .dev => '='.toNat

/-- `fromDeviceId` -/
def fromDeviceId (id : ℕ) : ℤ :=
  match deviceTable.findIdx? (·.id = id) with
  | some i => i
  | none => -1

/-- The index of a device in `deviceTable`. -/
def Device.index (d : Device) : ℤ := fromDeviceId d.id

/-- The platforms that the sources are built for. -/
inductive Platform where
  | k70cw | nice
deriving DecidableEq

/-! ### Uarts and timers -/

/-- The parts of a `Uart` and its `UartHW` that do not change. -/
structure Uart where
  hwName : String
  /-- whether there is `hw->getc` -/
  getc : Bool
  /-- whether there is `hw->putc` -/
  putc : Bool

/-- The chains that the entries of `uartHardwareTable` hotplug. -/
def uartHardwareTable : Platform → List (List Uart)
  | .k70cw => [[⟨"k70Uart", true, true⟩], []]
  | .nice => [[], [⟨"stdio", true, true⟩]]

/-- `hotpluggedUarts`, after `resetUart` -/
def hotpluggedUarts (pf : Platform) : List Uart := (uartHardwareTable pf).flatten

/-- The parts of a `Timer` and its `TimerHW` that do not change. -/
structure Timer where
  name : String
  hwName : String

/-- The chains that the entries of `timerHardwareTable` hotplug. -/
def timerHardwareTable : Platform → List (List Timer)
  | .k70cw => [[⟨"k70FTM0", "k70Timer"⟩, ⟨"k70PDB0", "k70MilliTimer"⟩], []]
  | .nice => [[], [⟨"timeval", "niceTimer"⟩]]

/-- `hotpluggedTimers`, after `resetTimer` -/
def hotpluggedTimers (pf : Platform) : List Timer := (timerHardwareTable pf).flatten

/-! ### The namespaces -/

/-- `FidBin` -/
def fidBin : ℕ := 1

/-- `FidDev` -/
def fidDev : ℕ := 2

/-- The entries of `rootSNS`. -/
def rootSNS : List StaticNS := namespaceMap [
  ⟨".", staticNSSentinel, crumbIsDir, 0, 0o555, none⟩,
  ⟨"bin", fidDot, crumbIsDir, 0, 0o555, none⟩,
  ⟨"dev", fidDot, crumbIsDir, 0, 0o555, none⟩,
  ⟨"pwd", fidBin, crumbIsFile, 5, 0o555, "#!pwd"⟩,
  ⟨"ls", fidBin, crumbIsFile, 4, 0o555, "#!ls"⟩,
  ⟨"cat", fidBin, crumbIsFile, 5, 0o555, "#!cat"⟩,
  ⟨"echo", fidBin, crumbIsFile, 6, 0o555, "#!echo"⟩,
  ⟨"date", fidBin, crumbIsFile, 6, 0o555, "#!date"⟩,
  ⟨"toast", fidBin, crumbIsFile, 7, 0o555, "#!toast"⟩,
  ⟨"lsmem", fidBin, crumbIsFile, 7, 0o555, "#!lsmem"⟩,
  ⟨"ps", fidBin, crumbIsFile, 4, 0o555, "#!ps"⟩,
  ⟨"fg", fidBin, crumbIsFile, 4, 0o555, "#!fg"⟩,
  ⟨"fizzbuzz", fidBin, crumbIsFile, 10, 0o555, "#!fizzbuzz"⟩,
  ⟨"swpb", fidDev, crumbIsMount, Device.swpb.id, 0o444, none⟩,
  ⟨"led", fidDev, crumbIsMount, Device.led.id, 0o444, none⟩,
  ⟨"uart", fidDev, crumbIsMount, Device.uart.id, 0o444, none⟩,
  ⟨"lcd", fidDev, crumbIsMount, Device.lcd.id, 0o444, none⟩,
  ⟨"adc", fidDev, crumbIsMount, Device.adc.id, 0o444, none⟩,
  ⟨"timer", fidDev, crumbIsMount, Device.timer.id, 0o444, none⟩,
  ⟨"date", fidDev, crumbIsMount, Device.dev.id, 0o644, "date"⟩,
  ⟨"kprint", fidDev, crumbIsMount, Device.dev.id, 0o222, "kprint"⟩,
  ⟨"interrupts", fidDev, crumbIsMount, Device.dev.id, 0o444, "interrupts"⟩]

/-- The entries of `ledSNS`. -/
def ledSNS : List StaticNS := namespaceMap [
  ⟨".", staticNSSentinel, crumbIsDir, 0, 0o555, none⟩,
  ⟨"orange", fidDot, crumbIsFile, 0, 0o644, none⟩,
  ⟨"yellow", fidDot, crumbIsFile, 0, 0o644, none⟩,
  ⟨"green", fidDot, crumbIsFile, 0, 0o644, none⟩,
  ⟨"blue", fidDot, crumbIsFile, 0, 0o644, none⟩]

/-- The entries of `swpbSNS`. -/
def swpbSNS : List StaticNS := namespaceMap [
  ⟨".", staticNSSentinel, crumbIsDir, 0, 0o555, none⟩,
  ⟨"1", fidDot, crumbIsFile, 0, 0o444, none⟩,
  ⟨"2", fidDot, crumbIsFile, 0, 0o444, none⟩,
  ⟨"1raw", fidDot, crumbIsFile, 0, 0o444, none⟩,
  ⟨"2raw", fidDot, crumbIsFile, 0, 0o444, none⟩]

/-- The first entry of the tables that are built when the devices are reset. -/
def dotEntry : StaticNS :=
  ⟨text ".", ⟨crumbIsDir ||| crumbIsStatic, mkStaticNSFid staticNSSentinel 0⟩, 0, 0o555, .null⟩

/-- `UartCtlFile` -/
def uartCtlFile : ℕ := 0

/-- `UartStatusFile` -/
def uartStatusFile : ℕ := 1

/-- `UartDataFile` -/
def uartDataFile : ℕ := 2

/-- The files of the uart with the number `i`.  Over the clear memory of an entry `fmtSprintf`
stores no name. -/
def uartEntries (i : ℕ) (uart : Uart) : List StaticNS := [
  ⟨text uart.hwName, ⟨crumbIsFile ||| crumbIsStatic, mkStaticNSFid 0 (i * 3 + 1)⟩,
    uartDataFile, 0o666, .uart i⟩,
  ⟨[], ⟨crumbIsFile ||| crumbIsStatic, mkStaticNSFid 0 (i * 3 + 2)⟩, uartCtlFile, 0o666, .uart i⟩,
  ⟨[], ⟨crumbIsFile ||| crumbIsStatic, mkStaticNSFid 0 (i * 3 + 3)⟩, uartStatusFile, 0o444,
    .uart i⟩]

/-- The entries of `uartSNS`, as `resetUart` builds them. -/
def uartSNS (pf : Platform) : List StaticNS :=
  dotEntry :: ((hotpluggedUarts pf).mapIdx uartEntries).flatten

/-- The entries of `lcdSNS`. -/
def lcdSNS : List StaticNS := namespaceMap [
  ⟨".", staticNSSentinel, crumbIsDir, 0, 0o555, none⟩,
  ⟨"clear", fidDot, crumbIsFile, 0, 0o644, none⟩,
  ⟨"fg", fidDot, crumbIsFile, 0, 0o644, none⟩,
  ⟨"bg", fidDot, crumbIsFile, 0, 0o644, none⟩,
  ⟨"blit", fidDot, crumbIsFile, 522240, 0o222, none⟩,
  ⟨"cons", fidDot, crumbIsFile, 0, 0o644, none⟩]

/-- The entries of `adcSNS`. -/
def adcSNS : List StaticNS := namespaceMap [
  ⟨".", staticNSSentinel, crumbIsDir, 0, 0o555, none⟩,
  ⟨"pot", fidDot, crumbIsFile, 0, 0o444, none⟩,
  ⟨"temp", fidDot, crumbIsFile, 0, 0o444, none⟩]

/-- The file of the timer with the number `i`. -/
def timerEntry (i : ℕ) (timer : Timer) : StaticNS :=
  ⟨text timer.hwName, ⟨crumbIsFile ||| crumbIsStatic, mkStaticNSFid 0 (i + 1)⟩, 8, 0o666,
    .timer i⟩

/-- The entries of `timerSNS`, as `resetTimer` builds them. -/
def timerSNS (pf : Platform) : List StaticNS :=
  dotEntry :: (hotpluggedTimers pf).mapIdx timerEntry

/-- The entries of `devdevSNS`. -/
def devdevSNS : List StaticNS := namespaceMap [
  ⟨".", staticNSSentinel, crumbIsDir, 0, 0o555, none⟩,
  ⟨"date", fidDot, crumbIsFile, 0, 0o644, none⟩,
  ⟨"kprint", fidDot, crumbIsFile, 0, 0o222, none⟩,
  ⟨"interrupts", fidDot, crumbIsFile, 0, 0o444, none⟩]

/-- The namespace that a device serves, without the sentinel. -/
def Device.entries (pf : Platform) : Device → List StaticNS
  | .root => rootSNS
  | .led => ledSNS
  | .swpb => swpbSNS
  | .uart => uartSNS pf
  | .lcd => lcdSNS
  | .adc => adcSNS
  | .timer => timerSNS pf
  | .dev => devdevSNS

/-- The table of a device. -/
def Device.sns (pf : Platform) (d : Device) : List StaticNS := d.entries pf ++ [sentinel]

/-! ### Well-formed namespaces -/

/--
What the walks over a table rely on: the entries are numbered in breadth first order, every
directory has an entry, and mounts are no directories.
-/
structure WellFormed (ns : List StaticNS) : Prop where
  pos : 0 < ns.length
  short : ns.length ≤ 0xfff
  static : ∀ e ∈ ns, e.crumb.isStatic
  self : ∀ i (h : i < ns.length), ns[i].crumb.selfIdx = i
  root : ns[0].crumb.isDir ∧ ns[0].crumb.parentIdx = 0xfff
  parent : ∀ i (h : i < ns.length), 0 < i →
    ns[i].crumb.parentIdx < i ∧ (ns[ns[i].crumb.parentIdx]?).any (·.crumb.isDir)
  sorted : ns.tail.Pairwise fun e e' => e.crumb.parentIdx ≤ e'.crumb.parentIdx
  child : ∀ i (h : i < ns.length), ns[i].crumb.isDir → ∃ e ∈ ns, e.crumb.parentIdx = i
  mount : ∀ e ∈ ns, e.crumb.isMount → e.crumb.isDir = false ∧ fromDeviceId e.length ≠ -1

instance (ns : List StaticNS) : Decidable (WellFormed ns) :=
  decidable_of_iff
    ((∃ h : 0 < ns.length, ns[0].crumb.isDir ∧ ns[0].crumb.parentIdx = 0xfff) ∧
      ns.length ≤ 0xfff ∧ (∀ e ∈ ns, e.crumb.isStatic) ∧
      (∀ i (h : i < ns.length), ns[i].crumb.selfIdx = i) ∧
      (∀ i (h : i < ns.length), 0 < i →
        ns[i].crumb.parentIdx < i ∧ (ns[ns[i].crumb.parentIdx]?).any (·.crumb.isDir)) ∧
      (ns.tail.Pairwise fun e e' => e.crumb.parentIdx ≤ e'.crumb.parentIdx) ∧
      (∀ i (h : i < ns.length), ns[i].crumb.isDir → ∃ e ∈ ns, e.crumb.parentIdx = i) ∧
      ∀ e ∈ ns, e.crumb.isMount → e.crumb.isDir = false ∧ fromDeviceId e.length ≠ -1)
    ⟨fun ⟨⟨h₁, h₂⟩, h₃, h₄, h₅, h₆, h₇, h₈, h₉⟩ => ⟨h₁, h₃, h₄, h₅, h₂, h₆, h₇, h₈, h₉⟩,
      fun ⟨h₁, h₃, h₄, h₅, h₂, h₆, h₇, h₈, h₉⟩ => ⟨⟨h₁, h₂⟩, h₃, h₄, h₅, h₆, h₇, h₈, h₉⟩⟩

/-- The namespaces of the devices are well formed. -/
theorem wellFormed_entries (pf : Platform) (d : Device) :
  WellFormed (d.entries pf)
  := by
  cases pf <;> cases d <;> decide +kernel

end Dev
