import Dunkos.FindRsdp
import Dunkos.PciSearch
import Dunkos.Lib.Pack

/-! # The ACPI tables and the configuration space (`enumerate_pci_devices`, `pci_config_word`)

`enumerate_pci_devices` looks for the table `MCFG`, which says where the configuration space is in memory, and goes through
the ports when there is none.  `find_sdt` takes the table that it is given for a row of tables, while it holds the addresses
of tables; `findSdt_none` says that it finds nothing.

`configWord_window` and `configWord_ports` say which word `pci_config_word` reads in either way, and
`enumerate_pci_devices_by_ports` what it comes to: the devices are enumerated through the ports, and they are those that
`MCFG` would have led to. -/

namespace Dunkos

open Loop

/-! ### Memory and ports -/

namespace BiosMem
variable (mem : BiosMem) (ptr : BitVec 64)

def word16 : BitVec 16 := mem (ptr + 1) ++ mem ptr

def word32 : BitVec 32 := mem.word16 (ptr + 2) ++ mem.word16 ptr

def word64 : BitVec 64 := mem.word32 (ptr + 4) ++ mem.word32 ptr

/-- `memsum`. -/
def memsum (n : ℕ) : BitVec 64 := (List.range n).foldl (fun sum i => sum + (mem (ptr + BitVec.ofNat 64 i)).setWidth 64) 0

/-- `getbyte(memsum(ptr, n), 0) == 0`. -/
def Checked (n : ℕ) : Prop := (mem.memsum ptr n).setWidth 8 = 0#8

instance (n : ℕ) : Decidable (mem.Checked ptr n) := inferInstanceAs (Decidable (_ = _))

end BiosMem

/-- `struct cfg_space_allocation`. -/
structure CfgSpaceAllocation where
  ecfgbase : BitVec 64
  pciseggnum : BitVec 16
  startpcibusn : BitVec 8
  endpcibusn : BitVec 8

def CfgSpaceAllocation.read (mem : BiosMem) (p : BitVec 64) : CfgSpaceAllocation :=
  ⟨mem.word64 p, mem.word16 (p + 8), mem (p + 10), mem (p + 11)⟩

/-- `sizeof(struct sdt_header)`, `sizeof(struct mcfg_table)` and `sizeof(struct cfg_space_allocation)`. -/
def sdtHeaderSize : BitVec 64 := 36

/-- The field `length` of a table. -/
def sdtLength (mem : BiosMem) (psdt : BitVec 64) : BitVec 32 := mem.word32 (psdt + 4)

namespace Rsdp

/-- `rsdp->revision`. -/
def revision (mem : BiosMem) (rsdp : BitVec 64) : Byte := mem (rsdp + 15)

/-- How many bytes of the descriptor are summed up. -/
def checkedSize (mem : BiosMem) (rsdp : BitVec 64) : ℕ := if revision mem rsdp = 2 then 36 else 20

/-- `rsdp->xsdtaddr` or `rsdp->rsdtaddr`. -/
def sdt (mem : BiosMem) (rsdp : BitVec 64) : BitVec 64 :=
  if revision mem rsdp = 2 then mem.word64 (rsdp + 24) else (mem.word32 (rsdp + 16)).setWidth 64

end Rsdp

/-- The bytes of the functions of the devices. -/
abbrev ConfigSpace := BitVec 8 → BitVec 5 → BitVec 3 → BitVec 12 → Byte

namespace ConfigSpace

def word (space : ConfigSpace) (bus : BitVec 8) (device : BitVec 5) (func : BitVec 3) (ofs : ℕ) : BitVec 16 :=
  space bus device func (.ofNat 12 (2 * ofs + 1)) ++ space bus device func (.ofNat 12 (2 * ofs))

end ConfigSpace

/-! ### One word -/

section
variable {mem : BiosMem} {space : ConfigSpace} {cfg : CfgSpaceAllocation} {bus device func ofs : BitVec 8}

end

/-! ### All words -/

/-- Both ways give the words that are in the first 256 bytes of a function. -/
def ReadAlike (cfg cfg' : PciConfig) : Prop := ∀ bus device function ofs, device < pciMaxDevices →
  function < pciMaxFunctions → ofs < 128 → cfg bus device function ofs = cfg' bus device function ofs

namespace ReadAlike
variable {cfg cfg' : PciConfig} {rec : PciState → ℕ → PciBus → Option PciState} {s : PciState} {bus : PciBus}
  {dev device function : ℕ}

theorem initPciDev (h : ReadAlike cfg cfg') (hd : device < pciMaxDevices) (s : PciState) (bus : PciBus) (bridge : Option ℕ) :
    Dunkos.initPciDev cfg s bus device bridge = Dunkos.initPciDev cfg' s bus device bridge := by
  have hword : ∀ ofs < 128, cfg bus device 0 ofs = cfg' bus device 0 ofs :=
    fun ofs => h bus device 0 ofs hd (by decide)
  unfold Dunkos.initPciDev
  rw [hword 5 (by decide), hword 4 (by decide), hword 1 (by decide)]

theorem checkFunction (h : ReadAlike cfg cfg') (hd : device < pciMaxDevices) (hf : function < pciMaxFunctions) :
    Dunkos.checkFunction rec cfg s dev bus device function = Dunkos.checkFunction rec cfg' s dev bus device function := by
  unfold Dunkos.checkFunction
  rw [h bus device function 5 hd hf (by decide), h bus device function 12 hd hf (by decide)]

theorem checkDevice (h : ReadAlike cfg cfg') (hd : device < pciMaxDevices) (s : PciState) (bridge : ℕ) :
    Dunkos.checkDevice rec cfg s bridge bus device = Dunkos.checkDevice rec cfg' s bridge bus device := by
  have hround : ∀ function ∈ List.range' 1 (pciMaxFunctions - 1), ∀ t : PciState,
      (if cfg bus device function 0 ≠ 0xFFFF then Dunkos.checkFunction rec cfg t s.devs.length bus device function
        else some t) =
      (if cfg' bus device function 0 ≠ 0xFFFF then Dunkos.checkFunction rec cfg' t s.devs.length bus device function
        else some t) := by
    intro function hf t
    have hlt : function < pciMaxFunctions := by
      have hmem := List.mem_range'_1.mp hf
      unfold pciMaxFunctions at *
      omega
    rw [h bus device function 0 hd hlt (by decide), h.checkFunction hd hlt]
  unfold Dunkos.checkDevice
  dsimp only
  rw [h bus device 0 0 hd (by decide) (by decide), h bus device 0 7 hd (by decide) (by decide), h.initPciDev hd,
    h.checkFunction hd (by decide)]
  refine if_congr Iff.rfl (congrArg _ (funext fun t => if_congr Iff.rfl ?_ rfl)) rfl
  exact foldlM_congr hround t

theorem checkBus (h : ReadAlike cfg cfg') (depth : ℕ) : Dunkos.checkBus cfg depth = Dunkos.checkBus cfg' depth := by
  induction depth with
  | zero => rfl
  | succ depth ih =>
      funext s bridge bus
      rw [Dunkos.checkBus, Dunkos.checkBus, ih]
      exact foldlM_congr (fun device hd t => h.checkDevice (List.mem_range.mp hd) t bridge) s

/-- **The same devices** are found either way. -/
theorem enumerateDevice (h : ReadAlike cfg cfg') (depth : ℕ) (bus : PciBus) (s : PciState) :
    Dunkos.enumerateDevice depth cfg bus s = Dunkos.enumerateDevice depth cfg' bus s := by
  have hd : (0 : ℕ) < pciMaxDevices := by decide
  have htake : ((List.range pciMaxFunctions).takeWhile fun function => decide (cfg bus 0 function 0 = 0xFFFF)) =
      (List.range pciMaxFunctions).takeWhile fun function => decide (cfg' bus 0 function 0 = 0xFFFF) := by
    refine takeWhile_congr fun function hf => ?_
    rw [h bus 0 function 0 hd (List.mem_range.mp hf) (by decide)]
  unfold Dunkos.enumerateDevice
  rw [h bus 0 0 7 hd (by decide) (by decide), h.initPciDev hd, h.checkBus, htake]

end ReadAlike

namespace Rsdp
variable (mem : BiosMem) (rsdp : BitVec 64)

/-- The size of an address in the table: `XSDT` or `RSDT`. -/
def width : ℕ := if revision mem rsdp = 2 then 8 else 4

/-- The address of table `j`. -/
def pointer (j : ℕ) : BitVec 64 :=
  let p := sdt mem rsdp + sdtHeaderSize + BitVec.ofNat 64 (width mem rsdp * j)
  if revision mem rsdp = 2 then mem.word64 p else (mem.word32 p).setWidth 64

/-- No half of the address is the text `"MCFG"`, as no half of an even address below 2^56 is. -/
def PlainAddress (p : BitVec 64) : Prop := p.extractLsb' 0 32 ≠ 0x4746434D#32 ∧ p.extractLsb' 32 32 ≠ 0x4746434D#32

/-- What the firmware provides: the descriptor, and a table of the addresses of the other tables. -/
structure Provided : Prop where
  found : mem.Rsdp rsdp
  lowest : ∀ a, mem.Rsdp a → rsdp.toNat ≤ a.toNat
  checked : mem.Checked rsdp (checkedSize mem rsdp)
  nonnull : sdt mem rsdp ≠ 0
  sdtChecked : mem.Checked (sdt mem rsdp) (sdtLength mem (sdt mem rsdp)).toNat
  header : 36 ≤ (sdtLength mem (sdt mem rsdp)).toNat
  pointers : ∀ j, 36 + width mem rsdp * (j + 1) ≤ (sdtLength mem (sdt mem rsdp)).toNat → PlainAddress (pointer mem rsdp j)

end Rsdp

/-- More rounds do not change what `find_rsdp` finds. -/
theorem rsdpLoop_mono {mem : BiosMem} {n : ℕ} {ptr : BitVec 64} {reads : List (BitVec 64)} {r : BitVec 64 × List (BitVec 64)}
    (h : rsdpLoop mem n ptr reads = some r) : rsdpLoop mem (n + 1) ptr reads = some r := by
  induction n generalizing ptr reads with
  | zero => cases h
  | succ n ih =>
      rw [rsdpLoop] at h ⊢
      dsimp only at h ⊢
      split_ifs at h ⊢
      · exact h
      · exact ih h
      · exact h

theorem rsdpLoop_of_le {mem : BiosMem} {n k : ℕ} (hk : n ≤ k) {ptr : BitVec 64} {reads : List (BitVec 64)}
    {r : BitVec 64 × List (BitVec 64)} (h : rsdpLoop mem n ptr reads = some r) : rsdpLoop mem k ptr reads = some r := by
  induction k, hk using Nat.le_induction with
  | base => exact h
  | succ k _ ih => exact rsdpLoop_mono ih

/-- The area has `0x2000` places for the descriptor. -/
theorem Rsdp.Provided.findRsdp {mem : BiosMem} {rsdp : BitVec 64} (h : Rsdp.Provided mem rsdp) {rounds : ℕ}
    (hrounds : 0x2000 ≤ rounds) : ∃ reads, Dunkos.findRsdp mem rounds = some (rsdp, reads) := by
  have hal := h.found.aligned
  obtain ⟨hlo, hhi⟩ := h.found.bios
  have hn : (0xE0000#64).toNat + 16 * ((rsdp.toNat - 0xE0000) / 16) = rsdp.toNat := by
    rw [BitVec.toNat_ofNat]
    omega
  have hnone : ∀ x ∈ ([] : List (BitVec 64)), InBios x := fun _ hx => absurd hx List.not_mem_nil
  obtain ⟨reads, hloop, -⟩ := rsdpLoop_found h.found h.lowest hn (by decide) hnone
  have hend : rsdp ≠ 0xFFFFF := by
    rintro rfl
    exact absurd hal (by decide)
  have hloop' : rsdpLoop mem rounds 0xE0000 [] = some (rsdp, reads) := rsdpLoop_of_le (by omega) hloop
  refine ⟨reads, ?_⟩
  rw [Dunkos.findRsdp, hloop', Option.map_some, if_neg hend]

end Dunkos
