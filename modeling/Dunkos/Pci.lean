import Dunkos.ListSpec
import Dunkos.Lib.Descent
import Dunkos.Lib.Loop

/-! # The walk over the PCI buses (`kern/lib/io/pci.c`)

`check_bus`, `check_device` and `check_function` call each other along the bridges of the configuration space; the
number of a bus behind a bridge is what a register says.  `checkBus` gives them a depth, and is `none` when the calls
are deeper.  The walk ends exactly where no bus that it comes to can be reached again from itself
(`enumerate_device_ends_iff`).

A record of the walk does not say which slot it was read from: `PciState.slots` remembers that.  `busWalk` is the order in
which the slots are come to, and `checkBus_spec` says that `check_bus` registers these. -/

namespace Dunkos

open Linked Elem Relation Descent Loop

abbrev PciBus := Fin 256

/-- What `pci_config_word` reads for a bus, a device, a function and a word. -/
abbrev PciConfig := PciBus → ℕ → ℕ → ℕ → BitVec 16

/-- `getbyte` of a word. -/
def getbyte (i : BitVec 16) (n : ℕ) : Fin 256 := Fin.ofNat 256 (i.toNat >>> (n * 8))

def pciMaxDevices : ℕ := 32
def pciMaxFunctions : ℕ := 8
def pciHeaderMultifn : ℕ := 1 <<< 7
def pciDclassBridge : Fin 256 := 6

/-- `struct pci_device`. -/
structure PciDevice where
  dclass : Fin 256
  subclass : Fin 256
  progif : Fin 256
  id : BitVec 16
  buses : ℕ → PciBus
  bridge : Option ℕ

abbrev Slot := PciBus × ℕ

/-- The records that `kcalloc` gave, each named by its place, and the lists of `device_table`. -/
structure PciState where
  devs : List PciDevice
  slots : List Slot
  table : ListMem (Fin 256) ℕ

/-- `kcalloc` and `init_pci_dev`. -/
def initPciDev (cfg : PciConfig) (s : PciState) (bus : PciBus) (dev : ℕ) (bridge : Option ℕ) : PciState :=
  let classdata := cfg bus dev 0 5
  let pciDev : PciDevice :=
    { dclass := getbyte classdata 1
      subclass := getbyte classdata 0
      progif := getbyte (cfg bus dev 0 4) 1
      id := cfg bus dev 0 1
      buses := Function.update (fun _ => 0) 0 bus
      bridge := bridge }
  { devs := s.devs ++ [pciDev]
    slots := s.slots ++ [(bus, dev)]
    table := listPushBack s.table pciDev.dclass (node s.devs.length) }

/-- `dev->buses[function] = bus`. -/
def PciState.setBus (s : PciState) (dev function : ℕ) (bus : PciBus) : PciState :=
  { s with devs := s.devs.modify dev fun d => { d with buses := Function.update d.buses function bus } }

section
variable (checkBus : PciState → ℕ → PciBus → Option PciState) (cfg : PciConfig)

def checkFunction (s : PciState) (dev : ℕ) (bus : PciBus) (device function : ℕ) : Option PciState :=
  let classdata := cfg bus device function 5
  if getbyte classdata 1 = pciDclassBridge ∧ getbyte classdata 0 = 4 then
    let sndbus := getbyte (cfg bus device function 12) 1
    checkBus (s.setBus dev function sndbus) dev sndbus
  else some s

def checkDevice (s : PciState) (bridge : ℕ) (bus : PciBus) (device : ℕ) : Option PciState :=
  if cfg bus device 0 0 ≠ 0xFFFF then
    let dev := s.devs.length
    (checkFunction checkBus cfg (initPciDev cfg s bus device (some bridge)) dev bus device 0).bind fun s =>
      let headerType := (getbyte (cfg bus device 0 7) 0).val
      if headerType &&& pciHeaderMultifn ≠ 0 then
        (List.range' 1 (pciMaxFunctions - 1)).foldlM (fun s function =>
          if cfg bus device function 0 ≠ 0xFFFF then checkFunction checkBus cfg s dev bus device function
          else some s) s
      else some s
  else some s

end

/-- `check_bus`; `none` when the calls are more than `fuel` deep. -/
def checkBus (cfg : PciConfig) : ℕ → PciState → ℕ → PciBus → Option PciState
  | 0, _, _, _ => none
  | fuel + 1, s, bridge, bus =>
    (List.range pciMaxDevices).foldlM (fun s dev => checkDevice (checkBus cfg fuel) cfg s bridge bus dev) s

/-- `enumerate_device` for a controller on the bus `bus`. -/
def enumerateDevice (fuel : ℕ) (cfg : PciConfig) (bus : PciBus) (s : PciState) : Option PciState :=
  let headerType := (getbyte (cfg bus 0 0 7) 0).val
  let dev := s.devs.length
  let s := initPciDev cfg s bus 0 none
  if headerType &&& pciHeaderMultifn = 0 then checkBus cfg fuel s dev 0
  else
    -- the loop breaks at the first function that is there
    ((List.range pciMaxFunctions).takeWhile fun function => cfg bus 0 function 0 = 0xFFFF).foldlM
      (fun s function => checkBus cfg fuel s dev (Fin.ofNat 256 function)) s

/-! ### The buses behind the bridges -/

section
variable (cfg : PciConfig) (bus : PciBus) (device function : ℕ)

/-- The function has a vendor. -/
abbrev There : Prop := cfg bus device function 0 ≠ 0xFFFF

abbrev Multifn : Prop := (getbyte (cfg bus device 0 7) 0).val &&& pciHeaderMultifn ≠ 0

abbrev IsBridge : Prop :=
  getbyte (cfg bus device function 5) 1 = pciDclassBridge ∧ getbyte (cfg bus device function 5) 0 = 4

def sndbus : PciBus := getbyte (cfg bus device function 12) 1

/-- The functions of a slot that `check_device` looks at. -/
def slotFunctions : List ℕ :=
  0 :: if Multifn cfg bus device then
    (List.range' 1 (pciMaxFunctions - 1)).filter fun function => There cfg bus device function
  else []

/-- The function is looked at and is a bridge to the bus `c`. -/
structure BridgeTo (c : PciBus) : Prop where
  there : There cfg bus device 0
  looked : function ∈ slotFunctions cfg bus device
  bridge : IsBridge cfg bus device function
  snd : sndbus cfg bus device function = c

/-- A bridge of the bus leads to the bus `c`. -/
def Leads (c : PciBus) : Prop := ∃ device < pciMaxDevices, ∃ function, BridgeTo cfg bus device function c

/-- The buses that `enumerate_device` checks for a controller on `bus`. -/
def busesChecked : List PciBus :=
  if Multifn cfg bus 0 then
    ((List.range pciMaxFunctions).takeWhile fun function => cfg bus 0 function 0 = 0xFFFF).map (Fin.ofNat 256)
  else [0]

end

section
variable {rec : PciState → ℕ → PciBus → Option PciState} {cfg : PciConfig} {s : PciState} {bus : PciBus}
  {bridge device fuel : ℕ}

theorem checkDevice_eq (rec : PciState → ℕ → PciBus → Option PciState) (cfg : PciConfig) (s : PciState) (bridge : ℕ)
    (bus : PciBus) (device : ℕ) : checkDevice rec cfg s bridge bus device =
      if There cfg bus device 0 then
        (slotFunctions cfg bus device).foldlM
          (fun t function => checkFunction rec cfg t s.devs.length bus device function)
          (initPciDev cfg s bus device (some bridge))
      else some s := by
  unfold checkDevice slotFunctions
  by_cases hthere : There cfg bus device 0
  · rw [if_pos hthere, if_pos hthere, List.foldlM_cons]
    show Option.bind _ _ = Option.bind _ _
    refine congrArg _ (funext fun t => ?_)
    by_cases hmulti : Multifn cfg bus device
    · rw [if_pos hmulti, if_pos hmulti, List.foldlM_filter]
      simp only [decide_eq_true_eq]
      rfl
    · rw [if_neg hmulti, if_neg hmulti]
      rfl
  · rw [if_neg hthere, if_neg hthere]

/-- The calls of `check_device` end where those for the buses behind the slot's bridges do. -/
theorem checkDevice_isSome_iff {P : PciBus → Prop} (hrec : ∀ s bridge b, (rec s bridge b).isSome ↔ P b) :
    (checkDevice rec cfg s bridge bus device).isSome ↔ ∀ c function, BridgeTo cfg bus device function c → P c := by
  have hfun : ∀ dev function t, (checkFunction rec cfg t dev bus device function).isSome ↔
      (IsBridge cfg bus device function → P (sndbus cfg bus device function)) := by
    intro dev function t
    unfold checkFunction
    by_cases hb : IsBridge cfg bus device function
    · rw [if_pos hb, hrec]
      exact ⟨fun h _ => h, fun h => h hb⟩
    · rw [if_neg hb]
      exact iff_of_true rfl fun h => absurd h hb
  rw [checkDevice_eq]
  by_cases hthere : There cfg bus device 0
  · rw [if_pos hthere, foldlM_isSome_iff fun function _ t => hfun _ function t]
    constructor
    · rintro h c function ⟨-, hf, hb, rfl⟩
      exact h function hf hb
    · exact fun h function hf hb => h _ function ⟨hthere, hf, hb, rfl⟩
  · rw [if_neg hthere]
    exact iff_of_true rfl fun c function h => absurd h.there hthere

/-- **How deep the calls are**: as deep as the bridges lead. -/
theorem checkBus_isSome_iff : (checkBus cfg fuel s bridge bus).isSome ↔ EndsIn (Leads cfg) fuel bus := by
  induction fuel generalizing s bridge bus with
  | zero => simp [checkBus, EndsIn]
  | succ fuel ih =>
      have hround : ∀ dev t, (checkDevice (checkBus cfg fuel) cfg t bridge bus dev).isSome ↔
          ∀ c function, BridgeTo cfg bus dev function c → EndsIn (Leads cfg) fuel c :=
        fun dev t => checkDevice_isSome_iff fun s bridge b => @ih s b bridge
      rw [checkBus, foldlM_isSome_iff fun dev _ => hround dev]
      simp only [List.mem_range]
      constructor
      · rintro h c ⟨dev, hdev, function, hc⟩
        exact h dev hdev c function hc
      · exact fun h dev hdev c function hc => h c ⟨dev, hdev, function, hc⟩

theorem enumerateDevice_isSome_iff : (enumerateDevice fuel cfg bus s).isSome ↔
    ∀ b ∈ busesChecked cfg bus, EndsIn (Leads cfg) fuel b := by
  unfold enumerateDevice busesChecked
  by_cases hmulti : Multifn cfg bus 0
  · have hround : ∀ function t, (checkBus cfg fuel t s.devs.length (Fin.ofNat 256 function)).isSome ↔
        EndsIn (Leads cfg) fuel (Fin.ofNat 256 function) := fun _ _ => checkBus_isSome_iff
    rw [if_pos hmulti, if_neg hmulti, foldlM_isSome_iff fun function _ => hround function, List.forall_mem_map]
  · rw [if_neg hmulti, if_pos (not_not.mp hmulti), checkBus_isSome_iff, List.forall_mem_singleton]

end

/-- **Where the enumeration ends**: for any content of the configuration space, exactly when no bus that it comes to
can be reached again from itself. -/
theorem enumerate_device_ends_iff (cfg : PciConfig) (bus : PciBus) (s : PciState) :
    (∃ fuel, (enumerateDevice fuel cfg bus s).isSome) ↔
      ∀ b ∈ busesChecked cfg bus, ∀ c, ReflTransGen (Leads cfg) b c → ¬ TransGen (Leads cfg) c c := by
  simp only [enumerateDevice_isSome_iff]
  constructor
  · rintro ⟨fuel, h⟩ b hb c hc
    exact (h b hb).acyclic hc
  · intro h
    exact exists_common_depth fun b hb => endsIn_iff_acyclic.mpr (h b hb)

/-- A bridge in the first slot of bus 0 whose secondary bus number was never written. -/
def bridgeToZero : PciConfig := fun bus device function ofs =>
  if bus = 0 ∧ device = 0 ∧ function = 0 then if ofs = 5 then 0x0604 else 0 else 0xFFFF

/-- No record yet, and the lists of `device_table` empty. -/
def pciInit : PciState :=
  { devs := [], slots := [], table := listInit ⟨fun _ => null, fun _ => null, fun _ => 0⟩ 0 }

/-- **A bridge to its own bus**: the calls are deeper than any bound. -/
theorem enumerate_device_own_bus : ¬ ∃ fuel, (enumerateDevice fuel bridgeToZero 0 pciInit).isSome := by
  rintro ⟨fuel, h⟩
  have hends := enumerateDevice_isSome_iff.mp h 0 (by decide)
  have hloop : Leads bridgeToZero 0 0 := ⟨0, by decide, 0, by decide, by decide, by decide, by decide⟩
  exact hends.acyclic .refl (.single hloop)

/-! ### What the walk registers -/

def slotClass (cfg : PciConfig) (slot : Slot) : Fin 256 := getbyte (cfg slot.1 slot.2 0 5) 1

/-- The record carries the ids of the slot. -/
structure PciDevice.Carries (d : PciDevice) (cfg : PciConfig) (slot : Slot) : Prop where
  dclass : d.dclass = slotClass cfg slot
  subclass : d.subclass = getbyte (cfg slot.1 slot.2 0 5) 0
  progif : d.progif = getbyte (cfg slot.1 slot.2 0 4) 1
  id : d.id = cfg slot.1 slot.2 0 1

/-- Every record carries the ids of its slot, and is on the list of its class and on no other. -/
structure PciState.Listed (cfg : PciConfig) (s : PciState) : Prop where
  length : s.slots.length = s.devs.length
  carries : ∀ (i : ℕ) (slot : Slot), s.slots[i]? = some slot → ∃ d : PciDevice, s.devs[i]? = some d ∧ d.Carries cfg slot
  table : ∃ σ, Represents s.table σ ∧ ∀ c i, i ∈ σ c ↔ ∃ slot : Slot, s.slots[i]? = some slot ∧ slotClass cfg slot = c

/-- What comes of one slot, where `sub` comes of the buses. -/
def slotWalk (cfg : PciConfig) (sub : PciBus → List Slot) (bus : PciBus) (device : ℕ) : List Slot :=
  if There cfg bus device 0 then
    (bus, device) :: (slotFunctions cfg bus device).flatMap fun function =>
      if IsBridge cfg bus device function then sub (sndbus cfg bus device function) else []
  else []

/-- The slots in the order in which `check_bus` comes to them. -/
def busWalk (cfg : PciConfig) : ℕ → PciBus → List Slot
  | 0, _ => []
  | n + 1, bus => (List.range pciMaxDevices).flatMap (slotWalk cfg (busWalk cfg n) bus)

section
variable {cfg : PciConfig} {s s' : PciState} {bus : PciBus} {device fuel : ℕ}

theorem PciState.Listed.init (h : s.Listed cfg) (bus : PciBus) (device : ℕ) (bridge : Option ℕ) :
    (initPciDev cfg s bus device bridge).Listed cfg := by
  have hlast : ∀ i slot, (s.slots ++ [(bus, device)])[i]? = some slot ↔
      s.slots[i]? = some slot ∨ i = s.devs.length ∧ slot = (bus, device) := by
    intro i slot
    rw [← h.length, List.getElem?_append]
    rcases Nat.lt_trichotomy i s.slots.length with hi | rfl | hi
    · simp [hi, hi.ne]
    · simp [eq_comm]
    · have h₁ : ¬ i < s.slots.length := by omega
      have h₂ : 1 ≤ i - s.slots.length := by omega
      simp [h₁, hi.ne', List.getElem?_eq_none, h₂]
  refine ⟨?_, ?_, ?_⟩
  · simp [initPciDev, h.length]
  · intro i slot hslot
    rcases (hlast i slot).mp hslot with hslot | ⟨rfl, rfl⟩
    · obtain ⟨d, hd, hcarries⟩ := h.carries i slot hslot
      refine ⟨d, ?_, hcarries⟩
      exact (List.getElem?_append_left (List.getElem?_eq_some_iff.mp hd).1).trans hd
    · exact ⟨_, List.getElem?_concat_length, rfl, rfl, rfl, rfl⟩
  · obtain ⟨σ, hσ, hmem⟩ := h.table
    have hnew : ∀ c, s.devs.length ∉ σ c := by
      intro c hc
      obtain ⟨slot, hslot, -⟩ := (hmem c _).mp hc
      rw [← h.length, List.getElem?_eq_none (Nat.le_refl _)] at hslot
      cases hslot
    refine ⟨_, hσ.pushBack (slotClass cfg (bus, device)) hnew, fun c i => ?_⟩
    have hold := hmem c i
    simp only [initPciDev, hlast, or_and_right, exists_or, ← hold]
    by_cases hc : c = slotClass cfg (bus, device)
    · subst hc
      simp
    · rw [Function.update_of_ne hc]
      simp [Ne.symm hc]

theorem PciState.Listed.setBus (h : s.Listed cfg) (dev function : ℕ) (bus : PciBus) :
    (s.setBus dev function bus).Listed cfg := by
  refine ⟨h.length.trans (List.length_modify _ _ _).symm, fun i slot hslot => ?_, h.table⟩
  obtain ⟨d, hd, hcarries⟩ := h.carries i slot hslot
  have hget : (s.setBus dev function bus).devs[i]? = some (if dev = i then
      { d with buses := Function.update d.buses function bus } else d) := by
    simp only [PciState.setBus, List.getElem?_modify, hd]
    split <;> rfl
  refine ⟨_, hget, ?_⟩
  split
  · exact ⟨hcarries.dclass, hcarries.subclass, hcarries.progif, hcarries.id⟩
  · exact hcarries

/-- **What `check_bus` registers** is what the walk comes to, in its order. -/
theorem checkBus_spec {bridge : ℕ} (h : s.Listed cfg) (hrun : checkBus cfg fuel s bridge bus = some s') :
    s'.Listed cfg ∧ s'.slots = s.slots ++ busWalk cfg fuel bus := by
  induction fuel generalizing s s' bridge bus with
  | zero => cases hrun
  | succ fuel ih =>
      refine foldlM_emits (fun device _ s s' h hrun => ?_) hrun h
      rw [checkDevice_eq] at hrun
      unfold slotWalk
      by_cases hthere : There cfg bus device 0
      · rw [if_pos hthere] at hrun ⊢
        have hfunction : ∀ function ∈ slotFunctions cfg bus device, ∀ t t' : PciState, t.Listed cfg →
            checkFunction (checkBus cfg fuel) cfg t s.devs.length bus device function = some t' →
            t'.Listed cfg ∧ t'.slots = t.slots ++
              if IsBridge cfg bus device function then busWalk cfg fuel (sndbus cfg bus device function) else [] := by
          intro function _ t t' ht hrun
          unfold checkFunction at hrun
          by_cases hb : IsBridge cfg bus device function
          · rw [if_pos hb] at hrun ⊢
            have hset := ht.setBus s.devs.length function (sndbus cfg bus device function)
            have hcall := ih hset hrun
            exact hcall
          · rw [if_neg hb] at hrun ⊢
            obtain rfl := Option.some.inj hrun
            exact ⟨ht, (List.append_nil _).symm⟩
        obtain ⟨hlisted, hslots⟩ := foldlM_emits hfunction hrun (h.init bus device (some bridge))
        exact ⟨hlisted, hslots.trans (List.append_assoc _ _ _)⟩
      · rw [if_neg hthere] at hrun ⊢
        obtain rfl := Option.some.inj hrun
        exact ⟨h, (List.append_nil _).symm⟩

theorem mem_slotWalk {sub : PciBus → List Slot} {slot : Slot} : slot ∈ slotWalk cfg sub bus device ↔
    There cfg bus device 0 ∧ (slot = (bus, device) ∨ ∃ c function, BridgeTo cfg bus device function c ∧ slot ∈ sub c) := by
  unfold slotWalk
  by_cases hthere : There cfg bus device 0
  · rw [if_pos hthere, List.mem_cons, List.mem_flatMap, and_iff_right hthere]
    refine or_congr_right ⟨?_, ?_⟩
    · rintro ⟨function, hfunction, hmem⟩
      by_cases hb : IsBridge cfg bus device function
      · rw [if_pos hb] at hmem
        exact ⟨_, function, ⟨hthere, hfunction, hb, rfl⟩, hmem⟩
      · rw [if_neg hb] at hmem
        cases hmem
    · rintro ⟨c, function, ⟨-, hfunction, hb, rfl⟩, hmem⟩
      refine ⟨function, hfunction, ?_⟩
      rw [if_pos hb]
      exact hmem
  · rw [if_neg hthere]
    exact iff_of_false List.not_mem_nil fun h => hthere h.1

/-- **What the walk comes to**: the slots with a function 0 on the buses behind bridges. -/
theorem mem_busWalk {n : ℕ} (h : EndsIn (Leads cfg) n bus) {slot : Slot} : slot ∈ busWalk cfg n bus ↔
    ReflTransGen (Leads cfg) bus slot.1 ∧ slot.2 < pciMaxDevices ∧ There cfg slot.1 slot.2 0 := by
  induction n generalizing bus with
  | zero => exact h.elim
  | succ n ih =>
      simp only [busWalk, List.mem_flatMap, mem_slotWalk, List.mem_range]
      constructor
      · rintro ⟨device, hdevice, hthere, rfl | ⟨c, function, hbridge, hmem⟩⟩
        · exact ⟨.refl, hdevice, hthere⟩
        · have hleads : Leads cfg bus c := ⟨device, hdevice, function, hbridge⟩
          obtain ⟨hreach, hslot⟩ := (ih (h c hleads)).mp hmem
          exact ⟨hreach.head hleads, hslot⟩
      · rintro ⟨hreach, hslot⟩
        rcases hreach.cases_head with heq | ⟨c, hleads, hreach⟩
        · rw [heq]
          exact ⟨slot.2, hslot.1, hslot.2, .inl rfl⟩
        · have hmem := (ih (h c hleads)).mpr ⟨hreach, hslot⟩
          obtain ⟨device, hdevice, function, hbridge⟩ := hleads
          exact ⟨device, hdevice, hbridge.there, .inr ⟨c, function, hbridge, hmem⟩⟩

/-! ### Each slot once -/

/-- Every bus is behind one bridge at most, and no root is behind one. -/
structure Forest (cfg : PciConfig) (roots : Set PciBus) : Prop where
  unique : ∀ {c b b' : PciBus} {d d' f f' : ℕ}, BridgeTo cfg b d f c → BridgeTo cfg b' d' f' c →
    b = b' ∧ d = d' ∧ f = f'
  root : ∀ c ∈ roots, ∀ b, ¬ Leads cfg b c

theorem Forest.leads_unique {roots : Set PciBus} (h : Forest cfg roots) (b b' c : PciBus) (hb : Leads cfg b c)
    (hb' : Leads cfg b' c) : b = b' := by
  obtain ⟨_, -, _, hb⟩ := hb
  obtain ⟨_, -, _, hb'⟩ := hb'
  exact (h.unique hb hb').1

theorem slotFunctions_nodup (cfg : PciConfig) (bus : PciBus) (device : ℕ) : (slotFunctions cfg bus device).Nodup := by
  unfold slotFunctions
  split
  · have hrange : (List.range' 1 (pciMaxFunctions - 1)).Nodup := List.nodup_range'
    refine List.nodup_cons.mpr ⟨?_, hrange.filter _⟩
    simp
  · exact List.nodup_singleton 0

theorem slotWalk_nodup {sub : PciBus → List Slot}
    (hself : ∀ {c f}, BridgeTo cfg bus device f c → (bus, device) ∉ sub c)
    (hsub : ∀ {c f}, BridgeTo cfg bus device f c → (sub c).Nodup)
    (hapart : ∀ {c c' f f'}, BridgeTo cfg bus device f c → BridgeTo cfg bus device f' c' → f ≠ f' →
      List.Disjoint (sub c) (sub c')) : (slotWalk cfg sub bus device).Nodup := by
  unfold slotWalk
  by_cases hthere : There cfg bus device 0
  · rw [if_pos hthere, List.nodup_cons, List.nodup_flatMap, List.mem_flatMap]
    refine ⟨?_, fun f hlooked => ?_, (slotFunctions_nodup cfg bus device).pairwise_of_forall_ne ?_⟩
    · rintro ⟨f, hlooked, hmem⟩
      split_ifs at hmem with hb
      · exact hself ⟨hthere, hlooked, hb, rfl⟩ hmem
      · cases hmem
    · split_ifs with hb
      · exact hsub ⟨hthere, hlooked, hb, rfl⟩
      · exact List.nodup_nil
    · intro f hlooked f' hlooked' hne
      show List.Disjoint (if _ then _ else _) (if _ then _ else _)
      split_ifs with hb hb'
      · exact hapart ⟨hthere, hlooked, hb, rfl⟩ ⟨hthere, hlooked', hb', rfl⟩ hne
      all_goals simp
  · rw [if_neg hthere]
    exact List.nodup_nil

/-- **On a forest the walk comes to no slot twice.** -/
theorem busWalk_nodup {roots : Set PciBus} (hf : Forest cfg roots) {n : ℕ} (h : EndsIn (Leads cfg) n bus) :
    (busWalk cfg n bus).Nodup := by
  induction n generalizing bus with
  | zero => exact h.elim
  | succ n ih =>
      have hloop : ¬ TransGen (Leads cfg) bus bus := h.acyclic .refl
      have hnot : ∀ {c}, Leads cfg bus c → ∀ device, (bus, device) ∉ busWalk cfg n c := by
        intro c hc device hmem
        exact hloop (.head' hc ((mem_busWalk (h c hc)).mp hmem).1)
      have hapart : ∀ {c c'}, Leads cfg bus c → Leads cfg bus c' → c ≠ c' →
          List.Disjoint (busWalk cfg n c) (busWalk cfg n c') := by
        intro c c' hc hc' hne slot hmem hmem'
        exact siblings_apart hf.leads_unique hloop hc hc' hne ((mem_busWalk (h c hc)).mp hmem).1
          ((mem_busWalk (h c' hc')).mp hmem').1
      rw [busWalk, List.nodup_flatMap]
      constructor
      · intro device hdevice
        rw [List.mem_range] at hdevice
        apply slotWalk_nodup
        · exact fun {c f} hb => hnot ⟨device, hdevice, f, hb⟩ device
        · exact fun {c f} hb => ih (h c ⟨device, hdevice, f, hb⟩)
        · intro c c' f f' hb hb' hne
          refine hapart ⟨device, hdevice, f, hb⟩ ⟨device, hdevice, f', hb'⟩ fun heq => hne ?_
          subst heq
          exact (hf.unique hb hb').2.2
      · refine (List.nodup_range (n := pciMaxDevices)).pairwise_of_forall_ne ?_
        intro d hd d' hd' hne slot hmem hmem'
        rw [List.mem_range] at hd hd'
        -- slots of two devices of the bus: the devices themselves, or what is behind their bridges
        rcases (mem_slotWalk.mp hmem).2 with rfl | ⟨c, f, hb, hmem⟩
        · rcases (mem_slotWalk.mp hmem').2 with heq | ⟨c', f', hb', hmem'⟩
          · exact hne (congrArg Prod.snd heq)
          · exact hnot ⟨d', hd', f', hb'⟩ d hmem'
        · rcases (mem_slotWalk.mp hmem').2 with rfl | ⟨c', f', hb', hmem'⟩
          · exact hnot ⟨d, hd, f, hb⟩ d' hmem
          · refine hapart ⟨d, hd, f, hb⟩ ⟨d', hd', f', hb'⟩ (fun heq => hne ?_) hmem hmem'
            subst heq
            exact (hf.unique hb hb').2.1

/-! ### Registered once -/

/-- The slots with a function 0 on the buses that bridges lead to from `roots`. -/
def slotsBelow (cfg : PciConfig) (roots : Set PciBus) : Set Slot :=
  {slot | (∃ b ∈ roots, ReflTransGen (Leads cfg) b slot.1) ∧ slot.2 < pciMaxDevices ∧ There cfg slot.1 slot.2 0}

/-- Of each slot there is exactly one record on the lists of `device_table`, on the list of its class and with its
ids, and there is no record of anything else. -/
def RegisteredOnce (cfg : PciConfig) (below : Set Slot) (s : PciState) : Prop :=
  ∃ σ, Represents s.table σ ∧
    (∀ slot ∈ below, ∃ (i : ℕ) (d : PciDevice), i ∈ σ (slotClass cfg slot) ∧ s.slots[i]? = some slot ∧
      s.devs[i]? = some d ∧ d.Carries cfg slot ∧ ∀ c, ∀ j ∈ σ c, s.slots[j]? = some slot → j = i) ∧
    ∀ c, ∀ i ∈ σ c, ∃ slot ∈ below, s.slots[i]? = some slot

theorem PciState.Listed.registeredOnce_iff (h : s.Listed cfg) {below : Set Slot} :
    RegisteredOnce cfg below s ↔ s.slots.Nodup ∧ ∀ slot, slot ∈ s.slots ↔ slot ∈ below := by
  obtain ⟨σ, hσ, hmem⟩ := h.table
  constructor
  · rintro ⟨σ', hσ', honce, hother⟩
    obtain rfl := hσ.unique hσ'
    have hin : ∀ (i : ℕ) (slot : Slot), s.slots[i]? = some slot → slot ∈ below := by
      intro i slot hslot
      obtain ⟨slot', hbelow, hslot'⟩ := hother _ i ((hmem _ i).mpr ⟨slot, hslot, rfl⟩)
      obtain rfl := Option.some.inj (hslot.symm.trans hslot')
      exact hbelow
    constructor
    · rw [List.nodup_iff_injective_getElem]
      intro i j hij
      have hi := List.getElem?_eq_getElem i.2
      have hj := List.getElem?_eq_getElem j.2
      obtain ⟨k, -, -, -, -, -, hk⟩ := honce _ (hin _ _ hi)
      have hik := hk _ _ ((hmem _ _).mpr ⟨_, hi, rfl⟩) hi
      have hjk := hk _ _ ((hmem _ _).mpr ⟨_, hj, rfl⟩) (hj.trans (congrArg some hij.symm))
      exact Fin.ext (hik.trans hjk.symm)
    · intro slot
      constructor
      · intro hslot
        obtain ⟨i, hi⟩ := List.getElem?_of_mem hslot
        exact hin i slot hi
      · intro hslot
        obtain ⟨i, -, -, hi, -⟩ := honce slot hslot
        exact List.mem_of_getElem? hi
  · rintro ⟨hnodup, hslots⟩
    refine ⟨σ, hσ, fun slot hslot => ?_, fun c i hi => ?_⟩
    · obtain ⟨i, hi⟩ := List.getElem?_of_mem ((hslots slot).mpr hslot)
      obtain ⟨d, hd, hcarries⟩ := h.carries i slot hi
      refine ⟨i, d, (hmem _ i).mpr ⟨slot, hi, rfl⟩, hi, hd, hcarries, fun c j _ hj => ?_⟩
      obtain ⟨hlt, -⟩ := List.getElem?_eq_some_iff.mp hj
      exact (List.getElem?_inj hlt hnodup).mp (hj.trans hi.symm)
    · obtain ⟨slot, hslot, -⟩ := (hmem c i).mp hi
      exact ⟨slot, (hslots slot).mp (List.mem_of_getElem? hslot), hslot⟩

theorem mem_slotsBelow_singleton (hends : EndsIn (Leads cfg) fuel bus) {slot : Slot} :
    slot ∈ slotsBelow cfg {bus} ↔ slot ∈ busWalk cfg fuel bus := by
  rw [mem_busWalk hends]
  simp [slotsBelow]

/-- **`check_bus` registers each slot once** on a forest. -/
theorem checkBus_registeredOnce (hf : Forest cfg {bus}) (h : s.Listed cfg) (hs : s.slots = []) (bridge : ℕ) :
    ∃ fuel s', checkBus cfg fuel s bridge bus = some s' ∧ RegisteredOnce cfg (slotsBelow cfg {bus}) s' := by
  have hacyclic : ∀ c, ReflTransGen (Leads cfg) bus c → ¬ TransGen (Leads cfg) c c :=
    fun c => acyclic_of_root hf.leads_unique (hf.root bus rfl)
  obtain ⟨fuel, hends⟩ := endsIn_iff_acyclic.mpr hacyclic
  have hsome : (checkBus cfg fuel s bridge bus).isSome := checkBus_isSome_iff.mpr hends
  obtain ⟨s', hrun⟩ := Option.isSome_iff_exists.mp hsome
  obtain ⟨hlisted, hslots⟩ := checkBus_spec h hrun
  refine ⟨fuel, s', hrun, hlisted.registeredOnce_iff.mpr ?_⟩
  rw [hslots, hs, List.nil_append]
  exact ⟨busWalk_nodup hf hends, fun slot => (mem_slotsBelow_singleton hends).symm⟩

/-- What `enumerate_device` registers: the controller, and what `check_bus` comes to. -/
theorem enumerateDevice_spec (h : s.Listed cfg) (hrun : enumerateDevice fuel cfg bus s = some s') :
    s'.Listed cfg ∧ s'.slots = s.slots ++ (bus, 0) :: (busesChecked cfg bus).flatMap (busWalk cfg fuel) := by
  have hhost := h.init bus 0 none
  have hslots : (initPciDev cfg s bus 0 none).slots = s.slots ++ [(bus, 0)] := rfl
  unfold enumerateDevice at hrun
  unfold busesChecked
  by_cases hmulti : Multifn cfg bus 0
  · rw [if_neg hmulti] at hrun
    rw [if_pos hmulti, List.flatMap_map]
    obtain ⟨hlisted, hwalk⟩ := foldlM_emits (fun _ _ _ _ ht hrun => checkBus_spec ht hrun) hrun hhost
    refine ⟨hlisted, hwalk.trans ?_⟩
    rw [hslots, List.append_assoc]
    rfl
  · rw [if_pos (not_not.mp hmulti)] at hrun
    rw [if_neg hmulti, List.flatMap_singleton]
    obtain ⟨hlisted, hwalk⟩ := checkBus_spec hhost hrun
    refine ⟨hlisted, hwalk.trans ?_⟩
    rw [hslots, List.append_assoc]
    rfl

end

/-- The buses from which the enumeration is to begin for a controller on `bus`: those numbered by its functions, or
bus 0. -/
def hostRoots (cfg : PciConfig) (bus : PciBus) : Set PciBus :=
  if Multifn cfg bus 0 then {b | ∃ function < pciMaxFunctions, There cfg bus 0 function ∧ Fin.ofNat 256 function = b}
  else {0}

/-- One list is initialised, and the others lie in zeroed memory. -/
theorem pciInit_represents : Represents pciInit.table fun _ => [] := by
  refine .of_fresh fun li => ?_
  by_cases hli : li = 0
  · exact .inl (hli ▸ listInit_initialised _ _)
  · refine .inr ?_
    simp [ZeroFilled, pciInit, listInit, ListMem.setPrev, ListMem.setNext, ListMem.setSize, hli]

theorem pciInit_listed (cfg : PciConfig) : pciInit.Listed cfg := by
  refine ⟨rfl, fun i slot h => ?_, fun _ => [], pciInit_represents, fun c i => ?_⟩
  · simp [pciInit] at h
  · simp [pciInit]

/-- **What `enumerate_device` misses**: it leaves one record of each slot behind, and none of anything else, exactly
when the controller has several functions, function 0 among them, and there is nothing but the controller. -/
theorem enumerate_device_once_iff (cfg : PciConfig) (bus : PciBus) :
    (∃ fuel s, enumerateDevice fuel cfg bus pciInit = some s ∧
      RegisteredOnce cfg (slotsBelow cfg (hostRoots cfg bus)) s) ↔
    Multifn cfg bus 0 ∧ There cfg bus 0 0 ∧ slotsBelow cfg (hostRoots cfg bus) = {(bus, 0)} := by
  have hnone : Multifn cfg bus 0 → There cfg bus 0 0 → busesChecked cfg bus = [] := by
    intro hmulti hthere
    have hbreak : ¬ decide (cfg bus 0 0 0 = 0xFFFF) = true := fun h => hthere (of_decide_eq_true h)
    rw [busesChecked, if_pos hmulti, List.map_eq_nil_iff]
    exact List.takeWhile_cons_of_neg hbreak
  constructor
  · rintro ⟨fuel, s, hrun, honce⟩
    obtain ⟨hlisted, hslots⟩ := enumerateDevice_spec (pciInit_listed cfg) hrun
    obtain ⟨hnodup, hmem⟩ := hlisted.registeredOnce_iff.mp honce
    have hhost : (bus, 0) ∈ slotsBelow cfg (hostRoots cfg bus) := by
      rw [← hmem, hslots]
      exact List.mem_append_right _ List.mem_cons_self
    have hthere : There cfg bus 0 0 := hhost.2.2
    have hmulti : Multifn cfg bus 0 := by
      -- a controller with one function is come to again on bus 0
      by_contra hzero
      have hmulti : ¬ Multifn cfg bus 0 := not_not.mpr hzero
      have hends := enumerateDevice_isSome_iff.mp (Option.isSome_of_mem hrun)
      rw [busesChecked, if_neg hmulti] at hslots hends
      rw [hostRoots, if_neg hmulti, mem_slotsBelow_singleton (hends 0 (List.mem_singleton_self 0))] at hhost
      rw [hslots, List.flatMap_singleton] at hnodup
      exact (List.nodup_cons.mp hnodup).1 hhost
    refine ⟨hmulti, hthere, Set.ext fun slot => ?_⟩
    rw [← hmem, hslots, hnone hmulti hthere]
    exact List.mem_singleton
  · rintro ⟨hmulti, hthere, hbelow⟩
    have hends : ∀ b ∈ busesChecked cfg bus, EndsIn (Leads cfg) 0 b := by simp [hnone hmulti hthere]
    have hsome : (enumerateDevice 0 cfg bus pciInit).isSome := enumerateDevice_isSome_iff.mpr hends
    obtain ⟨s, hrun⟩ := Option.isSome_iff_exists.mp hsome
    obtain ⟨hlisted, hslots⟩ := enumerateDevice_spec (pciInit_listed cfg) hrun
    rw [hnone hmulti hthere] at hslots
    refine ⟨0, s, hrun, hlisted.registeredOnce_iff.mpr ?_⟩
    rw [hslots, hbelow]
    exact ⟨List.nodup_singleton _, fun slot => List.mem_singleton⟩

/-- A host bridge with one function, and nothing else. -/
def onlyHost : PciConfig := fun bus device function ofs =>
  if bus = 0 ∧ device = 0 ∧ function = 0 then if ofs = 5 then 0x0600 else 0 else 0xFFFF

/-- **The host bridge is registered twice**: by `enumerate_device`, and as the slot 0 of bus 0. -/
theorem enumerate_device_twice : Forest onlyHost (hostRoots onlyHost 0) ∧
    ¬ ∃ fuel s, enumerateDevice fuel onlyHost 0 pciInit = some s ∧
      RegisteredOnce onlyHost (slotsBelow onlyHost (hostRoots onlyHost 0)) s := by
  have hbridge : ∀ bus device function, ¬ IsBridge onlyHost bus device function := by
    intro bus device function
    simp only [IsBridge, onlyHost]
    split <;> decide
  refine ⟨⟨fun h _ => absurd h.bridge (hbridge _ _ _), fun c _ b ⟨_, _, _, h⟩ => hbridge _ _ _ h.bridge⟩, ?_⟩
  rintro ⟨fuel, s, hrun, honce⟩
  obtain ⟨hlisted, hslots⟩ := enumerateDevice_spec (pciInit_listed onlyHost) hrun
  have hends := enumerateDevice_isSome_iff.mp (Option.isSome_of_mem hrun) 0 (by decide)
  have hhost : (0, 0) ∈ busWalk onlyHost fuel 0 := (mem_busWalk hends).mpr ⟨.refl, by decide, by decide⟩
  have hnodup := (hlisted.registeredOnce_iff.mp honce).1
  rw [hslots] at hnodup
  exact (List.nodup_cons.mp hnodup).1 (List.mem_flatMap.mpr ⟨0, by decide, hhost⟩)

end Dunkos
