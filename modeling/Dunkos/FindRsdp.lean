import Dunkos.Directory
import Mathlib.Order.WellFounded

/-! # The search for the ACPI tables (`find_rsdp`)

The loop goes over memory in steps of 16 from `0xE0000` on, and ends at the signature or at `0xFFFFF`, which is no multiple of
16.  `find_rsdp_iff` says for which memory the search is right, and `findRsdp_none` when it does not end. -/

namespace Dunkos

/-- Memory, byte by byte. -/
abbrev BiosMem := BitVec 64 → Byte

/-- `"RSD PTR "`. -/
def rsdpSignature : ℕ → Byte := fun i => [0x52, 0x53, 0x44, 0x20, 0x50, 0x54, 0x52, 0x20].getD i 0

/-- What is at an address, as a string. -/
def BiosMem.stringAt (mem : BiosMem) (ptr : BitVec 64) : ℕ → Byte := fun i => mem (ptr + BitVec.ofNat 64 i)

/-- The characters of `left` that the loop of `strncmp` reads, from the index `i` on. -/
def strncmpReads (left right : ℕ → Byte) (cmp : ℤ) (i : ℕ) : ℕ → List ℕ
  | 0 => if cmp = 0 then [i] else []
  | count + 1 =>
    if cmp = 0 then
      if left i ≠ 0 ∧ right i ≠ 0 then
        i :: strncmpReads left right ((left i).toInt - (right i).toInt) (i + 1) count
      else [i]
    else []

/-- The loop of `find_rsdp`, with the addresses that it reads; `none` when it does not end within `fuel` rounds. -/
def rsdpLoop (mem : BiosMem) : ℕ → BitVec 64 → List (BitVec 64) → Option (BitVec 64 × List (BitVec 64))
  | 0, _, _ => none
  | fuel + 1, ptr, reads =>
    if ptr ≠ 0xFFFFF then
      let reads := reads ++ (strncmpReads (mem.stringAt ptr) rsdpSignature 0 0 8).map fun i => ptr + BitVec.ofNat 64 i
      if strncmp (mem.stringAt ptr) rsdpSignature 8 = 0 then some (ptr, reads)
      else rsdpLoop mem fuel (ptr + 16) reads
    else some (ptr, reads)

/-- `find_rsdp`: what it returns, NULL being 0, and the addresses that it reads. -/
def findRsdp (mem : BiosMem) (fuel : ℕ) : Option (BitVec 64 × List (BitVec 64)) :=
  (rsdpLoop mem fuel 0xE0000 []).map fun r => (if r.1 = 0xFFFFF then 0 else r.1, r.2)

/-! ### What it is for -/

/-- The address is in the area of the BIOS. -/
def InBios (a : BitVec 64) : Prop := 0xE0000 ≤ a.toNat ∧ a.toNat ≤ 0xFFFFF

/-- The signature starts there. -/
def BiosMem.Signed (mem : BiosMem) (a : BitVec 64) : Prop := ∀ i < 8, mem.stringAt a i = rsdpSignature i

/-- An address where the descriptor may be, and is. -/
structure BiosMem.Rsdp (mem : BiosMem) (a : BitVec 64) : Prop where
  bios : InBios a
  aligned : a.toNat % 16 = 0
  signed : mem.Signed a

/-- The area is read and nothing else, and the lowest address with the signature is returned, or NULL. -/
structure FindsRsdp (mem : BiosMem) (r : BitVec 64 × List (BitVec 64)) : Prop where
  reads : ∀ a ∈ r.2, InBios a
  lowest : ∀ a, mem.Rsdp a → mem.Rsdp r.1 ∧ r.1.toNat ≤ a.toNat
  null : (∀ a, ¬ mem.Rsdp a) → r.1 = 0

/-! ### The loop -/

section
variable {mem : BiosMem} {fuel n : ℕ} {ptr : BitVec 64} {reads : List (BitVec 64)} {r : BitVec 64 × List (BitVec 64)}

theorem strncmp_signature_iff : strncmp (mem.stringAt ptr) rsdpSignature 8 = 0 ↔ mem.Signed ptr := by
  rw [strncmp_eq_zero_iff (by decide)]
  have hchar : ∀ i < 8, rsdpSignature i ≠ 0 := by decide
  exact ⟨fun h i hi => (h i hi).1, fun h i hi => ⟨h i hi, h i hi ▸ hchar i hi⟩⟩

/-- One character more than `count` is read at most. -/
theorem strncmpReads_le {left right : ℕ → Byte} {cmp : ℤ} {i j count : ℕ} (h : j ∈ strncmpReads left right cmp i count) :
    j ≤ i + count := by
  induction count generalizing cmp i with
  | zero =>
      unfold strncmpReads at h
      split_ifs at h
      · simp_all
      · cases h
  | succ count ih =>
      unfold strncmpReads at h
      split_ifs at h
      · rcases List.mem_cons.mp h with rfl | h
        · omega
        · have := ih h
          omega
      · obtain rfl := List.mem_singleton.mp h
        omega
      · cases h

/-- The first character is read. -/
theorem zero_mem_strncmpReads (left right : ℕ → Byte) (count : ℕ) : 0 ∈ strncmpReads left right 0 0 count := by
  cases count with
  | zero => simp [strncmpReads]
  | succ count =>
      rw [strncmpReads, if_pos rfl]
      split_ifs <;> simp

/-- What a round reads. -/
def rsdpReads (mem : BiosMem) (ptr : BitVec 64) : List (BitVec 64) :=
  (strncmpReads (mem.stringAt ptr) rsdpSignature 0 0 8).map fun i => ptr + BitVec.ofNat 64 i

theorem self_mem_rsdpReads (mem : BiosMem) (ptr : BitVec 64) : ptr ∈ rsdpReads mem ptr :=
  List.mem_map.mpr ⟨0, zero_mem_strncmpReads _ _ _, BitVec.add_zero ptr⟩

/-- A round in the area reads nothing else. -/
theorem rsdpReads_bios (hp : InBios ptr) (hal : ptr.toNat % 16 = 0) : ∀ a ∈ rsdpReads mem ptr, InBios a := by
  intro a ha
  obtain ⟨i, hi, rfl⟩ := List.mem_map.mp ha
  have hle := strncmpReads_le hi
  unfold InBios at *
  rw [BitVec.toNat_add, BitVec.toNat_ofNat]
  omega

/-- **One round** at a multiple of 16. -/
theorem rsdpLoop_round (hal : ptr.toNat % 16 = 0) :
    (mem.Signed ptr → rsdpLoop mem (fuel + 1) ptr reads = some (ptr, reads ++ rsdpReads mem ptr)) ∧
      (¬ mem.Signed ptr → rsdpLoop mem (fuel + 1) ptr reads = rsdpLoop mem fuel (ptr + 16) (reads ++ rsdpReads mem ptr)) := by
  have hend : ptr ≠ 0xFFFFF := by
    rintro rfl
    exact absurd hal (by decide)
  rw [rsdpLoop, if_pos hend, ← strncmp_signature_iff]
  exact ⟨fun h => if_pos h, fun h => if_neg h⟩

theorem toNat_next (ptr : BitVec 64) : (ptr + 16).toNat = (ptr.toNat + 16) % 2 ^ 64 := BitVec.toNat_add ptr 16

theorem aligned_next (hal : ptr.toNat % 16 = 0) : (ptr + 16).toNat % 16 = 0 := by
  rw [toNat_next]
  omega

/-- What has been read stays read. -/
theorem rsdpLoop_keeps (hal : ptr.toNat % 16 = 0) (h : rsdpLoop mem fuel ptr reads = some r) : ∀ a ∈ reads, a ∈ r.2 := by
  induction fuel generalizing ptr reads with
  | zero => cases h
  | succ fuel ih =>
      intro a ha
      have hmem : a ∈ reads ++ rsdpReads mem ptr := List.mem_append_left _ ha
      by_cases hs : mem.Signed ptr
      · rw [(rsdpLoop_round hal).1 hs] at h
        exact Option.some.inj h ▸ hmem
      · rw [(rsdpLoop_round hal).2 hs] at h
        exact ih (aligned_next hal) h a hmem

/-- Without a signature the loop goes on behind the area, `n` rounds later. -/
theorem rsdpLoop_past (hno : ∀ a, ¬ mem.Rsdp a) (hn : ptr.toNat + 16 * n = 0x100000) (hb : 0xE0000 ≤ ptr.toNat)
    (h : rsdpLoop mem fuel ptr reads = some r) : (0x100000#64) ∈ r.2 := by
  have hal : ptr.toNat % 16 = 0 := by omega
  induction n generalizing fuel ptr reads with
  | zero =>
      obtain rfl : ptr = 0x100000#64 := BitVec.eq_of_toNat_eq hn
      cases fuel with
      | zero => cases h
      | succ fuel =>
          have hmem : (0x100000#64) ∈ reads ++ rsdpReads mem 0x100000#64 :=
            List.mem_append_right _ (self_mem_rsdpReads mem _)
          by_cases hs : mem.Signed 0x100000#64
          · rw [(rsdpLoop_round hal).1 hs] at h
            exact Option.some.inj h ▸ hmem
          · rw [(rsdpLoop_round hal).2 hs] at h
            exact rsdpLoop_keeps (aligned_next hal) h _ hmem
  | succ n ih =>
      have hs : ¬ mem.Signed ptr := fun hs => hno ptr ⟨⟨hb, by omega⟩, hal, hs⟩
      cases fuel with
      | zero => cases h
      | succ fuel =>
          rw [(rsdpLoop_round hal).2 hs] at h
          have hnext : (ptr + 16).toNat = ptr.toNat + 16 := by
            rw [toNat_next]
            omega
          exact ih (by omega) (by omega) h (aligned_next hal)

/-- The loop comes to the lowest address with the signature, `n` rounds later. -/
theorem rsdpLoop_found {a : BitVec 64} (ha : mem.Rsdp a) (hlow : ∀ b, mem.Rsdp b → a.toNat ≤ b.toNat)
    (hn : ptr.toNat + 16 * n = a.toNat) (hb : 0xE0000 ≤ ptr.toNat) (hreads : ∀ x ∈ reads, InBios x) :
    ∃ reads', rsdpLoop mem (n + 1) ptr reads = some (a, reads') ∧ ∀ x ∈ reads', InBios x := by
  have hal : ptr.toNat % 16 = 0 := by
    have := ha.aligned
    omega
  have hbios : InBios ptr := ⟨hb, by have := ha.bios.2; omega⟩
  have hreads' : ∀ x ∈ reads ++ rsdpReads mem ptr, InBios x := by
    intro x hx
    rcases List.mem_append.mp hx with hx | hx
    · exact hreads x hx
    · exact rsdpReads_bios hbios hal x hx
  induction n generalizing ptr reads with
  | zero =>
      obtain rfl : ptr = a := BitVec.eq_of_toNat_eq hn
      exact ⟨_, (rsdpLoop_round hal).1 ha.signed, hreads'⟩
  | succ n ih =>
      have hs : ¬ mem.Signed ptr := by
        intro hs
        have := hlow ptr ⟨hbios, hal, hs⟩
        omega
      have hnext : (ptr + 16).toNat = ptr.toNat + 16 := by
        have := hbios.2
        rw [toNat_next]
        omega
      have hbios' : InBios (ptr + 16) := ⟨by omega, by have := ha.bios.2; omega⟩
      rw [(rsdpLoop_round hal).2 hs]
      refine ih (by omega) (by omega) hreads' (aligned_next hal) hbios' fun x hx => ?_
      rcases List.mem_append.mp hx with hx | hx
      · exact hreads' x hx
      · exact rsdpReads_bios hbios' (aligned_next hal) x hx

/-- Where no multiple of 16 has the signature, the loop does not end. -/
theorem rsdpLoop_none (hno : ∀ a : BitVec 64, a.toNat % 16 = 0 → ¬ mem.Signed a) (hal : ptr.toNat % 16 = 0) :
    rsdpLoop mem fuel ptr reads = none := by
  induction fuel generalizing ptr reads with
  | zero => rfl
  | succ fuel ih =>
      rw [(rsdpLoop_round hal).2 (hno ptr hal)]
      exact ih (aligned_next hal)

end

/-- Some address with the signature is the lowest. -/
theorem BiosMem.exists_lowest {mem : BiosMem} {a : BitVec 64} (ha : mem.Rsdp a) :
    ∃ b, mem.Rsdp b ∧ ∀ c, mem.Rsdp c → b.toNat ≤ c.toNat := by
  obtain ⟨b, hb, hmin⟩ := (measure fun b : BitVec 64 => b.toNat).wf.has_min {b | mem.Rsdp b} ⟨a, ha⟩
  exact ⟨b, hb, fun c hc => Nat.not_lt.mp (hmin c hc)⟩

/-- **The search ends, reads nothing but the area, and finds the lowest address**, exactly when some multiple of 16 in the area
has the signature. -/
theorem find_rsdp_iff (mem : BiosMem) :
    (∃ fuel r, findRsdp mem fuel = some r ∧ FindsRsdp mem r) ↔ ∃ a, mem.Rsdp a := by
  constructor
  · rintro ⟨fuel, r, hr, hright⟩
    by_contra hno
    rw [not_exists] at hno
    obtain ⟨⟨ptr, reads⟩, hloop, rfl⟩ := Option.map_eq_some_iff.mp hr
    have hrounds : (0xE0000#64).toNat + 16 * 0x2000 = 0x100000 := rfl
    have hpast : InBios 0x100000#64 := by
      have hread := rsdpLoop_past hno hrounds (by decide) hloop
      exact hright.reads _ hread
    exact absurd hpast.2 (by decide)
  · rintro ⟨a, ha⟩
    obtain ⟨b, hb, hlow⟩ := BiosMem.exists_lowest ha
    have hal := hb.aligned
    have hrounds : (0xE0000#64).toNat + 16 * ((b.toNat - 0xE0000) / 16) = b.toNat := by
      have hlower := hb.bios.1
      rw [BitVec.toNat_ofNat]
      omega
    obtain ⟨reads, hloop, hreads⟩ := rsdpLoop_found hb hlow hrounds (by decide) fun x hx => absurd hx List.not_mem_nil
    have hend : b ≠ 0xFFFFF := by
      rintro rfl
      exact absurd hal (by decide)
    have hrun : findRsdp mem ((b.toNat - 0xE0000) / 16 + 1) = some (b, reads) := by
      have hloop' : rsdpLoop mem ((b.toNat - 0xE0000) / 16 + 1) 0xE0000 [] = some (b, reads) := hloop
      rw [findRsdp, hloop', Option.map_some, if_neg hend]
    exact ⟨_, _, hrun, hreads, fun c hc => ⟨hb, hlow c hc⟩, fun hno => absurd hb (hno b)⟩

/-- The signature at `0xF0000`. -/
def signedMem : BiosMem := fun a => if 0xF0000 ≤ a.toNat ∧ a.toNat < 0xF0008 then rsdpSignature (a.toNat - 0xF0000) else 0

theorem find_rsdp_iff_signed : ∃ fuel r, findRsdp signedMem fuel = some r ∧ FindsRsdp signedMem r :=
  (find_rsdp_iff signedMem).mpr ⟨0xF0000, ⟨⟨by decide, by decide⟩, by decide, by unfold BiosMem.Signed; decide⟩⟩

/-- **Memory without a signature**: the search does not end. -/
theorem find_rsdp_endless : (∀ a, ¬ BiosMem.Rsdp (fun _ => 0) a) ∧ (∀ fuel, findRsdp (fun _ => 0) fuel = none) ∧
    ¬ ∃ fuel r, findRsdp (fun _ => 0) fuel = some r ∧ FindsRsdp (fun _ => 0) r := by
  have hno : ∀ a, ¬ BiosMem.Signed (fun _ => 0) a := by
    intro a h
    have hfirst : (0 : Byte) = 0x52 := h 0 (by decide)
    exact absurd hfirst (by decide)
  have hend : ∀ fuel, findRsdp (fun _ => 0) fuel = none := by
    intro fuel
    rw [findRsdp, rsdpLoop_none (fun a _ => hno a) (by decide)]
    rfl
  refine ⟨fun a ha => hno a ha.signed, hend, ?_⟩
  rintro ⟨fuel, r, hr, -⟩
  rw [hend fuel] at hr
  cases hr

end Dunkos
