import Dunkos.Pci
import Mathlib.Algebra.GroupWithZero.Nat

/-! # The search for a PCI device (`get_pci_device`)

The loop looks at the subclass of a device before it asks whether it has come to `list_end`, and makes a device of the
sentinel too.  `get_pci_device_iff` says when it does not come there. -/

namespace Dunkos

open Linked Elem

/-- The table has a list for each class. -/
instance neZero_classes : NeZero (256 : ℕ) := ⟨by decide⟩

/-- `dev->subclass`, where `dev` is `elem_value(el, struct pci_device, group_elem)`.  Four bytes behind the sentinel `tail` and
its pointers stands the upper half of the `size` of the list. -/
def PciState.subclassAt (s : PciState) : Elem (Fin 256) ℕ → Option (BitVec 32)
  | node d => s.devs[d]?.map fun dev => BitVec.ofNat 32 dev.subclass
  | tail li => some (BitVec.ofNat 32 (s.table.size li / 2 ^ 32))
  | _ => none

/-- What a search returns, NULL being `none`, and the elements of whose devices it has read the subclass. -/
structure PciSearch where
  dev : Option (Elem (Fin 256) ℕ)
  reads : List (Elem (Fin 256) ℕ)
deriving DecidableEq

/-- The loop of `get_pci_device`; `none` when it does not end within `fuel` rounds. -/
def searchDevice (s : PciState) (dgrlist : Fin 256) (subclass : BitVec 32) :
    ℕ → Elem (Fin 256) ℕ → List (Elem (Fin 256) ℕ) → Option PciSearch
  | 0, _, _ => none
  | fuel + 1, el, reads =>
    (s.subclassAt el).bind fun sub =>
      if sub ≠ subclass ∧ el ≠ listEnd s.table dgrlist then
        searchDevice s dgrlist subclass fuel (listNext s.table el) (reads ++ [el])
      else some ⟨some el, reads ++ [el]⟩

/-- `if (dev->subclass != subclass) dev = NULL`. -/
def checkSubclass (s : PciState) (subclass : BitVec 32) (r : PciSearch) : Option PciSearch :=
  r.dev.bind fun el => (s.subclassAt el).map fun sub => ⟨if sub ≠ subclass then none else some el, r.reads ++ [el]⟩

def getPciDevice (fuel : ℕ) (s : PciState) (dclass subclass : BitVec 32) : Option PciSearch :=
  let dgrlist : Fin 256 := Fin.ofNat 256 dclass.toNat
  if dclass.toNat ≤ 0xFF ∧ listEmpty s.table dgrlist = false then
    let el := listBegin s.table dgrlist
    if subclass ≠ -1 then (searchDevice s dgrlist subclass fuel el []).bind (checkSubclass s subclass)
    else some ⟨some el, []⟩
  else some ⟨none, []⟩

/-! ### What it is for -/

/-- The devices of each class, in the order of the lists. -/
structure PciState.Registered (s : PciState) (σ : Fin 256 → List ℕ) : Prop where
  lists : Represents s.table σ
  exist : ∀ li, ∀ d ∈ σ li, d < s.devs.length

/-- The devices of a class: there are 256 classes. -/
def devicesOf (σ : Fin 256 → List ℕ) (dclass : BitVec 32) : List ℕ :=
  if dclass.toNat ≤ 0xFF then σ (Fin.ofNat 256 dclass.toNat) else []

/-- The device is searched for. -/
def PciState.Wanted (s : PciState) (subclass : BitVec 32) (d : ℕ) : Prop :=
  subclass = -1 ∨ s.subclassAt (node d) = some subclass

instance (s : PciState) (subclass : BitVec 32) : DecidablePred (s.Wanted subclass) :=
  fun _ => inferInstanceAs (Decidable (_ ∨ _))

/-- The first device that is searched for is returned, if there is one, and no subclass is read but that of devices. -/
structure SearchesRight (s : PciState) (σ : Fin 256 → List ℕ) (dclass subclass : BitVec 32) (r : PciSearch) : Prop where
  first : r.dev = ((devicesOf σ dclass).find? fun d => s.Wanted subclass d).map node
  reads : ∀ el ∈ r.reads, ∃ d ∈ devicesOf σ dclass, el = node d

/-! ### The loop -/

/-- The states that the walk over the buses comes to have their devices registered. -/
theorem PciState.Listed.registered {cfg : PciConfig} {s : PciState} (h : s.Listed cfg) : ∃ σ, s.Registered σ := by
  obtain ⟨σ, hσ, hmem⟩ := h.table
  refine ⟨σ, hσ, fun li d hd => ?_⟩
  obtain ⟨slot, hslot, -⟩ := (hmem li d).mp hd
  rw [← h.length]
  exact (List.getElem?_eq_some_iff.mp hslot).1

section
variable {s : PciState} {σ : Fin 256 → List ℕ} {li : Fin 256} {dclass subclass : BitVec 32} {fuel : ℕ}

/-- What the search does on the rest `xs` of a list: it reads up to the first device that has the subclass, or up to the
sentinel. -/
theorem searchDevice_from (h : s.Registered σ) (subclass : BitVec 32) {done xs : List ℕ} (hx : σ li = done ++ xs)
    (reads : List (Elem (Fin 256) ℕ)) (hf : xs.length < fuel) :
    searchDevice s li subclass fuel (cellAt li xs) reads =
      some ⟨some (((xs.find? fun d => s.subclassAt (node d) = some subclass).map node).getD (tail li)),
        reads ++ (xs.takeWhile fun d => s.subclassAt (node d) ≠ some subclass).map node ++
          [((xs.find? fun d => s.subclassAt (node d) = some subclass).map node).getD (tail li)]⟩ := by
  induction xs generalizing done reads fuel with
  | nil =>
      obtain ⟨fuel, rfl⟩ : ∃ f, fuel = f + 1 := ⟨fuel - 1, by simp at hf; omega⟩
      simp [searchDevice, cellAt, PciState.subclassAt, listEnd]
  | cons d xs ih =>
      obtain ⟨fuel, rfl⟩ : ∃ f, fuel = f + 1 := ⟨fuel - 1, by rw [List.length_cons] at hf; omega⟩
      rw [List.length_cons, Nat.add_lt_add_iff_right] at hf
      have hd : d < s.devs.length := h.exist li d (hx ▸ List.mem_append_right _ List.mem_cons_self)
      obtain ⟨sub, hsub⟩ : ∃ sub, s.subclassAt (node d) = some sub := ⟨_, by simp [PciState.subclassAt, hd]; rfl⟩
      have hnext : listNext s.table (node d) = cellAt li xs := h.lists.listNext_eq hx
      have hcell : cellAt li (d :: xs) = (node d : Elem (Fin 256) ℕ) := rfl
      rw [searchDevice, hcell, hsub, Option.bind_some]
      by_cases heq : sub = subclass
      · subst heq
        simp [hsub]
      · have hne : s.subclassAt (node d) ≠ some subclass := fun he => heq (Option.some.inj (hsub.symm.trans he))
        rw [if_pos ⟨heq, by simp [listEnd]⟩, hnext, ih (hx.trans (List.append_cons ..)) _ hf]
        simp [hne]

/-- Where there is no device, nothing is read. -/
theorem getPciDevice_none (h : s.Registered σ) (hd : devicesOf σ dclass = []) :
    getPciDevice fuel s dclass subclass = some ⟨none, []⟩ := by
  unfold getPciDevice
  rw [if_neg]
  rintro ⟨hclass, hne⟩
  rw [devicesOf, if_pos hclass] at hd
  rw [((h.lists.holds _).listEmpty_iff).mpr hd] at hne
  cases hne

/-- Any device of the class will do. -/
theorem getPciDevice_any (h : s.Registered σ) {d : ℕ} {ds : List ℕ} (hd : devicesOf σ dclass = d :: ds) :
    getPciDevice fuel s dclass (-1) = some ⟨some (node d), []⟩ := by
  unfold devicesOf at hd
  split_ifs at hd with hclass
  have hne : listEmpty s.table (Fin.ofNat 256 dclass.toNat) = false := by
    rw [Bool.eq_false_iff, ne_eq, (h.lists.holds _).listEmpty_iff, hd]
    exact List.cons_ne_nil _ _
  unfold getPciDevice
  rw [if_pos ⟨hclass, hne⟩, if_neg (not_not.mpr rfl), h.lists.listBegin_eq, hd]
  rfl

/-- Where the class has devices, the loop comes to the first one with the subclass, or to the sentinel. -/
theorem getPciDevice_search (h : s.Registered σ) (hd : devicesOf σ dclass ≠ []) (hsub : subclass ≠ -1)
    (hf : (devicesOf σ dclass).length < fuel) : ∃ el reads,
    el = (((devicesOf σ dclass).find? fun d => s.subclassAt (node d) = some subclass).map node).getD
      (tail (Fin.ofNat 256 dclass.toNat)) ∧
      (∀ x ∈ reads, x = el ∨ ∃ d ∈ devicesOf σ dclass, x = node d) ∧
      getPciDevice fuel s dclass subclass =
        (s.subclassAt el).map fun sub => ⟨if sub ≠ subclass then none else some el, reads ++ [el]⟩ := by
  unfold devicesOf at *
  split_ifs at hd hf ⊢ with hclass
  · have hne : listEmpty s.table (Fin.ofNat 256 dclass.toNat) = false := by
      rw [Bool.eq_false_iff, ne_eq, (h.lists.holds _).listEmpty_iff]
      exact hd
    have hloop := searchDevice_from h subclass (List.nil_append (σ (Fin.ofNat 256 dclass.toNat))).symm [] hf
    have hrun : getPciDevice fuel s dclass subclass = (searchDevice s (Fin.ofNat 256 dclass.toNat) subclass fuel
        (cellAt (Fin.ofNat 256 dclass.toNat) (σ (Fin.ofNat 256 dclass.toNat))) []).bind (checkSubclass s subclass) := by
      unfold getPciDevice
      rw [if_pos ⟨hclass, hne⟩, if_pos hsub, h.lists.listBegin_eq]
    rw [hloop, Option.bind_some] at hrun
    refine ⟨_, _, rfl, fun x hx => ?_, hrun⟩
    rw [List.nil_append, List.mem_append, List.mem_singleton, List.mem_map] at hx
    rcases hx with ⟨d, hmem, rfl⟩ | hx
    · exact .inr ⟨d, (List.takeWhile_sublist _).subset hmem, rfl⟩
    · exact .inl hx
  · exact absurd rfl hd

/-- **The search for a subclass** is right exactly when some device of the class has it. -/
theorem getPciDevice_search_iff (h : s.Registered σ) (hd : devicesOf σ dclass ≠ []) (hsub : subclass ≠ -1)
    (hf : (devicesOf σ dclass).length < fuel) : ∃ r, getPciDevice fuel s dclass subclass = some r ∧
      (SearchesRight s σ dclass subclass r ↔ ∃ d ∈ devicesOf σ dclass, s.Wanted subclass d) := by
  have hwanted : ∀ e, s.Wanted subclass e ↔ s.subclassAt (node e) = some subclass := fun e => or_iff_right hsub
  obtain ⟨el, reads, hel, hreads, hrun⟩ := getPciDevice_search h hd hsub hf
  rw [hrun]
  simp only [hwanted]
  cases hfind : (devicesOf σ dclass).find? fun e => s.subclassAt (node e) = some subclass with
  | none =>
      -- the sentinel is read as a device
      rw [hfind] at hel
      subst hel
      refine ⟨_, rfl, iff_of_false (fun hr => ?_) ?_⟩
      · obtain ⟨e, -, he⟩ := hr.reads _ (List.mem_append_right _ (List.mem_singleton_self _))
        cases he
      · rintro ⟨e, he, hsubclass⟩
        exact List.find?_eq_none.mp hfind e he (decide_eq_true hsubclass)
  | some e =>
      have hmem : e ∈ devicesOf σ dclass := List.mem_of_find?_eq_some hfind
      have hsubclass : s.subclassAt (node e) = some subclass := by simpa using List.find?_some hfind
      rw [hfind] at hel
      subst hel
      rw [Option.map_some, Option.getD_some, hsubclass]
      refine ⟨_, rfl, iff_of_true ⟨?_, fun x hx => ?_⟩ ⟨e, hmem, hsubclass⟩⟩
      · simp only [hwanted]
        rw [hfind]
        simp
      · rcases List.mem_append.mp hx with hx | hx
        · rcases hreads x hx with rfl | ⟨e', he', rfl⟩
          · exact ⟨e, hmem, rfl⟩
          · exact ⟨e', he', rfl⟩
        · exact ⟨e, hmem, List.mem_singleton.mp hx⟩

end

/-- **The search for a device**: it ends; and it returns the first device of the class with the subclass, reading no other
memory as a device, exactly when the class has no devices or has one that is searched for. -/
theorem get_pci_device_iff {s : PciState} {σ : Fin 256 → List ℕ} (h : s.Registered σ) (dclass subclass : BitVec 32)
    {fuel : ℕ} (hf : (devicesOf σ dclass).length < fuel) : ∃ r, getPciDevice fuel s dclass subclass = some r ∧
    (SearchesRight s σ dclass subclass r ↔
      devicesOf σ dclass = [] ∨ ∃ d ∈ devicesOf σ dclass, s.Wanted subclass d) := by
  rcases hd : devicesOf σ dclass with _ | ⟨d, ds⟩
  · refine ⟨_, getPciDevice_none h hd, iff_of_true ⟨?_, fun el hel => absurd hel List.not_mem_nil⟩ (.inl rfl)⟩
    rw [hd]
    rfl
  · by_cases hsub : subclass = -1
    · subst hsub
      have hw : s.Wanted (-1) d := .inl rfl
      refine ⟨_, getPciDevice_any h hd, iff_of_true ⟨?_, fun el hel => absurd hel List.not_mem_nil⟩
        (.inr ⟨d, List.mem_cons_self, hw⟩)⟩
      have hfirst : (d :: ds).find? (fun d => s.Wanted (-1) d) = some d := List.find?_cons_of_pos (decide_eq_true hw)
      rw [hd, hfirst]
      rfl
    · obtain ⟨r, hr, hright⟩ := getPciDevice_search_iff h (hd ▸ List.cons_ne_nil _ _) hsub hf
      refine ⟨r, hr, hright.trans ?_⟩
      rw [hd]
      exact (or_iff_right (List.cons_ne_nil _ _)).symm

/-- One device of class 1, with the subclass 6. -/
def oneController : PciState := initPciDev (fun _ _ _ ofs => if ofs = 5 then 0x0106 else 0) pciInit 0 0 none

theorem oneController_registered : oneController.Registered (Function.update (fun _ => []) 1 [0]) := by
  refine ⟨pciInit_represents.pushBack 1 (n := 0) fun _ => List.not_mem_nil, fun li d hd => ?_⟩
  by_cases hl : li = 1
  · subst hl
    rw [Function.update_self, List.mem_singleton] at hd
    exact hd ▸ Nat.one_pos
  · rw [Function.update_of_ne hl] at hd
    cases hd

/-- The one device is found. -/
theorem get_pci_device_iff_one : ∃ r, getPciDevice 2 oneController 1 6 = some r ∧
    SearchesRight oneController (Function.update (fun _ => []) 1 [0]) 1 6 r := by
  have hfuel : (devicesOf (Function.update (fun _ => []) 1 [0]) 1).length < 2 := by decide
  obtain ⟨r, hr, hright⟩ := get_pci_device_iff oneController_registered 1 6 hfuel
  exact ⟨r, hr, hright.mpr (.inr ⟨0, by decide, by decide⟩)⟩

/-- **The sentinel is returned** as a device of the subclass 0, and read as one in the search for the subclass 1. -/
theorem get_pci_device_sentinel :
    (∃ r, getPciDevice 2 oneController 1 0 = some r ∧ r.dev = some (tail 1) ∧
      ¬ SearchesRight oneController (Function.update (fun _ => []) 1 [0]) 1 0 r) ∧
    ∃ r, getPciDevice 2 oneController 1 1 = some r ∧ r.dev = none ∧ tail 1 ∈ r.reads ∧
      ¬ SearchesRight oneController (Function.update (fun _ => []) 1 [0]) 1 1 r := by
  have hzero : getPciDevice 2 oneController 1 0 = some ⟨some (tail 1), [node 0, tail 1, tail 1]⟩ := by decide
  have hone : getPciDevice 2 oneController 1 1 = some ⟨none, [node 0, tail 1, tail 1]⟩ := by decide
  have htail : ∀ dev subclass, ¬ SearchesRight oneController (Function.update (fun _ => []) 1 [0]) 1 subclass
      ⟨dev, [node 0, tail 1, tail 1]⟩ := by
    intro dev subclass hr
    obtain ⟨d, -, hd⟩ := hr.reads (tail 1) (by simp)
    cases hd
  exact ⟨⟨_, hzero, rfl, htail _ _⟩, _, hone, rfl, by simp, htail _ _⟩

end Dunkos
