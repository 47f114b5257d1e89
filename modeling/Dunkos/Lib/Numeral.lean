import Mathlib.Data.Nat.Digits.Lemmas

/-! # Numerals

A numeral of base `b` is a text of digits below `b`, the highest first, in the alphabet `digit`.  `numeral` is the one
without a zero in front: it is the shortest of all that spell a number, and no other is as short (`shortest_iff`).  Where
`val` tells the digits of the alphabet apart, a text that spells a number reads back as this number (`Spells.read`). -/

namespace Numeral

variable {A : Type*}

/-- The digits `t` have the value `n`. -/
def Spells (digit : ℕ → A) (b : ℕ) (t : List A) (n : ℕ) : Prop :=
  ∃ ds : List ℕ, ds ≠ [] ∧ (∀ d ∈ ds, d < b) ∧ t = ds.map digit ∧ Nat.ofDigits b ds.reverse = n

/-- No shorter text has the value `n`. -/
structure Shortest (digit : ℕ → A) (b : ℕ) (t : List A) (n : ℕ) : Prop where
  spells : Spells digit b t n
  least : ∀ s, Spells digit b s n → t.length ≤ s.length

/-- The digits that division by the base gives, and `0` for zero. -/
def digitsOf (b n : ℕ) : List ℕ := if n = 0 then [0] else (Nat.digits b n).reverse

def numeral (digit : ℕ → A) (b n : ℕ) : List A := (digitsOf b n).map digit

/-- The value of a text, read from its first digit on. -/
def read (val : A → ℕ) (b : ℕ) (t : List A) : ℕ := t.foldl (fun n c => val c + b * n) 0

variable {digit : ℕ → A} {val : A → ℕ} {b n : ℕ} {t : List A}

theorem read_eq (val : A → ℕ) (b : ℕ) (t : List A) : read val b t = Nat.ofDigits b (t.map val).reverse := by
  rw [Nat.ofDigits_eq_foldr, List.foldr_reverse, List.foldl_map]
  rfl

/-- A text that spells a number reads back as it. -/
theorem Spells.read (h : Spells digit b t n) (hval : ∀ d < b, val (digit d) = d) : read val b t = n := by
  obtain ⟨ds, -, hlt, rfl, rfl⟩ := h
  have hid : ∀ d ∈ ds, (val ∘ digit) d = id d := fun d hd => hval d (hlt d hd)
  have hmap : (ds.map digit).map val = ds := by rw [List.map_map, List.map_congr_left hid, List.map_id]
  rw [read_eq, hmap]

theorem digitsOf_ne_nil (b n : ℕ) : digitsOf b n ≠ [] := by
  unfold digitsOf
  split_ifs with hn
  · exact List.cons_ne_nil _ _
  · rw [Ne, List.reverse_eq_nil_iff]
    exact Nat.digits_ne_nil_iff_ne_zero.mpr hn

theorem digitsOf_lt (hb : 1 < b) (n : ℕ) : ∀ d ∈ digitsOf b n, d < b := by
  intro d hd
  unfold digitsOf at hd
  split_ifs at hd with hn
  · rw [List.mem_singleton.mp hd]
    exact Nat.zero_lt_of_lt hb
  · exact Nat.digits_lt_base hb (List.mem_reverse.mp hd)

theorem ofDigits_digitsOf (b n : ℕ) : Nat.ofDigits b (digitsOf b n).reverse = n := by
  unfold digitsOf
  split_ifs with hn
  · rw [hn]
    simp
  · rw [List.reverse_reverse, Nat.ofDigits_digits]

theorem spells_numeral (digit : ℕ → A) (hb : 1 < b) (n : ℕ) : Spells digit b (numeral digit b n) n :=
  ⟨digitsOf b n, digitsOf_ne_nil b n, digitsOf_lt hb n, rfl, ofDigits_digitsOf b n⟩

/-- As many digits as division gives are needed. -/
theorem length_digitsOf_le (hb : 1 < b) {ds : List ℕ} (hne : ds ≠ []) (hlt : ∀ d ∈ ds, d < b)
    (hval : Nat.ofDigits b ds.reverse = n) : (digitsOf b n).length ≤ ds.length := by
  unfold digitsOf
  split_ifs with hn
  · exact List.length_pos_of_ne_nil hne
  · have hrev : ∀ d ∈ ds.reverse, d < b := fun d hd => hlt d (List.mem_reverse.mp hd)
    rw [List.length_reverse, Nat.digits_length_le_iff hb, ← hval, ← List.length_reverse]
    exact Nat.ofDigits_lt_base_pow_length hb hrev

/-- **The shortest text** for a number is its numeral. -/
theorem shortest_iff (hb : 1 < b) : Shortest digit b t n ↔ t = numeral digit b n := by
  constructor
  · rintro ⟨⟨ds, hne, hlt, rfl, hval⟩, hleast⟩
    have hle := hleast _ (spells_numeral digit hb n)
    rw [numeral, List.length_map, List.length_map] at hle
    have hlen := Nat.le_antisymm hle (length_digitsOf_le hb hne hlt hval)
    have hrev : ds.reverse = (digitsOf b n).reverse := by
      apply Nat.ofDigits_inj_of_len_eq hb
      · rw [List.length_reverse, List.length_reverse, hlen]
      · exact fun d hd => hlt d (List.mem_reverse.mp hd)
      · exact fun d hd => digitsOf_lt hb n d (List.mem_reverse.mp hd)
      · rw [hval, ofDigits_digitsOf]
    rw [List.reverse_injective hrev]
    rfl
  · rintro rfl
    refine ⟨spells_numeral digit hb n, ?_⟩
    rintro s ⟨ds, hne, hlt, rfl, hval⟩
    rw [numeral, List.length_map, List.length_map]
    exact length_digitsOf_le hb hne hlt hval

/-- Numbers with the same numeral are the same. -/
theorem numeral_inj (hb : 1 < b) (hval : ∀ d < b, val (digit d) = d) {m n : ℕ}
    (h : numeral digit b m = numeral digit b n) : m = n := by
  have hm := (spells_numeral digit hb m).read hval
  have hn := (spells_numeral digit hb n).read hval
  rw [← hm, ← hn, h]

end Numeral
