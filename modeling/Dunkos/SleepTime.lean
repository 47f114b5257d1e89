import Dunkos.Timer
import Mathlib.Algebra.Order.Floor.Div
import Mathlib.Algebra.Ring.Int.Defs
import Mathlib.GroupTheory.GroupAction.Ring

/-! # How long a thread sleeps (`timer.c`, `syscall.c`)

`sleep_timespec` computes nanoseconds with `safemul` and `safeadd`, and gives `sleep_ticks` the ticks they make.  For want of
a parenthesis these test one bit of the result only, which is clear in every multiple of 10^9; and `safeadd` is a copy of
`safemul` that multiplies, too.  `sleep_time_iff` says for which durations the ticks come out right all the same. -/

namespace Dunkos

/-- `struct timespec`. -/
structure Timespec where
  seconds : BitVec 64
  nanoseconds : BitVec 64
deriving DecidableEq, Repr

def nanoPerSec : BitVec 32 := 1000000000

def msPerSec : BitVec 32 := 1000

def quantum : BitVec 32 := 100000

/-- A comparison, as an `int`. -/
def cInt (b : Bool) : BitVec 32 := if b then 1 else 0

/-- `safemul` of a `uint64_t` and an `int`, and what it stores.  The second `==` belongs to the operand of the `&` before
it, and the masks are `1 << 7` and `1 << 3`. -/
def safemul (a : BitVec 64) (b : BitVec 32) : Bool × BitVec 64 :=
  let prod := a * b.signExtend 64
  ((prod &&& (1#32 <<< 7).signExtend 64 != 0) ==
    (a &&& (cInt (1#32 <<< 7 == cInt (b &&& 1#32 <<< 3 != 0))).signExtend 64 != 0), prod)

/-- `safeadd` of an `int64_t` and a `uint64_t`. -/
def safeadd (a b : BitVec 64) : Bool × BitVec 64 :=
  let sum := a * b
  ((sum &&& (1#32 <<< 7).signExtend 64 != 0) ==
    (a &&& (cInt (1#32 <<< 7 == cInt (b &&& (1#32 <<< 7).signExtend 64 != 0))).signExtend 64 != 0), sum)

/-- `div_rnd_up` of an `int64_t` and an `int`. -/
def divRndUp (n : BitVec 64) (d : BitVec 32) : BitVec 64 := (n + d.signExtend 64 - 1).sdiv (d.signExtend 64)

namespace Sleepers
variable {M : Type} (s : Sleepers M)

/-- `sleep_timespec` of the running thread, up to the call of `lock_acquire` in `sleep_ticks`. -/
def sleepTimespec (duration : Timespec) : Sleepers M :=
  let m := safemul duration.seconds nanoPerSec
  if m.1 then
    let a := safeadd m.2 duration.nanoseconds
    if a.1 then s.sleepTicks (divRndUp a.2 quantum) else s
  else s

/-- `sleep`. -/
def sleep (ms : BitVec 64) : Sleepers M :=
  let nano := ((ms * nanoPerSec.signExtend 64).sdiv (msPerSec.signExtend 64)).srem (nanoPerSec.signExtend 64)
  let seconds := ms.sdiv (msPerSec.signExtend 64)
  s.sleepTimespec ⟨seconds, nano⟩

/-- `sleepts`. -/
def sleepts (ts : Timespec) : Sleepers M := s.sleepTimespec ts

end Sleepers

/-! ### What they are for -/

/-- The duration in nanoseconds. -/
def Timespec.total (ts : Timespec) : ℕ := 10 ^ 9 * ts.seconds.toNat + ts.nanoseconds.toNat

/-- `sleep_timespec` sleeps for the duration, rounded up to a number of ticks, or returns at once where it is too long. -/
structure TimespecRight {M : Type} (s : Sleepers M) (ts : Timespec) : Prop where
  sleeps : ts.total < 2 ^ 63 → s.sleepTimespec ts = s.sleepTicks (BitVec.ofNat 64 (ts.total ⌈/⌉ 100000))
  returns : ¬ ts.total < 2 ^ 63 → s.sleepTimespec ts = s

/-- The same of `sleep`. -/
def SleepRight {M : Type} (s : Sleepers M) (ms : ℕ) : Prop :=
  s.sleep (BitVec.ofNat 64 ms) = s.sleepTicks (BitVec.ofNat 64 (10 ^ 6 * ms ⌈/⌉ 100000))

/-- Modulo 2^64, the number of nanoseconds is that of `n` ticks rounded up, and leaves room for the rounding. -/
def RoundsTo (nanos n : ℕ) : Prop := nanos % 2 ^ 64 + 99999 < 2 ^ 63 ∧ nanos % 2 ^ 64 ⌈/⌉ 100000 = n

/-! ### The macros -/

/-- What both macros test: the right hand side is 0, as `1 << 7` is no truth value. -/
theorem macro_test (x a : BitVec 64) (c : Bool) : ((x &&& (1#32 <<< 7).signExtend 64 != 0) ==
    (a &&& (cInt (1#32 <<< 7 == cInt c)).signExtend 64 != 0)) = !x.getLsbD 7 := by
  have hcond : (1#32 <<< 7 == cInt c) = false := by cases c <;> rfl
  have hzero : (cInt false).signExtend 64 = 0#64 := rfl
  have hmask : (1#32 <<< 7).signExtend 64 = BitVec.twoPow 64 7 := rfl
  rw [hcond, hzero, hmask, BitVec.and_zero, BitVec.and_twoPow]
  cases x.getLsbD 7 <;> rfl

theorem safemul_eq (a : BitVec 64) (b : BitVec 32) :
    safemul a b = (!(a * b.signExtend 64).getLsbD 7, a * b.signExtend 64) :=
  congrArg (·, a * b.signExtend 64) (macro_test _ _ _)

theorem safeadd_eq (a b : BitVec 64) : safeadd a b = (!(a * b).getLsbD 7, a * b) :=
  congrArg (·, a * b) (macro_test _ _ _)

/-- The bit is clear in every multiple of 512. -/
theorem getLsbD_seven {x : BitVec 64} (h : x.toNat % 512 = 0) : x.getLsbD 7 = false := by
  rw [BitVec.getLsbD, Nat.testBit_eq_decide_div_mod_eq, decide_eq_false_iff_not]
  omega

theorem nanoPerSec_signExtend : nanoPerSec.signExtend 64 = 1000000000#64 := rfl

/-- The nanoseconds of `sleep_timespec`, a product of three. -/
def Timespec.product (ts : Timespec) : ℕ := 10 ^ 9 * (ts.seconds.toNat * ts.nanoseconds.toNat)

theorem mul_seconds_toNat (ts : Timespec) :
    (ts.seconds * 1000000000#64 * ts.nanoseconds).toNat = ts.product % 2 ^ 64 := by
  rw [BitVec.toNat_mul, BitVec.toNat_mul, Nat.mod_mul_mod, BitVec.toNat_ofNat]
  congr 1
  show ts.seconds.toNat * 10 ^ 9 * _ = _
  unfold Timespec.product
  rw [Nat.mul_comm ts.seconds.toNat, Nat.mul_assoc]

section
variable {M : Type} {s : Sleepers M}

/-- Both macros are true, and `sleep_timespec` always sleeps. -/
theorem sleepTimespec_eq (ts : Timespec) :
    s.sleepTimespec ts = s.sleepTicks (divRndUp (BitVec.ofNat 64 ts.product) quantum) := by
  have hprod : ts.seconds * 1000000000#64 * ts.nanoseconds = BitVec.ofNat 64 ts.product :=
    BitVec.eq_of_toNat_eq ((mul_seconds_toNat ts).trans (BitVec.toNat_ofNat _ _).symm)
  have hmul : (ts.seconds * 1000000000#64).getLsbD 7 = false := by
    apply getLsbD_seven
    rw [BitVec.toNat_mul, BitVec.toNat_ofNat]
    omega
  have hadd : (BitVec.ofNat 64 ts.product).getLsbD 7 = false := by
    apply getLsbD_seven
    rw [BitVec.toNat_ofNat, Timespec.product]
    omega
  simp only [Sleepers.sleepTimespec, safemul_eq, safeadd_eq, nanoPerSec_signExtend, hmul, hadd, Bool.not_false,
    if_true, hprod]

/-- The ticks say how often `sleep_ticks` was called, and with what. -/
theorem sleepTicks_inj {t u : BitVec 64} (h : s.sleepTicks t = s.sleepTicks u) : t = u := by
  have hcalls := congrArg (fun s' => (s'.calls s.kernel.running).map SleepCall.duration) h
  simp only [Sleepers.sleepTicks, Function.update_self, List.map_cons, List.cons.injEq] at hcalls
  exact hcalls.1

theorem sleepTicks_ne (t : BitVec 64) : s.sleepTicks t ≠ s := by
  intro h
  have hcalls := congrArg (fun s' => (s'.calls s.kernel.running).length) h
  simp only [Sleepers.sleepTicks, Function.update_self, List.length_cons] at hcalls
  omega

end

/-- Rounding up gives this number of ticks, and the sum does not wrap around.  Where it does, the quotient is not
positive. -/
theorem divRndUp_eq_iff {n q : ℕ} (hq : q < 2 ^ 63) (hzero : q = 0 → n = 0) :
    divRndUp (BitVec.ofNat 64 n) quantum = BitVec.ofNat 64 q ↔ RoundsTo n q := by
  have hquantum : quantum.signExtend 64 = 100000#64 := rfl
  have hd : (100000#64).toInt = 100000 := rfl
  have hone : (1 : BitVec 64).toNat = 1 := rfl
  have hx : (BitVec.ofNat 64 n + 100000#64 - 1).toNat = (n % 2 ^ 64 + 99999) % 2 ^ 64 := by
    rw [BitVec.toNat_sub, BitVec.toNat_add, BitVec.toNat_ofNat, BitVec.toNat_ofNat, hone]
    omega
  have hdiv : (divRndUp (BitVec.ofNat 64 n) quantum).toInt =
      (BitVec.ofNat 64 n + 100000#64 - 1).toInt.tdiv 100000 := by
    unfold divRndUp
    rw [hquantum, BitVec.toInt_sdiv_of_ne_or_ne _ _ (.inr (by decide)), hd]
  have hqint : (BitVec.ofNat 64 q).toInt = q := by
    have hnat : (BitVec.ofNat 64 q).toNat = q := by
      rw [BitVec.toNat_ofNat]
      omega
    rw [BitVec.toInt_eq_toNat_of_lt (by omega), hnat]
  rw [← BitVec.toInt_inj, hdiv, hqint, RoundsTo, Nat.ceilDiv_eq_add_pred_div]
  by_cases hlt : n % 2 ^ 64 + 99999 < 2 ^ 63
  · have hint : (BitVec.ofNat 64 n + 100000#64 - 1).toInt = (n % 2 ^ 64 + 99999 : ℕ) := by
      rw [BitVec.toInt_eq_toNat_of_lt (by omega), hx]
      omega
    have htdiv : ((n % 2 ^ 64 + 99999 : ℕ) : ℤ).tdiv 100000 = ((n % 2 ^ 64 + 99999) / 100000 : ℕ) :=
      (Int.ofNat_tdiv _ _).symm
    have hpred : n % 2 ^ 64 + 100000 - 1 = n % 2 ^ 64 + 99999 := Nat.add_sub_assoc (by decide) _
    rw [hint, htdiv, Nat.cast_inj, hpred]
    exact (and_iff_right hlt).symm
  · have hint : (BitVec.ofNat 64 n + 100000#64 - 1).toInt < 100000 := by
      rw [BitVec.toInt_eq_toNat_cond, hx]
      split_ifs <;> omega
    refine iff_of_false (fun h => hlt ?_) fun h => hlt h.1
    have hle : (BitVec.ofNat 64 n + 100000#64 - 1).toInt.tdiv 100000 ≤ 0 := by
      generalize (BitVec.ofNat 64 n + 100000#64 - 1).toInt = x at hint
      rcases Int.le_total 0 x with hx | hx
      · rw [Int.tdiv_eq_ediv_of_nonneg hx]
        omega
      · have hneg : 0 ≤ (-x).tdiv 100000 := Int.tdiv_nonneg (by omega) (by decide)
        rw [Int.neg_tdiv] at hneg
        omega
    have hn : n = 0 := hzero (by omega)
    subst hn
    decide

/-! ### Durations -/

/-- The nanoseconds that `sleep` splits off, where `ms * 10^9` wraps around. -/
def wrapNano (ms : ℕ) : ℕ :=
  (((((ms : ℤ) * 1000000000).bmod (2 ^ 64)).tdiv 1000).tmod 1000000000 % 2 ^ 64).toNat

/-- It does not for 106 days. -/
theorem wrapNano_of_le {ms : ℕ} (h : ms ≤ 9223372036) : wrapNano ms = 10 ^ 6 * (ms % 1000) := by
  have hbmod : ((ms : ℤ) * 1000000000).bmod (2 ^ 64) = ms * 1000000000 := Int.bmod_eq_of_le (by omega) (by omega)
  have hdiv : (ms : ℤ) * 1000000000 / 1000 = ms * 1000000 := by omega
  have hmod : (ms : ℤ) * 1000000 % 1000000000 = (10 ^ 6 * (ms % 1000) : ℕ) := by omega
  have hlt : ((10 ^ 6 * (ms % 1000) : ℕ) : ℤ) % 2 ^ 64 = (10 ^ 6 * (ms % 1000) : ℕ) := by
    apply Int.emod_eq_of_lt <;> omega
  unfold wrapNano
  rw [hbmod, Int.tdiv_eq_ediv_of_nonneg (by omega), hdiv, Int.tmod_eq_emod_of_nonneg (by omega), hmod, hlt, Int.toNat_natCast]

theorem toNat_eq_toInt_emod (x : BitVec 64) : x.toNat = (x.toInt % 2 ^ 64).toNat := by
  rw [BitVec.toInt_eq_toNat_cond]
  split_ifs <;> omega

section
variable {M : Type} {s : Sleepers M}

theorem timespecRight_iff (ts : Timespec) :
    TimespecRight s ts ↔ ts.total < 2 ^ 63 ∧ RoundsTo ts.product (ts.total ⌈/⌉ 100000) := by
  have hq : ts.total < 2 ^ 63 → (divRndUp (BitVec.ofNat 64 ts.product) quantum =
      BitVec.ofNat 64 (ts.total ⌈/⌉ 100000) ↔ RoundsTo ts.product (ts.total ⌈/⌉ 100000)) := by
    intro hlt
    rw [Nat.ceilDiv_eq_add_pred_div]
    refine divRndUp_eq_iff (by omega) fun hzero => ?_
    unfold Timespec.total at hzero
    have hsec : ts.seconds.toNat = 0 := by omega
    rw [Timespec.product, hsec]
    omega
  constructor
  · rintro ⟨hsleeps, hreturns⟩
    have hlt : ts.total < 2 ^ 63 := by
      by_contra hge
      exact sleepTicks_ne _ ((sleepTimespec_eq ts).symm.trans (hreturns hge))
    exact ⟨hlt, (hq hlt).mp (sleepTicks_inj ((sleepTimespec_eq ts).symm.trans (hsleeps hlt)))⟩
  · rintro ⟨hlt, hr⟩
    refine ⟨fun _ => ?_, fun hge => absurd hlt hge⟩
    rw [sleepTimespec_eq, (hq hlt).mpr hr]

/-- The `timespec` that `sleep` makes. -/
theorem sleep_eq {ms : ℕ} (h : 10 ^ 6 * ms < 2 ^ 63) : ∃ ts : Timespec, s.sleep (BitVec.ofNat 64 ms) = s.sleepTimespec ts ∧
    ts.seconds.toNat = ms / 1000 ∧ ts.nanoseconds.toNat = wrapNano ms := by
  have hnano : nanoPerSec.signExtend 64 = 1000000000#64 := rfl
  have hms : msPerSec.signExtend 64 = 1000#64 := rfl
  have hint : (BitVec.ofNat 64 ms).toInt = ms := by
    have hnat : (BitVec.ofNat 64 ms).toNat = ms := by
      rw [BitVec.toNat_ofNat]
      omega
    rw [BitVec.toInt_eq_toNat_of_lt (by omega), hnat]
  have h1000 : (1000#64).toInt = 1000 := rfl
  have hnanos : (1000000000#64).toInt = 1000000000 := rfl
  refine ⟨_, rfl, ?_, ?_⟩
  · rw [hms, toNat_eq_toInt_emod, BitVec.toInt_sdiv_of_ne_or_ne _ _ (.inr (by decide)), hint, h1000]
    rw [Int.tdiv_eq_ediv_of_nonneg (by omega)]
    omega
  · have hsrem : (((BitVec.ofNat 64 ms * nanoPerSec.signExtend 64).sdiv (msPerSec.signExtend 64)).srem
        (nanoPerSec.signExtend 64)).toInt = ((((ms : ℤ) * 1000000000).bmod (2 ^ 64)).tdiv 1000).tmod 1000000000 := by
      rw [hms, hnano, BitVec.toInt_srem, BitVec.toInt_sdiv_of_ne_or_ne _ _ (.inr (by decide)), BitVec.toInt_mul, hint,
        h1000, hnanos]
    rw [toNat_eq_toInt_emod, hsrem]
    unfold wrapNano
    rfl

theorem sleepRight_iff {ms : ℕ} (h : 10 ^ 6 * ms < 2 ^ 63) :
    SleepRight s ms ↔ RoundsTo (10 ^ 9 * (ms / 1000 * wrapNano ms)) (10 * ms) := by
  obtain ⟨ts, hts, hsec, hns⟩ := sleep_eq (s := s) h
  have hceil : 10 ^ 6 * ms ⌈/⌉ 100000 = 10 * ms := by
    rw [Nat.ceilDiv_eq_add_pred_div]
    omega
  have hproduct : ts.product = 10 ^ 9 * (ms / 1000 * wrapNano ms) := by
    rw [Timespec.product, hsec, hns]
  rw [SleepRight, hts, sleepTimespec_eq, hceil, hproduct]
  have hiff := divRndUp_eq_iff (n := 10 ^ 9 * (ms / 1000 * wrapNano ms)) (q := 10 * ms) (by omega) fun hzero => by
    have hms : ms = 0 := by omega
    subst hms
    rfl
  exact ⟨fun h => hiff.mp (sleepTicks_inj h), fun h => congrArg s.sleepTicks (hiff.mpr h)⟩

/-- Without a wrap around, only no time at all is right. -/
theorem roundsTo_of_small {a b : ℕ} (hlt : 10 ^ 9 * (a * b) + 99999 < 2 ^ 63) :
    RoundsTo (10 ^ 9 * (a * b)) ((10 ^ 9 * a + b) ⌈/⌉ 100000) ↔ a = 0 ∧ b = 0 := by
  have hmod : 10 ^ 9 * (a * b) % 2 ^ 64 = 10 ^ 9 * (a * b) := Nat.mod_eq_of_lt (by omega)
  rw [RoundsTo, hmod, Nat.ceilDiv_eq_add_pred_div, Nat.ceilDiv_eq_add_pred_div]
  constructor
  · rintro ⟨-, h⟩
    rcases Nat.eq_zero_or_pos a with rfl | ha
    · rw [Nat.zero_mul] at h
      omega
    rcases Nat.eq_zero_or_pos b with rfl | hb
    · rw [Nat.mul_zero] at h
      omega
    · -- the product is at least `a + b - 1`, and is `a` for `b = 1`
      have hge : a + b - 1 ≤ a * b := by
        obtain ⟨a, rfl⟩ := Nat.exists_eq_add_one_of_ne_zero ha.ne'
        obtain ⟨b, rfl⟩ := Nat.exists_eq_add_one_of_ne_zero hb.ne'
        rw [Nat.add_mul, Nat.mul_add]
        omega
      by_cases hb₁ : b = 1
      · rw [hb₁, Nat.mul_one] at h
        omega
      · omega
  · rintro ⟨rfl, rfl⟩
    exact ⟨hlt, rfl⟩

/-- For durations whose product does not wrap around. -/
theorem timespecRight_of_small {ts : Timespec} (h : ts.product + 99999 < 2 ^ 63) :
    TimespecRight s ts ↔ ts.seconds = 0 ∧ ts.nanoseconds = 0 := by
  have hword : ∀ x : BitVec 64, x.toNat = 0 ↔ x = 0 := fun x => ⟨fun h => BitVec.eq_of_toNat_eq h, congrArg BitVec.toNat⟩
  have hzero : ts.seconds.toNat = 0 ∧ ts.nanoseconds.toNat = 0 ↔ ts.seconds = 0 ∧ ts.nanoseconds = 0 :=
    and_congr (hword _) (hword _)
  rw [timespecRight_iff, ← hzero]
  have hiff : RoundsTo ts.product (ts.total ⌈/⌉ 100000) ↔ _ := roundsTo_of_small h
  rw [hiff]
  refine and_iff_right_of_imp fun hz => ?_
  rw [Timespec.total, hz.1, hz.2]
  decide

end

/-- **How long a thread sleeps.**  `sleep_timespec` is right exactly for durations of less than 2^63 nanoseconds for which the
*product* `10^9 * seconds * nanoseconds` rounds up to the same number of ticks, modulo 2^64, as the sum; and `sleep` exactly
when that product of the two parts rounds up to ten ticks for each millisecond. -/
theorem sleep_time_iff {M : Type} (s : Sleepers M) :
    (∀ ts, TimespecRight s ts ↔ ts.total < 2 ^ 63 ∧ RoundsTo ts.product (ts.total ⌈/⌉ 100000)) ∧
      ∀ ms : ℕ, 10 ^ 6 * ms < 2 ^ 63 →
        (SleepRight s ms ↔ RoundsTo (10 ^ 9 * (ms / 1000 * wrapNano ms)) (10 * ms)) :=
  ⟨timespecRight_iff, fun _ h => sleepRight_iff h⟩

/-- A second is no time at all. -/
theorem sleep_time_second : startSleepers.sleepTimespec ⟨1, 0⟩ = startSleepers.sleepTicks 0 ∧
    ¬ TimespecRight startSleepers ⟨1, 0⟩ ∧ ¬ SleepRight startSleepers 1000 := by
  refine ⟨sleepTimespec_eq _, fun h => ?_, fun h => ?_⟩
  · exact absurd ((timespecRight_iff _).mp h).2.2 (by decide)
  · have hrounds := (sleepRight_iff (by decide)).mp h
    rw [wrapNano_of_le (by decide)] at hrounds
    exact absurd hrounds.2 (by decide)

end Dunkos
