import Ummu.Queue
import Ummu.Lib.Ring

/-!
# Ring indices

An index of a ring with `2 ^ s` slots is a slot with a wrap bit above it. Advancing an index
counts modulo `2 ^ (s + 1)` and carries the bits above the wrap bit along.
-/

namespace Ummu

open Lib

section Index

variable {s idx a k : Nat}

/-- The index that is `k` entries after `idx`. -/
def advance (s idx k : Nat) : Nat := (ummuUpdateQueueIndex s)^[k] idx

/-- The two parts of an index: the bits above the wrap bit, and the index below them. -/
def aboveWrap (s idx : Nat) : Nat := idx / 2 ^ (s + 1)
def belowWrap (s idx : Nat) : Nat := idx % 2 ^ (s + 1)

@[simp] lemma advance_zero : advance s idx 0 = idx := rfl

lemma advance_succ (k : Nat) : advance s idx (k + 1) = ummuUpdateQueueIndex s (advance s idx k) :=
  Function.iterate_succ_apply' ..

lemma advance_add (j k : Nat) : advance s (advance s idx j) k = advance s idx (j + k) := by
  rw [advance, advance, advance, Nat.add_comm, Function.iterate_add_apply]

lemma toUint16_of_lt {x : Nat} (h : x < 2 ^ 16) : toUint16 x = x := by
  unfold toUint16
  omega

lemma two_pow_le (hs : s ≤ 15) : 2 ^ s ≤ 2 ^ 15 := Nat.pow_le_pow_right (by omega) hs

lemma qIdx_eq (idx s : Nat) : qIdx idx s = idx % 2 ^ s := by
  rw [qIdx, Nat.one_shiftLeft, Nat.and_two_pow_sub_one_eq_mod]

lemma qWrap_eq (idx s : Nat) : qWrap idx s = idx / 2 ^ s % 2 * 2 ^ s := by
  rw [qWrap, Nat.one_shiftLeft, Nat.and_two_pow, Nat.testBit_eq_decide_div_mod_eq]
  rcases Nat.mod_two_eq_zero_or_one (idx / 2 ^ s) with h | h <;> simp [h]

lemma xor_one (x : Nat) : x ^^^ 1 = x / 2 * 2 + (x + 1) % 2 := by
  apply Nat.eq_of_testBit_eq
  intro i
  cases i with
  | zero =>
    rw [Nat.testBit_xor, Nat.testBit_zero, Nat.testBit_zero, Nat.testBit_zero]
    rcases Nat.mod_two_eq_zero_or_one x with h | h
    · simp [h, Nat.add_mod]
    · simp [h, Nat.add_mod]
  | succ i =>
    rw [Nat.testBit_xor, Nat.testBit_succ, Nat.testBit_succ, Nat.testBit_succ,
      show (x / 2 * 2 + (x + 1) % 2) / 2 = x / 2 by omega]
    simp

/-- Advancing adds one below the carried bits. -/
theorem updateQueueIndex_eq (hs : s ≤ 15) (h : idx < 2 ^ 16) :
    ummuUpdateQueueIndex s idx =
      aboveWrap s idx * 2 ^ (s + 1) + (belowWrap s idx + 1) % 2 ^ (s + 1) := by
  have hpow := two_pow_le hs
  have hpos : 0 < 2 ^ s := Nat.two_pow_pos s
  have h2 : 2 ^ (s + 1) = 2 * 2 ^ s := by rw [pow_succ, Nat.mul_comm]
  have hmax : toUint16 (maxCmdQueIndex s) = 2 ^ s - 1 := by
    rw [maxCmdQueIndex, Nat.one_shiftLeft, toUint16_of_lt (by omega)]
  -- the index is `h * 2 ^ (s + 1) + w * 2 ^ s + r` with a wrap bit `w` and a slot `r`
  obtain ⟨r, hr⟩ : ∃ r, r = idx % 2 ^ s := ⟨_, rfl⟩
  obtain ⟨q, hq⟩ : ∃ q, q = idx / 2 ^ s := ⟨_, rfl⟩
  have hrlt : r < 2 ^ s := by rw [hr]; exact Nat.mod_lt _ hpos
  have habove : aboveWrap s idx = q / 2 := by
    rw [aboveWrap, h2, Nat.mul_comm, ← Nat.div_div_eq_div_mul, hq]
  have hbelow : belowWrap s idx = r + 2 ^ s * (q % 2) := by
    rw [belowWrap, h2, Nat.mul_comm, Nat.mod_mul, hq, hr]
  have h15 : 2 ^ s * (2 * 2 ^ (15 - s)) = 2 ^ 16 := by
    rw [Nat.mul_left_comm, ← pow_add, show s + (15 - s) = 15 by omega, ← pow_succ']
  have hq16 : q < 2 * 2 ^ (15 - s) := by
    rw [hq]
    exact Nat.div_lt_of_lt_mul (by omega)
  have hfit : ∀ q' r', q' < 2 * 2 ^ (15 - s) → r' < 2 ^ s → 2 ^ s * q' + r' < 2 ^ 16 := by
    intro q' r' h1 h3
    have := Nat.mul_le_mul_left (2 ^ s) (show q' + 1 ≤ 2 * 2 ^ (15 - s) by omega)
    rw [Nat.mul_add] at this
    omega
  have hsplit : 2 ^ s * q = q / 2 * (2 * 2 ^ s) + 2 ^ s * (q % 2) := by
    conv_lhs => rw [← Nat.div_add_mod q 2]
    ring
  simp only [ummuUpdateQueueIndex, hmax, Nat.and_two_pow_sub_one_eq_mod,
    Nat.shiftRight_eq_div_pow, ← hr, ← hq]
  rw [habove, hbelow, h2]
  by_cases hend : r = 2 ^ s - 1
  · rw [if_pos hend, Nat.or_zero, Nat.shiftLeft_eq, Nat.mul_comm _ (2 ^ s), xor_one]
    have := hfit (q / 2 * 2 + (q + 1) % 2) 0 (by omega) hpos
    rw [toUint16_of_lt (by omega)]
    rcases Nat.mod_two_eq_zero_or_one q with hw | hw
    · rw [hw, show (q + 1) % 2 = 1 by omega, Nat.mul_zero, Nat.add_zero,
        Nat.mod_eq_of_lt (show r + 1 < 2 * 2 ^ s by omega), show r + 1 = 2 ^ s by omega]
      ring
    · rw [hw, show (q + 1) % 2 = 0 by omega, Nat.mul_one,
        show r + 2 ^ s + 1 = 2 * 2 ^ s by omega, Nat.mod_self]
      ring
  · have hlt : r + 1 < 2 ^ s := by omega
    rw [if_neg hend, ← Nat.shiftLeft_add_eq_or_of_lt hlt, Nat.shiftLeft_eq, Nat.mul_comm q]
    have hsmall : r + 2 ^ s * (q % 2) + 1 < 2 * 2 ^ s := by
      rcases Nat.mod_two_eq_zero_or_one q with hw | hw <;> rw [hw] <;> omega
    rw [toUint16_of_lt (hfit q (r + 1) hq16 hlt), hsplit, Nat.mod_eq_of_lt hsmall]
    ring

lemma advance_spec (hs : s ≤ 15) (h : idx < 2 ^ 16) (k : Nat) :
    advance s idx k = aboveWrap s idx * 2 ^ (s + 1) + (belowWrap s idx + k) % 2 ^ (s + 1) ∧
      advance s idx k < 2 ^ 16 := by
  have hpos : 0 < 2 ^ (s + 1) := Nat.two_pow_pos _
  have h16 : 2 ^ (s + 1) * 2 ^ (15 - s) = 2 ^ 16 := by
    rw [← pow_add, show s + 1 + (15 - s) = 16 by omega]
  have habove : aboveWrap s idx < 2 ^ (15 - s) := Nat.div_lt_of_lt_mul (by omega)
  have hfit : ∀ x, aboveWrap s idx * 2 ^ (s + 1) + x % 2 ^ (s + 1) < 2 ^ 16 := by
    intro x
    have h1 := Nat.mul_le_mul_right (2 ^ (s + 1)) (show aboveWrap s idx + 1 ≤ 2 ^ (15 - s) from habove)
    have h2 := Nat.mod_lt x hpos
    rw [Nat.add_mul, Nat.mul_comm (2 ^ (15 - s)), h16] at h1
    omega
  induction k with
  | zero =>
    have hself : idx = aboveWrap s idx * 2 ^ (s + 1) + belowWrap s idx := by
      rw [aboveWrap, belowWrap, Nat.mul_comm, Nat.div_add_mod]
    have hlow : belowWrap s idx < 2 ^ (s + 1) := Nat.mod_lt idx hpos
    rw [advance_zero, Nat.add_zero (belowWrap s idx), Nat.mod_eq_of_lt hlow]
    exact ⟨hself, h⟩
  | succ k ih =>
    obtain ⟨h1, h2⟩ := ih
    have hlow := Nat.mod_lt (belowWrap s idx + k) hpos
    have ha : aboveWrap s (advance s idx k) = aboveWrap s idx := by
      rw [h1, aboveWrap, Nat.mul_comm, Nat.mul_add_div hpos, Nat.div_eq_of_lt hlow, Nat.add_zero]
    have hb : belowWrap s (advance s idx k) = (belowWrap s idx + k) % 2 ^ (s + 1) := by
      rw [h1, belowWrap, Nat.mul_comm, Nat.mul_add_mod, Nat.mod_mod]
    have heq : advance s idx (k + 1) =
        aboveWrap s idx * 2 ^ (s + 1) + (belowWrap s idx + (k + 1)) % 2 ^ (s + 1) := by
      rw [advance_succ, updateQueueIndex_eq hs h2, ha, hb, Nat.mod_add_mod, Nat.add_assoc]
    exact ⟨heq, heq ▸ hfit _⟩

/-- The slot of the index that is `k` entries on. -/
lemma qIdx_advance (hs : s ≤ 15) (h : idx < 2 ^ 16) (k : Nat) :
    qIdx (advance s idx k) s = (idx + k) % 2 ^ s := by
  have hdvd : 2 ^ s ∣ 2 ^ (s + 1) := pow_dvd_pow 2 (Nat.le_succ s)
  rw [qIdx_eq, (advance_spec hs h k).1, pow_succ', ← Nat.mul_assoc, Nat.mul_add_mod_self_right,
    ← pow_succ', Nat.mod_mod_of_dvd _ hdvd, belowWrap, Nat.add_mod, Nat.mod_mod_of_dvd _ hdvd,
    ← Nat.add_mod]

/-- The wrap bit of the index that is `k` entries on. -/
lemma qWrap_advance (hs : s ≤ 15) (h : idx < 2 ^ 16) (k : Nat) :
    qWrap (advance s idx k) s = (idx + k) / 2 ^ s % 2 * 2 ^ s := by
  rw [qWrap_eq, ← Nat.mod_mul_right_div_self, ← Nat.mod_mul_right_div_self, ← pow_succ,
    (advance_spec hs h k).1, Nat.mul_comm (aboveWrap s idx), Nat.mul_add_mod, Nat.mod_mod,
    belowWrap, Nat.mod_add_mod]

/-- Indices are equal only a whole number of turns apart. -/
lemma advance_eq_iff (hs : s ≤ 15) (h : idx < 2 ^ 16) {j k : Nat} :
    advance s idx j = advance s idx k ↔ j % 2 ^ (s + 1) = k % 2 ^ (s + 1) := by
  rw [(advance_spec hs h j).1, (advance_spec hs h k).1, Nat.add_left_cancel_iff]
  exact ⟨fun he => Nat.ModEq.add_left_cancel' _ he, fun he => Nat.ModEq.add_left _ he⟩

/-- `queue_has_space` counts the free slots while at most a whole ring is outstanding. -/
theorem queueHasSpace_iff (hs : s ≤ 15) (h : idx < 2 ^ 16) (hk : k ≤ 2 ^ s) (n : Nat) :
    queueHasSpace (advance s idx k) idx s n = true ↔ k + n ≤ 2 ^ s := by
  have hpow := two_pow_le hs
  have hpos : 0 < 2 ^ s := Nat.two_pow_pos s
  have hci : qIdx idx s = idx % 2 ^ s := qIdx_eq idx s
  have hrlt := Nat.mod_lt idx hpos
  have hplt := Nat.mod_lt (idx + k) hpos
  have hsum : (idx + k) / 2 ^ s = idx / 2 ^ s + (idx % 2 ^ s + k) / 2 ^ s := by
    conv_lhs => rw [← Nat.div_add_mod idx (2 ^ s), Nat.add_assoc, Nat.mul_add_div hpos]
  have hslot : (idx + k) % 2 ^ s = (idx % 2 ^ s + k) % 2 ^ s := (Nat.mod_add_mod ..).symm
  rw [queueHasSpace, decide_eq_true_eq, qWrap_advance hs h, qWrap_eq, qIdx_advance hs h, hci,
    toUint16_of_lt (show idx % 2 ^ s < 2 ^ 16 by omega),
    toUint16_of_lt (show (idx + k) % 2 ^ s < 2 ^ 16 by omega), hsum, hslot, Nat.one_shiftLeft]
  by_cases hwrap : idx % 2 ^ s + k < 2 ^ s
  · rw [Nat.div_eq_of_lt hwrap, Nat.mod_eq_of_lt hwrap, Nat.add_zero, if_pos rfl]
    unfold toUint16
    omega
  · have hone : (idx % 2 ^ s + k) / 2 ^ s = 1 :=
      Nat.div_eq_of_lt_le (by omega) (by omega)
    have hmod : (idx % 2 ^ s + k) % 2 ^ s = idx % 2 ^ s + k - 2 ^ s := by
      rw [Nat.mod_eq_sub_mod (by omega), Nat.mod_eq_of_lt (by omega)]
    rw [hone, hmod, if_neg]
    · unfold toUint16
      omega
    · intro heq
      have := Nat.eq_of_mul_eq_mul_right hpos heq
      omega

/-- The indices come back to where they were after `2 ^ (s + 1)` steps, and not before. -/
theorem advance_period (hs : s ≤ 15) (h : idx < 2 ^ 16) :
    advance s idx (2 ^ (s + 1)) = idx ∧
      ∀ k, 0 < k → k < 2 ^ (s + 1) → advance s idx k ≠ idx := by
  have hiff : ∀ k, advance s idx k = idx ↔ k % 2 ^ (s + 1) = 0 := by
    intro k
    have := advance_eq_iff hs h (j := k) (k := 0)
    rwa [advance_zero, Nat.zero_mod] at this
  refine ⟨(hiff _).mpr (Nat.mod_self _), fun k h1 h2 he => ?_⟩
  have := (hiff k).mp he
  rw [Nat.mod_eq_of_lt h2] at this
  omega

end Index

section Geometry

variable {page : BitVec 32} {p : Nat}

lemma ctz_of_toNat {x : BitVec 32} {k : Nat} (hx : x.toNat = 2 ^ k) (hk : k < 32) : ctz x = k := by
  have hbit : ∀ j, x.getLsbD j = decide (j = k) := by
    intro j
    rw [BitVec.getLsbD, hx, Nat.testBit_two_pow]
    simp [eq_comm]
  rw [ctz, firstIndex_eq_some (Nat.zero_le k) (by omega) (by rw [hbit]; simp)
    (fun j _ hj => by rw [hbit]; simp; omega)]

/-- `PAGE_SHIFT` is the logarithm of the page size. -/
lemma pageShift_eq (hp : 12 ≤ p) (hpage : page.toInt = 2 ^ p) : pageShift page = p := by
  have hmsb : page.msb = false := by
    rw [BitVec.msb_eq_toInt, hpage]
    have : (0 : Int) < 2 ^ p := by positivity
    simp only [decide_eq_false_iff_not]
    omega
  have hnat : page.toNat = 2 ^ p := by
    rw [BitVec.toInt_eq_toNat_of_msb hmsb] at hpage
    exact_mod_cast hpage
  have hlt : p < 32 := by
    have := page.isLt
    rw [hnat] at this
    exact (Nat.pow_lt_pow_iff_right (by omega)).mp this
  have hsize : (pageSize page / 0x1000).toNat = 2 ^ (p - 12) := by
    rw [pageSize, BitVec.signExtend_eq_setWidth_of_msb_false hmsb, BitVec.toNat_udiv,
      BitVec.toNat_setWidth, hnat, Nat.mod_eq_of_lt (Nat.pow_lt_pow_right (by omega) (by omega))]
    exact Nat.pow_div hp (by omega)
  have hpos : 0 < pageSize page / 0x1000 := by
    rw [BitVec.lt_def, hsize]
    exact Nat.two_pow_pos _
  rw [pageShift, if_pos hpos, ctz_of_toNat (k := p - 12) ?_ (by omega)]
  · omega
  · rw [BitVec.toNat_setWidth, hsize,
      Nat.mod_eq_of_lt (Nat.pow_lt_pow_right (by omega) (by omega))]

/-- An index in a `uint16_t`: a slot and the wrap bit above it. -/
def ValidIndex (s idx : Nat) : Prop := idx < 2 ^ (s + 1) ∧ idx < 2 ^ 16

/-- The free space of a ring is told exactly, and a full ring from an empty one. -/
def RingExact (s : Nat) : Prop :=
  ∀ ci, ValidIndex s ci →
    (∀ k n, k ≤ 2 ^ s → n < 2 ^ 16 →
      (queueHasSpace (advance s ci k) ci s n = true ↔ k + n ≤ 2 ^ s)) ∧
    advance s ci (2 ^ (s + 1)) = ci ∧
      ∀ k, 0 < k → k < 2 ^ (s + 1) → advance s ci k ≠ ci

/-- From `2 ^ 16` slots on the space of an empty ring is truncated to zero. -/
lemma queueHasSpace_truncated {s : Nat} (hs : 16 ≤ s) : queueHasSpace 0 0 s 1 = false := by
  have hzero : toUint16 ((2 ^ s : Nat) : Int) = 0 := by
    obtain ⟨k, hk⟩ : 2 ^ 16 ∣ 2 ^ s := pow_dvd_pow 2 hs
    rw [hk, toUint16]
    omega
  have hempty : toUint16 0 = 0 := rfl
  simp only [queueHasSpace, qIdx, Nat.zero_and, Nat.one_shiftLeft, if_true, Nat.cast_zero, hempty,
    sub_zero, hzero]
  rfl

/-- The arithmetic is exact for the exponents whose indices fit in 16 bits. -/
theorem ringExact_iff (s : Nat) : RingExact s ↔ s ≤ 15 := by
  constructor
  · intro h
    by_contra hs
    have hspace := ((h 0 ⟨Nat.two_pow_pos _, by omega⟩).1 0 1 (Nat.zero_le _) (by omega)).mpr
      (Nat.zero_add 1 ▸ Nat.one_le_two_pow)
    rw [advance_zero, queueHasSpace_truncated (by omega)] at hspace
    cases hspace
  · intro hs ci hci
    exact ⟨fun k n hk _ => queueHasSpace_iff hs hci.2 hk n, advance_period hs hci.2⟩

lemma cmdQuePiSize_eq (hp : 12 ≤ p) (hpage : page.toInt = 2 ^ p) (order : BitVec 8) :
    cmdQuePiSize page order = order.toNat + p - 4 := by
  have hlt : p < 256 := by
    by_contra h
    have h1 := page.isLt
    have h2 : (2 : Int) ^ 32 ≤ 2 ^ p := pow_le_pow_right₀ (by omega) (by omega)
    have h3 := @BitVec.toInt_lt 32 page
    omega
  have horder := order.isLt
  rw [cmdQuePiSize, pageShift_eq hp hpage, Nat.mod_eq_of_lt (by omega), toUint16, cmdEntryShift]
  omega

/-- The rings that `ummu_queue_create` accepts are exact up to `2 ^ 15` entries. -/
theorem queueCreate_ringExact {info : QueueInfo} {env : QueueEnv} {ctx : QueueCtx}
    {log : List ResourceEvent} (hp : 12 ≤ p) (hpage : env.getpagesize.toInt = 2 ^ p)
    (hcreate : ummuQueueCreate false info env = (0, ctx, log)) :
    RingExact ctx.cmdQuePiSize ↔ info.pcmdqOrder.toNat + p ≤ 19 := by
  have hsize : ctx.cmdQuePiSize = info.pcmdqOrder.toNat + p - 4 := by
    rw [← cmdQuePiSize_eq hp hpage]
    have hneg : (-enomem : Int) ≠ 0 := by decide
    unfold ummuQueueCreate at hcreate
    rw [if_neg Bool.false_ne_true] at hcreate
    by_cases halloc : env.argsAlloc = false
    · rw [if_pos halloc] at hcreate
      exact (hneg (congrArg Prod.fst hcreate)).elim
    · rw [if_neg halloc] at hcreate
      simp only at hcreate
      split at hcreate
      · exact (hneg (congrArg Prod.fst hcreate)).elim
      · exact (congrArg (fun r => r.2.1.cmdQuePiSize) hcreate).symm
  rw [ringExact_iff, hsize]
  omega

/-- One queue of 256 pages of 4 KiB, which a driver may report: its ring never has space. -/
def wideQueueInfo : QueueInfo := ⟨8, 0, 1⟩
def wideQueueEnv : QueueEnv := ⟨4096, true, some 0x10000⟩

theorem wideQueue_not_ringExact :
    ¬ ∀ (p : Nat) (info : QueueInfo) (env : QueueEnv) (ctx : QueueCtx) (log : List ResourceEvent),
      12 ≤ p → env.getpagesize.toInt = 2 ^ p → ummuQueueCreate false info env = (0, ctx, log) →
        RingExact ctx.cmdQuePiSize := by
  intro h
  have hs := (ringExact_iff _).mp (h 12 wideQueueInfo wideQueueEnv _ _ (by decide) (by decide) rfl)
  revert hs
  decide

theorem queueCreate_ringExact_small :
    RingExact (ummuQueueCreate false ⟨2, 0, 1⟩ wideQueueEnv).2.1.cmdQuePiSize ↔ 2 + 12 ≤ 19 := by
  have hcreate : ummuQueueCreate false ⟨2, 0, 1⟩ wideQueueEnv =
      (0, (ummuQueueCreate false ⟨2, 0, 1⟩ wideQueueEnv).2) := rfl
  have hpage : wideQueueEnv.getpagesize.toInt = 2 ^ 12 := by decide
  exact queueCreate_ringExact (by decide) hpage hcreate

end Geometry

end Ummu
