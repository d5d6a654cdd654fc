import Mathlib

/-!
# Bitmaps of 64-bit words

The bit searches of `ummu_common.c` and the bit updates of `ummu_common.h`, over an array of
`unsigned long` words. `testBit` is the set that the searches are about.
-/

namespace Ummu

def enomem : Int := 12
def einval : Int := 22
def erange : Int := 34

abbrev Bitmap := Nat → BitVec 64

def bitsPerLong : Nat := 64

/-- `BITS_TO_LONGS`: the number of words that hold `cnt` bits. -/
def bitsToLongs (cnt : Nat) : Nat := (cnt + bitsPerLong - 1) / bitsPerLong

/-- The least index below `n` from `i` on at which `p` holds. -/
def firstIndex (p : Nat → Bool) : Nat → Nat → Option Nat
  | _, 0 => none
  | i, n + 1 => if p i then some i else firstIndex p (i + 1) n

/-- `__builtin_ffsl`: one plus the index of the least set bit, zero for the zero word. -/
def ffsl (word : BitVec 64) : Nat :=
  match firstIndex (fun i => word.getLsbD i) 0 64 with
  | some i => i + 1
  | none => 0

/-- `ffz`; the subtraction is on `unsigned long`. -/
def ffz (word : BitVec 64) : Nat := (ffsl (~~~word) + 2 ^ 64 - 1) % 2 ^ 64

/-- The word loop of `find_first_zero_bit` from word `i` on, with `left` words to go. -/
def findFirstZeroBitFrom (array : Bitmap) (size : Nat) : Nat → Nat → Nat → Nat
  | _, 0, _ => size
  | i, left + 1, ret =>
    if ~~~(array i) ≠ 0 then ret + ffz (array i)
    else findFirstZeroBitFrom array size (i + 1) left (ret + bitsPerLong)

def findFirstZeroBit (array : Bitmap) (size : Nat) : Nat :=
  if size = 0 then size else findFirstZeroBitFrom array size 0 (bitsToLongs size) 0

def ummuSetBit (nr : Nat) (addr : Bitmap) : Bitmap :=
  Function.update addr (nr / 64) (addr (nr / 64) ||| (1#64 <<< (nr % 64)))

def ummuClearBit (nr : Nat) (addr : Bitmap) : Bitmap :=
  Function.update addr (nr / 64) (addr (nr / 64) &&& ~~~(1#64 <<< (nr % 64)))

def testBit (addr : Bitmap) (nr : Nat) : Bool := (addr (nr / 64)).getLsbD (nr % 64)

lemma firstIndex_some {p : Nat → Bool} {i n k : Nat} (h : firstIndex p i n = some k) :
    i ≤ k ∧ k < i + n ∧ p k = true ∧ ∀ j, i ≤ j → j < k → p j = false := by
  induction n generalizing i with
  | zero => simp [firstIndex] at h
  | succ n ih =>
    rw [firstIndex] at h
    by_cases hp : p i = true
    · rw [if_pos hp] at h
      obtain rfl := Option.some.inj h
      exact ⟨le_refl _, by omega, hp, fun j hj hji => by omega⟩
    · rw [if_neg hp] at h
      obtain ⟨h1, h2, h3, h4⟩ := ih h
      refine ⟨by omega, by omega, h3, fun j hj hjk => ?_⟩
      by_cases hji : j = i
      · subst hji
        simpa using hp
      · exact h4 j (by omega) hjk

lemma firstIndex_none {p : Nat → Bool} {i n : Nat} (h : firstIndex p i n = none) :
    ∀ j, i ≤ j → j < i + n → p j = false := by
  induction n generalizing i with
  | zero => intro j h1 h2; omega
  | succ n ih =>
    rw [firstIndex] at h
    by_cases hp : p i = true
    · rw [if_pos hp] at h
      cases h
    · rw [if_neg hp] at h
      intro j h1 h2
      by_cases hji : j = i
      · subst hji
        simpa using hp
      · exact ih h j (by omega) (by omega)

lemma firstIndex_eq_some {p : Nat → Bool} {i n k : Nat} (hik : i ≤ k) (hk : k < i + n)
    (hp : p k = true) (hlow : ∀ j, i ≤ j → j < k → p j = false) :
    firstIndex p i n = some k := by
  cases h : firstIndex p i n with
  | none => simp [firstIndex_none h k hik hk] at hp
  | some m =>
    obtain ⟨h1, _, h3, h4⟩ := firstIndex_some h
    rcases lt_trichotomy m k with hlt | heq | hgt
    · simp [hlow m h1 hlt] at h3
    · rw [heq]
    · simp [h4 k hik hgt] at hp

/-- On a word that is not all ones, `ffz` is the index of its least clear bit. -/
lemma ffz_spec {word : BitVec 64} (h : ~~~word ≠ 0) :
    ffz word < 64 ∧ word.getLsbD (ffz word) = false ∧
      ∀ j, j < ffz word → word.getLsbD j = true := by
  unfold ffz ffsl
  cases hf : firstIndex (fun i => (~~~word).getLsbD i) 0 64 with
  | none =>
    exfalso
    apply h
    apply BitVec.eq_of_getLsbD_eq
    intro i hi
    have := firstIndex_none hf i (by omega) (by omega)
    simpa using this
  | some k =>
    obtain ⟨_, hk, hp, hlow⟩ := firstIndex_some hf
    have he : (k + 1 + 2 ^ 64 - 1) % 2 ^ 64 = k := by omega
    simp only [he]
    refine ⟨by omega, by simpa [show k < 64 by omega] using hp, fun j hj => ?_⟩
    have := hlow j (by omega) hj
    simpa [show j < 64 by omega] using this

/-- The word loop stops at the least clear bit, or says that the words left are all ones. -/
lemma findFirstZeroBitFrom_spec (array : Bitmap) (size i left : Nat) :
    (findFirstZeroBitFrom array size i left (i * 64) = size ∧
      ∀ nr, i * 64 ≤ nr → nr < (i + left) * 64 → testBit array nr = true) ∨
    (findFirstZeroBitFrom array size i left (i * 64) < (i + left) * 64 ∧
      testBit array (findFirstZeroBitFrom array size i left (i * 64)) = false ∧
      ∀ nr, i * 64 ≤ nr → nr < findFirstZeroBitFrom array size i left (i * 64) →
        testBit array nr = true) := by
  induction left generalizing i with
  | zero => exact Or.inl ⟨rfl, fun nr h1 h2 => by omega⟩
  | succ left ih =>
    rw [findFirstZeroBitFrom]
    by_cases hw : ~~~(array i) ≠ 0
    · rw [if_pos hw]
      obtain ⟨h1, h2, h3⟩ := ffz_spec hw
      refine Or.inr ⟨by omega, ?_, fun nr hlo hhi => ?_⟩
      · simp only [testBit]
        rw [show (i * 64 + ffz (array i)) / 64 = i by omega,
          show (i * 64 + ffz (array i)) % 64 = ffz (array i) by omega]
        exact h2
      · simp only [testBit]
        rw [show nr / 64 = i by omega]
        exact h3 _ (by omega)
    · rw [if_neg hw]
      have hfull : ∀ nr, i * 64 ≤ nr → nr < (i + 1) * 64 → testBit array nr = true := by
        intro nr hlo hhi
        have hz : ~~~(array i) = 0 := not_not.mp hw
        have hb := congrArg (fun w => BitVec.getLsbD w (nr % 64)) hz
        simp only [testBit]
        rw [show nr / 64 = i by omega]
        simpa [Nat.mod_lt nr (show 0 < 64 by omega)] using hb
      have he : i * 64 + bitsPerLong = (i + 1) * 64 := by simp only [bitsPerLong]; omega
      rw [he, show i + (left + 1) = i + 1 + left by omega]
      rcases ih (i + 1) with ⟨h1, h2⟩ | ⟨h1, h2, h3⟩
      · refine Or.inl ⟨h1, fun nr hlo hhi => ?_⟩
        by_cases hnr : nr < (i + 1) * 64
        · exact hfull nr hlo hnr
        · exact h2 nr (by omega) hhi
      · refine Or.inr ⟨h1, h2, fun nr hlo hhi => ?_⟩
        by_cases hnr : nr < (i + 1) * 64
        · exact hfull nr hlo hnr
        · exact h3 nr (by omega) hhi

/-- An index below `size` that `find_first_zero_bit` returns is a clear bit. -/
theorem findFirstZeroBit_clear (array : Bitmap) (size : Nat)
    (h : findFirstZeroBit array size < size) :
    testBit array (findFirstZeroBit array size) = false := by
  unfold findFirstZeroBit at h ⊢
  by_cases hs : size = 0
  · rw [if_pos hs] at h
    omega
  · rw [if_neg hs] at h ⊢
    rcases findFirstZeroBitFrom_spec array size 0 (bitsToLongs size) with ⟨h1, _⟩ | ⟨_, h2, _⟩
    · simp only [Nat.zero_mul] at h1
      omega
    · simpa only [Nat.zero_mul] using h2

@[simp] lemma testBit_ummuSetBit (addr : Bitmap) (nr k : Nat) :
    testBit (ummuSetBit nr addr) k = (decide (k = nr) || testBit addr k) := by
  unfold testBit ummuSetBit
  by_cases hw : k / 64 = nr / 64
  · have hk : k % 64 < 64 := Nat.mod_lt _ (by omega)
    have hn : nr % 64 < 64 := Nat.mod_lt _ (by omega)
    have hiff : k = nr ↔ k % 64 = nr % 64 := by omega
    rw [hw, Function.update_self]
    simp only [BitVec.getLsbD_or, BitVec.getLsbD_shiftLeft, hk, decide_true, Bool.true_and,
      BitVec.getLsbD_one, hiff]
    by_cases he : k % 64 = nr % 64
    · simp [he]
    · by_cases hlt : k % 64 < nr % 64
      · simp [he, hlt]
      · have : k % 64 - nr % 64 ≠ 0 := by omega
        simp [he, this]
  · have hne : k ≠ nr := fun h => hw (by rw [h])
    rw [Function.update_of_ne hw]
    simp [hne]

@[simp] lemma testBit_ummuClearBit (addr : Bitmap) (nr k : Nat) :
    testBit (ummuClearBit nr addr) k = (!decide (k = nr) && testBit addr k) := by
  unfold testBit ummuClearBit
  by_cases hw : k / 64 = nr / 64
  · have hk : k % 64 < 64 := Nat.mod_lt _ (by omega)
    have hn : nr % 64 < 64 := Nat.mod_lt _ (by omega)
    have hiff : k = nr ↔ k % 64 = nr % 64 := by omega
    rw [hw, Function.update_self]
    simp only [BitVec.getLsbD_and, BitVec.getLsbD_not, BitVec.getLsbD_shiftLeft, hk, decide_true,
      Bool.true_and, BitVec.getLsbD_one, hiff]
    by_cases he : k % 64 = nr % 64
    · simp [he]
    · by_cases hlt : k % 64 < nr % 64
      · simp [he, hlt]
      · have : k % 64 - nr % 64 ≠ 0 := by omega
        simp [he, this]
  · have hne : k ≠ nr := fun h => hw (by rw [h])
    rw [Function.update_of_ne hw]
    simp [hne]

end Ummu
