import Ummu.Common

/-!
# Bit searches and updates

The searches of `ummu_common.c` for set bits, the loop of `FOR_EACH_SET_BIT`, and what they see of a
bitmap after any updates. No bitmap in memory has so many bits that `BITS_TO_LONGS` wraps.
-/

namespace Ummu

/-- The word loop of `find_first_bit` and of `find_next_bit` from word `i` on, with `left` words to
go. -/
def findSetBitFrom (array : Bitmap) (size : Nat) : Nat → Nat → Nat → Nat
  | _, 0, _ => size
  | i, left + 1, ret =>
    if array i ≠ 0 then ret + ffz (~~~(array i))
    else findSetBitFrom array size (i + 1) left (ret + bitsPerLong)

def findFirstBit (array : Bitmap) (size : Nat) : Nat :=
  if size = 0 then size else findSetBitFrom array size 0 (bitsToLongs size) 0

def findNextBit (array : Bitmap) (size offset : Nat) : Nat :=
  if offset ≥ size ∨ size = 0 then size
  else
    let i := offset >>> 6
    let ret := i * bitsPerLong
    let longOffset := offset % bitsPerLong
    let tmp := array i &&& (BitVec.allOnes 64 <<< longOffset)
    if tmp ≠ 0 then ret + ffz (~~~tmp)
    else findSetBitFrom array size (i + 1) (bitsToLongs size - (i + 1)) (ret + bitsPerLong)

/-- The bits that `FOR_EACH_SET_BIT` visits from `bit` on, if it ends within `rounds` rounds. -/
def setBitsFrom (addr : Bitmap) (size : Nat) : Nat → Nat → Option (List Nat)
  | 0, bit => if bit < size then none else some []
  | rounds + 1, bit =>
    if bit < size then
      (setBitsFrom addr size rounds (findNextBit addr size (bit + 1))).map (bit :: ·)
    else some []

/-- `FOR_EACH_SET_BIT`. -/
def forEachSetBit (addr : Bitmap) (size rounds : Nat) : Option (List Nat) :=
  setBitsFrom addr size rounds (findFirstBit addr size)

/-- A call of `ummu_set_bit` or `ummu_clear_bit`. -/
inductive BitCall where
  | set (nr : Nat)
  | clear (nr : Nat)

def BitCall.nr : BitCall → Nat
  | .set nr => nr
  | .clear nr => nr

def BitCall.run (addr : Bitmap) : BitCall → Bitmap
  | .set nr => ummuSetBit nr addr
  | .clear nr => ummuClearBit nr addr

/-- What the call means for the set of the bits. -/
def BitCall.update (s : Set Nat) : BitCall → Set Nat
  | .set nr => insert nr s
  | .clear nr => s \ {nr}

/-- The set that a bitmap holds. -/
def bitsOf (addr : Bitmap) : Set Nat := {nr | testBit addr nr = true}

/-- From `offset` on, `r` is the first set bit below `size`, or there is none. -/
structure NextBit (addr : Bitmap) (size offset r : Nat) : Prop where
  clear : ∀ nr, offset ≤ nr → nr < r → nr < size → testBit addr nr = false
  found : r < size → offset ≤ r ∧ testBit addr r = true

/-- The searches below `size` see the set `s`. -/
structure SearchesSee (addr : Bitmap) (size : Nat) (s : Set Nat) : Prop where
  visits : ∀ rounds, size ≤ rounds → ∃ visited, forEachSetBit addr size rounds = some visited ∧
    (∀ nr, nr ∈ visited ↔ nr < size ∧ nr ∈ s) ∧ visited.Pairwise (· < ·)
  firstZero : (∃ nr < size, nr ∉ s) → IsLeast {nr | nr ∉ s} (findFirstZeroBit addr size)
  noZero : (∀ nr < size, nr ∈ s) → size ≤ findFirstZeroBit addr size

section Search

variable {addr addr' : Bitmap} {size : Nat}

lemma testBit_not (addr : Bitmap) (nr : Nat) :
    testBit (fun i => ~~~(addr i)) nr = !testBit addr nr := by
  have hlt : nr % 64 < 64 := Nat.mod_lt _ (by omega)
  simp [testBit, hlt]

/-- Looking for a set bit is looking for a clear bit of the complement. -/
lemma findSetBitFrom_eq (array : Bitmap) (size i left ret : Nat) :
    findSetBitFrom array size i left ret =
      findFirstZeroBitFrom (fun i => ~~~(array i)) size i left ret := by
  induction left generalizing i ret with
  | zero => rfl
  | succ left ih =>
    rw [findSetBitFrom, findFirstZeroBitFrom, BitVec.not_not, ih]

lemma size_le_words (size : Nat) : size ≤ bitsToLongs size * 64 := by
  simp only [bitsToLongs, bitsPerLong]
  omega

lemma findFirstZeroBitFrom_ge (array : Bitmap) (size i left ret : Nat) :
    findFirstZeroBitFrom array size i left ret = size ∨
      ret ≤ findFirstZeroBitFrom array size i left ret := by
  induction left generalizing i ret with
  | zero => exact Or.inl rfl
  | succ left ih =>
    rw [findFirstZeroBitFrom]
    by_cases hw : ~~~(array i) ≠ 0
    · rw [if_pos hw]
      exact Or.inr (Nat.le_add_right _ _)
    · rw [if_neg hw]
      refine (ih (i + 1) (ret + bitsPerLong)).imp_right (fun h => ?_)
      exact le_trans (Nat.le_add_right _ _) h

/-- The word loop finds the next set bit from the first bit of word `i` on. -/
lemma findSetBitFrom_next (addr : Bitmap) (i left : Nat) (hleft : size ≤ (i + left) * 64) :
    NextBit addr size (i * 64) (findSetBitFrom addr size i left (i * 64)) := by
  rw [findSetBitFrom_eq]
  have hnot : ∀ nr, testBit (fun i => ~~~(addr i)) nr = true → testBit addr nr = false := by
    intro nr h
    rwa [testBit_not, Bool.not_eq_true'] at h
  rcases findFirstZeroBitFrom_spec (fun i => ~~~(addr i)) size i left with ⟨h1, h2⟩ | ⟨h1, h2, h3⟩
  · rw [h1]
    exact ⟨fun nr hlo hhi _ => hnot nr (h2 nr hlo (by omega)), fun h => absurd h (lt_irrefl _)⟩
  · rw [testBit_not, Bool.not_eq_false'] at h2
    refine ⟨fun nr hlo hhi _ => hnot nr (h3 nr hlo hhi), fun h => ⟨?_, h2⟩⟩
    exact (findFirstZeroBitFrom_ge _ size i left (i * 64)).resolve_left (by omega)

lemma findFirstBit_next (addr : Bitmap) (size : Nat) :
    NextBit addr size 0 (findFirstBit addr size) := by
  unfold findFirstBit
  by_cases hs : size = 0
  · rw [if_pos hs]
    exact ⟨fun nr _ _ h => by omega, fun h => by omega⟩
  · rw [if_neg hs]
    have hsize := size_le_words size
    have h := findSetBitFrom_next addr 0 (bitsToLongs size) (show size ≤ _ by omega)
    rwa [Nat.zero_mul] at h

lemma testBit_masked {i k n : Nat} (hk : k < 64) :
    (addr i &&& (BitVec.allOnes 64 <<< n)).getLsbD k = (decide (n ≤ k) && testBit addr (i * 64 + k)) := by
  have hdiv : (i * 64 + k) / 64 = i := by omega
  have hmod : (i * 64 + k) % 64 = k := by omega
  rw [testBit, hdiv, hmod, BitVec.getLsbD_and, BitVec.getLsbD_shiftLeft, BitVec.getLsbD_allOnes]
  by_cases hn : n ≤ k
  · have hlt : ¬k < n := by omega
    have hsub : k - n < 64 := by omega
    simp only [hk, hn, hlt, hsub, decide_true, decide_false, Bool.not_false, Bool.true_and,
      Bool.and_true]
  · have hlt : k < n := by omega
    simp only [hn, hlt, decide_true, decide_false, Bool.not_true, Bool.and_false, Bool.false_and]

/-- `find_next_bit` finds the next set bit from any offset on, also within a word. -/
lemma findNextBit_next (addr : Bitmap) (size offset : Nat) :
    NextBit addr size offset (findNextBit addr size offset) := by
  unfold findNextBit
  by_cases hend : offset ≥ size ∨ size = 0
  · rw [if_pos hend]
    exact ⟨fun nr hlo _ h => by omega, fun h => by omega⟩
  rw [if_neg hend]
  obtain ⟨i, hi⟩ : ∃ i, i = offset / 64 := ⟨_, rfl⟩
  obtain ⟨n, hn⟩ : ∃ n, n = offset % 64 := ⟨_, rfl⟩
  have hshift : offset >>> 6 = i := by
    rw [Nat.shiftRight_eq_div_pow, hi]
  simp only [hshift, bitsPerLong, ← hn]
  -- the first word, without the bits below the offset
  by_cases htmp : addr i &&& (BitVec.allOnes 64 <<< n) ≠ 0
  · rw [if_pos htmp]
    have hword : ~~~(~~~(addr i &&& (BitVec.allOnes 64 <<< n))) ≠ 0 := by rwa [BitVec.not_not]
    obtain ⟨h1, h2, h3⟩ := ffz_spec hword
    generalize ffz (~~~(addr i &&& (BitVec.allOnes 64 <<< n))) = k at h1 h2 h3
    rw [BitVec.getLsbD_not, testBit_masked h1] at h2
    simp only [h1, decide_true, Bool.true_and, Bool.not_eq_false', Bool.and_eq_true,
      decide_eq_true_eq] at h2
    refine ⟨fun nr hlo hhi _ => ?_, fun _ => ⟨by omega, h2.2⟩⟩
    have hbit := h3 (nr - i * 64) (by omega)
    rw [BitVec.getLsbD_not, testBit_masked (by omega)] at hbit
    have hle : n ≤ nr - i * 64 := by omega
    have hlt : nr - i * 64 < 64 := by omega
    have hnr : i * 64 + (nr - i * 64) = nr := by omega
    simpa [hlt, hle, hnr] using hbit
  · rw [if_neg htmp]
    have hzero : ∀ nr, offset ≤ nr → nr < (i + 1) * 64 → testBit addr nr = false := by
      intro nr hlo hhi
      have hbit := congrArg (fun w => BitVec.getLsbD w (nr - i * 64)) (not_not.mp htmp)
      simp only [testBit_masked (show nr - i * 64 < 64 by omega)] at hbit
      have hle : n ≤ nr - i * 64 := by omega
      have hnr : i * 64 + (nr - i * 64) = nr := by omega
      simpa [hle, hnr] using hbit
    have hsize := size_le_words size
    have h := findSetBitFrom_next addr (i + 1) (bitsToLongs size - (i + 1))
      (show size ≤ _ by omega)
    rw [show i * 64 + 64 = (i + 1) * 64 by ring]
    refine ⟨fun nr hlo hhi hs => ?_, fun hs => ?_⟩
    · by_cases hnr : nr < (i + 1) * 64
      · exact hzero nr hlo hnr
      · exact h.clear nr (by omega) hhi hs
    · obtain ⟨h1, h2⟩ := h.found hs
      exact ⟨by omega, h2⟩

/-- Behind the last set bit there is nothing to visit. -/
lemma NextBit.none {offset bit : Nat} (h : NextBit addr size offset bit) (hbit : ¬bit < size)
    (nr : Nat) : nr ∈ ([] : List Nat) ↔ offset ≤ nr ∧ nr < size ∧ testBit addr nr = true := by
  constructor
  · exact fun hnr => absurd hnr List.not_mem_nil
  · rintro ⟨h1, h2, h3⟩
    rw [h.clear nr h1 (by omega) h2] at h3
    cases h3

/-- The rounds of `FOR_EACH_SET_BIT` that are left visit the set bits that are left. -/
lemma setBitsFrom_spec {rounds offset bit : Nat} (h : NextBit addr size offset bit)
    (hrounds : size ≤ offset + rounds) :
    ∃ visited, setBitsFrom addr size rounds bit = some visited ∧
      (∀ nr, nr ∈ visited ↔ offset ≤ nr ∧ nr < size ∧ testBit addr nr = true) ∧
      visited.Pairwise (· < ·) := by
  induction rounds generalizing offset bit with
  | zero =>
    have hbit : ¬bit < size := fun hlt => by
      have := (h.found hlt).1
      omega
    exact ⟨[], if_neg hbit, h.none hbit, List.Pairwise.nil⟩
  | succ rounds ih =>
    by_cases hbit : bit < size
    · obtain ⟨hle, hset⟩ := h.found hbit
      obtain ⟨visited, h1, h2, h3⟩ := ih (findNextBit_next addr size (bit + 1)) (by omega)
      refine ⟨bit :: visited, ?_, fun nr => ?_, ?_⟩
      · rw [setBitsFrom, if_pos hbit, h1, Option.map_some]
      · rw [List.mem_cons, h2]
        constructor
        · rintro (rfl | ⟨hlo, hs, ht⟩)
          · exact ⟨hle, hbit, hset⟩
          · exact ⟨by omega, hs, ht⟩
        · rintro ⟨hlo, hs, ht⟩
          rcases lt_trichotomy nr bit with hlt | heq | hgt
          · rw [h.clear nr hlo hlt hs] at ht
            cases ht
          · exact Or.inl heq
          · exact Or.inr ⟨hgt, hs, ht⟩
      · rw [List.pairwise_cons]
        refine ⟨fun nr hnr => ?_, h3⟩
        exact ((h2 nr).mp hnr).1
    · exact ⟨[], by rw [setBitsFrom, if_neg hbit], h.none hbit, List.Pairwise.nil⟩

theorem searchesSee_bitsOf (addr : Bitmap) (size : Nat) :
    SearchesSee addr size (bitsOf addr) := by
  refine ⟨fun rounds hrounds => ?_, fun hzero => ?_, fun hfull => ?_⟩
  · obtain ⟨visited, h1, h2, h3⟩ := setBitsFrom_spec (findFirstBit_next addr size)
      (show size ≤ 0 + rounds by omega)
    refine ⟨visited, h1, fun nr => ?_, h3⟩
    rw [h2]
    exact ⟨fun h => h.2, fun h => ⟨Nat.zero_le _, h⟩⟩
  · obtain ⟨nr, hnr, hclear⟩ := hzero
    have hsize := size_le_words size
    unfold findFirstZeroBit
    rw [if_neg (by omega)]
    have hspec := findFirstZeroBitFrom_spec addr size 0 (bitsToLongs size)
    rw [Nat.zero_mul] at hspec
    rcases hspec with ⟨_, h2⟩ | ⟨_, h2, h3⟩
    · exact (hclear (h2 nr (Nat.zero_le _) (by omega))).elim
    · refine ⟨fun h => Bool.false_ne_true (h2.symm.trans h), fun k hk => ?_⟩
      by_contra hlt
      exact hk (h3 k (Nat.zero_le _) (not_le.mp hlt))
  · by_contra hlt
    have hbit := findFirstZeroBit_clear addr size (not_le.mp hlt)
    exact Bool.false_ne_true (hbit.symm.trans (hfull _ (not_le.mp hlt)))

lemma findFirstZeroBitFrom_congr {i left ret : Nat}
    (h : ∀ j, i ≤ j → j < i + left → addr' j = addr j) :
    findFirstZeroBitFrom addr' size i left ret = findFirstZeroBitFrom addr size i left ret := by
  induction left generalizing i ret with
  | zero => rfl
  | succ left ih =>
    rw [findFirstZeroBitFrom, findFirstZeroBitFrom, h i (le_refl _) (by omega)]
    by_cases hw : ~~~(addr i) ≠ 0
    · rw [if_pos hw, if_pos hw]
    · rw [if_neg hw, if_neg hw]
      exact ih (fun j h1 h2 => h j (by omega) (by omega))

lemma findSetBitFrom_congr {i left ret : Nat}
    (h : ∀ j, i ≤ j → j < i + left → addr' j = addr j) :
    findSetBitFrom addr' size i left ret = findSetBitFrom addr size i left ret := by
  rw [findSetBitFrom_eq, findSetBitFrom_eq]
  apply findFirstZeroBitFrom_congr
  intro j h1 h2
  rw [h j h1 h2]

lemma findNextBit_congr (h : ∀ i < bitsToLongs size, addr' i = addr i) (offset : Nat) :
    findNextBit addr' size offset = findNextBit addr size offset := by
  unfold findNextBit
  by_cases hend : offset ≥ size ∨ size = 0
  · rw [if_pos hend, if_pos hend]
  · have hword : offset >>> 6 < bitsToLongs size := by
      have hsize := size_le_words size
      rw [Nat.shiftRight_eq_div_pow]
      omega
    have hrest : ∀ ret, findSetBitFrom addr' size (offset >>> 6 + 1)
        (bitsToLongs size - (offset >>> 6 + 1)) ret =
        findSetBitFrom addr size (offset >>> 6 + 1) (bitsToLongs size - (offset >>> 6 + 1)) ret :=
      fun ret => findSetBitFrom_congr (fun j _ hj => h j (by omega))
    rw [if_neg hend, if_neg hend]
    simp only [h _ hword, hrest]

lemma setBitsFrom_congr (h : ∀ i < bitsToLongs size, addr' i = addr i) (rounds bit : Nat) :
    setBitsFrom addr' size rounds bit = setBitsFrom addr size rounds bit := by
  induction rounds generalizing bit with
  | zero => rfl
  | succ rounds ih => rw [setBitsFrom, setBitsFrom, findNextBit_congr h, ih]

/-- The searches read the words that hold the bits below `size`, and no others. -/
theorem searches_congr (h : ∀ i < bitsToLongs size, addr' i = addr i) (rounds : Nat) :
    forEachSetBit addr' size rounds = forEachSetBit addr size rounds ∧
      findFirstZeroBit addr' size = findFirstZeroBit addr size := by
  have hword : ∀ j, 0 ≤ j → j < 0 + bitsToLongs size → addr' j = addr j :=
    fun j _ hj => h j (by omega)
  refine ⟨?_, ?_⟩
  · have hfirst : findFirstBit addr' size = findFirstBit addr size := by
      unfold findFirstBit
      rw [findSetBitFrom_congr hword]
    rw [forEachSetBit, forEachSetBit, hfirst, setBitsFrom_congr h]
  · unfold findFirstZeroBit
    rw [findFirstZeroBitFrom_congr hword]

end Search

section Update

variable (addr : Bitmap)

/-- One call changes one bit of the set. -/
theorem bitsOf_run (call : BitCall) : bitsOf (call.run addr) = call.update (bitsOf addr) := by
  ext k
  cases call with
  | set nr => simp [bitsOf, BitCall.run, BitCall.update]
  | clear nr => simp [bitsOf, BitCall.run, BitCall.update, and_comm]

lemma bitsOf_runs (calls : List BitCall) :
    bitsOf (calls.foldl BitCall.run addr) = calls.foldl BitCall.update (bitsOf addr) := by
  induction calls generalizing addr with
  | nil => rfl
  | cons call calls ih => rw [List.foldl_cons, List.foldl_cons, ih, bitsOf_run]

lemma testBit_run_of_ne {call : BitCall} {nr : Nat} (h : nr ≠ call.nr) :
    testBit (call.run addr) nr = testBit addr nr := by
  cases call with
  | set k => simp [BitCall.run, show nr ≠ k from h]
  | clear k => simp [BitCall.run, show nr ≠ k from h]

/-- After any updates the searches see exactly the updated set, and the next update changes one bit
only. -/
theorem bitmap_exact (size : Nat) (calls : List BitCall) :
    SearchesSee (calls.foldl BitCall.run addr) size (calls.foldl BitCall.update (bitsOf addr)) ∧
    (∀ call : BitCall, ∀ nr, nr ≠ call.nr → testBit (call.run (calls.foldl BitCall.run addr)) nr =
      testBit (calls.foldl BitCall.run addr) nr) ∧
    ∀ addr' : Bitmap, (∀ i < bitsToLongs size, addr' i = calls.foldl BitCall.run addr i) →
      SearchesSee addr' size (calls.foldl BitCall.update (bitsOf addr)) := by
  have hsee := searchesSee_bitsOf (calls.foldl BitCall.run addr) size
  rw [bitsOf_runs] at hsee
  refine ⟨hsee, fun call nr hnr => testBit_run_of_ne _ hnr, fun addr' hwords => ?_⟩
  have hzero := (searches_congr hwords 0).2
  refine ⟨fun rounds hrounds => ?_, fun h => ?_, fun h => ?_⟩
  · rw [(searches_congr hwords rounds).1]
    exact hsee.visits rounds hrounds
  · rw [hzero]
    exact hsee.firstZero h
  · rw [hzero]
    exact hsee.noZero h

end Update

end Ummu
