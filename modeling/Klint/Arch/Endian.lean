/-
# Byte order

The macros of `env/include/arch/endian.h`. `swap16` works on a value that C promotes to
`int`, 32 bits wide; the other two work in the width of their argument. A conversion swaps
on the machine of the other byte order and is the identity on the one of the same.

`swap32` and `swap64` mask the middle bytes with `0xFF` after the shift to the left, which
leaves none of them, and with one and the same `0xFF` after the shift to the right, which
puts them all on the lowest byte.
-/
import Mathlib.Data.Nat.Bitwise
import Mathlib.Tactic.Common
import Mathlib.Tactic.IntervalCases

namespace Klint

/-! ### The macros -/

/-- `swap16`, converted to 16 bits. -/
def swap16 (val : BitVec 16) : BitVec 16 :=
  let promoted := val.setWidth 32
  (promoted <<< 8 ||| promoted >>> 8).setWidth 16

def swap32 (val : BitVec 32) : BitVec 32 :=
  val <<< 24 ||| (val <<< 8 &&& 0xFF) ||| (val >>> 8 &&& 0xFF) ||| val >>> 24

def swap64 (val : BitVec 64) : BitVec 64 :=
  val <<< 56 ||| (val <<< 40 &&& 0xFF) ||| (val <<< 24 &&& 0xFF) ||| (val <<< 8 &&& 0xFF) |||
    (val >>> 8 &&& 0xFF) ||| (val >>> 24 &&& 0xFF) ||| (val >>> 40 &&& 0xFF) ||| val >>> 56

/-- `__BYTE_ORDER__` -/
inductive ByteOrder
  | little
  | big
deriving DecidableEq, Repr

/-- The conversion to little endian, and from it: a swap on a big endian machine. -/
def ByteOrder.le {n : ℕ} (swap : BitVec n → BitVec n) : ByteOrder → BitVec n → BitVec n
  | .little, x => x
  | .big, x => swap x

/-- The conversion to big endian, and from it: a swap on a little endian machine. -/
def ByteOrder.be {n : ℕ} (swap : BitVec n → BitVec n) : ByteOrder → BitVec n → BitVec n
  | .little, x => swap x
  | .big, x => x

section Conversions

variable (order : ByteOrder)

def cpuToLe16 : BitVec 16 → BitVec 16 := order.le swap16
def cpuToLe32 : BitVec 32 → BitVec 32 := order.le swap32
def cpuToLe64 : BitVec 64 → BitVec 64 := order.le swap64
def cpuToBe16 : BitVec 16 → BitVec 16 := order.be swap16
def cpuToBe32 : BitVec 32 → BitVec 32 := order.be swap32
def cpuToBe64 : BitVec 64 → BitVec 64 := order.be swap64
def leToCpu16 : BitVec 16 → BitVec 16 := order.le swap16
def leToCpu32 : BitVec 32 → BitVec 32 := order.le swap32
def leToCpu64 : BitVec 64 → BitVec 64 := order.le swap64
def beToCpu16 : BitVec 16 → BitVec 16 := order.be swap16
def beToCpu32 : BitVec 32 → BitVec 32 := order.be swap32
def beToCpu64 : BitVec 64 → BitVec 64 := order.be swap64

end Conversions

/-! ### Bytes -/

section Bytes

variable {n : ℕ}

/-- A byte of a value, the lowest first. -/
def byte (val : BitVec n) (i : ℕ) : BitVec 8 := val.extractLsb' (8 * i) 8

def bytes (val : BitVec n) : List (BitVec 8) := (List.range (n / 8)).map (byte val)

/-- All bytes but the first and the last are zero. -/
def MiddleZero (val : BitVec n) : Prop := ∀ i, 0 < i → i + 1 < n / 8 → byte val i = 0

theorem getLsbD_byte (val : BitVec n) (i : ℕ) {j : ℕ} (hj : j < 8) :
    (byte val i).getLsbD j = val.getLsbD (8 * i + j) := by
  simp [byte, hj]

theorem eq_of_byte {v w : BitVec n} (hn : n % 8 = 0) (h : ∀ i < n / 8, byte v i = byte w i) : v = w := by
  apply BitVec.eq_of_getLsbD_eq
  intro k hk
  have hb := h (k / 8) (by omega)
  have hv := getLsbD_byte v (k / 8) (Nat.mod_lt k (by decide : 8 > 0))
  have hw := getLsbD_byte w (k / 8) (Nat.mod_lt k (by decide : 8 > 0))
  rw [Nat.div_add_mod] at hv hw
  rw [← hv, ← hw, hb]

theorem getLsbD_masked (val : BitVec n) (k : ℕ) :
    (val &&& BitVec.ofNat n 0xFF).getLsbD k = (val.getLsbD k && decide (k < 8)) := by
  have hmask : (BitVec.ofNat n 0xFF).getLsbD k = (decide (k < n) && decide (k < 8)) := by
    rw [show 0xFF = 2 ^ 8 - 1 from rfl, BitVec.getLsbD_ofNat, Nat.testBit_two_pow_sub_one]
  rw [BitVec.getLsbD_and, hmask]
  by_cases hk : k < n
  · simp [hk]
  · simp [BitVec.getLsbD_of_ge val k (by omega)]

@[simp] theorem byte_or (v w : BitVec n) (i : ℕ) : byte (v ||| w) i = byte v i ||| byte w i := by
  apply BitVec.eq_of_getLsbD_eq
  intro j hj
  simp [byte, hj]

@[simp] theorem byte_masked (v : BitVec n) (i : ℕ) :
    byte (v &&& BitVec.ofNat n 0xFF) i = if i = 0 then byte v 0 else 0 := by
  apply BitVec.eq_of_getLsbD_eq
  intro j hj
  rw [getLsbD_byte _ _ hj, getLsbD_masked]
  split
  · next h => simp [h, byte, hj]
  · next h =>
    have hhigh : ¬ 8 * i + j < 8 := by omega
    simp [hhigh]

@[simp] theorem byte_shiftLeft (v : BitVec n) {k i : ℕ} (hk : k % 8 = 0) (hi : i < n / 8) :
    byte (v <<< k) i = if i < k / 8 then 0 else byte v (i - k / 8) := by
  apply BitVec.eq_of_getLsbD_eq
  intro j hj
  rw [getLsbD_byte _ _ hj, BitVec.getLsbD_shiftLeft]
  have hin : 8 * i + j < n := by omega
  split
  · have hlow : 8 * i + j < k := by omega
    simp [hlow]
  · have hlow : ¬ 8 * i + j < k := by omega
    rw [getLsbD_byte _ _ hj, show 8 * (i - k / 8) + j = 8 * i + j - k by omega]
    simp [hin, hlow]

@[simp] theorem byte_ushiftRight (v : BitVec n) {k : ℕ} (i : ℕ) (hk : k % 8 = 0) :
    byte (v >>> k) i = byte v (i + k / 8) := by
  apply BitVec.eq_of_getLsbD_eq
  intro j hj
  rw [getLsbD_byte _ _ hj, getLsbD_byte _ _ hj, BitVec.getLsbD_ushiftRight]
  congr 1
  omega

@[simp] theorem byte_setWidth {m : ℕ} (v : BitVec n) {i : ℕ} (hi : 8 * i + 8 ≤ m) :
    byte (v.setWidth m) i = byte v i := by
  apply BitVec.eq_of_getLsbD_eq
  intro j hj
  have hin : 8 * i + j < m := by omega
  rw [getLsbD_byte _ _ hj, getLsbD_byte _ _ hj, BitVec.getLsbD_setWidth, decide_eq_true hin, Bool.true_and]

@[simp] theorem byte_of_ge (v : BitVec n) {i : ℕ} (hi : n ≤ 8 * i) : byte v i = 0 := by
  apply BitVec.eq_of_getLsbD_eq
  intro j hj
  rw [getLsbD_byte _ _ hj, BitVec.getLsbD_of_ge v _ (by omega)]
  simp

theorem bytes_eq_reverse_iff {v w : BitVec n} :
    bytes w = (bytes v).reverse ↔ ∀ i < n / 8, byte w i = byte v (n / 8 - 1 - i) := by
  constructor
  · intro h i hi
    have hget := congrArg (fun l => l[i]?) h
    simpa [bytes, hi] using hget
  · intro h
    apply List.ext_getElem
    · simp [bytes]
    · intro i hi hi'
      simpa [bytes] using h i (by simpa [bytes] using hi)

/-- A value that is reversed, and whose reversal is, comes back. -/
theorem reversed_twice (hn : n % 8 = 0) {v w u : BitVec n} (hw : bytes w = (bytes v).reverse)
    (hu : bytes u = (bytes w).reverse) : u = v := by
  rw [bytes_eq_reverse_iff] at hw hu
  apply eq_of_byte hn
  intro i hi
  rw [hu i hi, hw _ (by omega)]
  congr 1
  omega

theorem MiddleZero.reversed {v w : BitVec n} (hv : MiddleZero v) (hw : bytes w = (bytes v).reverse) :
    MiddleZero w := by
  intro i h0 hi
  rw [bytes_eq_reverse_iff] at hw
  rw [hw i (by omega)]
  exact hv _ (by omega) (by omega)

end Bytes

/-! ### What the macros do to the bytes -/

theorem bytes_swap16 (v : BitVec 16) : bytes (swap16 v) = [byte v 1, byte v 0] := by
  simp [bytes, swap16, List.range_succ]

/-- The two bytes in the middle are lost; one of them lands on the lowest byte. -/
theorem bytes_swap32 (v : BitVec 32) : bytes (swap32 v) = [byte v 1 ||| byte v 3, 0, 0, byte v 0] := by
  simp [bytes, swap32, List.range_succ]

example : swap32 0x01020304 = 0x04000003 := by decide

theorem bytes_swap64 (v : BitVec 64) :
    bytes (swap64 v) = [byte v 1 ||| byte v 3 ||| byte v 5 ||| byte v 7, 0, 0, 0, 0, 0, 0, byte v 0] := by
  simp [bytes, swap64, List.range_succ]

theorem middleZero16 (v : BitVec 16) : MiddleZero v := by
  intro i h0 hi
  omega

theorem middleZero32_iff (v : BitVec 32) : MiddleZero v ↔ byte v 1 = 0 ∧ byte v 2 = 0 := by
  constructor
  · intro h
    exact ⟨h 1 (by decide) (by decide), h 2 (by decide) (by decide)⟩
  · rintro ⟨h1, h2⟩ i h0 hi
    have hlt : i < 3 := by omega
    interval_cases i <;> assumption

theorem middleZero64_iff (v : BitVec 64) : MiddleZero v ↔
    byte v 1 = 0 ∧ byte v 2 = 0 ∧ byte v 3 = 0 ∧ byte v 4 = 0 ∧ byte v 5 = 0 ∧ byte v 6 = 0 := by
  constructor
  · intro h
    refine ⟨?_, ?_, ?_, ?_, ?_, ?_⟩ <;> exact h _ (by decide) (by decide)
  · rintro ⟨h1, h2, h3, h4, h5, h6⟩ i h0 hi
    have hlt : i < 7 := by omega
    interval_cases i <;> assumption

theorem swap16_reverses (v : BitVec 16) : bytes (swap16 v) = (bytes v).reverse := by
  rw [bytes_swap16]
  simp [bytes, List.range_succ]

theorem swap32_reverses_iff (v : BitVec 32) : bytes (swap32 v) = (bytes v).reverse ↔ MiddleZero v := by
  rw [bytes_swap32, middleZero32_iff]
  simp only [bytes, Nat.reduceDiv, List.range_succ, List.range_zero, List.nil_append, List.map_cons, List.map_nil,
    List.reverse_cons, List.reverse_nil, List.cons_append, List.cons.injEq, and_true]
  constructor
  · rintro ⟨-, h2, h1⟩
    exact ⟨h1.symm, h2.symm⟩
  · rintro ⟨h1, h2⟩
    simp [h1, h2]

theorem swap64_reverses_iff (v : BitVec 64) : bytes (swap64 v) = (bytes v).reverse ↔ MiddleZero v := by
  rw [bytes_swap64, middleZero64_iff]
  simp only [bytes, Nat.reduceDiv, List.range_succ, List.range_zero, List.nil_append, List.map_cons, List.map_nil,
    List.reverse_cons, List.reverse_nil, List.cons_append, List.cons.injEq, and_true]
  constructor
  · rintro ⟨-, h6, h5, h4, h3, h2, h1⟩
    exact ⟨h1.symm, h2.symm, h3.symm, h4.symm, h5.symm, h6.symm⟩
  · rintro ⟨h1, h2, h3, h4, h5, h6⟩
    simp [h1, h2, h3, h4, h5, h6]

/-! ### Conversions -/

/-- The conversions of one width do to a value what they are for: the swap reverses its bytes,
and the conversion to the other byte order and back leaves it as it was. -/
structure Converts {n : ℕ} (swap : BitVec n → BitVec n)
    (cpuToLe leToCpu cpuToBe beToCpu : ByteOrder → BitVec n → BitVec n) (val : BitVec n) : Prop where
  reverses : bytes (swap val) = (bytes val).reverse
  little : beToCpu .little (cpuToBe .little val) = val
  big : leToCpu .big (cpuToLe .big val) = val

def Converts16 : BitVec 16 → Prop := Converts swap16 cpuToLe16 leToCpu16 cpuToBe16 beToCpu16
def Converts32 : BitVec 32 → Prop := Converts swap32 cpuToLe32 leToCpu32 cpuToBe32 beToCpu32
def Converts64 : BitVec 64 → Prop := Converts swap64 cpuToLe64 leToCpu64 cpuToBe64 beToCpu64

/-- A swap that reverses exactly the values without middle bytes makes conversions that are
right for exactly these. -/
theorem converts_iff {n : ℕ} (hn : n % 8 = 0) {swap : BitVec n → BitVec n}
    (h : ∀ v, bytes (swap v) = (bytes v).reverse ↔ MiddleZero v) (val : BitVec n) :
    Converts swap (ByteOrder.le swap) (ByteOrder.le swap) (ByteOrder.be swap) (ByteOrder.be swap) val ↔
      MiddleZero val := by
  constructor
  · intro hc
    exact (h val).mp hc.reverses
  · intro hz
    have hr := (h val).mpr hz
    have htwice : swap (swap val) = val := reversed_twice hn hr ((h _).mpr (hz.reversed hr))
    exact ⟨hr, htwice, htwice⟩

/-- **Byte order.** The conversions are right for all values of 16 bits, and of the wider ones
for those whose bytes are zero but for the first and the last. -/
theorem endian_iff (val16 : BitVec 16) (val32 : BitVec 32) (val64 : BitVec 64) :
    Converts16 val16 ∧ (Converts32 val32 ↔ MiddleZero val32) ∧ (Converts64 val64 ↔ MiddleZero val64) := by
  refine ⟨?_, converts_iff rfl swap32_reverses_iff val32, converts_iff rfl swap64_reverses_iff val64⟩
  have h16 : ∀ v : BitVec 16, bytes (swap16 v) = (bytes v).reverse ↔ MiddleZero v := fun v =>
    iff_of_true (swap16_reverses v) (middleZero16 v)
  exact (converts_iff rfl h16 val16).mpr (middleZero16 val16)

/-- The two middle bytes of `0x01020304` are lost. -/
theorem not_converts : ¬ ((∀ val, Converts16 val) ∧ (∀ val, Converts32 val) ∧ ∀ val, Converts64 val) := by
  rintro ⟨-, h, -⟩
  have hr := (h 0x01020304).reverses
  exact absurd hr (by decide)

end Klint
