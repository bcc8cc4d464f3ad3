/-
# The registers of a NIC

How the driver (`net/tinynf/ixgbe.c`) reads and writes registers and their fields. A field
is given by its mask, and the shift is found in a loop over the mask: where it ends, a field
is accessed as one of a bit vector (`Klint.Lib.BitField`), under the conversions of
`arch/endian.h`.
-/
import Klint.Arch.Endian
import Klint.Lib.BitField

namespace Klint
namespace Ixgbe

open BitField

/-- The 32 bits in memory at the offset of each register from the NIC's address. No two registers
overlap. -/
abbrev Regs := ℕ → BitVec 32

/-- The driver stops with the `hlt` of x86 (`arch/halt.h`), so it is built for little endian
machines. -/
def byteOrder : ByteOrder := .little

/-! ### Fields -/

/-- `BITS` -/
def bits (start last : ℕ) : BitVec 32 :=
  (if last = 31 then 0#32 else 0xFFFFFFFF#32 <<< (last + 1)) ^^^ (0xFFFFFFFF#32 <<< start)

/-- The loop of `find_first_set`; `none` if it has not ended after the given number of tests. -/
def findFirstSetLoop (value : BitVec 32) : ℕ → ℕ → Option ℕ
  | 0, _ => none
  | f + 1, n => if (value >>> n) &&& 1#32 = 0#32 then findFirstSetLoop value f (n + 1) else some n

/-- `find_first_set`. A shift by 32 would be undefined: this is `none`. -/
def findFirstSet (value : BitVec 32) : Option ℕ := if value = 0 then some 0 else findFirstSetLoop value 32 0

/-! ### Operations on the NIC -/

def regRead (regs : Regs) (reg : ℕ) : BitVec 32 := leToCpu32 byteOrder (regs reg)

def regReadField (regs : Regs) (reg : ℕ) (field : BitVec 32) : Option (BitVec 32) := do
  let value := regRead regs reg
  let shift ← findFirstSet field
  pure ((value >>> shift) &&& (field >>> shift))

def regWriteRaw (regs : Regs) (reg : ℕ) (value : BitVec 32) : Regs :=
  Function.update regs reg (cpuToLe32 byteOrder value)

def regWrite (regs : Regs) (reg : ℕ) (value : BitVec 32) : Regs := regWriteRaw regs reg value

def regWriteField (regs : Regs) (reg : ℕ) (field fieldValue : BitVec 32) : Option Regs := do
  let oldValue := regRead regs reg
  let shift ← findFirstSet field
  let newValue := (oldValue &&& ~~~field) ||| (fieldValue <<< shift)
  pure (regWrite regs reg newValue)

def regClear (regs : Regs) (reg : ℕ) : Regs := regWrite regs reg 0

def regClearField (regs : Regs) (reg : ℕ) (field : BitVec 32) : Option Regs := regWriteField regs reg field 0

def regSetField (regs : Regs) (reg : ℕ) (field : BitVec 32) : Regs :=
  let oldValue := regRead regs reg
  let newValue := oldValue ||| field
  regWrite regs reg newValue

def regIsFieldCleared (regs : Regs) (reg : ℕ) (field : BitVec 32) : Option Bool := do
  let value ← regReadField regs reg field
  pure (value == 0)

/-! ### Masks -/

theorem getLsbD_allOnes_shiftLeft (k i : ℕ) :
    (0xFFFFFFFF#32 <<< k).getLsbD i = (decide (i < 32) && decide (k ≤ i)) := by
  have hones : (0xFFFFFFFF#32) = BitVec.allOnes 32 := by decide
  rw [hones, BitVec.getLsbD_shiftLeft, BitVec.getLsbD_allOnes]
  by_cases hi : i < 32
  · by_cases hk : k ≤ i
    · have hlt : i - k < 32 := by omega
      simp [hi, hk, hlt]
    · simp [hk, Nat.lt_of_not_le hk]
  · simp [hi]

theorem run_bits {start last : ℕ} (hle : start ≤ last) (hlt : last < 32) : Run (bits start last) start last := by
  refine ⟨hle, hlt, fun i => ?_⟩
  have hhigh : (if last = 31 then 0#32 else 0xFFFFFFFF#32 <<< (last + 1)).getLsbD i =
      (decide (i < 32) && decide (last + 1 ≤ i)) := by
    split_ifs with h31
    · have hempty : ¬(i < 32 ∧ last + 1 ≤ i) := by omega
      rw [← Bool.decide_and, decide_eq_false hempty, BitVec.getLsbD_zero]
    · exact getLsbD_allOnes_shiftLeft (last + 1) i
  rw [bits, BitVec.getLsbD_xor, hhigh, getLsbD_allOnes_shiftLeft, ← Bool.decide_and, ← Bool.decide_and]
  by_cases hin : start ≤ i ∧ i ≤ last
  · have hlow : ¬(i < 32 ∧ last + 1 ≤ i) := by omega
    have hset : i < 32 ∧ start ≤ i := by omega
    rw [decide_eq_true hin, decide_eq_false hlow, decide_eq_true hset, Bool.false_xor]
  · have hsame : (i < 32 ∧ last + 1 ≤ i) ↔ (i < 32 ∧ start ≤ i) := by omega
    rw [decide_eq_false hin, decide_eq_decide.mpr hsame, Bool.xor_self]

/-! ### The shift -/

section Shift

variable {value : BitVec 32}

theorem shifted_and_one (value : BitVec 32) (n : ℕ) : (value >>> n) &&& 1#32 = 0#32 ↔ value.getLsbD n = false := by
  constructor
  · intro h
    have hbit := congrArg (fun v => v.getLsbD 0) h
    simpa using hbit
  · intro h
    apply BitVec.eq_of_getLsbD_eq
    intro i _
    rw [BitVec.getLsbD_and, BitVec.getLsbD_ushiftRight, BitVec.getLsbD_one, BitVec.getLsbD_zero]
    by_cases hi : i = 0
    · rw [hi, Nat.add_zero, h, Bool.false_and]
    · simp [hi]

theorem findFirstSetLoop_spec (hne : value ≠ 0) : ∀ (f n : ℕ), n + f = 32 → (∀ i < n, value.getLsbD i = false) →
    ∃ shift, findFirstSetLoop value f n = some shift ∧ Lowest value shift
  | 0, n, hf, hclear => by
    obtain ⟨i, hi⟩ := exists_getLsbD hne
    rw [hclear i (by have := lt_of_getLsbD hi; omega)] at hi
    cases hi
  | f + 1, n, hf, hclear => by
    rw [findFirstSetLoop]
    split_ifs with h
    · have hn := (shifted_and_one value n).mp h
      refine findFirstSetLoop_spec hne f (n + 1) (by omega) fun i hi => ?_
      rcases Nat.lt_succ_iff_lt_or_eq.mp hi with hi | rfl
      · exact hclear i hi
      · exact hn
    · rw [shifted_and_one, Bool.not_eq_false] at h
      exact ⟨n, rfl, lowest_of h hclear⟩

/-- `find_first_set` ends at the lowest bit. -/
theorem findFirstSet_spec (hne : value ≠ 0) : ∃ shift, findFirstSet value = some shift ∧ Lowest value shift := by
  rw [findFirstSet, if_neg hne]
  exact findFirstSetLoop_spec hne 32 0 rfl fun i hi => absurd hi (Nat.not_lt_zero i)

theorem findFirstSet_run {start last : ℕ} (hf : Run value start last) : findFirstSet value = some start := by
  obtain ⟨shift, h, hlowest⟩ := findFirstSet_spec hf.ne_zero
  rw [h, hlowest.unique hf.lowest]

end Shift

/-! ### Access -/

section Access

variable {regs : Regs} {reg : ℕ} {field value : BitVec 32} {start last : ℕ}

@[simp] theorem regRead_regWrite (regs : Regs) (reg : ℕ) (v : BitVec 32) : regRead (regWrite regs reg v) reg = v := by
  rw [regRead, regWrite, regWriteRaw, Function.update_self]
  rfl

theorem regWrite_of_ne {other : ℕ} (h : other ≠ reg) (v : BitVec 32) : regWrite regs reg v other = regs other :=
  Function.update_of_ne h _ _

theorem regReadField_eq (hf : Run field start last) :
    regReadField regs reg field = some (get field start (regRead regs reg)) := by
  rw [regReadField, findFirstSet_run hf]
  rfl

theorem regWriteField_eq (hf : Run field start last) :
    regWriteField regs reg field value = some (regWrite regs reg (put field start (regRead regs reg) value)) := by
  rw [regWriteField, findFirstSet_run hf]
  rfl

/-- Nothing but the field is different: no other bit of the register, and no other register. -/
structure OnlyField (field : BitVec 32) (reg : ℕ) (regs regs' : Regs) : Prop where
  bits : ∀ i, field.getLsbD i = false → (regRead regs' reg).getLsbD i = (regRead regs reg).getLsbD i
  others : ∀ other, other ≠ reg → regs' other = regs other

theorem regWriteField_spec (hf : Run field start last) (hv : Fits start last value) (regs : Regs) (reg : ℕ) :
    ∃ regs', regWriteField regs reg field value = some regs' ∧ regReadField regs' reg field = some value ∧
      OnlyField field reg regs regs' := by
  refine ⟨_, regWriteField_eq hf, ?_, fun i hi => ?_, fun other h => regWrite_of_ne h _⟩
  · rw [regReadField_eq hf, regRead_regWrite, hf.get_put hv]
  · rw [hf.bit, decide_eq_false_iff_not] at hi
    rw [regRead_regWrite, hf.getLsbD_put hv, if_neg hi]

/-- **Fields.** What is written to a field is read from it, a field that is set reads as all ones
and one that is cleared as zero, each without a change anywhere else, and `find_first_set`
ends at the lowest bit. -/
theorem field_access (hf : Run field start last) (hv : Fits start last value) (regs : Regs) (reg : ℕ) :
    (∃ regs', regWriteField regs reg field value = some regs' ∧ regReadField regs' reg field = some value ∧
      OnlyField field reg regs regs') ∧
    (regReadField (regSetField regs reg field) reg field = some (ones 32 start last) ∧
      OnlyField field reg regs (regSetField regs reg field)) ∧
    (∃ regs', regClearField regs reg field = some regs' ∧ regReadField regs' reg field = some 0 ∧
      OnlyField field reg regs regs') ∧
    ∀ v : BitVec 32, v ≠ 0 → ∃ n, findFirstSet v = some n ∧ Lowest v n := by
  have hclear := regWriteField_spec hf fits_zero regs reg
  refine ⟨regWriteField_spec hf hv regs reg, ⟨?_, ?_⟩, hclear, fun v hne => findFirstSet_spec hne⟩
  · rw [regReadField_eq hf, regSetField, regRead_regWrite, hf.get_or]
  · refine ⟨fun i hi => ?_, fun other h => regWrite_of_ne h _⟩
    rw [regSetField, regRead_regWrite, BitVec.getLsbD_or, hi, Bool.or_false]

/-- A field of eight bits in the middle of a register, and the value 5. -/
theorem field_access_middle : Run (bits 8 15) 8 15 ∧ ∀ (regs : Regs) (reg : ℕ),
    (∃ regs', regWriteField regs reg (bits 8 15) 5 = some regs' ∧ regReadField regs' reg (bits 8 15) = some 5 ∧
      OnlyField (bits 8 15) reg regs regs') ∧
    (regReadField (regSetField regs reg (bits 8 15)) reg (bits 8 15) = some (ones 32 8 15) ∧
      OnlyField (bits 8 15) reg regs (regSetField regs reg (bits 8 15))) ∧
    (∃ regs', regClearField regs reg (bits 8 15) = some regs' ∧ regReadField regs' reg (bits 8 15) = some 0 ∧
      OnlyField (bits 8 15) reg regs regs') ∧
    ∀ v : BitVec 32, v ≠ 0 → ∃ n, findFirstSet v = some n ∧ Lowest v n := by
  have hf : Run (bits 8 15) 8 15 := run_bits (by decide) (by decide)
  have hv : Fits 8 15 (5 : BitVec 32) := by
    rw [Fits]
    decide
  exact ⟨hf, field_access hf hv⟩

/-- To write what is read leaves the registers as they are. -/
theorem regWriteField_read (hf : Run field start last) (h : regReadField regs reg field = some value) :
    regWriteField regs reg field value = some regs := by
  rw [regReadField_eq hf, Option.some.injEq] at h
  rw [regWriteField_eq hf, ← h, hf.put_get]
  exact congrArg some (Function.update_eq_self reg regs)

/-- `reg_is_field_cleared` looks at all bits of the field, and at no others. -/
theorem regIsFieldCleared_iff (hf : Run field start last) : regIsFieldCleared regs reg field = some true ↔
    ∀ i, field.getLsbD i = true → (regRead regs reg).getLsbD i = false := by
  rw [regIsFieldCleared, regReadField_eq hf]
  change some (get field start (regRead regs reg) == 0) = some true ↔ _
  rw [Option.some.injEq, beq_iff_eq, hf.get_eq_zero_iff]

end Access

end Ixgbe
end Klint
