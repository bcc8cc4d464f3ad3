/-
# A part of the x86 architecture

The instructions with which a processor is taken from protected mode to 64-bit mode: moves,
bit operations and comparisons, the flags, `cpuid`, the control registers, `EFER` and `XCR0`,
segments and the page tables of IA-32e mode. An instruction that the processor does not
support, or that leads to an illegal state, raises an exception.

Of the pages only those of 1 GiB are modelled, of the exceptions those that these instructions
can raise; the flags that an operation leaves undefined are a parameter. An access is legal
where the page can be read, written and executed.
-/
import Mathlib.Data.BitVec

namespace X86

/-! ### The processor -/

inductive Reg
  | rax | rbx | rcx | rdx | rsp
  deriving DecidableEq, Repr

/-- What `cpuid` returns. -/
structure Leaf where
  eax : BitVec 32
  ebx : BitVec 32
  ecx : BitVec 32
  edx : BitVec 32

def Leaf.get (l : Leaf) : Reg → BitVec 32
  | .rax => l.eax
  | .rbx => l.ebx
  | .rcx => l.ecx
  | .rdx => l.edx
  | .rsp => 0

/-- The leaves that are the same for every value of `ecx`. -/
def plainLeaves : List (BitVec 32) := [0, 1, 0x80000000, 0x80000001, 0x80000007]

structure Cpu where
  hasCpuid : Bool
  /-- The leaves of `cpuid`, by `eax` and `ecx`. -/
  leaf : BitVec 32 → BitVec 32 → Leaf
  /-- The flags but for `CF` and `ZF` after an operation with this result. -/
  otherFlags : BitVec 64 → BitVec 32
  leaf_plain : ∀ eax ∈ plainLeaves, ∀ ecx, leaf eax ecx = leaf eax 0

namespace Cpu

variable (cpu : Cpu)

def maxBasic : BitVec 32 := (cpu.leaf 0 0).eax

def maxExtended : BitVec 32 := (cpu.leaf 0x80000000 0).eax

/-- The leaf is one that the processor has. -/
def Has (eax : BitVec 32) : Prop :=
  eax < 0x80000000 ∧ eax ≤ cpu.maxBasic ∨ eax = 0x80000000 ∨ 0x80000000 ≤ eax ∧ eax ≤ cpu.maxExtended

instance (eax : BitVec 32) : Decidable (cpu.Has eax) := by unfold Has; infer_instance

/-- What `cpuid` returns; for a leaf that there is not, "the data for the highest basic information leaf". -/
def cpuid (eax ecx : BitVec 32) : Leaf :=
  if cpu.Has eax then cpu.leaf eax ecx else cpu.leaf cpu.maxBasic ecx

/-- The flags that `popfd` can change at privilege level 0; `ID` is one of them if there is `cpuid`. -/
def writableFlags : BitVec 32 := 0x47FD5 ||| if cpu.hasCpuid then 0x200000 else 0

end Cpu

/-- A feature, by its bit of a leaf. -/
structure Feature where
  eax : BitVec 32
  reg : Reg
  bit : ℕ
  deriving DecidableEq, Repr

def Cpu.supports (cpu : Cpu) (f : Feature) : Bool :=
  decide (cpu.Has f.eax) && ((cpu.leaf f.eax 0).get f.reg).getLsbD f.bit

namespace Feature

def sse3 : Feature := ⟨1, .rcx, 0⟩
def pclmulqdq : Feature := ⟨1, .rcx, 1⟩
def ssse3 : Feature := ⟨1, .rcx, 9⟩
def cmpxchg16b : Feature := ⟨1, .rcx, 13⟩
def sse41 : Feature := ⟨1, .rcx, 19⟩
def sse42 : Feature := ⟨1, .rcx, 20⟩
def popcnt : Feature := ⟨1, .rcx, 23⟩
def aesni : Feature := ⟨1, .rcx, 25⟩
def xsave : Feature := ⟨1, .rcx, 26⟩
def avx : Feature := ⟨1, .rcx, 28⟩
def f16c : Feature := ⟨1, .rcx, 29⟩
def rdrand : Feature := ⟨1, .rcx, 30⟩
def fpu : Feature := ⟨1, .rdx, 0⟩
def tsc : Feature := ⟨1, .rdx, 4⟩
def msr : Feature := ⟨1, .rdx, 5⟩
def pae : Feature := ⟨1, .rdx, 6⟩
def cx8 : Feature := ⟨1, .rdx, 8⟩
def mmx : Feature := ⟨1, .rdx, 23⟩
def fxsr : Feature := ⟨1, .rdx, 24⟩
def sse : Feature := ⟨1, .rdx, 25⟩
def sse2 : Feature := ⟨1, .rdx, 26⟩
def fsgsbase : Feature := ⟨7, .rbx, 0⟩
def page1GB : Feature := ⟨0x80000001, .rdx, 26⟩
def longMode : Feature := ⟨0x80000001, .rdx, 29⟩
def invariantTsc : Feature := ⟨0x80000007, .rdx, 8⟩

end Feature

/-! ### The machine -/

inductive Cr
  | cr0 | cr3 | cr4
  deriving DecidableEq, Repr

inductive Seg
  | ss | ds | es | fs | gs
  deriving DecidableEq, Repr

structure Machine where
  regs : Reg → BitVec 64
  eflags : BitVec 32
  cr0 : BitVec 64
  cr3 : BitVec 64
  cr4 : BitVec 64
  efer : BitVec 64
  xcr0 : BitVec 64
  /-- The base and the limit of the segment descriptors. -/
  gdtr : ℕ × ℕ
  /-- The code segment is one of 64 bits. -/
  cs64 : Bool
  segs : Seg → BitVec 16
  mem : ℕ → BitVec 8

/-- The numbers in memory, their first byte the lowest. -/
def load16 (mem : ℕ → BitVec 8) (a : ℕ) : BitVec 16 := mem (a + 1) ++ mem a
def load32 (mem : ℕ → BitVec 8) (a : ℕ) : BitVec 32 := load16 mem (a + 2) ++ load16 mem a
def load64 (mem : ℕ → BitVec 8) (a : ℕ) : BitVec 64 := load32 mem (a + 4) ++ load32 mem a

/-- A number of some bytes is stored. -/
def store (mem : ℕ → BitVec 8) (a bytes : ℕ) (v : BitVec 64) : ℕ → BitVec 8 := fun b =>
  if a ≤ b ∧ b < a + bytes then v.extractLsb' (8 * (b - a)) 8 else mem b

/-- The entry of a page table: it is present, can be written and can be executed. -/
def allowed (entry : BitVec 64) : Bool := entry.getLsbD 0 && entry.getLsbD 1 && !entry.getLsbD 63

/-- The physical address of a linear one. -/
def Machine.translate (cpu : Cpu) (m : Machine) (addr : ℕ) : Option ℕ :=
  if m.cr0.getLsbD 31 then
    let pml4e := load64 m.mem ((m.cr3 &&& 0xFFFFFFFFFF000).toNat + 8 * (addr / 2 ^ 39 % 512))
    if allowed pml4e && !pml4e.getLsbD 7 then
      let pdpte := load64 m.mem ((pml4e &&& 0xFFFFFFFFFF000).toNat + 8 * (addr / 2 ^ 30 % 512))
      -- a page of 1 GiB, with no reserved bit
      if allowed pdpte && pdpte.getLsbD 7 && pdpte &&& 0x3FFFE000 == 0 && cpu.supports .page1GB then
        some ((pdpte &&& 0xFFFFFC0000000).toNat + addr % 2 ^ 30)
      else none
    else none
  else some addr

/-- The physical address of some bytes. -/
def Machine.access (cpu : Cpu) (m : Machine) (addr bytes : ℕ) : Option ℕ := do
  let first ← m.translate cpu addr
  let last ← m.translate cpu (addr + bytes - 1)
  if last = first + bytes - 1 then some first else none

/-! ### Instructions -/

inductive Width
  | w16 | w32 | w64
  deriving DecidableEq, Repr

/-- The low bits of a number. -/
def Width.trunc : Width → BitVec 64 → BitVec 64
  | w16, v => (v.setWidth 16).setWidth 64
  | w32, v => (v.setWidth 32).setWidth 64
  | w64, v => v

inductive Op
  | xor | or | and
  deriving DecidableEq, Repr

def Op.apply : Op → BitVec 64 → BitVec 64 → BitVec 64
  | xor, a, b => a ^^^ b
  | or, a, b => a ||| b
  | and, a, b => a &&& b

inductive Source
  | reg (r : Reg)
  | imm (v : BitVec 64)

/-- Equal, below or equal, below, not equal, and no carry. -/
inductive Cond
  | z | be | b | nz | nc
  deriving DecidableEq, Repr

/-- An instruction; its jumps are to labels. -/
inductive Instr (Label : Type)
  | mov (w : Width) (r : Reg) (src : Source)
  | alu (op : Op) (w : Width) (r : Reg) (src : Source)
  | cmp (w : Width) (r : Reg) (src : Source)
  | bt (r : Reg) (bit : ℕ)
  | j (c : Cond) (label : Label)
  | pushfd
  | popfd
  | push (r : Reg)
  | pop (r : Reg)
  | store (addr : ℕ) (r : Reg)
  | cpuid
  | rdmsr
  | wrmsr
  | movFromCr (r : Reg) (c : Cr)
  | movToCr (c : Cr) (r : Reg)
  | movToSeg (s : Seg) (r : Reg)
  | lgdt (addr : ℕ)
  | farJump (selector : ℕ) (label : Label)
  | xgetbv
  | xsetbv
  | call (label : Label)
  | hlt

/-- How an instruction, or a list of them, ends. -/
inductive Outcome (Label : Type)
  | next (m : Machine)
  | jumped (label : Label) (m : Machine)
  | called (label : Label) (m : Machine)
  | halted
  | raised

namespace Machine

variable (cpu : Cpu) (m : Machine)

/-- The low bits of a register. -/
def get (w : Width) (r : Reg) : BitVec 64 := w.trunc (m.regs r)

/-- A register is set: 16 bits leave the others, 32 bits are extended with zeros. -/
def set (w : Width) (r : Reg) (v : BitVec 64) : Machine :=
  { m with regs := fun r' =>
      if r' = r then
        match w with
        | .w16 => (m.regs r >>> 16 <<< 16) ||| w.trunc v
        | .w32 | .w64 => w.trunc v
      else m.regs r' }

def value (w : Width) : Source → BitVec 64
  | .reg r => m.get w r
  | .imm v => v

/-- The flags after an operation, with its carry and its result. -/
def setFlags (carry : Bool) (result : BitVec 64) : Machine :=
  { m with eflags := (m.eflags &&& ~~~0x8D5) ||| (if carry then 0x1 else 0) ||| (if result = 0 then 0x40 else 0) |||
      (cpu.otherFlags result &&& 0x894) }

/-- `CF` is set to a bit, and `ZF` stays. -/
def setCarry (bit : Bool) : Machine :=
  { m with eflags := (m.eflags &&& ~~~0x895) ||| (if bit then 0x1 else 0) ||| (cpu.otherFlags 0 &&& 0x894) }

def carry : Bool := m.eflags.getLsbD 0
def zero : Bool := m.eflags.getLsbD 6

def holds : Cond → Bool
  | .z => m.zero
  | .be => m.carry || m.zero
  | .b => m.carry
  | .nz => !m.zero
  | .nc => !m.carry

/-- The number in `edx:eax`. -/
def edxEax : BitVec 64 := (m.regs .rdx).setWidth 32 ++ (m.regs .rax).setWidth 32

def setEdxEax (v : BitVec 64) : Machine := (m.set .w32 .rax v).set .w32 .rdx (v >>> 32)

/-- The paging of IA-32e mode is on. -/
def longMode : Bool := m.efer.getLsbD 10

def cr : Cr → BitVec 64
  | .cr0 => m.cr0
  | .cr3 => m.cr3
  | .cr4 => m.cr4

/-- The width of a control register where it is moved. -/
def crWidth : Width := if m.cs64 then .w64 else .w32

/-- Bytes are stored on the stack. -/
def pushBytes (w : Width) (bytes : ℕ) (v : BitVec 64) : Option Machine := do
  let top := m.get w .rsp - BitVec.ofNat 64 bytes
  let m := m.set w .rsp top
  let a ← m.access cpu (m.get w .rsp).toNat bytes
  return { m with mem := store m.mem a bytes v }

/-- 32 bits are taken from the stack. -/
def pop32 : Option (BitVec 32 × Machine) := do
  let top := m.get .w32 .rsp
  let a ← m.access cpu top.toNat 4
  return (load32 m.mem a, m.set .w32 .rsp (top + 4))

end Machine

/-- The value of a segment descriptor for 64-bit code of privilege level 0. -/
def isCode64 (d : BitVec 64) : Bool :=
  d.getLsbD 47 && d.getLsbD 44 && d.getLsbD 43 && d.getLsbD 53 && !d.getLsbD 54 && !d.getLsbD 45 && !d.getLsbD 46

/-- The bits of `cr4` that the processor must support: `PAE`, `OSFXSR`, `OSXMMEXCPT` and `OSXSAVE`. -/
def cr4Ok (cpu : Cpu) (v : BitVec 64) : Bool :=
  (!v.getLsbD 5 || cpu.supports .pae) && (!v.getLsbD 9 || cpu.supports .fxsr) &&
    (!v.getLsbD 10 || cpu.supports .sse) && (!v.getLsbD 18 || cpu.supports .xsave)

/-- The bits of `xcr0` that the processor must support, for x87, SSE and AVX. -/
def xcr0Ok (cpu : Cpu) (v : BitVec 64) : Bool :=
  v.getLsbD 0 && (!v.getLsbD 1 || cpu.supports .sse) && (!v.getLsbD 2 || v.getLsbD 1 && cpu.supports .avx)

/-- The model-specific register `IA32_EFER`. -/
def eferIndex : BitVec 32 := 0xC0000080

section Exec

variable {Label : Type} (cpu : Cpu)

def Outcome.ofOption : Option Machine → Outcome Label
  | some m => .next m
  | none => .raised

/-- A move to a control register. -/
def movToCr (m : Machine) (v : BitVec 64) : Cr → Option Machine
  | .cr0 =>
    if v.getLsbD 31 then
      if m.cr0.getLsbD 31 then some { m with cr0 := v }
      -- paging is turned on, which is that of IA-32e mode
      else if v.getLsbD 0 && m.efer.getLsbD 8 && m.cr4.getLsbD 5 && !m.cs64 then
        some { m with cr0 := v, efer := m.efer ||| 0x400 }
      else none
    else if m.cr0.getLsbD 31 then none
    else some { m with cr0 := v }
  | .cr3 => some { m with cr3 := v }
  | .cr4 => if cr4Ok cpu v && (!m.longMode || v.getLsbD 5) then some { m with cr4 := v } else none

/-- One instruction; `next` is the address of the one after it. -/
def exec (next : ℕ) (m : Machine) : Instr Label → Outcome Label
  | .mov w r src => .next (m.set w r (m.value w src))
  | .alu op w r src =>
    let result := op.apply (m.get w r) (m.value w src)
    .next ((m.set w r result).setFlags cpu false result)
  | .cmp w r src => .next (m.setFlags cpu ((m.get w r).ult (m.value w src)) (m.get w r - m.value w src))
  | .bt r bit => .next (m.setCarry cpu ((m.get .w32 r).getLsbD bit))
  | .j c label => if m.holds c then .jumped label m else .next m
  | .pushfd => Outcome.ofOption (m.pushBytes cpu .w32 4 ((m.eflags &&& 0xFCFFFF).setWidth 64))
  | .popfd => Outcome.ofOption ((m.pop32 cpu).map fun (v, m) =>
      { m with eflags := (v &&& cpu.writableFlags) ||| (m.eflags &&& ~~~cpu.writableFlags &&& ~~~0x10000) })
  | .push r => Outcome.ofOption (m.pushBytes cpu .w32 4 (m.get .w32 r))
  | .pop r => Outcome.ofOption ((m.pop32 cpu).map fun (v, m) => m.set .w32 r (v.setWidth 64))
  | .store addr r => Outcome.ofOption ((m.access cpu addr 4).map fun a =>
      { m with mem := store m.mem a 4 (m.get .w32 r) })
  | .cpuid =>
    if cpu.hasCpuid then
      let l := cpu.cpuid ((m.regs .rax).setWidth 32) ((m.regs .rcx).setWidth 32)
      .next ((((m.set .w32 .rax (l.eax.setWidth 64)).set .w32 .rbx (l.ebx.setWidth 64)).set .w32 .rcx
        (l.ecx.setWidth 64)).set .w32 .rdx (l.edx.setWidth 64))
    else .raised
  | .rdmsr =>
    if cpu.supports .msr && cpu.supports .longMode && (m.regs .rcx).setWidth 32 == eferIndex then
      .next (m.setEdxEax m.efer)
    else .raised
  | .wrmsr =>
    -- `LME` cannot be changed while paging is on
    if cpu.supports .msr && cpu.supports .longMode && (m.regs .rcx).setWidth 32 == eferIndex &&
        (!m.cr0.getLsbD 31 || m.edxEax.getLsbD 8 == m.efer.getLsbD 8) then
      .next { m with efer := m.edxEax }
    else .raised
  | .movFromCr r c =>
    .next (m.set m.crWidth r (m.cr c))
  | .movToCr c r => Outcome.ofOption (movToCr cpu m (m.get m.crWidth r) c)
  | .movToSeg s r =>
    -- the null segment, which is legal in 64-bit mode
    if m.cs64 && (m.regs r).setWidth 16 == (0 : BitVec 16) then
      .next { m with segs := fun s' => if s' = s then 0 else m.segs s' }
    else .raised
  | .lgdt addr => Outcome.ofOption ((m.access cpu addr 6).map fun a =>
      { m with gdtr := ((load32 m.mem (a + 2)).toNat, (load16 m.mem a).toNat) })
  | .farJump selector label =>
    match m.access cpu (m.gdtr.1 + selector / 8 * 8) 8 with
    | none => .raised
    | some a =>
      if selector / 8 * 8 + 7 ≤ m.gdtr.2 && isCode64 (load64 m.mem a) && m.longMode then
        .jumped label { m with cs64 := true }
      else .raised
  | .xgetbv =>
    if m.cr4.getLsbD 18 && (m.regs .rcx).setWidth 32 == (0 : BitVec 32) then .next (m.setEdxEax m.xcr0) else .raised
  | .xsetbv =>
    if m.cr4.getLsbD 18 && (m.regs .rcx).setWidth 32 == (0 : BitVec 32) && xcr0Ok cpu m.edxEax then
      .next { m with xcr0 := m.edxEax }
    else .raised
  | .call label =>
    match m.pushBytes cpu .w64 8 (BitVec.ofNat 64 next) with
    | none => .raised
    | some m => .called label m
  | .hlt => .halted

/-- Some instructions at their addresses, from the `k`-th on. Each is read from where it is in memory. -/
def run (addr : ℕ → ℕ) : ℕ → List (Instr Label) → Machine → Outcome Label
  | _, [], m => .next m
  | k, i :: is, m =>
    if m.translate cpu (addr k) = some (addr k) then
      match exec cpu (addr (k + 1)) m i with
      | .next m => run addr (k + 1) is m
      | outcome => outcome
    else .raised

end Exec

/-! ### Execution -/

variable {Label : Type} {cpu : Cpu} {m m' : Machine} {addr : ℕ → ℕ} {k : ℕ} {i : Instr Label}
  {is js : List (Instr Label)}

theorem Machine.translate_off (h : m.cr0.getLsbD 31 = false) (a : ℕ) : m.translate cpu a = some a := by
  rw [translate, if_neg (by rw [h]; exact Bool.false_ne_true)]

/-- Bytes at addresses that are physical ones. -/
theorem Machine.access_of {a bytes : ℕ} (h : ∀ b, a ≤ b → b ≤ a + bytes - 1 → m.translate cpu b = some b)
    (hb : 0 < bytes) : m.access cpu a bytes = some a := by
  have hlast := h (a + bytes - 1) (by omega) le_rfl
  simp only [access, h a le_rfl (by omega), hlast, Option.bind_eq_bind, Option.bind_some, if_pos]

theorem Machine.access_off (h : m.cr0.getLsbD 31 = false) (a : ℕ) {bytes : ℕ} (hb : 0 < bytes) :
    m.access cpu a bytes = some a :=
  access_of (fun b _ _ => translate_off h b) hb

theorem run_next (hf : m.translate cpu (addr k) = some (addr k)) (h : exec cpu (addr (k + 1)) m i = .next m') :
    run cpu addr k (i :: is) m = run cpu addr (k + 1) is m' := by
  rw [run, if_pos hf, h]

theorem run_jumped {label : Label} (hf : m.translate cpu (addr k) = some (addr k))
    (h : exec cpu (addr (k + 1)) m i = .jumped label m') : run cpu addr k (i :: is) m = .jumped label m' := by
  rw [run, if_pos hf, h]

theorem run_append_next : ∀ {is : List (Instr Label)} {k : ℕ} {m : Machine}, run cpu addr k is m = .next m' →
    run cpu addr k (is ++ js) m = run cpu addr (k + is.length) js m'
  | [], _, _, h => by
    obtain rfl := Outcome.next.inj h
    rfl
  | i :: is, k, m, h => by
    rw [run] at h
    rw [List.cons_append, run]
    split_ifs at h ⊢
    split at h
    · rw [run_append_next h, List.length_cons, Nat.add_right_comm, Nat.add_assoc]
    · next hn => exact absurd h (hn m')

theorem run_append_jumped {label : Label} : ∀ {is : List (Instr Label)} {k : ℕ} {m : Machine},
    run cpu addr k is m = .jumped label m' → run cpu addr k (is ++ js) m = .jumped label m'
  | [], _, _, h => by cases h
  | i :: is, k, m, h => by
    rw [run] at h
    rw [List.cons_append, run]
    split_ifs at h ⊢
    split at h
    · exact run_append_jumped h
    · exact h

/-! ### Memory -/

section Memory

variable {mem mem' : ℕ → BitVec 8} {a b n j : ℕ} {v : BitVec 64}

theorem load16_congr (h : ∀ b, a ≤ b → b < a + 2 → mem' b = mem b) : load16 mem' a = load16 mem a := by
  rw [load16, load16, h a le_rfl (by omega), h (a + 1) (by omega) (by omega)]

theorem load32_congr (h : ∀ b, a ≤ b → b < a + 4 → mem' b = mem b) : load32 mem' a = load32 mem a := by
  rw [load32, load32, load16_congr fun b hb hb' => h b hb (by omega),
    load16_congr fun b hb hb' => h b (by omega) (by omega)]

theorem load64_congr (h : ∀ b, a ≤ b → b < a + 8 → mem' b = mem b) : load64 mem' a = load64 mem a := by
  rw [load64, load64, load32_congr fun b hb hb' => h b hb (by omega),
    load32_congr fun b hb hb' => h b (by omega) (by omega)]

/-- The first half of a number is the lower one. -/
theorem setWidth_load64 : (load64 mem a).setWidth 32 = load32 mem a := by
  refine BitVec.eq_of_getLsbD_eq fun i hi => ?_
  rw [load64, BitVec.getLsbD_setWidth, decide_eq_true hi, Bool.true_and, BitVec.getLsbD_append, if_pos hi]

/-- The second half is the higher one. -/
theorem extractLsb'_load64 : (load64 mem a).extractLsb' 32 32 = load32 mem (a + 4) := by
  refine BitVec.eq_of_getLsbD_eq fun i hi => ?_
  rw [load64, BitVec.getLsbD_extractLsb', decide_eq_true hi, Bool.true_and, BitVec.getLsbD_append,
    if_neg (by omega), Nat.add_sub_cancel_left]

theorem store_apart (h : b < a ∨ a + n ≤ b) : store mem a n v b = mem b := if_neg (by omega)

theorem load16_store (h : j + 2 ≤ n) : load16 (store mem a n v) (a + j) = v.extractLsb' (8 * j) 16 := by
  rw [load16, store, store, if_pos (by omega), if_pos (by omega), Nat.add_assoc, Nat.add_sub_cancel_left,
    Nat.add_sub_cancel_left]
  exact BitVec.extractLsb'_append_extractLsb'_eq_extractLsb' (by omega)

theorem load32_store (h : 4 ≤ n) : load32 (store mem a n v) a = v.setWidth 32 := by
  have h₀ : load16 (store mem a n v) (a + 0) = v.extractLsb' (8 * 0) 16 := load16_store (by omega)
  have h₂ : load16 (store mem a n v) (a + 2) = v.extractLsb' (8 * 2) 16 := load16_store (by omega)
  rw [Nat.add_zero] at h₀
  rw [load32, h₀, h₂, BitVec.setWidth_eq_extractLsb' (by omega)]
  exact BitVec.extractLsb'_append_extractLsb'_eq_extractLsb' (by omega)

end Memory

/-! ### Straight-line code -/

/-- Registers and flags may have changed. -/
def Scratch (m m' : Machine) : Prop := m' = { m with regs := m'.regs, eflags := m'.eflags }

theorem Scratch.trans {m'' : Machine} (h : Scratch m m') (h' : Scratch m' m'') : Scratch m m'' := by
  rw [Scratch, h', h]

theorem Scratch.cr0 (h : Scratch m m') : m'.cr0 = m.cr0 := by rw [h]

/-- Code that leads to another machine, but for registers and flags. -/
def Leads (cpu : Cpu) (addr : ℕ → ℕ) (k : ℕ) (is : List (Instr Label)) (m m' : Machine) : Prop :=
  ∃ n, Scratch m' n ∧ run cpu addr k is m = .next n

/-- All code is read from where it is in memory. -/
def Fetches (cpu : Cpu) (addr : ℕ → ℕ) (m : Machine) : Prop := ∀ j, m.translate cpu (addr j) = some (addr j)

theorem Fetches.off (h : m.cr0.getLsbD 31 = false) : Fetches cpu addr m := fun j => Machine.translate_off h (addr j)

theorem Machine.get_set (w : Width) (r : Reg) (v : BitVec 64) : (m.set w r v).get w r = w.trunc v := by
  cases w with
  | w16 =>
    refine BitVec.eq_of_getLsbD_eq fun i hi => ?_
    simp [get, set, Width.trunc]
  | w32 => simp [get, set, Width.trunc]
  | w64 => simp [get, set, Width.trunc]

/-- The result of some operations with numbers. -/
def applyAll (w : Width) (ops : List (Op × BitVec 64)) (x : BitVec 64) : BitVec 64 :=
  ops.foldl (fun x o => w.trunc (o.1.apply x o.2)) x

theorem run_ops (cpu : Cpu) (addr : ℕ → ℕ) (is : List (Instr Label)) (w : Width) (r : Reg) :
    ∀ (ops : List (Op × BitVec 64)) (k : ℕ) (m : Machine), Fetches cpu addr m →
    ∃ m', Scratch m m' ∧ m'.get w r = applyAll w ops (m.get w r) ∧
      run cpu addr k (ops.map (fun o => .alu o.1 w r (.imm o.2)) ++ is) m = run cpu addr (k + ops.length) is m'
  | [], k, m, _ => ⟨m, rfl, rfl, rfl⟩
  | o :: ops, k, m, hf => by
    set v := o.1.apply (m.get w r) o.2
    obtain ⟨m', hs, hget, hrun⟩ := run_ops cpu addr is w r ops (k + 1) ((m.set w r v).setFlags cpu false v) hf
    refine ⟨m', hs, ?_, ?_⟩
    · rw [hget]
      exact congrArg (applyAll w ops) (Machine.get_set w r v)
    · rw [List.map_cons, List.cons_append, run_next (hf k) rfl, List.length_cons, Nat.add_comm ops.length,
        ← Nat.add_assoc]
      exact hrun

theorem movToCr_scratch (hs : Scratch m m') (v : BitVec 64) (c : Cr) :
    movToCr cpu m' v c = (movToCr cpu m v c).map fun n => { n with regs := m'.regs, eflags := m'.eflags } := by
  rw [hs]
  cases c with
  | cr0 => simp only [movToCr, apply_ite (Option.map _), Option.map_some, Option.map_none]
  | cr3 => rfl
  | cr4 =>
    by_cases h : (cr4Ok cpu v && (!m.longMode || v.getLsbD 5)) = true
    · have hm : movToCr cpu m v .cr4 = some { m with cr4 := v } := if_pos h
      rw [hm]
      exact if_pos h
    · have hm : movToCr cpu m v .cr4 = none := if_neg h
      rw [hm]
      exact if_neg h

/-- A control register is read, its bits are changed and it is written. -/
theorem Leads.updateCr {w : Width} {c : Cr} {r : Reg} (ops : List (Op × BitVec 64)) (hf : Fetches cpu addr m)
    (hw : m.crWidth = w) (h : movToCr cpu m (applyAll w ops (w.trunc (m.cr c))) c = some m') :
    Leads cpu addr k (.movFromCr r c :: (ops.map (fun o => .alu o.1 w r (.imm o.2)) ++ [.movToCr c r]) :
      List (Instr Label)) m m' := by
  obtain ⟨m₁, hs, hget, hrun⟩ := run_ops cpu addr [(Instr.movToCr c r : Instr Label)] w r ops (k + 1)
    (m.set w r (m.cr c)) hf
  have hexec : exec cpu (addr (k + 1)) m (.movFromCr r c : Instr Label) = .next (m.set w r (m.cr c)) := by
    rw [← hw]
    rfl
  have hw₁ : m₁.crWidth = w := by
    rw [hs]
    exact hw
  have hs₁ : Scratch m m₁ := hs
  have hcr : exec cpu (addr (k + 1 + ops.length + 1)) m₁ (.movToCr c r : Instr Label) =
      .next { m' with regs := m₁.regs, eflags := m₁.eflags } := by
    rw [exec, hw₁, hget, Machine.get_set, movToCr_scratch hs₁, h]
    rfl
  refine ⟨{ m' with regs := m₁.regs, eflags := m₁.eflags }, rfl, ?_⟩
  rw [run_next (hf k) hexec, hrun, run_next (by rw [hs₁]; exact hf _) hcr]
  rfl

/-- A number is read into `edx:eax`, and some of its low bits are set. -/
theorem Machine.edxEax_or (m : Machine) (v : BitVec 64) {x : BitVec 64} (hx : x.toNat < 2 ^ 32) :
    ((m.setEdxEax v).set .w32 .rax ((m.setEdxEax v).get .w32 .rax ||| x)).edxEax =
      v ||| x := by
  set m₁ := m.setEdxEax v with h₁
  have hrax : m₁.get .w32 .rax = Width.w32.trunc v := by
    simp [h₁, setEdxEax, get, set, Width.trunc]
  have hrdx : m₁.regs .rdx = Width.w32.trunc (v >>> 32) := rfl
  have hlow : (m₁.set .w32 .rax (m₁.get .w32 .rax ||| x)).regs .rax =
      Width.w32.trunc (Width.w32.trunc v ||| x) := by
    rw [← hrax]
    rfl
  have hhigh : (m₁.set .w32 .rax (m₁.get .w32 .rax ||| x)).regs .rdx = Width.w32.trunc (v >>> 32) :=
    hrdx
  rw [edxEax, hlow, hhigh]
  refine BitVec.eq_of_getLsbD_eq fun i hi => ?_
  rw [BitVec.getLsbD_append]
  split_ifs with hlt
  · simp [Width.trunc, hlt, hi]
  · have hbit : x.getLsbD i = false :=
      Nat.testBit_lt_two_pow (hx.trans_le (Nat.pow_le_pow_right (by omega) (Nat.not_lt.mp hlt)))
    have hi' : i - 32 < 32 := by omega
    have hi'' : 32 + (i - 32) = i := by omega
    simp [Width.trunc, hbit, hi', hi'']

theorem exec_xor_self (w : Width) (r : Reg) (next : ℕ) :
    exec cpu next m (.alu .xor w r (.reg r) : Instr Label) = .next ((m.set w r 0).setFlags cpu false 0) := by
  rw [exec, Machine.value, Op.apply, BitVec.xor_self]
  rfl

/-- A register that is read into `edx:eax`, of which some bits are set before it is written again. -/
theorem readOr {v x : BitVec 64} (hf : Fetches cpu addr m)
    (hread : exec cpu (addr (k + 1)) m i = .next (m.setEdxEax v)) (hx : x.toNat < 2 ^ 32) :
    ∃ n, Scratch m n ∧ n.regs .rcx = m.regs .rcx ∧ n.edxEax = v ||| x ∧
      run cpu addr k (i :: .alu .or .w32 .rax (.imm x) :: is) m = run cpu addr (k + 2) is n := by
  obtain ⟨m₁, h₁⟩ : ∃ m₁, m₁ = m.setEdxEax v := ⟨_, rfl⟩
  obtain ⟨y, hy⟩ : ∃ y, y = m₁.get .w32 .rax ||| x := ⟨_, rfl⟩
  obtain ⟨n, hn⟩ : ∃ n, n = (m₁.set .w32 .rax y).setFlags cpu false y := ⟨_, rfl⟩
  have hs₁ : Scratch m m₁ := h₁ ▸ rfl
  have hs : Scratch m n := hs₁.trans (hn ▸ rfl)
  have hor : exec cpu (addr (k + 1 + 1)) m₁ (.alu .or .w32 .rax (.imm x) : Instr Label) = .next n := by
    rw [hn, hy]
    rfl
  refine ⟨n, hs, ?_, ?_, ?_⟩
  · rw [hn, h₁]
    rfl
  · rw [hn, hy, h₁]
    exact m.edxEax_or v hx
  · rw [← h₁] at hread
    rw [run_next (hf k) hread, run_next (by rw [hs₁]; exact hf _) hor]

/-- Segments are set to the null segment. -/
theorem run_nullSegs {r : Reg} : ∀ (segs : List Seg) (k : ℕ) (m : Machine), Fetches cpu addr m → m.cs64 = true →
    (m.regs r).setWidth 16 = (0 : BitVec 16) →
    run cpu addr k (segs.map (fun s => (.movToSeg s r : Instr Label))) m =
      .next { m with segs := fun s => if s ∈ segs then 0 else m.segs s }
  | [], k, m, _, _, _ => by simp [run]
  | s :: segs, k, m, hf, hcs, hr => by
    have hexec : exec cpu (addr (k + 1)) m (.movToSeg s r : Instr Label) =
        .next { m with segs := fun s' => if s' = s then 0 else m.segs s' } := by
      rw [exec, hcs, hr]
      rfl
    have hrun := run_nullSegs segs (k + 1) { m with segs := fun s' => if s' = s then 0 else m.segs s' } hf hcs hr
    rw [List.map_cons, run_next (hf k) hexec, hrun]
    refine congrArg Outcome.next ?_
    rw [Machine.mk.injEq]
    refine ⟨rfl, rfl, rfl, rfl, rfl, rfl, rfl, rfl, rfl, funext fun s' => ?_, rfl⟩
    by_cases h : s' = s <;> simp [h]

/-! ### The stack -/

section Stack

variable {b : ℕ}

/-- The machine after a push. -/
def Machine.pushed (m : Machine) (b : ℕ) (v : BitVec 64) : Machine :=
  { m.set .w32 .rsp (BitVec.ofNat 64 (b - 4)) with mem := store m.mem (b - 4) 4 v }

theorem trunc32_ofNat (hb : b < 2 ^ 32) : Width.w32.trunc (BitVec.ofNat 64 b) = BitVec.ofNat 64 b := by
  apply BitVec.eq_of_toNat_eq
  simp only [Width.trunc, BitVec.toNat_setWidth, BitVec.toNat_ofNat]
  omega

theorem Machine.get_rsp (hb : b < 2 ^ 32) (hrsp : m.regs .rsp = BitVec.ofNat 64 b) :
    m.get .w32 .rsp = BitVec.ofNat 64 b := by rw [get, hrsp, trunc32_ofNat hb]

theorem Machine.pushBytes_eq (hoff : m.cr0.getLsbD 31 = false) (hb : 4 ≤ b) (hb' : b < 2 ^ 32)
    (hrsp : m.regs .rsp = BitVec.ofNat 64 b) (v : BitVec 64) : m.pushBytes cpu .w32 4 v = some (m.pushed b v) := by
  have htop : m.get .w32 .rsp - BitVec.ofNat 64 4 = BitVec.ofNat 64 (b - 4) := by
    rw [get_rsp hb' hrsp, BitVec.ofNat_sub_ofNat_of_le _ _ (by omega) hb]
  have haddr : (BitVec.ofNat 64 (b - 4)).toNat = b - 4 := by
    rw [BitVec.toNat_ofNat]
    omega
  simp only [pushBytes, htop, get_set, trunc32_ofNat (show b - 4 < 2 ^ 32 by omega), haddr]
  rw [access_off (by exact hoff) _ (by omega)]
  rfl

/-- What is pushed is popped. -/
theorem Machine.pop32_pushed (hoff : m.cr0.getLsbD 31 = false) (hb : 4 ≤ b) (hb' : b < 2 ^ 32)
    (hrsp : m.regs .rsp = BitVec.ofNat 64 b) (v : BitVec 64) :
    (m.pushed b v).pop32 cpu = some (v.setWidth 32, { m with mem := store m.mem (b - 4) 4 v }) := by
  have htop : (m.pushed b v).get .w32 .rsp = BitVec.ofNat 64 (b - 4) :=
    (m.get_set .w32 .rsp (BitVec.ofNat 64 (b - 4))).trans (trunc32_ofNat (show b - 4 < 2 ^ 32 by omega))
  have haddr : (BitVec.ofNat 64 (b - 4)).toNat = b - 4 := by
    rw [BitVec.toNat_ofNat]
    omega
  have hback : BitVec.ofNat 64 (b - 4) + 4 = BitVec.ofNat 64 b := by
    apply BitVec.eq_of_toNat_eq
    rw [BitVec.toNat_add, BitVec.toNat_ofNat, BitVec.toNat_ofNat]
    simp
    omega
  have hregs : ((m.pushed b v).set .w32 .rsp (BitVec.ofNat 64 b)).regs = m.regs := by
    funext r
    by_cases hr : r = .rsp
    · have hset : ((m.pushed b v).set .w32 .rsp (BitVec.ofNat 64 b)).regs r = Width.w32.trunc (BitVec.ofNat 64 b) :=
        if_pos hr
      rw [hset, hr, hrsp, trunc32_ofNat hb']
    · exact (if_neg hr).trans (if_neg hr)
  have hpop : (m.pushed b v).set .w32 .rsp (BitVec.ofNat 64 b) = { m with mem := store m.mem (b - 4) 4 v } := by
    rw [mk.injEq]
    exact ⟨hregs, rfl, rfl, rfl, rfl, rfl, rfl, rfl, rfl, rfl, rfl⟩
  rw [pop32]
  simp only [htop, haddr, hback, hpop]
  rw [access_off (by exact hoff) _ (by omega)]
  simp only [pushed, load32_store le_rfl, Option.bind_eq_bind, Option.bind_some, Option.pure_def]

/-- The flags as they are pushed. -/
def image (eflags : BitVec 32) : BitVec 64 := (eflags &&& 0xFCFFFF).setWidth 64

theorem image_trunc (eflags : BitVec 32) : Width.w32.trunc (image eflags) = image eflags := by
  simp [image, Width.trunc]

theorem run_pushfd_pop (hoff : m.cr0.getLsbD 31 = false) (hb : 4 ≤ b) (hb' : b < 2 ^ 32)
    (hrsp : m.regs .rsp = BitVec.ofNat 64 b) (r : Reg) :
    run cpu addr k (.pushfd :: .pop r :: is) m = run cpu addr (k + 2) is
      ({ m with mem := store m.mem (b - 4) 4 (image m.eflags) }.set .w32 r (image m.eflags)) := by
  have hpush : exec cpu (addr (k + 1)) m (.pushfd : Instr Label) = .next (m.pushed b (image m.eflags)) := by
    rw [exec]
    exact congrArg Outcome.ofOption (Machine.pushBytes_eq hoff hb hb' hrsp _)
  have hwide : ((image m.eflags).setWidth 32).setWidth 64 = image m.eflags := by simp [image]
  have hpop : exec cpu (addr (k + 1 + 1)) (m.pushed b (image m.eflags)) (.pop r : Instr Label) =
      .next ({ m with mem := store m.mem (b - 4) 4 (image m.eflags) }.set .w32 r (image m.eflags)) := by
    rw [exec, Machine.pop32_pushed hoff hb hb' hrsp, Option.map_some]
    dsimp only
    rw [hwide]
    rfl
  rw [run_next (Machine.translate_off hoff _) hpush, run_next (Machine.translate_off (by exact hoff) _) hpop]

theorem run_push_popfd (hoff : m.cr0.getLsbD 31 = false) (hb : 4 ≤ b) (hb' : b < 2 ^ 32)
    (hrsp : m.regs .rsp = BitVec.ofNat 64 b) (r : Reg) :
    run cpu addr k (.push r :: .popfd :: is) m =
      run cpu addr (k + 2) is { m with
        mem := store m.mem (b - 4) 4 (m.get .w32 r)
        eflags := (m.get .w32 r).setWidth 32 &&& cpu.writableFlags |||
          (m.eflags &&& ~~~cpu.writableFlags &&& ~~~0x10000) } := by
  have hpush : exec cpu (addr (k + 1)) m (.push r : Instr Label) = .next (m.pushed b (m.get .w32 r)) := by
    rw [exec]
    exact congrArg Outcome.ofOption (Machine.pushBytes_eq hoff hb hb' hrsp _)
  have hpop : exec cpu (addr (k + 1 + 1)) (m.pushed b (m.get .w32 r)) (.popfd : Instr Label) =
      .next { m with
        mem := store m.mem (b - 4) 4 (m.get .w32 r)
        eflags := (m.get .w32 r).setWidth 32 &&& cpu.writableFlags |||
          (m.eflags &&& ~~~cpu.writableFlags &&& ~~~0x10000) } := by
    rw [exec, Machine.pop32_pushed hoff hb hb' hrsp]
    rfl
  rw [run_next (Machine.translate_off hoff _) hpush, run_next (Machine.translate_off (by exact hoff) _) hpop]

/-- The flags that cannot be changed are those that an operation does not change either. -/
theorem eflags_setFlags (c : Bool) (v : BitVec 64) :
    (m.setFlags cpu c v).eflags &&& ~~~cpu.writableFlags = m.eflags &&& ~~~cpu.writableFlags := by
  refine BitVec.eq_of_getLsbD_eq fun i hi => ?_
  have hconst : ∀ i < 32, (0x47FD5#32).getLsbD i = true ∨ (0x8D5#32).getLsbD i = false ∧
      (0x1#32).getLsbD i = false ∧ (0x40#32).getLsbD i = false ∧ (0x894#32).getLsbD i = false := by decide
  simp only [Cpu.writableFlags, Machine.setFlags, BitVec.getLsbD_and, BitVec.getLsbD_or, BitVec.getLsbD_not,
    BitVec.ofNat_eq_ofNat, decide_eq_true hi, Bool.true_and]
  rcases hconst i hi with h | ⟨h₁, h₂, h₃, h₄⟩
  · rw [h, Bool.true_or, Bool.not_true, Bool.and_false, Bool.and_false]
  · simp only [apply_ite (fun x : BitVec 32 => x.getLsbD i), h₁, h₂, h₃, h₄, BitVec.getLsbD_zero, ite_self,
      Bool.or_false, Bool.not_false, Bool.and_true, Bool.and_false]

/-- `ID` is flipped, and the flags are written and read again: they are the same if there is no `cpuid`. -/
theorem image_flipped {e e' : BitVec 32} (he : e' &&& ~~~cpu.writableFlags = e &&& ~~~cpu.writableFlags) :
    image ((image e ^^^ 0x200000).setWidth 32 &&& cpu.writableFlags ||| (e' &&& ~~~cpu.writableFlags &&& ~~~0x10000)) =
      image e ↔ cpu.hasCpuid = false := by
  rw [he]
  constructor
  · intro h
    by_contra hc
    rw [Bool.not_eq_false] at hc
    have h21 := congrArg (fun v : BitVec 64 => v.getLsbD 21) h
    simp [image, Cpu.writableFlags, hc] at h21
  · intro hc
    have hconst : ∀ i < 32, (0xFCFFFF#32).getLsbD i = false ∨
        (0x10000#32).getLsbD i = false ∧ ((0x47FD5#32).getLsbD i = false ∨ (0x200000#64).getLsbD i = false) := by
      decide
    refine congrArg (BitVec.setWidth 64) (BitVec.eq_of_getLsbD_eq fun i hi => ?_)
    have hi' : i < 64 := by omega
    simp only [image, Cpu.writableFlags, hc, BitVec.getLsbD_and, BitVec.getLsbD_or, BitVec.getLsbD_not,
      BitVec.getLsbD_xor, BitVec.getLsbD_setWidth, BitVec.ofNat_eq_ofNat, BitVec.getLsbD_zero, decide_eq_true hi,
      decide_eq_true hi', Bool.false_eq_true, if_false, Bool.true_and, Bool.or_false]
    rcases hconst i hi with h | ⟨h, h' | h'⟩
    · rw [h, Bool.and_false, Bool.and_false]
    · rw [h, h']
      simp
    · rw [h, h']
      cases e.getLsbD i <;> cases (0xFCFFFF#32).getLsbD i <;> cases (0x47FD5#32).getLsbD i <;> rfl

end Stack

/-! ### Checks -/

/-- Code that goes on under a condition and else jumps, and changes registers and flags only. -/
def Goes (cpu : Cpu) (label : Label) (addr : ℕ → ℕ) (k : ℕ) (is : List (Instr Label)) (m : Machine) (cond : Prop) :
    Prop :=
  ∃ m', Scratch m m' ∧ (cond ∧ run cpu addr k is m = .next m' ∨ ¬ cond ∧ run cpu addr k is m = .jumped label m')

namespace Machine

@[simp] theorem carry_setFlags (c : Bool) (r : BitVec 64) : (m.setFlags cpu c r).carry = c := by
  cases c <;> by_cases hr : r = 0#64 <;> simp [setFlags, carry, hr]

@[simp] theorem zero_setFlags (c : Bool) (r : BitVec 64) : (m.setFlags cpu c r).zero = decide (r = 0) := by
  cases c <;> by_cases hr : r = 0#64 <;> simp [setFlags, zero, hr]

@[simp] theorem carry_setCarry (b : Bool) : (m.setCarry cpu b).carry = b := by
  cases b <;> simp [setCarry, carry]

@[simp] theorem regs_setFlags (c : Bool) (r : BitVec 64) : (m.setFlags cpu c r).regs = m.regs := rfl

@[simp] theorem regs_setCarry (b : Bool) : (m.setCarry cpu b).regs = m.regs := rfl

@[simp] theorem regs_set32 (r r' : Reg) (v : BitVec 64) :
    (m.set .w32 r v).regs r' = if r' = r then (v.setWidth 32).setWidth 64 else m.regs r' := rfl

@[simp] theorem get32 (r : Reg) : m.get .w32 r = ((m.regs r).setWidth 32).setWidth 64 := rfl

end Machine

/-- A condition after the comparison of two numbers. -/
def Cond.test (a b : BitVec 64) : Cond → Bool
  | .z => a == b
  | .be => a.ult b || a == b
  | .b => a.ult b
  | .nz => a != b
  | .nc => !a.ult b

theorem Cond.test_b {a b : BitVec 64} : Cond.b.test a b = false ↔ b.toNat ≤ a.toNat := by
  rw [test, BitVec.ult, decide_eq_false_iff_not, Nat.not_lt]

theorem Cond.test_be {a b : BitVec 64} : Cond.be.test a b = false ↔ b.toNat < a.toNat := by
  rw [test, BitVec.ult, Bool.or_eq_false_iff, decide_eq_false_iff_not, beq_eq_false_iff_ne, ne_eq, ← BitVec.toNat_inj]
  omega

theorem holds_cmp (a b : BitVec 64) (c : Cond) : (m.setFlags cpu (a.ult b) (a - b)).holds c = c.test a b := by
  have hz : decide (a - b = 0) = (a == b) := by rw [beq_eq_decide, decide_eq_decide, sub_eq_zero]
  cases c <;> simp only [Machine.holds, Cond.test, Machine.carry_setFlags, Machine.zero_setFlags, hz]
  rfl

/-- The registers after `cpuid`. -/
def Leaf.regs (l : Leaf) (old : Reg → BitVec 64) (r : Reg) : BitVec 64 :=
  if r = .rsp then old r else (l.get r).setWidth 64

/-- The machine after `cpuid`. -/
def Machine.afterCpuid (cpu : Cpu) (m : Machine) : Machine :=
  { m with regs := (cpu.cpuid ((m.regs .rax).setWidth 32) ((m.regs .rcx).setWidth 32)).regs m.regs }

theorem exec_cpuid (hc : cpu.hasCpuid = true) {next : ℕ} :
    exec cpu next m (.cpuid : Instr Label) = .next (m.afterCpuid cpu) := by
  refine (if_pos hc).trans (congrArg Outcome.next ?_)
  rw [Machine.afterCpuid, Machine.mk.injEq]
  refine ⟨funext fun r => ?_, rfl, rfl, rfl, rfl, rfl, rfl, rfl, rfl, rfl, rfl⟩
  cases r <;> simp [Leaf.regs, Leaf.get]

namespace Goes

variable {label : Label} {c d : Prop}

theorem nil : Goes cpu label addr k [] m True := ⟨m, rfl, Or.inl ⟨trivial, rfl⟩⟩

theorem congr (h : Goes cpu label addr k is m c) (he : c ↔ d) : Goes cpu label addr k is m d := by
  rwa [Goes, ← he]

theorem cons (hoff : m.cr0.getLsbD 31 = false) (h : exec cpu (addr (k + 1)) m i = .next m') (hs : Scratch m m')
    (hg : Goes cpu label addr (k + 1) is m' c) : Goes cpu label addr k (i :: is) m c := by
  obtain ⟨m'', hs', hg⟩ := hg
  refine ⟨m'', hs.trans hs', ?_⟩
  rwa [run_next (Machine.translate_off hoff _) h]

theorem mov (hoff : m.cr0.getLsbD 31 = false) {r : Reg} {v : BitVec 64}
    (h : Goes cpu label addr (k + 1) is (m.set .w32 r v) c) :
    Goes cpu label addr k (.mov .w32 r (.imm v) :: is) m c :=
  cons hoff rfl rfl h

theorem xor_self (hoff : m.cr0.getLsbD 31 = false) {r : Reg}
    (h : ∀ eflags, Goes cpu label addr (k + 1) is { m.set .w32 r 0 with eflags := eflags } c) :
    Goes cpu label addr k (.alu .xor .w32 r (.reg r) :: is) m c :=
  cons hoff (exec_xor_self .w32 r _) rfl (h _)

theorem cpuid (hc : cpu.hasCpuid = true) (hoff : m.cr0.getLsbD 31 = false)
    (h : Goes cpu label addr (k + 1) is (m.afterCpuid cpu) c) : Goes cpu label addr k (.cpuid :: is) m c :=
  cons hoff (exec_cpuid hc) rfl h

/-- A jump. -/
theorem jump (hoff : m.cr0.getLsbD 31 = false) {cond : Cond} (h : Goes cpu label addr (k + 1) is m d) :
    Goes cpu label addr k (.j cond label :: is) m (m.holds cond = false ∧ d) := by
  have hexec : exec cpu (addr (k + 1)) m (.j cond label) = if m.holds cond then .jumped label m else .next m := rfl
  cases hm : m.holds cond with
  | true =>
    rw [hm, if_pos rfl] at hexec
    exact ⟨m, rfl, Or.inr ⟨by simp, run_jumped (Machine.translate_off hoff _) hexec⟩⟩
  | false =>
    rw [hm, if_neg Bool.false_ne_true] at hexec
    exact (cons hoff hexec rfl h).congr (by simp)

/-- Two numbers are compared. -/
theorem cmp (hoff : m.cr0.getLsbD 31 = false) {r : Reg} {src : Source} {cond : Cond}
    (h : ∀ eflags, Goes cpu label addr (k + 2) is { m with eflags := eflags } d) :
    Goes cpu label addr k (.cmp .w32 r src :: .j cond label :: is) m
      (cond.test (m.get .w32 r) (m.value .w32 src) = false ∧ d) := by
  rw [← @holds_cmp cpu m]
  exact cons hoff rfl rfl (jump (by exact hoff) (h _))

/-- A bit is tested. -/
theorem bt (hoff : m.cr0.getLsbD 31 = false) {r : Reg} {bit : ℕ}
    (h : ∀ eflags, Goes cpu label addr (k + 2) is { m with eflags := eflags } d) :
    Goes cpu label addr k (.bt r bit :: .j .nc label :: is) m
      (((m.regs r).setWidth 32).getLsbD bit = true ∧ d) := by
  have hbit : (m.get .w32 r).getLsbD bit = ((m.regs r).setWidth 32).getLsbD bit := by
    rw [Machine.get32, BitVec.getLsbD_setWidth]
    by_cases hb : bit < 64
    · rw [decide_eq_true hb, Bool.true_and]
    · rw [BitVec.getLsbD_of_ge _ _ (by omega), Bool.and_false]
  have hholds : (m.setCarry cpu ((m.get .w32 r).getLsbD bit)).holds .nc = false ↔
      ((m.regs r).setWidth 32).getLsbD bit = true := by
    rw [Machine.holds, Machine.carry_setCarry, hbit, Bool.not_eq_eq_eq_not, Bool.not_false]
  rw [← hholds]
  exact cons hoff rfl rfl (jump (by exact hoff) (h _))

theorem widen_inj {x y : BitVec 32} : x.setWidth 64 = y.setWidth 64 ↔ x = y := by
  refine ⟨fun h => ?_, fun h => h ▸ rfl⟩
  have hx : (x.setWidth 64).setWidth 32 = x := by simp
  rw [← hx, h]
  simp

/-- Some bits are tested together. -/
theorem mask (hoff : m.cr0.getLsbD 31 = false) {r : Reg} (hr : r ≠ .rax) {v : BitVec 64}
    (h : ∀ m', Scratch m m' → (∀ r', r' ≠ .rax → r' ≠ r → m'.regs r' = m.regs r') →
      Goes cpu label addr (k + 4) is m' d) :
    Goes cpu label addr k (.mov .w32 .rax (.imm v) :: .alu .and .w32 r (.reg .rax) :: .cmp .w32 r (.reg .rax) ::
        .j .nz label :: is) m ((m.regs r).setWidth 32 &&& v.setWidth 32 = v.setWidth 32 ∧ d) := by
  set m₁ := m.set .w32 .rax v with h₁
  set m₂ := ((m₁.set .w32 r (m₁.get .w32 r &&& m₁.get .w32 .rax)).setFlags cpu false
    (m₁.get .w32 r &&& m₁.get .w32 .rax)) with h₂
  have hg : Goes cpu label addr (k + 2) (.cmp .w32 r (.reg .rax) :: .j .nz label :: is) m₂ _ :=
    cmp (by exact hoff) fun eflags => h { m₂ with eflags := eflags } rfl fun r' h' h'' => by simp [h₂, h₁, h', h'']
  refine mov hoff (cons hoff rfl rfl (hg.congr (and_congr_left' ?_)))
  rw [Cond.test, bne_eq_false_iff_eq, Machine.value, Machine.get32, Machine.get32, widen_inj]
  simp [h₂, h₁, hr, hr.symm]

end Goes

/-- Code before paging is turned on that checks a condition. -/
def Checks (cpu : Cpu) (label : Label) (is : List (Instr Label)) (cond : Prop) : Prop :=
  ∀ addr k m, m.cr0.getLsbD 31 = false → Goes cpu label addr k is m cond

/-- Checks in sequence; the later ones can rely on the first. -/
theorem Checks.append {label : Label} {c d : Prop} (h : Checks cpu label is c) (h' : c → Checks cpu label js d) :
    Checks cpu label (is ++ js) (c ∧ d) := by
  intro addr k m hoff
  obtain ⟨m', hs, ⟨hc, hrun⟩ | ⟨hc, hrun⟩⟩ := h addr k m hoff
  · obtain ⟨m'', hs', ⟨hd, hrun'⟩ | ⟨hd, hrun'⟩⟩ := h' hc addr (k + is.length) m' (hs.cr0.symm ▸ hoff)
    · exact ⟨m'', hs.trans hs', Or.inl ⟨⟨hc, hd⟩, (run_append_next hrun).trans hrun'⟩⟩
    · exact ⟨m'', hs.trans hs', Or.inr ⟨fun h => hd h.2, (run_append_next hrun).trans hrun'⟩⟩
  · exact ⟨m', hs, Or.inr ⟨fun h => hc h.1, run_append_jumped hrun⟩⟩

end X86
