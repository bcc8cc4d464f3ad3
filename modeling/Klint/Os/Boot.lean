/-
# Starting on bare metal

`env/src/os/metal/boot.asm`: the processor's features are checked, the page tables are set up
and 64-bit mode is entered, before `_start` is called. The labels are given addresses by a
`Layout`, and the sections of the executable are in memory as `Loaded` says.

`boot_outcomes`: on every processor, from the state of the Multiboot specification, no
exception is raised. Either the processor is halted or `_start` is called, and then the first
4 GiB are identity-mapped, SSE and AVX are enabled and there is a stack of 1 MiB. It is called
exactly on the processors with the features that are checked, which have all that the file
lists but for one: `FSGSBASE` is read from leaf 7, while the check before it makes sure of
leaf 3 only.
-/
import Klint.Arch.X86

namespace Klint
namespace Boot

open X86

/-- `start`, `.unsupported_cpu`, `.64_bit` and `_start`. -/
inductive Label
  | start
  | unsupportedCpu
  | bits64
  | entry
  deriving DecidableEq, Repr

/-- The addresses of the labels, and of the instructions after them. -/
structure Layout where
  stackTop : ℕ
  stackBottom : ℕ
  pml4 : ℕ
  pdpt : ℕ
  gdt64 : ℕ
  code : Label → ℕ → ℕ
  stack : stackTop + 2 ^ 20 ≤ stackBottom
  stack_aligned : 16 ∣ stackBottom
  pml4_aligned : 4096 ∣ pml4
  pdpt_aligned : 4096 ∣ pdpt
  /-- "The entire executable image is loaded in the lowest 4GiB of memory." -/
  low : stackBottom < 2 ^ 32 ∧ pml4 + 4096 ≤ 2 ^ 32 ∧ pdpt + 4096 ≤ 2 ^ 32 ∧ gdt64 + 26 ≤ 2 ^ 32
  code_low : ∀ label k, code label k < 2 ^ 32
  stack_apart : ∀ a, stackTop ≤ a → a < stackBottom →
    ¬ (pml4 ≤ a ∧ a < pml4 + 4096) ∧ ¬ (pdpt ≤ a ∧ a < pdpt + 4096) ∧ ¬ (gdt64 ≤ a ∧ a < gdt64 + 26)
  pml4_apart : ∀ a, pml4 ≤ a → a < pml4 + 4096 →
    ¬ (pdpt ≤ a ∧ a < pdpt + 4096) ∧ ¬ (gdt64 ≤ a ∧ a < gdt64 + 26)

variable (L : Layout)

/-- A label as an operand. -/
def addr32 (a : ℕ) : BitVec 64 := BitVec.ofNat 64 a

/-! ### The code -/

def checkCpuid : List (Instr Label) := [
  .mov .w32 .rsp (.imm (addr32 L.stackBottom)),
  .pushfd,
  .pop .rax,
  .mov .w32 .rbx (.reg .rax),
  .alu .xor .w32 .rax (.imm (1 <<< 21)),
  .push .rax,
  .popfd,
  .pushfd,
  .pop .rax,
  .cmp .w32 .rax (.reg .rbx),
  .j .z .unsupportedCpu]

def checkLeaves : List (Instr Label) := [
  .alu .xor .w32 .rax (.reg .rax),
  .cpuid,
  .cmp .w32 .rax (.imm 2),
  .j .be .unsupportedCpu]

def checkExtendedLeaves : List (Instr Label) := [
  .mov .w32 .rax (.imm 0x80000000),
  .cpuid,
  .cmp .w32 .rax (.imm 0x80000007),
  .j .b .unsupportedCpu]

def checkExtended : List (Instr Label) := [
  .mov .w32 .rax (.imm 0x80000001),
  .cpuid,
  .bt .rdx 29,
  .j .nc .unsupportedCpu,
  .bt .rdx 26,
  .j .nc .unsupportedCpu]

def maskEcx : BitVec 64 := 1 <<< 0 ||| 1 <<< 1 ||| 1 <<< 9 ||| 1 <<< 13 ||| 1 <<< 19 ||| 1 <<< 20 ||| 1 <<< 23 |||
  1 <<< 25 ||| 1 <<< 26 ||| 1 <<< 28 ||| 1 <<< 29 ||| 1 <<< 30

def maskEdx : BitVec 64 := 1 <<< 0 ||| 1 <<< 4 ||| 1 <<< 5 ||| 1 <<< 6 ||| 1 <<< 8 ||| 1 <<< 23 ||| 1 <<< 24 |||
  1 <<< 25 ||| 1 <<< 26

def checkFeatures : List (Instr Label) := [
  .mov .w32 .rax (.imm 0x1),
  .cpuid,
  .mov .w32 .rax (.imm maskEcx),
  .alu .and .w32 .rcx (.reg .rax),
  .cmp .w32 .rcx (.reg .rax),
  .j .nz .unsupportedCpu,
  .mov .w32 .rax (.imm maskEdx),
  .alu .and .w32 .rdx (.reg .rax),
  .cmp .w32 .rdx (.reg .rax),
  .j .nz .unsupportedCpu]

def checkFsgsbase : List (Instr Label) := [
  .mov .w32 .rax (.imm 0x07),
  .alu .xor .w32 .rcx (.reg .rcx),
  .cpuid,
  .bt .rbx 0,
  .j .nc .unsupportedCpu]

def checkTsc : List (Instr Label) := [
  .mov .w32 .rax (.imm 0x80000007),
  .cpuid,
  .bt .rdx 8,
  .j .nc .unsupportedCpu]

/-- The checks with `CPUID`. -/
def allChecks : List (Instr Label) :=
  checkLeaves ++ (checkExtendedLeaves ++ (checkExtended ++ (checkFeatures ++ (checkFsgsbase ++ checkTsc))))

/-- The second of the manual's steps into 64-bit mode: physical-address extensions are enabled. -/
def enablePae : List (Instr Label) := [
  .movFromCr .rax .cr4,
  .alu .or .w32 .rax (.imm (1 <<< 5)),
  .movToCr .cr4 .rax]

/-- The third step: the first entry of the top level page table is set, and `CR3`. -/
def loadCr3 : List (Instr Label) := [
  .mov .w32 .rax (.imm (addr32 L.pdpt)),
  .alu .or .w32 .rax (.imm 0b11),
  .store L.pml4 .rax,
  .mov .w32 .rax (.imm (addr32 L.pml4)),
  .movToCr .cr3 .rax]

/-- The fourth step: `IA32_EFER.LME` is set. -/
def enableIa32e : List (Instr Label) := [
  .mov .w32 .rcx (.imm 0xC0000080),
  .rdmsr,
  .alu .or .w32 .rax (.imm (1 <<< 8)),
  .wrmsr]

/-- The fifth step: paging is enabled. -/
def enablePaging : List (Instr Label) := [
  .movFromCr .rax .cr0,
  .alu .or .w32 .rax (.imm (1 <<< 31)),
  .movToCr .cr0 .rax]

/-- The steps in sequence. -/
def enableLongMode : List (Instr Label) := enablePae ++ (loadCr3 L ++ (enableIa32e ++ enablePaging))

def loadCodeSegment : List (Instr Label) := [
  .lgdt (L.gdt64 + 16),
  .farJump 8 .bits64]

def nullSegments : List (Instr Label) := [
  .alu .xor .w16 .rax (.reg .rax),
  .movToSeg .ss .rax,
  .movToSeg .ds .rax,
  .movToSeg .es .rax,
  .movToSeg .fs .rax,
  .movToSeg .gs .rax]

def enableSse : List (Instr Label) := [
  .movFromCr .rax .cr4,
  .alu .or .w64 .rax (.imm (1 <<< 9 ||| 1 <<< 10)),
  .movToCr .cr4 .rax]

/-- `EM` is cleared, and `MP` is set. -/
def enableFpu : List (Instr Label) := [
  .movFromCr .rax .cr0,
  .alu .and .w64 .rax (.imm (~~~(1 <<< 2))),
  .alu .or .w64 .rax (.imm (1 <<< 1)),
  .movToCr .cr0 .rax]

def enableXsave : List (Instr Label) := [
  .movFromCr .rax .cr4,
  .alu .or .w64 .rax (.imm (1 <<< 18)),
  .movToCr .cr4 .rax]

def enableAvx : List (Instr Label) := [
  .alu .xor .w64 .rcx (.reg .rcx),
  .xgetbv,
  .alu .or .w32 .rax (.imm 7),
  .xsetbv]

def callStart : List (Instr Label) := [
  .mov .w32 .rsp (.imm (addr32 L.stackBottom)),
  .call .entry,
  .hlt]

/-- The code after a label; `_start` is not part of the file, and never returns. -/
def block : Label → List (Instr Label)
  | .start =>
    checkCpuid L ++ allChecks ++ (enableLongMode L ++ loadCodeSegment L)
  | .unsupportedCpu => [.hlt]
  | .bits64 => nullSegments ++ (enableSse ++ (enableFpu ++ (enableXsave ++ enableAvx))) ++ callStart L
  | .entry => []

/-- What comes of the code. -/
inductive Result
  | halts
  | resets
  | starts (m : Machine)

/-- The code from a label on, for as many jumps as there is fuel. The IDT is invalid: an exception resets. -/
def bootFrom (cpu : Cpu) : ℕ → Label → Machine → Option Result
  | 0, _, _ => none
  | fuel + 1, label, m =>
    match run cpu (L.code label) 0 (block L label) m with
    | .jumped label m => bootFrom cpu fuel label m
    | .called .entry m => some (.starts m)
    | .halted => some .halts
    | _ => some .resets

/-- There are three jumps at most. -/
def boot (cpu : Cpu) (m : Machine) : Option Result := bootFrom L cpu 3 .start m

/-! ### The processor before and after -/

/-- The machine as the Multiboot specification has it: in protected mode, with paging off. -/
structure Multiboot (cpu : Cpu) (m : Machine) : Prop where
  protected_mode : m.cr0.getLsbD 0 = true
  no_paging : m.cr0.getLsbD 31 = false
  no_longMode : m.efer.getLsbD 10 = false
  cs32 : m.cs64 = false
  cr4 : cr4Ok cpu m.cr4 = true

/-- The sections `.data` and `.rodata` of the file are in memory. -/
structure Loaded (mem : ℕ → BitVec 8) : Prop where
  pml4 : ∀ i < 512, load64 mem (L.pml4 + 8 * i) = 0
  pdpt : ∀ i < 512, load64 mem (L.pdpt + 8 * i) =
    if i < 4 then BitVec.ofNat 64 (i * 0x40000000) ||| 0b10000011 else 0
  codeSegment : load64 mem (L.gdt64 + 8) = 1 <<< 47 ||| 1 <<< 44 ||| 1 <<< 43 ||| 1 <<< 53
  limit : load16 mem (L.gdt64 + 16) = 15
  base : load64 mem (L.gdt64 + 18) = BitVec.ofNat 64 L.gdt64

/-- What the file promises to `_start`. -/
structure Ready (cpu : Cpu) (m : Machine) : Prop where
  cs64 : m.cs64 = true
  longMode : m.longMode = true
  nullSegments : ∀ s, m.segs s = 0
  identity : ∀ addr < 2 ^ 32, m.translate cpu addr = some addr
  sse : m.cr4.getLsbD 9 = true ∧ m.cr4.getLsbD 10 = true ∧ m.cr0.getLsbD 2 = false ∧ m.cr0.getLsbD 1 = true
  avx : m.cr4.getLsbD 18 = true ∧ ∀ i < 3, m.xcr0.getLsbD i = true
  /-- The address of the return is below the stack's bottom, which is aligned. -/
  stack : (m.regs .rsp).toNat + 8 = L.stackBottom ∧ 16 ∣ L.stackBottom ∧ L.stackTop + 2 ^ 20 ≤ L.stackBottom

/-! ### The checks -/

variable {L} {cpu : Cpu}

theorem has_plain {eax : BitVec 32} (h : cpu.Has eax) (hp : eax ∈ plainLeaves) (ecx : BitVec 32) :
    cpu.cpuid eax ecx = cpu.leaf eax 0 := by
  rw [Cpu.cpuid, if_pos h, cpu.leaf_plain eax hp ecx]

theorem has_zero : cpu.Has 0 := Or.inl ⟨by decide, BitVec.le_def.mpr (Nat.zero_le _)⟩

/-- A register after `cpuid`, of a leaf that there is. -/
theorem afterCpuid_plain {m : Machine} {eax : BitVec 32} (h : cpu.Has eax) (hp : eax ∈ plainLeaves)
    (hrax : (m.regs .rax).setWidth 32 = eax) {r : Reg} (hr : r ≠ .rsp) :
    (m.afterCpuid cpu).regs r = ((cpu.leaf eax 0).get r).setWidth 64 := by
  rw [Machine.afterCpuid]
  dsimp only
  rw [hrax, has_plain h hp, Leaf.regs, if_neg hr]

/-- A number after `cpuid`, as it is compared. -/
theorem toNat_afterCpuid {m : Machine} {eax : BitVec 32} (h : cpu.Has eax) (hp : eax ∈ plainLeaves)
    (hrax : (m.regs .rax).setWidth 32 = eax) {r : Reg} (hr : r ≠ .rsp) :
    ((m.afterCpuid cpu).get .w32 r).toNat = ((cpu.leaf eax 0).get r).toNat := by
  have hlt := ((cpu.leaf eax 0).get r).isLt
  rw [Machine.get32, afterCpuid_plain h hp hrax hr]
  simp only [BitVec.toNat_setWidth]
  omega

theorem checkLeaves_checks (hc : cpu.hasCpuid = true) :
    Checks cpu .unsupportedCpu checkLeaves (2 < cpu.maxBasic) := by
  intro addr k m hoff
  refine .xor_self hoff fun eflags => .cpuid hc hoff ((Goes.cmp (by exact hoff) fun eflags => .nil).congr ?_)
  rw [and_true, Cond.test_be, toNat_afterCpuid has_zero (by decide) rfl (by decide), BitVec.lt_def]
  rfl

theorem checkExtendedLeaves_checks (hc : cpu.hasCpuid = true) :
    Checks cpu .unsupportedCpu checkExtendedLeaves (0x80000007 ≤ cpu.maxExtended) := by
  intro addr k m hoff
  refine .mov hoff (.cpuid hc hoff ((Goes.cmp (by exact hoff) fun eflags => .nil).congr ?_))
  rw [and_true, Cond.test_b, toNat_afterCpuid (Or.inr (Or.inl rfl)) (by decide) rfl (by decide), BitVec.le_def]
  rfl

theorem supports_of_has {f : Feature} (h : cpu.Has f.eax) :
    cpu.supports f = ((cpu.leaf f.eax 0).get f.reg).getLsbD f.bit := by
  rw [Cpu.supports, decide_eq_true h, Bool.true_and]

/-- A feature, by the bit that is tested after `cpuid`. -/
theorem bit_afterCpuid (m : Machine) (f : Feature) {v : BitVec 64} (h : cpu.Has f.eax) (hp : f.eax ∈ plainLeaves)
    (hv : v.setWidth 32 = f.eax) (hr : f.reg ≠ .rsp) :
    ((((m.set .w32 .rax v).afterCpuid cpu).regs f.reg).setWidth 32).getLsbD f.bit = cpu.supports f := by
  have hrax : ((m.set .w32 .rax v).regs .rax).setWidth 32 = f.eax := by simp [hv]
  rw [afterCpuid_plain h hp hrax hr, supports_of_has h]
  simp

theorem checkExtended_checks (hc : cpu.hasCpuid = true) (h : 0x80000007 ≤ cpu.maxExtended) :
    Checks cpu .unsupportedCpu checkExtended (cpu.supports .longMode = true ∧ cpu.supports .page1GB = true) := by
  intro addr k m hoff
  have hle : (0x80000001 : BitVec 32) ≤ 0x80000007 := by decide
  have hhas : cpu.Has 0x80000001 := Or.inr (Or.inr ⟨by decide, BitVec.le_trans hle h⟩)
  have hlm := bit_afterCpuid m .longMode (v := 0x80000001) hhas (by decide) (by decide) (by decide)
  have hpage := bit_afterCpuid m .page1GB (v := 0x80000001) hhas (by decide) (by decide) (by decide)
  rw [← hlm, ← hpage]
  refine .mov hoff (.cpuid hc hoff ?_)
  refine .bt (by exact hoff) fun eflags => ?_
  exact (Goes.bt (by exact hoff) fun eflags => .nil).congr (iff_of_eq (and_true _))

def ecxFeatures : List Feature := [.sse3, .pclmulqdq, .ssse3, .cmpxchg16b, .sse41, .sse42, .popcnt, .aesni, .xsave,
  .avx, .f16c, .rdrand]

def edxFeatures : List Feature := [.fpu, .tsc, .msr, .pae, .cx8, .mmx, .fxsr, .sse, .sse2]

/-- All bits of a mask are set. -/
theorem mask_iff {x mask : BitVec 32} {fs : List Feature}
    (h : ∀ i < 32, mask.getLsbD i = decide (i ∈ fs.map Feature.bit)) (hlt : ∀ f ∈ fs, f.bit < 32) :
    x &&& mask = mask ↔ ∀ f ∈ fs, x.getLsbD f.bit = true := by
  constructor
  · intro he f hf
    have hbit : mask.getLsbD f.bit = true := by
      rw [h _ (hlt f hf)]
      exact decide_eq_true (List.mem_map_of_mem hf)
    rw [← he, BitVec.getLsbD_and, Bool.and_eq_true] at hbit
    exact hbit.1
  · intro hall
    refine BitVec.eq_of_getLsbD_eq fun i hi => ?_
    rw [BitVec.getLsbD_and]
    cases hm : mask.getLsbD i with
    | false => rw [Bool.and_false]
    | true =>
      rw [h i hi, decide_eq_true_iff] at hm
      obtain ⟨f, hf, rfl⟩ := List.mem_map.mp hm
      rw [hall f hf, Bool.and_true]

/-- The features of a mask, of which `cpuid` has been executed. -/
theorem mask_supports {m : Machine} {r : Reg} {v : BitVec 64} {fs : List Feature} (hhas : cpu.Has 1)
    (hreg : m.regs r = ((cpu.leaf 1 0).get r).setWidth 64)
    (h : ∀ i < 32, (v.setWidth 32).getLsbD i = decide (i ∈ fs.map Feature.bit))
    (hfs : ∀ f ∈ fs, f.bit < 32 ∧ f.eax = 1 ∧ f.reg = r) :
    (m.regs r).setWidth 32 &&& v.setWidth 32 = v.setWidth 32 ↔ ∀ f ∈ fs, cpu.supports f = true := by
  rw [mask_iff h fun f hf => (hfs f hf).1]
  refine forall₂_congr fun f hf => ?_
  obtain ⟨-, heax, rfl⟩ := hfs f hf
  rw [supports_of_has (heax ▸ hhas), hreg, heax]
  simp

theorem checkFeatures_checks (hc : cpu.hasCpuid = true) (h : 2 < cpu.maxBasic) :
    Checks cpu .unsupportedCpu checkFeatures
      ((∀ f ∈ ecxFeatures, cpu.supports f = true) ∧ ∀ f ∈ edxFeatures, cpu.supports f = true) := by
  intro addr k m hoff
  have hle : (1 : BitVec 32) ≤ cpu.maxBasic := by
    rw [BitVec.lt_def] at h
    rw [BitVec.le_def]
    exact (show 1 ≤ 2 by omega).trans h.le
  have hhas : cpu.Has 1 := Or.inl ⟨by decide, hle⟩
  set m₁ := (m.set .w32 .rax 1).afterCpuid cpu with hm₁
  have hrax : ((m.set .w32 .rax 1).regs .rax).setWidth 32 = (1 : BitVec 32) := by simp
  have hreg : ∀ r, r ≠ .rsp → m₁.regs r = ((cpu.leaf 1 0).get r).setWidth 64 := fun r hr =>
    afterCpuid_plain hhas (by decide) hrax hr
  have hedx : ∀ m', Scratch m₁ m' → (∀ r', r' ≠ .rax → r' ≠ .rcx → m'.regs r' = m₁.regs r') →
      Goes cpu .unsupportedCpu addr (k + 6) (checkFeatures.drop 6) m' (∀ f ∈ edxFeatures, cpu.supports f = true) := by
    intro m' hs hregs
    have hrdx := (hregs .rdx (by decide) (by decide)).trans (hreg .rdx (by decide))
    have hoff' : m'.cr0.getLsbD 31 = false := hs.cr0.symm ▸ hoff
    exact (Goes.mask hoff' (by decide) fun m'' _ _ => .nil).congr
      ((iff_of_eq (and_true _)).trans (mask_supports hhas hrdx (by decide) (by decide)))
  refine .mov hoff (.cpuid hc hoff ?_)
  exact (Goes.mask (by exact hoff) (by decide) hedx).congr
    (and_congr_left' (mask_supports hhas (hreg .rcx (by decide)) (by decide) (by decide)))

theorem checkFsgsbase_checks (hc : cpu.hasCpuid = true) :
    Checks cpu .unsupportedCpu checkFsgsbase ((cpu.cpuid 7 0).ebx.getLsbD 0 = true) := by
  intro addr k m hoff
  refine .mov hoff ?_
  refine .xor_self (by exact hoff) fun eflags => ?_
  refine .cpuid hc (by exact hoff) ?_
  refine (Goes.bt (by exact hoff) fun eflags => .nil).congr ?_
  rw [and_true, Machine.afterCpuid]
  simp [Leaf.regs, Leaf.get]

theorem checkTsc_checks (hc : cpu.hasCpuid = true) (h : 0x80000007 ≤ cpu.maxExtended) :
    Checks cpu .unsupportedCpu checkTsc (cpu.supports .invariantTsc = true) := by
  intro addr k m hoff
  have hhas : cpu.Has 0x80000007 := Or.inr (Or.inr ⟨by decide, h⟩)
  refine .mov hoff (.cpuid hc hoff ?_)
  rw [← bit_afterCpuid m .invariantTsc (v := 0x80000007) hhas (by decide) (by decide) (by decide)]
  exact (Goes.bt (by exact hoff) fun eflags => .nil).congr (iff_of_eq (and_true _))

/-- The checks go on exactly on these processors. -/
structure Accepted (cpu : Cpu) : Prop where
  cpuid : cpu.hasCpuid = true
  leaves : 2 < cpu.maxBasic
  extendedLeaves : 0x80000007 ≤ cpu.maxExtended
  longMode : cpu.supports .longMode = true
  page1GB : cpu.supports .page1GB = true
  ecx : ∀ f ∈ ecxFeatures, cpu.supports f = true
  edx : ∀ f ∈ edxFeatures, cpu.supports f = true
  /-- The bit is tested also if there is no leaf 7. -/
  fsgsbase : (cpu.cpuid 7 0).ebx.getLsbD 0 = true
  tsc : cpu.supports .invariantTsc = true

theorem checks (hc : cpu.hasCpuid = true) : Checks cpu .unsupportedCpu allChecks (Accepted cpu) := by
  have hall := (checkLeaves_checks hc).append fun hleaves => (checkExtendedLeaves_checks hc).append fun hext =>
    (checkExtended_checks hc hext).append fun _ => (checkFeatures_checks hc hleaves).append fun _ =>
      (checkFsgsbase_checks hc).append fun _ => checkTsc_checks hc hext
  intro addr k m hoff
  refine (hall addr k m hoff).congr ⟨?_, fun h => ?_⟩
  · rintro ⟨hleaves, hext, ⟨hlm, hpage⟩, ⟨hecx, hedx⟩, hfs, htsc⟩
    exact ⟨hc, hleaves, hext, hlm, hpage, hecx, hedx, hfs, htsc⟩
  · exact ⟨h.leaves, h.extendedLeaves, ⟨h.longMode, h.page1GB⟩, ⟨h.ecx, h.edx⟩, h.fsgsbase, h.tsc⟩

/-- Only memory of the stack has changed. -/
def OffStack (mem mem' : ℕ → BitVec 8) : Prop := ∀ a, ¬ (L.stackTop ≤ a ∧ a < L.stackBottom) → mem' a = mem a

theorem OffStack.trans {mem mem' mem'' : ℕ → BitVec 8} (h : OffStack (L := L) mem mem')
    (h' : OffStack (L := L) mem' mem'') : OffStack (L := L) mem mem'' :=
  fun a ha => (h' a ha).trans (h a ha)

theorem offStack_store (mem : ℕ → BitVec 8) (v : BitVec 64) {n : ℕ} (hn : n ≤ 2 ^ 20) :
    OffStack (L := L) mem (store mem (L.stackBottom - n) n v) := by
  intro a ha
  have hstack := L.stack
  exact store_apart (by omega)

/-- Registers and flags may have changed, and memory of the stack. -/
def Below (L : Layout) (m m' : Machine) : Prop :=
  OffStack (L := L) m.mem m'.mem ∧ m' = { m with regs := m'.regs, eflags := m'.eflags, mem := m'.mem }

theorem Below.trans {m m' m'' : Machine} (h : Below L m m') (h' : Below L m' m'') : Below L m m'' := by
  refine ⟨h.1.trans h'.1, ?_⟩
  rw [h'.2, h.2]

theorem Below.off {m m' : Machine} (h : Below L m m') (hoff : m.cr0.getLsbD 31 = false) :
    m'.cr0.getLsbD 31 = false := by
  rw [h.2]
  exact hoff

theorem Below.of_scratch {m m' : Machine} (h : Scratch m m') : Below L m m' := by
  rw [h]
  exact ⟨fun _ _ => rfl, rfl⟩

theorem readFlags (cpu : Cpu) (addr : ℕ → ℕ) (k : ℕ) (is : List (Instr Label)) {m : Machine}
    (hoff : m.cr0.getLsbD 31 = false) (hrsp : m.regs .rsp = BitVec.ofNat 64 L.stackBottom) :
    ∃ m', Below L m m' ∧ m'.get .w32 .rax = image m.eflags ∧ (∀ r, r ≠ .rax → m'.regs r = m.regs r) ∧
      m'.eflags = m.eflags ∧ run cpu addr k (.pushfd :: .pop .rax :: is) m = run cpu addr (k + 2) is m' := by
  have hstack := L.stack
  have hrun : run cpu addr k (.pushfd :: .pop .rax :: is) m = _ := run_pushfd_pop hoff (by omega) L.low.1 hrsp .rax
  refine ⟨_, ⟨?_, ?_⟩, ?_, ?_, ?_, hrun⟩
  · exact offStack_store m.mem _ (by omega)
  · rfl
  · rw [Machine.get_set, image_trunc]
  · exact fun r hr => if_neg hr
  · rfl

/-- `ID` is flipped, and the flags are written. -/
theorem flipFlags (cpu : Cpu) (addr : ℕ → ℕ) (k : ℕ) (is : List (Instr Label)) {m : Machine}
    (hoff : m.cr0.getLsbD 31 = false) (hrsp : m.regs .rsp = BitVec.ofNat 64 L.stackBottom)
    (hrax : m.get .w32 .rax = image m.eflags) :
    ∃ m', Below L m m' ∧ (image m'.eflags = image m.eflags ↔ cpu.hasCpuid = false) ∧
      (∀ r, r ≠ .rax → m'.regs r = m.regs r) ∧
      run cpu addr k (.alu .xor .w32 .rax (.imm (1 <<< 21)) :: .push .rax :: .popfd :: is) m =
        run cpu addr (k + 3) is m' := by
  have hstack := L.stack
  obtain ⟨x, hx⟩ : ∃ x : BitVec 64, x = image m.eflags ^^^ 0x200000 := ⟨_, rfl⟩
  obtain ⟨m₁, h₁⟩ : ∃ m₁, m₁ = (m.set .w32 .rax x).setFlags cpu false x := ⟨_, rfl⟩
  have hexec : exec cpu (addr (k + 1)) m (.alu .xor .w32 .rax (.imm (1 <<< 21)) : Instr Label) = .next m₁ := by
    rw [exec, hrax, h₁, hx]
    rfl
  have hb₁ : Below L m m₁ := .of_scratch (h₁ ▸ rfl)
  have hrsp₁ : m₁.regs .rsp = BitVec.ofNat 64 L.stackBottom := by
    rw [h₁]
    exact hrsp
  have hget : (m₁.get .w32 .rax).setWidth 32 = x.setWidth 32 := by
    have hset : m₁.get .w32 .rax = Width.w32.trunc x := by
      rw [h₁]
      exact m.get_set .w32 .rax x
    rw [hset, Width.trunc]
    simp
  have hflags : m₁.eflags &&& ~~~cpu.writableFlags = m.eflags &&& ~~~cpu.writableFlags := by
    rw [h₁]
    exact eflags_setFlags (m := m.set .w32 .rax x) false x
  have hrun : run cpu addr (k + 1) (.push .rax :: .popfd :: is) m₁ = _ :=
    run_push_popfd (hb₁.off hoff) (by omega) L.low.1 hrsp₁ .rax
  refine ⟨_, hb₁.trans ⟨?_, ?_⟩, ?_, ?_, (run_next (Machine.translate_off hoff _) hexec).trans hrun⟩
  · exact offStack_store m₁.mem _ (by omega)
  · rfl
  · dsimp only
    rw [hget, hx]
    exact image_flipped hflags
  · intro r hr
    rw [h₁]
    exact if_neg hr

/-- `CPUID` is there if `ID` can be flipped. -/
theorem checkCpuid_run (cpu : Cpu) (addr : ℕ → ℕ) (k : ℕ) {m : Machine} (hoff : m.cr0.getLsbD 31 = false) :
    ∃ m', Below L m m' ∧
      run cpu addr k (checkCpuid L) m = if cpu.hasCpuid then .next m' else .jumped .unsupportedCpu m' := by
  obtain ⟨m₁, h₁⟩ : ∃ m₁, m₁ = m.set .w32 .rsp (addr32 L.stackBottom) := ⟨_, rfl⟩
  have hb₁ : Below L m m₁ := .of_scratch (h₁ ▸ rfl)
  have hrsp₁ : m₁.regs .rsp = BitVec.ofNat 64 L.stackBottom := by
    rw [h₁]
    exact trunc32_ofNat L.low.1
  have hrun₁ : run cpu addr k (checkCpuid L) m = run cpu addr (k + 1) ((checkCpuid L).drop 1) m₁ := by
    rw [h₁]
    exact run_next (Machine.translate_off hoff _) rfl
  obtain ⟨m₂, hb₂, hrax₂, hregs₂, he₂, hrun₂⟩ := readFlags cpu addr (k + 1) ((checkCpuid L).drop 3)
    (hb₁.off hoff) hrsp₁
  have hoff₂ := (hb₁.trans hb₂).off hoff
  -- the flags are kept in `ebx`
  obtain ⟨m₃, h₃⟩ : ∃ m₃, m₃ = m₂.set .w32 .rbx (m₂.get .w32 .rax) := ⟨_, rfl⟩
  have hb₃ : Below L m₂ m₃ := .of_scratch (h₃ ▸ rfl)
  have hrax₃ : m₃.get .w32 .rax = image m₃.eflags := by
    rw [h₃]
    exact hrax₂.trans (congrArg image he₂.symm)
  have hrbx₃ : m₃.get .w32 .rbx = image m₃.eflags := by
    rw [h₃, Machine.get_set, hrax₂, image_trunc]
    exact congrArg image he₂.symm
  have hrsp₃ : m₃.regs .rsp = BitVec.ofNat 64 L.stackBottom := by
    rw [h₃]
    exact (hregs₂ .rsp (by decide)).trans hrsp₁
  have hrun₃ : run cpu addr (k + 3) ((checkCpuid L).drop 3) m₂ = run cpu addr (k + 4) ((checkCpuid L).drop 4) m₃ := by
    rw [h₃]
    exact run_next (Machine.translate_off hoff₂ _) rfl
  have hoff₃ := hb₃.off hoff₂
  obtain ⟨m₅, hb₅, hflip, hregs₅, hrun₅⟩ := flipFlags cpu addr (k + 4) ((checkCpuid L).drop 7) hoff₃ hrsp₃ hrax₃
  have hoff₅ := hb₅.off hoff₃
  obtain ⟨m₆, hb₆, hrax₆, hregs₆, -, hrun₆⟩ := readFlags cpu addr (k + 7) ((checkCpuid L).drop 9) hoff₅
    ((hregs₅ .rsp (by decide)).trans hrsp₃)
  have hrbx₆ : m₆.get .w32 .rbx = image m₃.eflags := by
    rw [Machine.get, hregs₆ .rbx (by decide), hregs₅ .rbx (by decide)]
    exact hrbx₃
  have hg : Goes cpu .unsupportedCpu addr (k + 9) ((checkCpuid L).drop 9) m₆ (cpu.hasCpuid = true) := by
    refine (Goes.cmp (hb₆.off hoff₅) fun _ => .nil).congr ?_
    rw [and_true, Machine.value, hrax₆, hrbx₆, Cond.test, beq_eq_false_iff_ne, ne_eq, hflip, Bool.not_eq_false]
  obtain ⟨m', hs, hend⟩ := hg
  refine ⟨m', hb₁.trans (hb₂.trans (hb₃.trans (hb₅.trans (hb₆.trans (.of_scratch hs))))), ?_⟩
  have hrun : run cpu addr k (checkCpuid L) m = run cpu addr (k + 9) ((checkCpuid L).drop 9) m₆ :=
    calc run cpu addr k (checkCpuid L) m
      _ = run cpu addr (k + 1) ((checkCpuid L).drop 1) m₁ := hrun₁
      _ = run cpu addr (k + 3) ((checkCpuid L).drop 3) m₂ := hrun₂
      _ = run cpu addr (k + 4) ((checkCpuid L).drop 4) m₃ := hrun₃
      _ = run cpu addr (k + 7) ((checkCpuid L).drop 7) m₅ := hrun₅
      _ = run cpu addr (k + 9) ((checkCpuid L).drop 9) m₆ := hrun₆
  rw [hrun]
  rcases hend with ⟨hc, hend⟩ | ⟨hc, hend⟩
  · rw [if_pos hc, hend]
  · rw [if_neg hc, hend]

/-- All checks: they go on exactly on the accepted processors. -/
theorem checks_run (cpu : Cpu) (addr : ℕ → ℕ) (k : ℕ) {m : Machine} (hoff : m.cr0.getLsbD 31 = false) :
    ∃ m', Below L m m' ∧ (Accepted cpu ∧ run cpu addr k (checkCpuid L ++ allChecks) m = .next m' ∨
      ¬ Accepted cpu ∧ run cpu addr k (checkCpuid L ++ allChecks) m = .jumped .unsupportedCpu m') := by
  obtain ⟨m₁, hb₁, hrun₁⟩ := checkCpuid_run (L := L) cpu addr k hoff
  by_cases hc : cpu.hasCpuid = true
  · rw [if_pos hc] at hrun₁
    obtain ⟨m₂, hs, ⟨ha, hrun₂⟩ | ⟨ha, hrun₂⟩⟩ := checks hc addr (k + (checkCpuid L).length) m₁ (hb₁.off hoff)
    · exact ⟨m₂, hb₁.trans (.of_scratch hs), Or.inl ⟨ha, (run_append_next hrun₁).trans hrun₂⟩⟩
    · exact ⟨m₂, hb₁.trans (.of_scratch hs), Or.inr ⟨ha, (run_append_next hrun₁).trans hrun₂⟩⟩
  · rw [if_neg hc] at hrun₁
    exact ⟨m₁, hb₁, Or.inr ⟨fun ha => hc ha.cpuid, run_append_jumped hrun₁⟩⟩

/-! ### Entering 64-bit mode -/

theorem getLsbD_or32 (x : BitVec 64) (v : BitVec 64) (i : ℕ) (hi : i < 32) :
    (applyAll .w32 [(.or, v)] (Width.w32.trunc x)).getLsbD i = (x.getLsbD i || v.getLsbD i) := by
  have hi' : i < 64 := by omega
  simp [applyAll, Width.trunc, Op.apply, hi, hi']

theorem enablePae_leads {addr : ℕ → ℕ} {k : ℕ} {m : Machine} (hf : Fetches cpu addr m) (hcs : m.cs64 = false)
    (hcr4 : cr4Ok cpu m.cr4 = true) (hpae : cpu.supports .pae = true) :
    ∃ v, v.getLsbD 5 = true ∧ cr4Ok cpu v = true ∧ Leads cpu addr k enablePae m { m with cr4 := v } := by
  obtain ⟨v, hv⟩ : ∃ v, v = applyAll .w32 [(.or, 1 <<< 5)] (Width.w32.trunc m.cr4) := ⟨_, rfl⟩
  have hbit : ∀ i < 32, v.getLsbD i = (m.cr4.getLsbD i || (1 <<< 5 : BitVec 64).getLsbD i) := fun i hi => by
    rw [hv, getLsbD_or32 _ _ i hi]
  have hok : cr4Ok cpu v = true := by
    rw [cr4Ok] at hcr4
    rw [cr4Ok, hbit 5 (by omega), hbit 9 (by omega), hbit 10 (by omega), hbit 18 (by omega)]
    simpa [hpae] using hcr4
  have h5 : v.getLsbD 5 = true := by
    rw [hbit 5 (by omega)]
    simp
  refine ⟨v, h5, hok, Leads.updateCr (c := .cr4) (r := .rax) [(.or, 1 <<< 5)] hf ?_ ?_⟩
  · rw [Machine.crWidth, hcs]
    rfl
  · have hmov : movToCr cpu m v .cr4 = some { m with cr4 := v } := if_pos (by rw [hok, h5, Bool.or_true]; rfl)
    rw [← hmov, hv]
    rfl

theorem storeEntry_leads {addr : ℕ → ℕ} {k : ℕ} {m : Machine} (hoff : m.cr0.getLsbD 31 = false) :
    Leads cpu addr k ((loadCr3 L).take 3) m
      { m with mem := store m.mem L.pml4 4 (BitVec.ofNat 64 L.pdpt ||| 3) } := by
  have hlow := L.low
  have hpdpt : Width.w32.trunc (BitVec.ofNat 64 L.pdpt) = BitVec.ofNat 64 L.pdpt := trunc32_ofNat (by omega)
  obtain ⟨m₁, h₁⟩ : ∃ m₁, m₁ = m.set .w32 .rax (addr32 L.pdpt) := ⟨_, rfl⟩
  have hs₁ : Scratch m m₁ := h₁ ▸ rfl
  have hmov : exec cpu (addr (k + 1)) m (.mov .w32 .rax (.imm (addr32 L.pdpt)) : Instr Label) = .next m₁ :=
    congrArg Outcome.next h₁.symm
  obtain ⟨m₂, hs₂, hrax₂, hrun₂⟩ := run_ops cpu addr [(.store L.pml4 .rax : Instr Label)] .w32 .rax [(.or, 0b11)]
    (k + 1) m₁ (.off (hs₁.cr0 ▸ hoff))
  have hs := hs₁.trans hs₂
  have hoff₂ : m₂.cr0.getLsbD 31 = false := hs.cr0 ▸ hoff
  have hentry : m₂.get .w32 .rax = BitVec.ofNat 64 L.pdpt ||| 3 := by
    rw [hrax₂, h₁, Machine.get_set]
    change Width.w32.trunc (Width.w32.trunc (BitVec.ofNat 64 L.pdpt) ||| 3) = _
    rw [hpdpt, Width.trunc, BitVec.setWidth_or, BitVec.setWidth_or]
    exact congrArg₂ _ hpdpt rfl
  have hstore : exec cpu (addr (k + 1 + 1 + 1)) m₂ (.store L.pml4 .rax : Instr Label) =
      .next { m₂ with mem := store m₂.mem L.pml4 4 (BitVec.ofNat 64 L.pdpt ||| 3) } := by
    rw [exec, Machine.access_off hoff₂ _ (by omega), hentry]
    rfl
  refine ⟨_, ?_, (run_next (Machine.translate_off hoff _) hmov).trans (hrun₂.trans
    (run_next (k := k + 1 + 1) (Machine.translate_off hoff₂ _) hstore))⟩
  rw [hs]
  rfl

theorem setCr3_leads {addr : ℕ → ℕ} {k : ℕ} {m : Machine} (hoff : m.cr0.getLsbD 31 = false) (hcs : m.cs64 = false) :
    Leads cpu addr k ((loadCr3 L).drop 3) m { m with cr3 := BitVec.ofNat 64 L.pml4 } := by
  have hlow := L.low
  have hpml4 : Width.w32.trunc (BitVec.ofNat 64 L.pml4) = BitVec.ofNat 64 L.pml4 := trunc32_ofNat (by omega)
  obtain ⟨m₁, h₁⟩ : ∃ m₁, m₁ = m.set .w32 .rax (addr32 L.pml4) := ⟨_, rfl⟩
  have hs : Scratch m m₁ := h₁ ▸ rfl
  have hmov : exec cpu (addr (k + 1)) m (.mov .w32 .rax (.imm (addr32 L.pml4)) : Instr Label) = .next m₁ :=
    congrArg Outcome.next h₁.symm
  have hw : m₁.crWidth = .w32 := by
    rw [hs, Machine.crWidth]
    exact if_neg (hcs ▸ Bool.false_ne_true)
  have hrax : m₁.get .w32 .rax = BitVec.ofNat 64 L.pml4 := by
    rw [h₁, Machine.get_set]
    exact hpml4
  have hcr3 : exec cpu (addr (k + 1 + 1)) m₁ (.movToCr .cr3 .rax : Instr Label) =
      .next { m₁ with cr3 := BitVec.ofNat 64 L.pml4 } := by
    rw [exec, hw, hrax]
    rfl
  refine ⟨_, ?_, (run_next (Machine.translate_off hoff _) hmov).trans
    (run_next (Machine.translate_off (by rw [hs]; exact hoff) _) hcr3)⟩
  rw [hs]
  rfl

theorem efer_leads {addr : ℕ → ℕ} {k : ℕ} {m : Machine} (hoff : m.cr0.getLsbD 31 = false)
    (hmsr : cpu.supports .msr = true) (hlm : cpu.supports .longMode = true) :
    Leads cpu addr k enableIa32e m { m with efer := m.efer ||| 0x100 } := by
  obtain ⟨m₁, h₁⟩ : ∃ m₁, m₁ = m.set .w32 .rcx 0xC0000080 := ⟨_, rfl⟩
  have hs₁ : Scratch m m₁ := h₁ ▸ rfl
  have hoff₁ : m₁.cr0.getLsbD 31 = false := hs₁.cr0 ▸ hoff
  have hmov : exec cpu (addr (k + 1)) m (.mov .w32 .rcx (.imm 0xC0000080) : Instr Label) = .next m₁ :=
    congrArg Outcome.next h₁.symm
  have hrcx₁ : (m₁.regs .rcx).setWidth 32 = eferIndex := by
    rw [h₁]
    rfl
  have hrdmsr : exec cpu (addr (k + 1 + 1)) m₁ (.rdmsr : Instr Label) = .next (m₁.setEdxEax m.efer) := by
    rw [exec, hmsr, hlm, hrcx₁, hs₁]
    rfl
  obtain ⟨m₂, hs₂, hrcx₂, hvalue, hrun₂⟩ := readOr (x := 0x100) (Fetches.off hoff₁) hrdmsr (by decide)
  have hs := hs₁.trans hs₂
  have hoff₂ : m₂.cr0.getLsbD 31 = false := hs.cr0 ▸ hoff
  have hwrmsr : exec cpu (addr (k + 1 + 2 + 1)) m₂ (.wrmsr : Instr Label) =
      .next { m₂ with efer := m.efer ||| 0x100 } := by
    rw [exec, hmsr, hlm, hrcx₂, hrcx₁, hoff₂, hvalue]
    rfl
  refine ⟨_, ?_, (run_next (Machine.translate_off hoff _) hmov).trans (hrun₂.trans
    (run_next (Machine.translate_off hoff₂ _) hwrmsr))⟩
  rw [hs]
  rfl

theorem enablePaging_leads {addr : ℕ → ℕ} {k : ℕ} {m : Machine} (hf : Fetches cpu addr m)
    (hoff : m.cr0.getLsbD 31 = false) (hcs : m.cs64 = false) (hpe : m.cr0.getLsbD 0 = true)
    (hlme : m.efer.getLsbD 8 = true) (hpae : m.cr4.getLsbD 5 = true) :
    ∃ v, v.getLsbD 31 = true ∧
      Leads cpu addr k enablePaging m { m with cr0 := v, efer := m.efer ||| 0x400 } := by
  obtain ⟨v, hv⟩ : ∃ v, v = applyAll .w32 [(.or, 1 <<< 31)] (Width.w32.trunc m.cr0) := ⟨_, rfl⟩
  have hpg : v.getLsbD 31 = true := by
    rw [hv, getLsbD_or32 _ _ 31 (by omega)]
    simp
  have hpe' : v.getLsbD 0 = true := by
    rw [hv, getLsbD_or32 _ _ 0 (by omega), hpe, Bool.true_or]
  refine ⟨v, hpg, Leads.updateCr (c := .cr0) (r := .rax) [(.or, 1 <<< 31)] hf ?_ ?_⟩
  · rw [Machine.crWidth, hcs]
    rfl
  · have hmov : movToCr cpu m v .cr0 = some { m with cr0 := v, efer := m.efer ||| 0x400 } := by
      rw [movToCr, if_pos hpg, hoff, if_neg Bool.false_ne_true, hpe', hlme, hpae, hcs]
      rfl
    rw [← hmov, hv]
    rfl

/-! ### The page tables -/

/-- The page tables, and the table of segments. -/
structure Tables (L : Layout) (mem : ℕ → BitVec 8) : Prop where
  entry : load64 mem L.pml4 = BitVec.ofNat 64 L.pdpt ||| 3
  pages : ∀ i < 4, load64 mem (L.pdpt + 8 * i) = BitVec.ofNat 64 (i * 0x40000000) ||| 0b10000011
  codeSegment : load64 mem (L.gdt64 + 8) = 1 <<< 47 ||| 1 <<< 44 ||| 1 <<< 43 ||| 1 <<< 53
  limit : load16 mem (L.gdt64 + 16) = 15
  base : load32 mem (L.gdt64 + 18) = BitVec.ofNat 32 L.gdt64

/-- The stack is apart from the tables. -/
theorem OffStack.apart {mem mem' : ℕ → BitVec 8} (h : OffStack (L := L) mem mem') {b : ℕ}
    (hb : L.pml4 ≤ b ∧ b < L.pml4 + 4096 ∨ L.pdpt ≤ b ∧ b < L.pdpt + 4096 ∨ L.gdt64 ≤ b ∧ b < L.gdt64 + 26) :
    mem' b = mem b := by
  refine h b fun hs => ?_
  obtain ⟨h₁, h₂, h₃⟩ := L.stack_apart b hs.1 hs.2
  tauto

theorem Tables.off {mem mem' : ℕ → BitVec 8} (ht : Tables L mem) (h : OffStack (L := L) mem mem') :
    Tables L mem' where
  entry := (load64_congr fun b hb hb' => h.apart (by omega)).trans ht.entry
  pages i hi := (load64_congr fun b hb hb' => h.apart (by omega)).trans (ht.pages i hi)
  codeSegment := (load64_congr fun b hb hb' => h.apart (by omega)).trans ht.codeSegment
  limit := (load16_congr fun b hb hb' => h.apart (by omega)).trans ht.limit
  base := (load32_congr fun b hb hb' => h.apart (by omega)).trans ht.base

theorem Loaded.off {mem mem' : ℕ → BitVec 8} (hl : Loaded L mem) (h : OffStack (L := L) mem mem') :
    Loaded L mem' where
  pml4 i hi := (load64_congr fun b hb hb' => h.apart (by omega)).trans (hl.pml4 i hi)
  pdpt i hi := (load64_congr fun b hb hb' => h.apart (by omega)).trans (hl.pdpt i hi)
  codeSegment := (load64_congr fun b hb hb' => h.apart (by omega)).trans hl.codeSegment
  limit := (load16_congr fun b hb hb' => h.apart (by omega)).trans hl.limit
  base := (load64_congr fun b hb hb' => h.apart (by omega)).trans hl.base

/-- The tables are complete once the first entry of the first one is set. -/
theorem Loaded.tables {mem : ℕ → BitVec 8} (hl : Loaded L mem) :
    Tables L (store mem L.pml4 4 (BitVec.ofNat 64 L.pdpt ||| 3)) := by
  have hlow := L.low
  set v := BitVec.ofNat 64 L.pdpt ||| 3 with hv
  have happart : ∀ b, L.pdpt ≤ b ∧ b < L.pdpt + 4096 ∨ L.gdt64 ≤ b ∧ b < L.gdt64 + 26 →
      store mem L.pml4 4 v b = mem b := by
    intro b hb
    by_cases hp : L.pml4 ≤ b ∧ b < L.pml4 + 4096
    · have hap := L.pml4_apart b hp.1 hp.2
      tauto
    · exact store_apart (by omega)
  have hzero := hl.pml4 0 (by omega)
  have hhigh : load32 mem (L.pml4 + 4) = 0 := by
    rw [← extractLsb'_load64]
    exact (congrArg _ hzero).trans BitVec.extractLsb'_zero
  refine ⟨?_, fun i hi => ?_, ?_, ?_, ?_⟩
  · rw [load64, load32_store le_rfl, load32_congr fun b hb _ => store_apart (Or.inr hb), hhigh]
    apply BitVec.eq_of_toNat_eq
    have hlt : v.toNat < 2 ^ 32 := by
      rw [hv, BitVec.toNat_or, BitVec.toNat_ofNat]
      exact Nat.or_lt_two_pow (by omega) (by decide)
    rw [BitVec.toNat_append, BitVec.toNat_setWidth, Nat.mod_eq_of_lt hlt]
    exact Nat.zero_or _
  · rw [load64_congr fun b hb hb' => happart b (by omega), hl.pdpt i (by omega), if_pos hi]
  · rw [load64_congr fun b hb hb' => happart b (by omega), hl.codeSegment]
  · rw [load16_congr fun b hb hb' => happart b (by omega), hl.limit]
  · rw [load32_congr fun b hb hb' => happart b (by omega), ← setWidth_load64, hl.base]
    simp

/-- Paging is on, with these tables. -/
structure Paged (L : Layout) (m : Machine) : Prop where
  enabled : m.cr0.getLsbD 31 = true
  cr3 : m.cr3 = BitVec.ofNat 64 L.pml4
  tables : Tables L m.mem

/-- The address of a table, with flags below it. -/
theorem base_ofNat {a n : ℕ} (ha : 4096 ∣ a) (ha' : a < 2 ^ 32) (hn : n < 2 ^ 12) :
    ((BitVec.ofNat 64 a ||| BitVec.ofNat 64 n) &&& 0xFFFFFFFFFF000).toNat = a := by
  obtain ⟨q, rfl⟩ := ha
  have hconst : ∀ i < 64, (0xFFFFFFFFFF000 : ℕ).testBit i = decide (12 ≤ i ∧ i < 52) := by decide
  have hq : 4096 * q = q <<< 12 := by
    rw [Nat.shiftLeft_eq]
    omega
  rw [BitVec.toNat_and, BitVec.toNat_or, BitVec.toNat_ofNat, BitVec.toNat_ofNat, Nat.mod_eq_of_lt (by omega),
    Nat.mod_eq_of_lt (by omega)]
  refine Nat.eq_of_testBit_eq fun i => ?_
  rw [Nat.testBit_and, Nat.testBit_or]
  by_cases hi : i < 12
  · rw [show (0xFFFFFFFFFF000 : BitVec 64).toNat = 0xFFFFFFFFFF000 from rfl, hconst i (by omega), hq,
      Nat.testBit_shiftLeft]
    have hm : ¬ 12 ≤ i := by omega
    simp [hm]
  · have hn' : n.testBit i = false := Nat.testBit_lt_two_pow (hn.trans_le (Nat.pow_le_pow_right (by omega) (by omega)))
    by_cases hi' : i < 32
    · rw [show (0xFFFFFFFFFF000 : BitVec 64).toNat = 0xFFFFFFFFFF000 from rfl, hconst i (by omega), hn']
      have hm : 12 ≤ i ∧ i < 52 := by omega
      rw [decide_eq_true hm, Bool.or_false, Bool.and_true]
    · have ha : (4096 * q).testBit i = false :=
        Nat.testBit_lt_two_pow (ha'.trans_le (Nat.pow_le_pow_right (by omega) (by omega)))
      rw [ha, hn', Bool.or_false, Bool.false_and]

/-- The first 4 GiB are identity-mapped. -/
theorem Paged.identity {m : Machine} (h : Paged L m) (hp : cpu.supports .page1GB = true) {a : ℕ} (ha : a < 2 ^ 32) :
    m.translate cpu a = some a := by
  have hlow := L.low
  have hi : a / 2 ^ 30 < 4 := by omega
  have h39 : a / 2 ^ 39 % 512 = 0 := by omega
  have h30 : a / 2 ^ 30 % 512 = a / 2 ^ 30 := by omega
  have hcr3 : (m.cr3 &&& 0xFFFFFFFFFF000).toNat = L.pml4 := by
    have hbase := base_ofNat (n := 0) L.pml4_aligned (by omega) (by omega)
    rw [BitVec.or_zero] at hbase
    rw [h.cr3, hbase]
  have hentry : ((BitVec.ofNat 64 L.pdpt ||| 3) &&& 0xFFFFFFFFFF000).toNat = L.pdpt :=
    base_ofNat (n := 3) L.pdpt_aligned (by omega) (by omega)
  have hallowed : allowed (BitVec.ofNat 64 L.pdpt ||| 3) = true := by
    have h63 : (BitVec.ofNat 64 L.pdpt).getLsbD 63 = false := by
      rw [BitVec.getLsbD_ofNat, Nat.testBit_lt_two_pow (by omega), Bool.and_false]
    rw [allowed, BitVec.getLsbD_or, BitVec.getLsbD_or, BitVec.getLsbD_or, h63]
    simp
  have h7 : (BitVec.ofNat 64 L.pdpt ||| 3).getLsbD 7 = false := by
    obtain ⟨q, hq⟩ := L.pdpt_aligned
    have hshift : L.pdpt = q <<< 12 := by
      rw [hq, Nat.shiftLeft_eq, Nat.mul_comm]
    rw [BitVec.getLsbD_or, BitVec.getLsbD_ofNat, hshift, Nat.testBit_shiftLeft]
    simp
  have hpage : ∀ i < 4, allowed (BitVec.ofNat 64 (i * 0x40000000) ||| 0b10000011) = true ∧
      (BitVec.ofNat 64 (i * 0x40000000) ||| 0b10000011).getLsbD 7 = true ∧
      ((BitVec.ofNat 64 (i * 0x40000000) ||| 0b10000011) &&& 0x3FFFE000 == 0) = true ∧
      ((BitVec.ofNat 64 (i * 0x40000000) ||| 0b10000011) &&& 0xFFFFFC0000000).toNat = i * 2 ^ 30 := by decide
  obtain ⟨hallowed', hps, hreserved, hbase⟩ := hpage _ hi
  rw [Machine.translate, if_pos h.enabled]
  dsimp only
  rw [h39, hcr3, Nat.mul_zero, Nat.add_zero, h.tables.entry, hallowed, h7, if_pos (by decide), hentry, h30,
    h.tables.pages _ hi, hallowed', hps, hreserved, hp, hbase]
  simp only [Bool.and_self, if_pos]
  congr 1
  omega

theorem Paged.fetches {m : Machine} (h : Paged L m) (hp : cpu.supports .page1GB = true) (label : Label) :
    Fetches cpu (L.code label) m :=
  fun k => h.identity hp (L.code_low label k)

/-- The state at the label `.64_bit`. -/
structure Long (L : Layout) (cpu : Cpu) (m : Machine) : Prop where
  paged : Paged L m
  cs64 : m.cs64 = true
  longMode : m.longMode = true
  pae : m.cr4.getLsbD 5 = true
  cr4 : cr4Ok cpu m.cr4 = true

theorem loadCodeSegment_jumps {k : ℕ} {m : Machine} (h : Paged L m) (hp : cpu.supports .page1GB = true)
    (hlm : m.longMode = true) :
    run cpu (L.code .start) k (loadCodeSegment L) m =
      .jumped .bits64 { m with gdtr := (L.gdt64, 15), cs64 := true } := by
  have hlow := L.low
  have hf := h.fetches hp .start
  have haccess : ∀ a bytes, L.gdt64 ≤ a → a + bytes ≤ L.gdt64 + 26 → 0 < bytes → m.access cpu a bytes = some a := by
    intro a bytes ha hb hpos
    exact Machine.access_of (fun b _ _ => h.identity hp (by omega)) hpos
  obtain ⟨m₁, h₁⟩ : ∃ m₁, m₁ = { m with gdtr := (L.gdt64, 15) } := ⟨_, rfl⟩
  have hbase : (load32 m.mem (L.gdt64 + 16 + 2)).toNat = L.gdt64 := by
    refine (congrArg _ h.tables.base).trans ?_
    rw [BitVec.toNat_ofNat]
    omega
  have hlgdt : exec cpu (L.code .start (k + 1)) m (.lgdt (L.gdt64 + 16) : Instr Label) = .next m₁ := by
    rw [exec, haccess _ _ (by omega) (by omega) (by omega), Option.map_some, hbase, h.tables.limit, h₁]
    rfl
  have hjump : exec cpu (L.code .start (k + 1 + 1)) m₁ (.farJump 8 .bits64 : Instr Label) =
      .jumped .bits64 { m₁ with cs64 := true } := by
    have haccess₁ : m₁.access cpu (m₁.gdtr.1 + 8 / 8 * 8) 8 = some (L.gdt64 + 8) := by
      rw [h₁]
      exact haccess (L.gdt64 + 8) 8 (by omega) (by omega) (by omega)
    have hdescriptor : load64 m₁.mem (L.gdt64 + 8) = 1 <<< 47 ||| 1 <<< 44 ||| 1 <<< 43 ||| 1 <<< 53 := by
      rw [h₁]
      exact h.tables.codeSegment
    have hlm₁ : m₁.longMode = true := by
      rw [h₁]
      exact hlm
    have hlimit : m₁.gdtr.2 = 15 := by rw [h₁]
    rw [exec, haccess₁]
    dsimp only
    rw [hdescriptor, hlm₁, hlimit]
    exact if_pos (by decide)
  rw [loadCodeSegment, run_next (hf _) hlgdt, run_jumped (by rw [h₁]; exact hf _) hjump, h₁]

/-- The steps turn paging on, with the tables. -/
theorem enableLongMode_run (addr : ℕ → ℕ) (k : ℕ) {m : Machine} (hl : Loaded L m.mem) (hm : Multiboot cpu m)
    (ha : Accepted cpu) : ∃ m', run cpu addr k (enableLongMode L) m = .next m' ∧ Paged L m' ∧ m'.longMode = true ∧
      m'.cr4.getLsbD 5 = true ∧ cr4Ok cpu m'.cr4 = true := by
  obtain ⟨v, hv5, hvok, m₁, hs₁, hrun₁⟩ := enablePae_leads (k := k) (Fetches.off hm.no_paging) hm.cs32 hm.cr4
    (ha.edx .pae (by decide))
  have hoff₁ : m₁.cr0.getLsbD 31 = false := by rw [hs₁]; exact hm.no_paging
  obtain ⟨m₂, hs₂, hrun₂⟩ := storeEntry_leads (L := L) (k := k + enablePae.length) hoff₁
  have h₂ : Scratch { m with cr4 := v, mem := store m.mem L.pml4 4 (BitVec.ofNat 64 L.pdpt ||| 3) } m₂ := by
    rw [Scratch, hs₂, hs₁]
  have hoff₂ : m₂.cr0.getLsbD 31 = false := by rw [h₂]; exact hm.no_paging
  have hcs₂ : m₂.cs64 = false := by rw [h₂]; exact hm.cs32
  obtain ⟨m₃, hs₃, hrun₃⟩ := setCr3_leads (L := L) (k := k + enablePae.length + 3) hoff₂ hcs₂
  have hoff₃ : m₃.cr0.getLsbD 31 = false := by rw [hs₃]; exact hoff₂
  obtain ⟨m₄, hs₄, hrun₄⟩ := efer_leads (k := k + enablePae.length + (loadCr3 L).length) hoff₃
    (ha.edx .msr (by decide)) ha.longMode
  have h₄ : Scratch { m with
      cr4 := v, mem := store m.mem L.pml4 4 (BitVec.ofNat 64 L.pdpt ||| 3), cr3 := BitVec.ofNat 64 L.pml4,
      efer := m.efer ||| 0x100 } m₄ := by
    rw [Scratch, hs₄, hs₃, h₂]
  have hoff₄ : m₄.cr0.getLsbD 31 = false := by rw [h₄]; exact hm.no_paging
  have hcs₄ : m₄.cs64 = false := by rw [h₄]; exact hm.cs32
  have hpe₄ : m₄.cr0.getLsbD 0 = true := by rw [h₄]; exact hm.protected_mode
  have hpae₄ : m₄.cr4.getLsbD 5 = true := by rw [h₄]; exact hv5
  have hlme₄ : m₄.efer.getLsbD 8 = true := by
    rw [h₄, BitVec.getLsbD_or]
    exact Bool.or_true _
  obtain ⟨w, hw, m₅, hs₅, hrun₅⟩ := enablePaging_leads (k := k + enablePae.length + (loadCr3 L).length +
    enableIa32e.length) (Fetches.off hoff₄) hoff₄ hcs₄ hpe₄ hlme₄ hpae₄
  have h₅ : Scratch { m with
      cr4 := v, mem := store m.mem L.pml4 4 (BitVec.ofNat 64 L.pdpt ||| 3), cr3 := BitVec.ofNat 64 L.pml4,
      efer := m.efer ||| 0x100 ||| 0x400, cr0 := w } m₅ := by
    rw [Scratch, hs₅, h₄]
  have hrun : run cpu addr k (enableLongMode L) m = .next m₅ := by
    have hload : run cpu addr (k + enablePae.length) (loadCr3 L) m₁ = .next m₃ := (run_append_next hrun₂).trans hrun₃
    exact (run_append_next hrun₁).trans ((run_append_next hload).trans ((run_append_next hrun₄).trans hrun₅))
  refine ⟨m₅, hrun, ⟨?_, ?_, ?_⟩, ?_, ?_, ?_⟩
  · rw [h₅]
    exact hw
  · rw [h₅]
  · rw [h₅]
    exact hl.tables
  · rw [h₅, Machine.longMode, BitVec.getLsbD_or]
    exact Bool.or_true _
  · rw [h₅]
    exact hv5
  · rw [h₅]
    exact hvok

/-- From `start` on: either the processor is not accepted, or 64-bit mode is entered. -/
theorem start_run {m : Machine} (hl : Loaded L m.mem) (hm : Multiboot cpu m) :
    ∃ m', Accepted cpu ∧ run cpu (L.code .start) 0 (block L .start) m = .jumped .bits64 m' ∧ Long L cpu m' ∨
      ¬ Accepted cpu ∧ run cpu (L.code .start) 0 (block L .start) m = .jumped .unsupportedCpu m' ∧
        m'.cr0.getLsbD 31 = false := by
  obtain ⟨m₁, hb, ⟨ha, hrun⟩ | ⟨ha, hrun⟩⟩ := checks_run (L := L) cpu (L.code .start) 0 hm.no_paging
  case inr => exact ⟨m₁, Or.inr ⟨ha, run_append_jumped hrun, hb.off hm.no_paging⟩⟩
  have hm₁ : Multiboot cpu m₁ := by
    rw [hb.2]
    exact ⟨hm.protected_mode, hm.no_paging, hm.no_longMode, hm.cs32, hm.cr4⟩
  obtain ⟨m₂, hrun₂, hp, hlm, hpae, hcr4⟩ := enableLongMode_run (L := L) (L.code .start)
    (0 + (checkCpuid L ++ allChecks).length) (hl.off hb.1) hm₁ ha
  have hjump := loadCodeSegment_jumps (k := 0 + (checkCpuid L ++ allChecks).length + (enableLongMode L).length) hp
    ha.page1GB hlm
  exact ⟨_, Or.inl ⟨ha, (run_append_next hrun).trans ((run_append_next hrun₂).trans hjump),
    ⟨hp.enabled, hp.cr3, hp.tables⟩, rfl, hlm, hpae, hcr4⟩⟩

/-! ### In 64-bit mode -/

theorem nullSegments_leads {addr : ℕ → ℕ} {k : ℕ} {m : Machine} (hf : Fetches cpu addr m) (hcs : m.cs64 = true) :
    Leads cpu addr k nullSegments m { m with segs := fun _ => 0 } := by
  obtain ⟨m₁, h₁⟩ : ∃ m₁, m₁ = (m.set .w16 .rax 0).setFlags cpu false 0 := ⟨_, rfl⟩
  have hs₁ : Scratch m m₁ := h₁ ▸ rfl
  have hxor : exec cpu (addr (k + 1)) m (.alu .xor .w16 .rax (.reg .rax) : Instr Label) = .next m₁ := by
    rw [exec_xor_self, h₁]
  have hrax : (m₁.regs .rax).setWidth 16 = (0 : BitVec 16) := by
    have hget := congrArg (BitVec.setWidth 16) (m.get_set .w16 .rax 0)
    rw [Machine.get, Width.trunc, Width.trunc] at hget
    rw [h₁]
    simpa using hget
  have hcs₁ : m₁.cs64 = true := by rw [hs₁]; exact hcs
  have hf₁ : Fetches cpu addr m₁ := by rw [hs₁]; exact hf
  have hrun : run cpu addr (k + 1) (nullSegments.drop 1) m₁ = _ :=
    run_nullSegs [.ss, .ds, .es, .fs, .gs] (k + 1) m₁ hf₁ hcs₁ hrax
  refine ⟨_, ?_, (run_next (hf k) hxor).trans hrun⟩
  have hall : (fun s => if s ∈ [Seg.ss, .ds, .es, .fs, .gs] then (0 : BitVec 16) else m₁.segs s) = fun _ => 0 := by
    funext s
    exact if_pos (by cases s <;> decide)
  rw [hall, hs₁]
  rfl

theorem not_or_of {a b c : Bool} (ha : (!a || c) = true) (hb : (!b || c) = true) : (!(a || b) || c) = true := by
  cases a with
  | false => exact hb
  | true => exact ha

/-- Bits of `CR4` are set that the processor supports. -/
theorem cr4Ok_or {x y : BitVec 64} (hx : cr4Ok cpu x = true) (hy : cr4Ok cpu y = true) :
    cr4Ok cpu (x ||| y) = true := by
  rw [cr4Ok, Bool.and_eq_true, Bool.and_eq_true, Bool.and_eq_true] at hx hy ⊢
  obtain ⟨⟨⟨hx₁, hx₂⟩, hx₃⟩, hx₄⟩ := hx
  obtain ⟨⟨⟨hy₁, hy₂⟩, hy₃⟩, hy₄⟩ := hy
  rw [BitVec.getLsbD_or, BitVec.getLsbD_or, BitVec.getLsbD_or, BitVec.getLsbD_or]
  exact ⟨⟨⟨not_or_of hx₁ hy₁, not_or_of hx₂ hy₂⟩, not_or_of hx₃ hy₃⟩, not_or_of hx₄ hy₄⟩

theorem cr4_leads {addr : ℕ → ℕ} {k : ℕ} {m : Machine} (hf : Fetches cpu addr m) (hcs : m.cs64 = true)
    (hpae : m.cr4.getLsbD 5 = true) (hok : cr4Ok cpu m.cr4 = true) {x : BitVec 64} (hx : cr4Ok cpu x = true) :
    Leads cpu addr k ([.movFromCr .rax .cr4, .alu .or .w64 .rax (.imm x), .movToCr .cr4 .rax] : List (Instr Label)) m
      { m with cr4 := m.cr4 ||| x } := by
  refine Leads.updateCr (c := .cr4) (r := .rax) (w := .w64) [(.or, x)] hf ?_ ?_
  · rw [Machine.crWidth, hcs]
    rfl
  · change movToCr cpu m (m.cr4 ||| x) .cr4 = _
    refine if_pos ?_
    rw [cr4Ok_or hok hx, BitVec.getLsbD_or, hpae, Bool.true_or, Bool.or_true]
    rfl

theorem enableFpu_leads {addr : ℕ → ℕ} {k : ℕ} {m : Machine} (hf : Fetches cpu addr m) (hcs : m.cs64 = true)
    (hpg : m.cr0.getLsbD 31 = true) : ∃ v, v.getLsbD 31 = true ∧ v.getLsbD 2 = false ∧ v.getLsbD 1 = true ∧
      Leads cpu addr k enableFpu m { m with cr0 := v } := by
  obtain ⟨v, hv⟩ : ∃ v, v = m.cr0 &&& ~~~((1 : BitVec 64) <<< 2) ||| (1 : BitVec 64) <<< 1 := ⟨_, rfl⟩
  have hpg' : v.getLsbD 31 = true := by
    rw [hv, BitVec.getLsbD_or, BitVec.getLsbD_and, hpg]
    simp
  refine ⟨v, hpg', ?_, ?_, Leads.updateCr (c := .cr0) (r := .rax) (w := .w64)
    [(.and, ~~~(1 <<< 2)), (.or, 1 <<< 1)] hf ?_ ?_⟩
  · rw [hv]
    simp
  · rw [hv]
    simp
  · rw [Machine.crWidth, hcs]
    rfl
  · have hmov : movToCr cpu m v .cr0 = some { m with cr0 := v } := by
      rw [movToCr, if_pos hpg', if_pos hpg]
    rw [← hmov, hv]
    rfl

theorem enableAvx_leads {addr : ℕ → ℕ} {k : ℕ} {m : Machine} (hf : Fetches cpu addr m)
    (hxsave : m.cr4.getLsbD 18 = true) (hsse : cpu.supports .sse = true) (havx : cpu.supports .avx = true) :
    Leads cpu addr k enableAvx m { m with xcr0 := m.xcr0 ||| 7 } := by
  obtain ⟨m₁, h₁⟩ : ∃ m₁, m₁ = (m.set .w64 .rcx 0).setFlags cpu false 0 := ⟨_, rfl⟩
  have hs₁ : Scratch m m₁ := h₁ ▸ rfl
  have hf₁ : Fetches cpu addr m₁ := by rw [hs₁]; exact hf
  have hxor : exec cpu (addr (k + 1)) m (.alu .xor .w64 .rcx (.reg .rcx) : Instr Label) = .next m₁ := by
    rw [exec_xor_self, h₁]
  have hrcx₁ : (m₁.regs .rcx).setWidth 32 = (0 : BitVec 32) := by
    rw [h₁]
    rfl
  have hxsave₁ : m₁.cr4.getLsbD 18 = true := by rw [hs₁]; exact hxsave
  have hxgetbv : exec cpu (addr (k + 1 + 1)) m₁ (.xgetbv : Instr Label) = .next (m₁.setEdxEax m.xcr0) := by
    rw [exec, hxsave₁, hrcx₁, hs₁]
    rfl
  obtain ⟨m₂, hs₂, hrcx₂, hvalue, hrun₂⟩ := readOr (x := 7) hf₁ hxgetbv (by decide)
  have hs := hs₁.trans hs₂
  have hf₂ : Fetches cpu addr m₂ := by rw [hs]; exact hf
  have hxsave₂ : m₂.cr4.getLsbD 18 = true := by rw [hs]; exact hxsave
  have hok : xcr0Ok cpu (m.xcr0 ||| 7) = true := by
    rw [xcr0Ok, hsse, havx]
    simp
  have hxsetbv : exec cpu (addr (k + 1 + 2 + 1)) m₂ (.xsetbv : Instr Label) =
      .next { m₂ with xcr0 := m.xcr0 ||| 7 } := by
    rw [exec, hxsave₂, hrcx₂, hrcx₁, hvalue, hok]
    rfl
  refine ⟨_, ?_, (run_next (hf k) hxor).trans (hrun₂.trans (run_next (hf₂ _) hxsetbv))⟩
  rw [hs]
  rfl

/-- The stack is set, and `_start` is called. -/
theorem callStart_calls {addr : ℕ → ℕ} {k : ℕ} {m : Machine} (hf : Fetches cpu addr m)
    (hid : ∀ a < 2 ^ 32, m.translate cpu a = some a) : ∃ m', run cpu addr k (callStart L) m = .called .entry m' ∧
      Below L m m' ∧ (m'.regs .rsp).toNat + 8 = L.stackBottom := by
  have hstack := L.stack
  have hlow := L.low.1
  obtain ⟨m₁, h₁⟩ : ∃ m₁, m₁ = m.set .w32 .rsp (addr32 L.stackBottom) := ⟨_, rfl⟩
  have hs₁ : Scratch m m₁ := h₁ ▸ rfl
  have hf₁ : Fetches cpu addr m₁ := by rw [hs₁]; exact hf
  have hmov : exec cpu (addr (k + 1)) m (.mov .w32 .rsp (.imm (addr32 L.stackBottom)) : Instr Label) = .next m₁ :=
    congrArg Outcome.next h₁.symm
  have hrsp : m₁.regs .rsp = BitVec.ofNat 64 L.stackBottom := by
    rw [h₁]
    exact trunc32_ofNat hlow
  obtain ⟨m₂, h₂⟩ : ∃ m₂, m₂ = m₁.set .w64 .rsp (BitVec.ofNat 64 (L.stackBottom - 8)) := ⟨_, rfl⟩
  have hrsp₂ : m₂.regs .rsp = BitVec.ofNat 64 (L.stackBottom - 8) := by
    rw [h₂]
    exact m₁.get_set .w64 .rsp _
  have haddr : (BitVec.ofNat 64 (L.stackBottom - 8)).toNat = L.stackBottom - 8 := by
    rw [BitVec.toNat_ofNat]
    omega
  have haccess : m₂.access cpu (L.stackBottom - 8) 8 = some (L.stackBottom - 8) := by
    refine Machine.access_of (fun b _ hb => ?_) (by omega)
    rw [h₂, hs₁]
    exact hid b (by omega)
  obtain ⟨v, hv⟩ : ∃ v, v = BitVec.ofNat 64 (addr (k + 1 + 1)) := ⟨_, rfl⟩
  have hpush : m₁.pushBytes cpu .w64 8 v = some { m₂ with mem := store m₂.mem (L.stackBottom - 8) 8 v } := by
    have htop : m₁.get .w64 .rsp - BitVec.ofNat 64 8 = BitVec.ofNat 64 (L.stackBottom - 8) := by
      rw [Machine.get, Width.trunc, hrsp, BitVec.ofNat_sub_ofNat_of_le _ _ (by omega) (by omega)]
    have hget : m₂.get .w64 .rsp = BitVec.ofNat 64 (L.stackBottom - 8) := hrsp₂
    simp only [Machine.pushBytes, htop, ← h₂, hget, haddr, haccess, Option.bind_eq_bind, Option.bind_some,
      Option.pure_def]
  have hcall : exec cpu (addr (k + 1 + 1)) m₁ (.call .entry : Instr Label) =
      .called .entry { m₂ with mem := store m₂.mem (L.stackBottom - 8) 8 v } := by
    rw [exec, ← hv, hpush]
  refine ⟨{ m₂ with mem := store m₂.mem (L.stackBottom - 8) 8 v }, ?_, ⟨?_, ?_⟩, ?_⟩
  · rw [callStart, run_next (hf k) hmov, run, if_pos (hf₁ _), hcall]
  · have hmem : m₂.mem = m.mem := by
      rw [h₂, hs₁]
      rfl
    rw [← hmem]
    exact offStack_store m₂.mem v (by omega)
  · rw [h₂, hs₁]
    rfl
  · rw [hrsp₂, haddr]
    omega

/-- The segments, SSE and AVX. -/
theorem modes_run {m : Machine} (ha : Accepted cpu) (h : Long L cpu m) :
    ∃ v m', v.getLsbD 31 = true ∧ v.getLsbD 2 = false ∧ v.getLsbD 1 = true ∧
      Scratch { m with
        segs := fun _ => 0, cr4 := m.cr4 ||| (1 <<< 9 ||| 1 <<< 10) ||| 1 <<< 18, cr0 := v, xcr0 := m.xcr0 ||| 7 } m' ∧
      run cpu (L.code .bits64) 0 (nullSegments ++ (enableSse ++ (enableFpu ++ (enableXsave ++ enableAvx)))) m =
        .next m' := by
  have hsse : cpu.supports .sse = true := ha.edx .sse (by decide)
  have hok₉ : cr4Ok cpu (1 <<< 9 ||| 1 <<< 10) = true := by
    rw [cr4Ok, ha.edx .fxsr (by decide), hsse]
    simp
  have hok₁₈ : cr4Ok cpu (1 <<< 18) = true := by
    rw [cr4Ok, ha.ecx .xsave (by decide)]
    simp
  have hfetches : ∀ {n : Machine}, Paged L n → Fetches cpu (L.code .bits64) n := fun hp =>
    hp.fetches ha.page1GB .bits64
  obtain ⟨m₁, hs₁, hrun₁⟩ := nullSegments_leads (k := 0) (hfetches h.paged) h.cs64
  have hp₁ : Paged L m₁ := by rw [hs₁]; exact ⟨h.paged.enabled, h.paged.cr3, h.paged.tables⟩
  have hcs₁ : m₁.cs64 = true := by rw [hs₁]; exact h.cs64
  have hpae₁ : m₁.cr4.getLsbD 5 = true := by rw [hs₁]; exact h.pae
  have hcr₁ : cr4Ok cpu m₁.cr4 = true := by rw [hs₁]; exact h.cr4
  obtain ⟨m₂, hs₂, hrun₂⟩ := cr4_leads (k := 0 + nullSegments.length) (hfetches hp₁) hcs₁ hpae₁ hcr₁ hok₉
  have hp₂ : Paged L m₂ := by rw [hs₂]; exact ⟨hp₁.enabled, hp₁.cr3, hp₁.tables⟩
  have hcs₂ : m₂.cs64 = true := by rw [hs₂]; exact hcs₁
  obtain ⟨v, hv31, hv2, hv1, m₃, hs₃, hrun₃⟩ := enableFpu_leads (k := 0 + nullSegments.length + enableSse.length)
    (hfetches hp₂) hcs₂ hp₂.enabled
  have hp₃ : Paged L m₃ := by rw [hs₃]; exact ⟨hv31, hp₂.cr3, hp₂.tables⟩
  have hcs₃ : m₃.cs64 = true := by rw [hs₃]; exact hcs₂
  have hcr4₃ : m₃.cr4 = m₁.cr4 ||| (1 <<< 9 ||| 1 <<< 10) := by rw [hs₃, hs₂]
  have hpae₃ : m₃.cr4.getLsbD 5 = true := by rw [hcr4₃, BitVec.getLsbD_or, hpae₁, Bool.true_or]
  have hcr₃ : cr4Ok cpu m₃.cr4 = true := by rw [hcr4₃]; exact cr4Ok_or hcr₁ hok₉
  obtain ⟨m₄, hs₄, hrun₄⟩ := cr4_leads (k := 0 + nullSegments.length + enableSse.length + enableFpu.length)
    (hfetches hp₃) hcs₃ hpae₃ hcr₃ hok₁₈
  have hp₄ : Paged L m₄ := by rw [hs₄]; exact ⟨hp₃.enabled, hp₃.cr3, hp₃.tables⟩
  have hxsave₄ : m₄.cr4.getLsbD 18 = true := by
    rw [hs₄, BitVec.getLsbD_or]
    exact Bool.or_true _
  obtain ⟨m₅, hs₅, hrun₅⟩ := enableAvx_leads (k := 0 + nullSegments.length + enableSse.length + enableFpu.length +
    enableXsave.length) (hfetches hp₄) hxsave₄ hsse (ha.ecx .avx (by decide))
  refine ⟨v, m₅, hv31, hv2, hv1, ?_, (run_append_next hrun₁).trans ((run_append_next hrun₂).trans
    ((run_append_next hrun₃).trans ((run_append_next hrun₄).trans hrun₅)))⟩
  rw [Scratch, hs₅, hs₄, hs₃, hs₂, hs₁]

/-- From `.64_bit` on: `_start` is called with all that is promised. -/
theorem bits64_run {m : Machine} (ha : Accepted cpu) (h : Long L cpu m) :
    ∃ m', run cpu (L.code .bits64) 0 (block L .bits64) m = .called .entry m' ∧ Ready L cpu m' := by
  obtain ⟨v, m₁, hv31, hv2, hv1, hs₁, hrun₁⟩ := modes_run ha h
  have hp₁ : Paged L m₁ := by rw [hs₁]; exact ⟨hv31, h.paged.cr3, h.paged.tables⟩
  obtain ⟨m₂, hcall, hb, hrsp⟩ := callStart_calls (L := L) (k := 0 + (nullSegments ++ (enableSse ++ (enableFpu ++
    (enableXsave ++ enableAvx)))).length) (hp₁.fetches ha.page1GB .bits64) fun a ha' => hp₁.identity ha.page1GB ha'
  have h₂ : m₂ = { m with
      segs := fun _ => 0, cr4 := m.cr4 ||| (1 <<< 9 ||| 1 <<< 10) ||| 1 <<< 18, cr0 := v, xcr0 := m.xcr0 ||| 7,
      regs := m₂.regs, eflags := m₂.eflags, mem := m₂.mem } := by
    rw [hb.2, hs₁]
  have hp₂ : Paged L m₂ := by
    rw [hb.2]
    exact ⟨hp₁.enabled, hp₁.cr3, hp₁.tables.off hb.1⟩
  have h7 : ∀ i < 3, (7 : BitVec 64).getLsbD i = true := by decide
  refine ⟨m₂, (run_append_next hrun₁).trans hcall, ?_⟩
  constructor
  case cs64 => rw [h₂]; exact h.cs64
  case longMode => rw [h₂]; exact h.longMode
  case nullSegments => rw [h₂]; exact fun _ => rfl
  case identity => exact fun a ha' => hp₂.identity ha.page1GB ha'
  case sse =>
    rw [h₂]
    exact ⟨by simp, by simp, hv2, hv1⟩
  case avx =>
    rw [h₂]
    refine ⟨by simp, fun i hi => ?_⟩
    rw [BitVec.getLsbD_or, h7 i hi, Bool.or_true]
  case stack => exact ⟨hrsp, L.stack_aligned, L.stack⟩

/-- The features that the file lists. -/
def documented : List Feature := [.longMode, .mmx, .sse, .sse2, .sse3, .ssse3, .sse41, .sse42, .popcnt, .avx, .aesni,
  .pclmulqdq, .fsgsbase, .rdrand, .f16c, .cmpxchg16b, .fpu, .fxsr, .pae, .page1GB, .tsc, .invariantTsc, .msr]

/-- All of the features that the file lists are checked, but `FSGSBASE` if there is no leaf 7. -/
theorem Accepted.supports_iff (h : Accepted cpu) {f : Feature} (hf : f ∈ documented) :
    cpu.supports f = true ↔ (f = .fsgsbase → 7 ≤ cpu.maxBasic) := by
  by_cases hfs : f = .fsgsbase
  · subst hfs
    rw [imp_iff_right rfl]
    constructor
    · intro hs
      rw [Cpu.supports, Bool.and_eq_true, decide_eq_true_iff] at hs
      rcases hs.1 with h7 | h7 | h7
      · exact h7.2
      · exact absurd h7 (by decide)
      · exact absurd h7.1 (by decide)
    · intro h7
      have hhas : cpu.Has 7 := Or.inl ⟨by decide, h7⟩
      have hbit := h.fsgsbase
      rw [Cpu.cpuid, if_pos hhas] at hbit
      rw [supports_of_has hhas]
      exact hbit
  · have hall : ∀ f ∈ documented, f ≠ .fsgsbase →
        f = .longMode ∨ f = .page1GB ∨ f = .invariantTsc ∨ f ∈ ecxFeatures ∨ f ∈ edxFeatures := by decide
    refine iff_of_true ?_ fun hf => absurd hf hfs
    rcases hall f hf hfs with rfl | rfl | rfl | hf | hf
    · exact h.longMode
    · exact h.page1GB
    · exact h.tsc
    · exact h.ecx f hf
    · exact h.edx f hf

/-- **The outcomes of starting.** The processor is halted or `_start` is called, and is then in the promised state;
no exception is raised. It is called exactly on the accepted processors, and these have all features that the file
lists, but for `FSGSBASE`, which they have if they have the leaf 7 that it is read from. -/
theorem boot_outcomes {m : Machine} (hl : Loaded L m.mem) (hm : Multiboot cpu m) :
    (boot L cpu m = some .halts ∧ ¬ Accepted cpu ∨
      ∃ m', boot L cpu m = some (.starts m') ∧ Ready L cpu m' ∧ Accepted cpu) ∧
      (Accepted cpu → ∀ f ∈ documented, cpu.supports f = true ↔ (f = .fsgsbase → 7 ≤ cpu.maxBasic)) := by
  refine ⟨?_, fun ha f hf => ha.supports_iff hf⟩
  obtain ⟨m₁, ⟨ha, hrun, hlong⟩ | ⟨ha, hrun, hoff⟩⟩ := start_run (L := L) hl hm
  · obtain ⟨m₂, hrun₂, hready⟩ := bits64_run ha hlong
    refine Or.inr ⟨m₂, ?_, hready, ha⟩
    rw [boot, bootFrom, hrun]
    dsimp only
    rw [bootFrom, hrun₂]
  · refine Or.inl ⟨?_, ha⟩
    have hhlt : run cpu (L.code .unsupportedCpu) 0 (block L .unsupportedCpu) m₁ = .halted := by
      rw [block, run, if_pos (Machine.translate_off hoff _)]
      rfl
    rw [boot, bootFrom, hrun]
    dsimp only
    rw [bootFrom, hhlt]

/-- A processor whose last leaf is 4, of which the bit of `FSGSBASE` is read. -/
def demoCpu : Cpu where
  hasCpuid := true
  leaf eax _ := ⟨if eax = 0 then 4 else if eax = 0x80000000 then 0x80000008 else 0xFFFFFFFF, 0xFFFFFFFF, 0xFFFFFFFF,
    0xFFFFFFFF⟩
  otherFlags _ := 0
  leaf_plain _ _ _ := rfl

def demoLayout : Layout where
  stackTop := 0x100000
  stackBottom := 0x200000
  pml4 := 0x201000
  pdpt := 0x202000
  gdt64 := 0x203000
  code label k := (match label with
    | .start => 0x204000
    | .unsupportedCpu => 0x205000
    | .bits64 => 0x206000
    | .entry => 0x207000) + 8 * (k % 64)
  stack := by decide
  stack_aligned := by decide
  pml4_aligned := by decide
  pdpt_aligned := by decide
  low := by decide
  code_low label k := by cases label <;> dsimp only <;> omega
  stack_apart a _ _ := by omega
  pml4_apart a _ _ := by omega

/-- The sections in memory. -/
def demoMem : ℕ → BitVec 8 :=
  [(0x202000, 8, 0b10000011), (0x202008, 8, 0x40000083), (0x202010, 8, 0x80000083), (0x202018, 8, 0xC0000083),
    (0x203008, 8, 0x20980000000000), (0x203010, 2, 15), (0x203012, 8, 0x203000)].foldl
    (fun mem s => store mem s.1 s.2.1 s.2.2) fun _ => 0

def demoMachine : Machine where
  regs _ := 0
  eflags := 2
  cr0 := 0x11
  cr3 := 0
  cr4 := 0
  efer := 0
  xcr0 := 1
  gdtr := (0, 0)
  cs64 := false
  segs _ := 16
  mem := demoMem

theorem demoMem_zero {b : ℕ} (h : b < 0x202000 ∨ 0x202020 ≤ b ∧ b < 0x203008) : demoMem b = 0 := by
  simp only [demoMem, List.foldl, store]
  iterate 7 rw [if_neg (by omega)]

theorem load64_zero (a : ℕ) : load64 (fun _ => 0) a = 0 := by
  simp [load64, load32, load16]

theorem loaded_demo : Loaded demoLayout demoMem where
  pml4 i hi := by
    have hpml4 : demoLayout.pml4 = 0x201000 := rfl
    rw [load64_congr fun b hb hb' => demoMem_zero (by omega), load64_zero]
  pdpt i hi := by
    have hpdpt : demoLayout.pdpt = 0x202000 := rfl
    by_cases h4 : i < 4
    · have hall : ∀ i < 4, load64 demoMem (demoLayout.pdpt + 8 * i) =
          BitVec.ofNat 64 (i * 0x40000000) ||| 0b10000011 := by decide +kernel
      rw [hall i h4, if_pos h4]
    · rw [load64_congr fun b hb hb' => demoMem_zero (by omega), load64_zero, if_neg h4]
  codeSegment := by decide +kernel
  limit := by decide +kernel
  base := by decide +kernel

theorem accepted_demo : Accepted demoCpu where
  cpuid := rfl
  leaves := by decide
  extendedLeaves := by decide
  longMode := by decide
  page1GB := by decide
  ecx := by decide
  edx := by decide
  fsgsbase := by decide
  tsc := by decide

/-- The theorem at a processor without `FSGSBASE`, which is started. -/
theorem boot_outcomes_demo : demoCpu.supports .fsgsbase = false ∧
    ∃ m', boot demoLayout demoCpu demoMachine = some (.starts m') ∧ Ready demoLayout demoCpu m' := by
  have hm : Multiboot demoCpu demoMachine := ⟨rfl, rfl, rfl, rfl, by decide⟩
  have houtcomes := boot_outcomes loaded_demo hm
  refine ⟨by decide, ?_⟩
  obtain ⟨-, hno⟩ | ⟨m', hstart, hready, -⟩ := houtcomes.1
  · exact absurd accepted_demo hno
  · exact ⟨m', hstart, hready⟩

end Boot
end Klint
