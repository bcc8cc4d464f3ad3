/-
# Where the descriptor rings are

The start-up of TinyNF with the allocator of the OS, and with NICs that answer
whatever they want.

The NIC wants rings at multiples of 128 and the comments say that the
initialization guarantees it, but `descriptor_ring_alloc` asks for 16-byte objects,
which are aligned to 64. All rings of a run are at the same distance from a multiple
of 128 (`boot_keeps`), and that depends on the number of devices: `ring_aligned_iff`.
-/
import Klint.Net.IxgbeStart
import Klint.Os.MemoryAlloc

namespace Klint
namespace Ixgbe

open Bump (alignUp)
open Halting

/-- What the start-up has done: `memory_used_len`, and the physical addresses of
rings written to the NICs. -/
structure Startup where
  used : ℕ
  written : List (BaseRegister × ℕ)

/-- What the start-up runs on: the base of the memory, its physical addresses, and
what the checks of the NICs' registers give, for each device and queue. -/
structure Machine where
  memory : ℕ
  virtToPhys : ℕ → ℕ
  /-- `tn_device_init` returns. -/
  deviceInit : ℕ → Bool
  /-- TXDCTL.ENABLE is clear. -/
  txFree : ℕ → ℕ → Bool
  /-- TXDCTL.ENABLE is set in time. -/
  txEnables : ℕ → ℕ → Bool
  /-- RXDCTL.ENABLE is clear. -/
  rxFree : ℕ → Bool
  /-- RXDCTL.ENABLE is set in time, and the receive path halts for it. -/
  rxEnables : ℕ → Bool

def memoryAlloc (env : Machine) (count size : ℕ) : Halting Startup ℕ := fun s =>
  ((osMemoryAlloc env.memory s.used count size).1, { s with used := (osMemoryAlloc env.memory s.used count size).2 })

def writeBase (env : Machine) (register : BaseRegister) (ring : ℕ) : Halting Startup Unit :=
  modify fun s => { s with written := s.written ++ [(register, env.virtToPhys ring)] }

def Machine.platform (env : Machine) : Platform Startup where
  fatal := fun _ s => s
  memoryAlloc := memoryAlloc env
  virtToPhys := env.virtToPhys
  deviceInit := fun n => require (env.deviceInit n) id
  writeBase := writeBase env
  txFree := fun device queue => pure (env.txFree device queue)
  txEnable := fun device queue => pure (env.txEnables device queue)
  rxFree := fun device => pure (env.rxFree device)
  rxEnable := fun device => pure (env.rxEnables device)
  storeTail := fun _ _ _ => pure ()

/-- The allocations up to the end of `nf_init`. -/
def nfAllocs (env : Machine) (requests : List AllocRequest) : Halting Startup Unit :=
  requests.foldlM (fun _ r => do
    let _ ← memoryAlloc env r.count.toNat r.size.toNat
    return ()) ()

/-- `main` up to `tn_run`. -/
def boot (env : Machine) (requests : List AllocRequest) (devicesCount : ℕ) : Halting Startup (List Agent) := do
  nfAllocs env requests
  start env.platform devicesCount

/-- The ring addresses that a start-up writes, whether it gets to its end or halts. -/
def ringsWritten (env : Machine) (requests : List AllocRequest) (devicesCount : ℕ) : List (BaseRegister × ℕ) :=
  (boot env requests devicesCount { used := 0, written := [] }).2.written

/-! ### The distance of the rings from a multiple of 128 -/

/-- Every ring so far is as far from a multiple of 128 as the outputs' heads are
long. -/
structure Good (outputs : ℕ) (s : Startup) : Prop where
  used : s.used ≤ osMemorySize
  written : ∀ w ∈ s.written, w.2 % 128 = 64 * outputs % 128

/-- So will the next ring be. -/
def NextRing (env : Machine) (outputs : ℕ) (s : Startup) : Prop :=
  alignUp (env.memory + s.used) 64 % 128 = 64 * outputs % 128

/-- And so are those that the agent has. -/
def RingsOk (outputs : ℕ) (agent : Agent) : Prop :=
  ∀ k, (agent.transmitTails k).isSome → agent.rings k % 128 = 64 * outputs % 128

variable {env : Machine} {m : ℕ} {s : Startup}

theorem keeps_check {b : Bool} {f : Fatal} {Q : Unit → Startup → Prop} (h : Good m s) (hq : b = true → Q () s) :
    Keeps (Good m) (Good m) (check env.platform b f) Q s :=
  keeps_require h (fun _ => h) hq

theorem memoryAlloc_keeps (hmem : env.memory + osMemorySize ≤ sizeMax) (h : Good m s) (count size : ℕ) :
    Keeps (Good m) (Good m) (memoryAlloc env count size) (fun addr s' =>
      addr = alignUp (env.memory + s.used) (alignDiv size) ∧
        env.memory + s'.used = addr + size * count % 2 ^ 64) s := by
  obtain ⟨used', -, hle, ⟨-, he, hfinish⟩ | ⟨-, he⟩⟩ := osMemoryAlloc_cases hmem h.used count size
  · refine ⟨fun addr ha => ?_, fun hc => ?_⟩
    · rw [memoryAlloc, he] at ha ⊢
      cases ha
      exact ⟨⟨hle, h.written⟩, rfl, hfinish⟩
    · rw [memoryAlloc, he] at hc
      cases hc
  · refine ⟨fun addr ha => ?_, fun _ => ?_⟩
    · rw [memoryAlloc, he] at ha
      cases ha
    · rw [memoryAlloc, he]
      exact ⟨hle, h.written⟩

/-- The physical address of a ring is as far from a multiple of 128. -/
theorem writeBase_keeps (hphys : ∀ a, env.virtToPhys a % 4096 = a % 4096) (h : Good m s) {Q : Unit → Startup → Prop}
    (register : BaseRegister) {ring : ℕ} (hring : ring % 128 = 64 * m % 128)
    (hq : ∀ s', Good m s' → s'.used = s.used → Q () s') :
    Keeps (Good m) (Good m) (writeBase env register ring) Q s := by
  have hgood : Good m { s with written := s.written ++ [(register, env.virtToPhys ring)] } := by
    refine ⟨h.used, fun w hw => ?_⟩
    rcases List.mem_append.mp hw with hw | hw
    · exact h.written w hw
    · rw [List.mem_singleton.mp hw]
      have := hphys ring
      simp only
      omega
  exact keeps_modify hgood (hq _ hgood rfl)

/-- A ring is 4096 bytes at the next multiple of 64. -/
theorem addOutput_keeps (hmem : env.memory + osMemorySize ≤ sizeMax)
    (hphys : ∀ a, env.virtToPhys a % 4096 = a % 4096) (h : Good m s) (hnext : NextRing env m s) {agent : Agent}
    (hrings : RingsOk m agent) (inputIndex device outputIndex queueIndex : ℕ) :
    Keeps (Good m) (Good m) (tnAgentAddOutput env.platform inputIndex agent device outputIndex queueIndex)
      (fun agent s' => NextRing env m s' ∧ RingsOk m agent) s := by
  unfold tnAgentAddOutput
  refine keeps_bind (keeps_check h fun _ => keeps_bind (keeps_check h fun _ => keeps_bind (keeps_pure h
    (keeps_bind (keeps_check h fun _ => keeps_bind ((memoryAlloc_keeps hmem h _ _).mono ?_))))))
  rintro ring s₁ h₁ ⟨hring, hend⟩
  have hres : ring % 128 = 64 * m % 128 := hring ▸ hnext
  have hnext₁ : NextRing env m s₁ := by
    have h64 : ring % 64 = 0 := by omega
    unfold NextRing
    rw [hend, Bump.alignUp_of_dvd (Nat.dvd_of_mod_eq_zero (by rw [ringSize]; omega)), ringSize]
    omega
  refine keeps_bind (writeBase_keeps hphys h₁ _ hres fun s₂ h₂ hused => keeps_bind (keeps_check h₂ fun _ =>
    keeps_bind (keeps_pure h₂ (keeps_bind (keeps_check h₂ fun _ => keeps_bind (keeps_pure h₂
      (keeps_pure h₂ ⟨?_, fun k hk => ?_⟩)))))))
  · unfold NextRing
    rw [hused]
    exact hnext₁
  · by_cases hko : k = outputIndex
    · subst hko
      simp only [Function.update_self]
      exact hres
    · simp only [Function.update_of_ne hko] at hk ⊢
      exact hrings k hk

theorem setInput_keeps (hphys : ∀ a, env.virtToPhys a % 4096 = a % 4096) (h : Good m s) {agent : Agent}
    (hrings : RingsOk m agent) (device : ℕ) :
    Keeps (Good m) (Good m) (tnAgentSetInput env.platform agent device) (fun _ _ => True) s := by
  unfold tnAgentSetInput
  exact keeps_bind (keeps_check h fun _ => keeps_bind (keeps_check h fun hused => keeps_bind (keeps_pure h
    (keeps_bind (keeps_check h fun _ => keeps_bind (writeBase_keeps hphys h _ (hrings 0 hused) fun s₁ h₁ _ =>
      keeps_bind (keeps_pure h₁ (keeps_bind (keeps_check h₁ fun _ => keeps_pure h₁ trivial)))))))))

/-- The heads are at a multiple of 128; the two arrays of pointers after them, in whole cache lines, have the same
length. -/
theorem nextRing_of_allocs {x heads rings tails length : ℕ} {s₃ s₄ s₅ : Startup} (hheads : heads = alignUp x 128)
    (h₃ : env.memory + s₃.used = heads + 64 * m % 2 ^ 64) (hrings : rings = alignUp (env.memory + s₃.used) 64)
    (h₄ : env.memory + s₄.used = rings + length) (htails : tails = alignUp (env.memory + s₄.used) 64)
    (h₅ : env.memory + s₅.used = tails + length) : NextRing env m s₅ := by
  obtain ⟨k, hk⟩ := Bump.dvd_alignUp (by decide : 0 < 128) x
  obtain ⟨j, hj⟩ := Bump.dvd_alignUp (by decide : 0 < 64) length
  have hline : 64 ∣ env.memory + s₃.used := Nat.dvd_of_mod_eq_zero (by omega)
  rw [Bump.alignUp_of_dvd hline] at hrings
  rw [h₄, hrings, Bump.alignUp_add hline] at htails
  have hline' : 64 ∣ tails := Nat.dvd_of_mod_eq_zero (by omega)
  rw [NextRing, h₅, Bump.alignUp_add hline']
  omega

theorem agentInit_keeps (hmem : env.memory + osMemorySize ≤ sizeMax)
    (hphys : ∀ a, env.virtToPhys a % 4096 = a % 4096) {n : ℕ} (h : Good (n - 1) s) (inputIndex : ℕ) :
    Keeps (Good (n - 1)) (Good (n - 1)) (tnAgentInit env.platform inputIndex n) (fun _ _ => True) s := by
  unfold tnAgentInit
  refine keeps_bind (keeps_check h fun _ => keeps_bind (keeps_check h fun _ => keeps_bind
    (keeps_check h fun _ => keeps_bind ((memoryAlloc_keeps hmem h _ _).mono ?_))))
  rintro buffer s₁ h₁ -
  refine keeps_bind ((memoryAlloc_keeps hmem h₁ _ _).mono ?_)
  rintro lengths s₂ h₂ -
  refine keeps_bind ((memoryAlloc_keeps hmem h₂ _ _).mono ?_)
  rintro heads s₃ h₃ ⟨hheads, hend₃⟩
  refine keeps_bind ((memoryAlloc_keeps hmem h₃ _ _).mono ?_)
  rintro rings s₄ h₄ ⟨hrings, hend₄⟩
  refine keeps_bind ((memoryAlloc_keeps hmem h₄ _ _).mono ?_)
  rintro tails s₅ h₅ ⟨htails, hend₅⟩
  have hnext := nextRing_of_allocs hheads hend₃ hrings hend₄ htails hend₅
  refine keeps_bind (Keeps.mono (keeps_foldlM (Q := fun agent s => NextRing env (n - 1) s ∧ RingsOk (n - 1) agent) _
    (fun agent device _ s₆ h₆ hq => ?_) h₅ ⟨hnext, fun k hk => by cases hk⟩) fun agent s₆ h₆ hq =>
      setInput_keeps hphys h₆ hq.2 _)
  by_cases hd : device ≠ inputIndex
  · simp only [if_pos hd]
    exact addOutput_keeps hmem hphys h₆ hq.1 hq.2 _ _ _ _
  · simp only [if_neg hd]
    exact keeps_pure h₆ hq

/-- Wherever the start-up ends, the rings it has told the NICs of are equally far from a multiple of 128. -/
theorem boot_keeps (hmem : env.memory + osMemorySize ≤ sizeMax) (hphys : ∀ a, env.virtToPhys a % 4096 = a % 4096)
    (requests : List AllocRequest) {n : ℕ} (h : Good (n - 1) s) :
    Keeps (Good (n - 1)) (Good (n - 1)) (boot env requests n) (fun _ _ => True) s := by
  have hallocs : Keeps (Good (n - 1)) (Good (n - 1)) (nfAllocs env requests) (fun _ _ => True) s := by
    refine keeps_foldlM _ (fun _ r _ s₁ h₁ _ => ?_) h trivial
    exact keeps_bind ((memoryAlloc_keeps hmem h₁ _ _).mono fun _ _ h₂ _ => keeps_pure h₂ trivial)
  refine keeps_bind (hallocs.mono fun _ s₁ h₁ _ => ?_)
  unfold start
  refine keeps_bind ((memoryAlloc_keeps hmem h₁ _ _).mono fun _ s₂ h₂ _ => ?_)
  refine keeps_bind ((memoryAlloc_keeps hmem h₂ _ _).mono fun _ s₃ h₃ _ => ?_)
  refine keeps_bind ((memoryAlloc_keeps hmem h₃ _ _).mono fun _ s₄ h₄ _ => ?_)
  refine keeps_bind ((keeps_foldlM (Q := fun _ _ => True) _ (fun _ _ _ s₅ h₅ _ =>
    keeps_require h₅ (fun _ => h₅) fun _ => trivial)
    h₄ trivial).mono fun _ s₅ h₅ _ => ?_)
  refine keeps_bind ((memoryAlloc_keeps hmem h₅ _ _).mono fun _ s₆ h₆ _ => ?_)
  refine keeps_foldlM _ (fun _ input _ s₇ h₇ _ => ?_) h₆ trivial
  exact keeps_bind ((agentInit_keeps hmem hphys h₇ input).mono fun _ s₈ h₈ _ => keeps_pure h₈ trivial)

/-- **When the rings are aligned as the NIC requires.** In every start-up, whatever was allocated before it and
whatever the NICs answer, every ring address written to TDBAL or RDBAL: exactly when the number of devices is odd. -/
theorem ring_aligned_iff (env : Machine) (hmem : env.memory + osMemorySize ≤ sizeMax)
    (hphys : ∀ a, env.virtToPhys a % 4096 = a % 4096) (requests : List AllocRequest) (devicesCount : ℕ)
    (hcount : 2 ≤ devicesCount) (register : BaseRegister) (addr : ℕ)
    (hw : (register, addr) ∈ ringsWritten env requests devicesCount) : 128 ∣ addr ↔ Odd devicesCount := by
  have hgood : Good (devicesCount - 1) { used := 0, written := [] } := ⟨Nat.zero_le _, fun w hw => by cases hw⟩
  have hres : addr % 128 = 64 * (devicesCount - 1) % 128 :=
    ((boot_keeps hmem hphys requests hgood).ended (J := Good (devicesCount - 1)) (fun _ h => h) fun _ h => h).written
      _ hw
  rw [Nat.odd_iff, Nat.dvd_iff_mod_eq_zero]
  omega

/-- A machine where everything works, with the memory at 2^30. -/
def demoMachine : Machine where
  memory := 2 ^ 30
  virtToPhys := id
  deviceInit := fun _ => true
  txFree := fun _ _ => true
  txEnables := fun _ _ => true
  rxFree := fun _ => true
  rxEnables := fun _ => true

/-- The rings that the first agent tells of with two devices, and with three. -/
theorem demo_rings :
    (ringsWritten demoMachine [] 2).take 2 = [(.tdbal, 1074267456), (.rdbal, 1074267456)] ∧
      (ringsWritten demoMachine [] 3).take 3 =
        [(.tdbal, 1074267520), (.tdbal, 1074271616), (.rdbal, 1074267520)] := by
  decide +kernel

/-- With three devices the first ring is aligned. -/
theorem ring_aligned_three : (.tdbal, 1074267520) ∈ ringsWritten demoMachine [] 3 ∧ 128 ∣ 1074267520 := by
  have hw : (BaseRegister.tdbal, 1074267520) ∈ ringsWritten demoMachine [] 3 :=
    List.mem_of_mem_take (demo_rings.2 ▸ List.mem_cons_self)
  exact ⟨hw, (ring_aligned_iff demoMachine (by decide) (fun _ => rfl) [] 3 (by decide) .tdbal _ hw).mpr (by decide)⟩

/-- With two devices it is not. -/
theorem ring_not_aligned : ∃ w ∈ ringsWritten demoMachine [] 2, ¬ 128 ∣ w.2 :=
  ⟨(.tdbal, 1074267456), List.mem_of_mem_take (demo_rings.1 ▸ List.mem_cons_self), by decide⟩

end Ixgbe
end Klint
