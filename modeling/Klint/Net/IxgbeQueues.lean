/-
# Which transmit queue is whose

The start-up of TinyNF with NICs that keep TXDCTL.ENABLE of each queue, and with
memory wherever there is some. Agent `i` of `D` devices claims the queue `i * (D - 1) + k` of
the device that is its output `k`. It numbers its outputs by leaving its own device out, and so do,
on their own, `index_from_device` and `device_from_index` of the packet handler:
`device_numbering` says that the three agree.

The queues of a run are numbered upwards, whatever their devices (`Claimed`), so none is ever
claimed twice, even where two devices have the same registers. The start-up only halts for what the
hardware gives it (`Hardware.Gives`), so for as many as eleven devices that work the agents run
(`start_returns`).
-/
import Klint.Net.IxgbeStart
import Klint.Net.Tinynf

namespace Klint
namespace Ixgbe
namespace Queues

open Halting

/-! ### The platform -/

/-- An output of an agent that was registered, with the device and the queue it is. -/
structure Claim where
  agent : ℕ
  output : ℕ
  device : ℕ
  queue : ℕ
  deriving DecidableEq, Repr

/-- TXDCTL.ENABLE, by the address of the registers and the queue; why the program has halted; how
many allocations there were; and the outputs registered so far, the latest first, which no step reads. -/
structure Startup where
  enabled : ℕ → ℕ → Bool
  fatal : Option Fatal
  allocs : ℕ
  claims : List Claim

/-- What the start-up runs on: where the registers of each device and the allocated memory are, and
what the checks that have nothing to do with transmit queues give. -/
structure Hardware where
  /-- `devices[n].addr` -/
  addr : ℕ → ℕ
  /-- `tn_device_init` returns. -/
  deviceInit : ℕ → Bool
  /-- The address of the `n`th allocation, if there is memory for it. -/
  alloc : ℕ → Option ℕ
  virtToPhys : ℕ → ℕ
  /-- TXDCTL.ENABLE of the device's queue is set in time. -/
  enables : ℕ → ℕ → Bool
  /-- RXDCTL.ENABLE is clear. -/
  rxFree : ℕ → Bool
  /-- RXDCTL.ENABLE is set in time, and the receive path halts for it. -/
  rxEnables : ℕ → Bool

def memoryAlloc (hw : Hardware) : Halting Startup ℕ := do
  let n ← read fun s => s.allocs
  modify fun s => { s with allocs := s.allocs + 1 }
  require (hw.alloc n).isSome fun s => { s with fatal := some .outOfMemory }
  return (hw.alloc n).getD 0

/-- The reset of the device disables its queues. -/
def tnDeviceInit (hw : Hardware) (device : ℕ) : Halting Startup Unit := do
  require (hw.deviceInit device) fun s => { s with fatal := some .deviceInit }
  modify fun s => { s with enabled := Function.update s.enabled (hw.addr device) fun _ => false }

def txEnable (hw : Hardware) (device queue : ℕ) : Halting Startup Bool := do
  modify fun s => { s with
    enabled := Function.update s.enabled (hw.addr device)
      (Function.update (s.enabled (hw.addr device)) queue (hw.enables device queue)) }
  return hw.enables device queue

def storeTail (agent output : ℕ) (tail : Tail) : Halting Startup Unit := modify fun s =>
  { s with claims := { agent := agent, output := output, device := tail.device, queue := tail.queue } :: s.claims }

def Hardware.platform (hw : Hardware) : Platform Startup where
  fatal := fun f s => { s with fatal := some f }
  memoryAlloc := fun _ _ => memoryAlloc hw
  virtToPhys := hw.virtToPhys
  deviceInit := tnDeviceInit hw
  writeBase := fun _ _ => pure ()
  txFree := fun device queue => read fun s => !s.enabled (hw.addr device) queue
  txEnable := txEnable hw
  rxFree := fun device => pure (hw.rxFree device)
  rxEnable := fun device => pure (hw.rxEnables device)
  storeTail := storeTail

/-- The devices as the start-up finds them, in any state. -/
def found (enabled : ℕ → ℕ → Bool) : Startup := { enabled := enabled, fatal := none, allocs := 0, claims := [] }

/-! ### Numbers of outputs -/

/-- The device that is an agent's output. -/
def deviceOf (inputIndex k : ℕ) : ℕ := if k < inputIndex then k else k + 1

theorem trueIndex_deviceOf (i k : ℕ) : trueIndex i (deviceOf i k) = k := by
  unfold trueIndex deviceOf
  split_ifs <;> omega

theorem deviceOf_trueIndex {i n : ℕ} (h : n ≠ i) : deviceOf i (trueIndex i n) = n := by
  unfold trueIndex deviceOf
  split_ifs <;> omega

theorem trueIndex_succ {i n : ℕ} (h : n ≠ i) : trueIndex i (n + 1) = trueIndex i n + 1 := by
  unfold trueIndex
  split_ifs <;> omega

theorem trueIndex_succ_self (i : ℕ) : trueIndex i (i + 1) = trueIndex i i := by
  simp [trueIndex]

theorem trueIndex_lt {i n m : ℕ} (hi : i < m) (hn : n < m) (h : n ≠ i) : trueIndex i n < m - 1 := by
  unfold trueIndex
  split_ifs <;> omega

/-- The number that the packet handler gives an output is the one that the start-up gives it. -/
theorem indexFromDevice_eq {packet : NetPacket} {device : UInt16} :
    indexFromDevice packet device = trueIndex packet.device.toNat device.toNat := by
  unfold indexFromDevice trueIndex
  simp only [UInt16.lt_iff_toNat_lt]

theorem deviceFromIndex_toNat {packet : NetPacket} {index : ℕ} (h : index + 1 < UInt16.size) :
    (deviceFromIndex packet index).toNat = deviceOf packet.device.toNat index := by
  unfold deviceFromIndex deviceOf
  split_ifs
  · exact UInt16.toNat_ofNat_of_lt' (by omega)
  · exact UInt16.toNat_ofNat_of_lt' h

/-! ### What the start-up keeps -/

/-- What is said of a registered output. -/
structure Claim.Numbered (devicesCount : ℕ) (c : Claim) : Prop where
  agent : c.agent < devicesCount
  device : c.device < devicesCount
  ne : c.device ≠ c.agent
  output : c.output = trueIndex c.agent c.device
  queue : c.queue = c.agent * (devicesCount - 1) + c.output
  small : c.queue < transmitQueuesCount

/-- What is registered is numbered, and no queue twice. -/
structure Registered (devicesCount : ℕ) (s : Startup) : Prop where
  claims : ∀ c ∈ s.claims, c.Numbered devicesCount
  distinct : s.claims.Pairwise fun c c' => c.queue ≠ c'.queue

/-- What holds while the start-up runs. -/
structure Sound (devicesCount : ℕ) (s : Startup) : Prop extends Registered devicesCount s where
  running : s.fatal = none

/-- What the hardware, or the number of devices, can halt the start-up for. -/
def Hardware.Gives (hw : Hardware) (devicesCount : ℕ) : Fatal → Prop
  | .deviceInit => ∃ n, hw.deviceInit n = false
  | .outOfMemory => ∃ n, hw.alloc n = none
  | .noOutputs => devicesCount = 1
  | .queueTooLarge => transmitQueuesCount < devicesCount * (devicesCount - 1)
  | .headNotAligned => ∃ n heads k, hw.alloc n = some heads ∧
      hw.virtToPhys ((heads + k * transmitHeadMultiplier * 4) % 2 ^ 64) % 16 ≠ 0
  | .queueNotEnabled => ∃ device queue, hw.enables device queue = false
  | .receiveInUse => ∃ device, hw.rxFree device = false
  | .receiveNotEnabled => ∃ device, hw.rxEnables device = false
  | .noDevices | .inputOutOfRange | .outputInUse | .queueInUse | .receiveSet | .outputMissing => False

/-- What holds where it has halted. -/
structure Halted (hw : Hardware) (devicesCount : ℕ) (s : Startup) : Prop extends Registered devicesCount s where
  reason : ∃ f, s.fatal = some f ∧ hw.Gives devicesCount f

/-- The queues below `bound` are claimed, on one device or another. -/
structure Claimed (hw : Hardware) (devicesCount bound : ℕ) (s : Startup) : Prop where
  le : bound ≤ transmitQueuesCount
  enabled : ∀ d < devicesCount, ∀ q, s.enabled (hw.addr d) q = true → q < bound
  claims : ∀ c ∈ s.claims, c.queue < bound

/-- The agent has its first `count` outputs. -/
def HasOutputs (inputIndex first count : ℕ) (agent : Agent) : Prop :=
  ∀ k, agent.transmitTails k = if k < count then some { device := deviceOf inputIndex k, queue := first + k } else none

/-- And nothing else yet: its receive queue is not set, its heads are in memory it was given. -/
structure Fresh (hw : Hardware) (agent : Agent) : Prop where
  receiveSet : agent.receiveSet = false
  heads : ∃ n, hw.alloc n = some agent.transmitHeads

variable {hw : Hardware} {D i b : ℕ} {s : Startup} {agent : Agent}

/-- The allocations and the reason to halt are of no account for what is registered. -/
theorem Registered.of_eq {s' : Startup} (h : Registered D s) (he : s'.claims = s.claims) : Registered D s' where
  claims := he ▸ h.claims
  distinct := he ▸ h.distinct

theorem keeps_check {c : Bool} {f : Fatal} {Q : Unit → Startup → Prop} (hs : Sound D s)
    (hf : c = false → hw.Gives D f) (h : c = true → Q () s) :
    Keeps (Sound D) (Halted hw D) (check hw.platform c f) Q s :=
  keeps_require hs (fun hc => ⟨hs.toRegistered.of_eq rfl, f, rfl, hf hc⟩) h

/-- A check that does not fail. -/
theorem keeps_check_true {c : Bool} {f : Fatal} {Q : Unit → Startup → Prop} (hs : Sound D s) (hc : c = true)
    (h : Q () s) : Keeps (Sound D) (Halted hw D) (check hw.platform c f) Q s :=
  keeps_check hs (fun hf => absurd hc (hf ▸ Bool.false_ne_true)) fun _ => h

theorem Claimed.of_eq {s' : Startup} (h : Claimed hw D b s) (he : s'.enabled = s.enabled ∧ s'.claims = s.claims) :
    Claimed hw D b s' where
  le := h.le
  enabled := he.1 ▸ h.enabled
  claims := he.2 ▸ h.claims

theorem memoryAlloc_keeps (hs : Sound D s) : Keeps (Sound D) (Halted hw D) (memoryAlloc hw)
    (fun addr s' => (s'.enabled = s.enabled ∧ s'.claims = s.claims) ∧ ∃ n, hw.alloc n = some addr) s := by
  unfold memoryAlloc
  refine keeps_bind (keeps_read hs (keeps_bind (keeps_modify ⟨hs.toRegistered.of_eq rfl, hs.running⟩
    (keeps_bind (keeps_require ⟨hs.toRegistered.of_eq rfl, hs.running⟩ (fun hnone => ?_) fun hsome => ?_)))))
  · exact ⟨hs.toRegistered.of_eq rfl, _, rfl, s.allocs, by simpa using hnone⟩
  · obtain ⟨addr, haddr⟩ := Option.isSome_iff_exists.mp hsome
    rw [haddr]
    exact keeps_pure ⟨hs.toRegistered.of_eq rfl, hs.running⟩ ⟨⟨rfl, rfl⟩, s.allocs, haddr⟩

/-- The queue is enabled and its tail stored. -/
theorem claim_keeps (hs : Sound D s) (hb : Claimed hw D b s) {c : Claim} (hc : c.Numbered D) (hq : c.queue = b)
    {Q : Agent → Startup → Prop} (h : ∀ s', Sound D s' → Claimed hw D (b + 1) s' → Q agent s') :
    Keeps (Sound D) (Halted hw D) (do
      let enabled ← hw.platform.txEnable c.device c.queue
      check hw.platform enabled .queueNotEnabled
      hw.platform.storeTail c.agent c.output { device := c.device, queue := c.queue }
      return agent) Q s := by
  subst hq
  refine keeps_bind (keeps_bind (keeps_modify ⟨hs.toRegistered.of_eq rfl, hs.running⟩ (keeps_pure
    ⟨hs.toRegistered.of_eq rfl, hs.running⟩ (keeps_bind (keeps_check ⟨hs.toRegistered.of_eq rfl, hs.running⟩
      (fun hf => ⟨c.device, c.queue, hf⟩) fun henables => ?_)))))
  have hdistinct : (c :: s.claims).Pairwise fun c c' => c.queue ≠ c'.queue :=
    List.pairwise_cons.mpr ⟨fun c' hc' => (hb.claims c' hc').ne', hs.distinct⟩
  refine keeps_bind (keeps_modify ⟨⟨List.forall_mem_cons.mpr ⟨hc, hs.claims⟩, hdistinct⟩, hs.running⟩ (keeps_pure
    ⟨⟨List.forall_mem_cons.mpr ⟨hc, hs.claims⟩, hdistinct⟩, hs.running⟩ (h _ ⟨⟨List.forall_mem_cons.mpr
      ⟨hc, hs.claims⟩, hdistinct⟩, hs.running⟩ ⟨hc.small, fun d hd q hen => ?_, ?_⟩)))
  · have hbefore : s.enabled (hw.addr d) q = true → q < c.queue + 1 := fun h =>
      (hb.enabled d hd q h).trans_le (by omega)
    dsimp only at hen
    by_cases haddr : hw.addr d = hw.addr c.device
    · rw [haddr, Function.update_self] at hen
      by_cases hqc : q = c.queue
      · omega
      · rw [Function.update_of_ne hqc, ← haddr] at hen
        exact hbefore hen
    · rw [Function.update_of_ne haddr] at hen
      exact hbefore hen
  · exact List.forall_mem_cons.mpr ⟨c.queue.lt_succ_self, fun c' hc' => (hb.claims c' hc').trans_le (by omega)⟩

/-- The queues of an agent are among those of all agents. -/
theorem queue_lt {k : ℕ} (hi : i < D) (hk : k < D - 1) : i * (D - 1) + k < D * (D - 1) := by
  have hrow : (i + 1) * (D - 1) ≤ D * (D - 1) := Nat.mul_le_mul_right _ hi
  rw [Nat.succ_mul] at hrow
  omega

/-- The next queue is free, so is the next output of the agent. -/
theorem addOutput_keeps (hs : Sound D s) {k n : ℕ} (hb : Claimed hw D (i * (D - 1) + k) s)
    (ha : HasOutputs i (i * (D - 1)) k agent) (hfresh : Fresh hw agent) (hi : i < D) (hn : n < D) (hne : n ≠ i)
    (hk : trueIndex i n = k) :
    Keeps (Sound D) (Halted hw D) (tnAgentAddOutput hw.platform i agent n k ((i * (D - 1) + k) % 2 ^ 64))
      (fun agent s' => Claimed hw D (i * (D - 1) + (k + 1)) s' ∧ HasOutputs i (i * (D - 1)) (k + 1) agent ∧
        Fresh hw agent) s := by
  have hmod : (i * (D - 1) + k) % 2 ^ 64 = i * (D - 1) + k :=
    Nat.mod_eq_of_lt (hb.le.trans_lt (by decide))
  have hfree : agent.transmitTails k = none := by rw [ha, if_neg (Nat.lt_irrefl k)]
  have hoff : s.enabled (hw.addr n) (i * (D - 1) + k) = false := by
    by_contra hen
    exact absurd (hb.enabled n hn _ (Bool.eq_true_of_not_eq_false hen)) (Nat.lt_irrefl _)
  have hlarge : ¬ i * (D - 1) + k < transmitQueuesCount → transmitQueuesCount < D * (D - 1) := fun h =>
    (Nat.le_of_not_lt h).trans_lt (queue_lt hi (hk ▸ trueIndex_lt hi hn hne))
  rw [hmod]
  unfold tnAgentAddOutput
  refine keeps_bind (keeps_check_true hs (by rw [hfree]; rfl) (keeps_bind (keeps_check hs
    (fun hf => hlarge (of_decide_eq_false hf)) fun hsmall => ?_)))
  refine keeps_bind (keeps_read hs (keeps_bind (keeps_check_true hs (by rw [hoff]; rfl) (keeps_bind
    ((memoryAlloc_keeps hs).mono ?_)))))
  rintro ring s₁ hs₁ ⟨hsame, -⟩
  have hb₁ := hb.of_eq hsame
  obtain ⟨m, hm⟩ := hfresh.heads
  refine keeps_bind (keeps_pure hs₁ (keeps_bind (keeps_check hs₁ (fun hf => ⟨m, _, k, hm, of_decide_eq_false hf⟩)
    fun _ => ?_)))
  refine claim_keeps (c := ⟨i, k, n, i * (D - 1) + k⟩) hs₁ hb₁
    ⟨hi, hn, hne, hk.symm, rfl, of_decide_eq_true hsmall⟩ rfl fun s₂ _ hb₂ => ⟨hb₂, fun j => ?_, hfresh.1, hfresh.2⟩
  by_cases hj : j = k
  · subst hj
    simp only [Function.update_self]
    rw [if_pos j.lt_succ_self, ← hk, deviceOf_trueIndex hne]
  · simp only [Function.update_of_ne hj]
    rw [ha j]
    exact if_congr (by omega) rfl rfl

theorem setInput_keeps (hs : Sound D s) {Q : Agent → Startup → Prop} (n : ℕ) (hfresh : Fresh hw agent)
    (hfirst : (agent.transmitTails 0).isSome) (h : Q { agent with receiveSet := true } s) :
    Keeps (Sound D) (Halted hw D) (tnAgentSetInput hw.platform agent n) Q s := by
  unfold tnAgentSetInput
  refine keeps_bind (keeps_check_true hs (by rw [hfresh.receiveSet]; rfl) (keeps_bind (keeps_check_true hs hfirst ?_)))
  exact keeps_bind (keeps_pure hs (keeps_bind (keeps_check hs (fun hf => ⟨n, hf⟩) fun _ => keeps_bind (keeps_pure hs
    (keeps_bind (keeps_pure hs (keeps_bind (keeps_check hs (fun hf => ⟨n, hf⟩) fun _ => keeps_pure hs h))))))))

/-- An agent claims the next `D - 1` queues. -/
theorem agentInit_keeps (hs : Sound D s) (hb : Claimed hw D (i * (D - 1)) s) (hi : i < D) :
    Keeps (Sound D) (Halted hw D) (tnAgentInit hw.platform i D)
      (fun agent s' => Claimed hw D ((i + 1) * (D - 1)) s' ∧ HasOutputs i (i * (D - 1)) (D - 1) agent) s := by
  unfold tnAgentInit
  refine keeps_bind (keeps_check_true hs (decide_eq_true (by omega)) (keeps_bind (keeps_check_true hs
    (decide_eq_true hi) (keeps_bind (keeps_check hs (fun hf => ?_) fun houtputs => ?_)))))
  · have hone : D = 1 := by
      have hzero := of_decide_eq_false hf
      omega
    exact hone
  have hpos : 0 < D - 1 := Nat.pos_of_ne_zero (of_decide_eq_true houtputs)
  refine keeps_bind ((memoryAlloc_keeps hs).mono fun _ s₁ hs₁ ⟨he₁, _⟩ => ?_)
  refine keeps_bind ((memoryAlloc_keeps hs₁).mono fun _ s₂ hs₂ ⟨he₂, _⟩ => ?_)
  refine keeps_bind ((memoryAlloc_keeps hs₂).mono fun heads s₃ hs₃ ⟨he₃, hheads⟩ => ?_)
  refine keeps_bind ((memoryAlloc_keeps hs₃).mono fun _ s₄ hs₄ ⟨he₄, _⟩ => ?_)
  refine keeps_bind ((memoryAlloc_keeps hs₄).mono fun _ s₅ hs₅ ⟨he₅, _⟩ => ?_)
  have hb₅ : Claimed hw D (i * (D - 1)) s₅ := ((((hb.of_eq he₁).of_eq he₂).of_eq he₃).of_eq he₄).of_eq he₅
  refine keeps_bind ((keeps_range (Q := fun n agent s' => Claimed hw D (i * (D - 1) + trueIndex i n) s' ∧
    HasOutputs i (i * (D - 1)) (trueIndex i n) agent ∧ Fresh hw agent) D (fun n hn agent s' hs' hq => ?_) hs₅
      ⟨by simpa [trueIndex] using hb₅, fun k => by simp [trueIndex], rfl, hheads⟩).mono fun agent s' hs' hq => ?_)
  · by_cases hne : n = i
    · subst hne
      rw [if_neg (by simp), trueIndex_succ_self]
      exact keeps_pure hs' hq
    · rw [if_pos hne, trueIndex_succ hne]
      exact addOutput_keeps hs' hq.1 hq.2.1 hq.2.2 hi hn hne rfl
  · have hall : trueIndex i D = D - 1 := if_pos hi
    rw [hall] at hq
    refine setInput_keeps hs' i hq.2.2 (by rw [hq.2.1 0, if_pos hpos]; rfl) ⟨?_, hq.2.1⟩
    rw [Nat.succ_mul]
    exact hq.1

/-- Resets leave no queue enabled. -/
theorem deviceInits_keeps (hs : Sound D s) (hc : s.claims = []) :
    Keeps (Sound D) (Halted hw D) ((List.range D).foldlM (fun _ n => tnDeviceInit hw n) ())
      (fun _ s' => Claimed hw D 0 s') s := by
  refine (keeps_range (Q := fun n _ s' => s'.claims = [] ∧ ∀ d < n, ∀ q, s'.enabled (hw.addr d) q = false) D
    (fun n _ _ s' hs' hq => ?_) hs ⟨hc, fun d hd => absurd hd d.not_lt_zero⟩).mono fun _ s' _ hq => ?_
  · unfold tnDeviceInit
    refine keeps_bind (keeps_require hs' (fun hf => ⟨hs'.toRegistered.of_eq rfl, _, rfl, n, hf⟩) fun _ =>
      keeps_modify ⟨hs'.toRegistered.of_eq rfl, hs'.running⟩ ⟨hq.1, fun d hd q => ?_⟩)
    by_cases haddr : hw.addr d = hw.addr n
    · simp only [haddr, Function.update_self]
    · simp only [Function.update_of_ne haddr]
      have hdn : d ≠ n := fun he => haddr (by rw [he])
      exact hq.2 d (by omega) q
  · refine ⟨Nat.zero_le _, fun d hd q hen => ?_, ?_⟩
    · rw [hq.2 d hd q] at hen
      exact absurd hen Bool.false_ne_true
    · rw [hq.1]
      exact fun c hc => absurd hc List.not_mem_nil

/-- The agents that are set up, one for each device. -/
def AllOutputs (devicesCount n : ℕ) (agents : List Agent) : Prop :=
  agents.length = n ∧ ∀ i agent, agents[i]? = some agent →
    HasOutputs i (i * (devicesCount - 1)) (devicesCount - 1) agent

theorem start_keeps (hs : Sound D s) (hc : s.claims = []) : Keeps (Sound D) (Halted hw D) (start hw.platform D)
    (fun agents s' => Claimed hw D (D * (D - 1)) s' ∧ AllOutputs D D agents) s := by
  unfold start
  refine keeps_bind ((memoryAlloc_keeps hs).mono fun _ s₁ hs₁ ⟨he₁, _⟩ => ?_)
  refine keeps_bind ((memoryAlloc_keeps hs₁).mono fun _ s₂ hs₂ ⟨he₂, _⟩ => ?_)
  refine keeps_bind ((memoryAlloc_keeps hs₂).mono fun _ s₃ hs₃ ⟨he₃, _⟩ => ?_)
  have hc₃ : s₃.claims = [] := by rw [he₃.2, he₂.2, he₁.2, hc]
  refine keeps_bind ((deviceInits_keeps hs₃ hc₃).mono fun _ s₄ hs₄ hb₄ => ?_)
  refine keeps_bind ((memoryAlloc_keeps hs₄).mono fun _ s₅ hs₅ ⟨he₅, _⟩ => ?_)
  have hb₅ : Claimed hw D (0 * (D - 1)) s₅ := by rw [Nat.zero_mul]; exact hb₄.of_eq he₅
  refine keeps_range (Q := fun n agents s' => Claimed hw D (n * (D - 1)) s' ∧ AllOutputs D n agents) D
    (fun n hn agents s₆ hs₆ hq => ?_) hs₅ ⟨hb₅, rfl, fun i agent h => by simp at h⟩
  refine keeps_bind ((agentInit_keeps hs₆ hq.1 hn).mono fun agent s₇ hs₇ h₇ =>
    keeps_pure hs₇ ⟨h₇.1, ?_, fun i a ha => ?_⟩)
  · rw [List.length_append, hq.2.1]
    rfl
  · obtain ⟨hlen, hall⟩ := hq.2
    by_cases hi : i < agents.length
    · rw [List.getElem?_append_left hi] at ha
      exact hall i a ha
    · rw [List.getElem?_append_right (Nat.le_of_not_lt hi)] at ha
      have hin : i - agents.length < 1 := (List.getElem?_eq_some_iff.mp ha).1
      have hi : i = n := by omega
      subst hi
      rw [hlen, Nat.sub_self] at ha
      cases ha
      exact h₇.2

theorem found_sound (enabled : ℕ → ℕ → Bool) : Sound D (found enabled) :=
  ⟨⟨fun _ hc => absurd hc List.not_mem_nil, List.Pairwise.nil⟩, rfl⟩

/-- The start-up halts for nothing else. -/
theorem start_gives (enabled : ℕ → ℕ → Bool) {f : Fatal} (hf : (start hw.platform D (found enabled)).2.fatal = some f) :
    hw.Gives D f := by
  have hstart : Keeps (Sound D) (Halted hw D) (start hw.platform D) _ _ := start_keeps (found_sound enabled) rfl
  refine hstart.ended (J := fun s => s.fatal = some f → hw.Gives D f) (fun s' hs' he => ?_) (fun s' hs' he => ?_) hf
  · rw [hs'.running] at he
    cases he
  · obtain ⟨f', he', hgives⟩ := hs'.reason
    rw [he', Option.some.injEq] at he
    exact he ▸ hgives

/-- Memory and devices that work. -/
structure Hardware.Works (hw : Hardware) : Prop where
  deviceInit : ∀ n, hw.deviceInit n = true
  alloc : ∀ n, (hw.alloc n).isSome
  heads : ∀ n heads k, hw.alloc n = some heads →
    hw.virtToPhys ((heads + k * transmitHeadMultiplier * 4) % 2 ^ 64) % 16 = 0
  enables : ∀ device queue, hw.enables device queue = true
  rxFree : ∀ device, hw.rxFree device = true
  rxEnables : ∀ device, hw.rxEnables device = true

theorem Hardware.Works.not_gives (h : hw.Works) (hD : 2 ≤ D) (hqueues : D * (D - 1) ≤ transmitQueuesCount) (f : Fatal) :
    ¬ hw.Gives D f := by
  cases f with
  | deviceInit => exact fun ⟨n, hn⟩ => absurd (h.deviceInit n) (by rw [hn]; exact Bool.false_ne_true)
  | outOfMemory => exact fun ⟨n, hn⟩ => absurd (h.alloc n) (by rw [hn]; exact Bool.false_ne_true)
  | noOutputs => exact fun hone => absurd hD (by rw [show D = 1 from hone]; decide)
  | queueTooLarge => exact Nat.not_lt_of_le hqueues
  | headNotAligned => exact fun ⟨n, heads, k, hn, hne⟩ => hne (h.heads n heads k hn)
  | queueNotEnabled => exact fun ⟨d, q, hq⟩ => absurd (h.enables d q) (by rw [hq]; exact Bool.false_ne_true)
  | receiveInUse => exact fun ⟨d, hd⟩ => absurd (h.rxFree d) (by rw [hd]; exact Bool.false_ne_true)
  | receiveNotEnabled => exact fun ⟨d, hd⟩ => absurd (h.rxEnables d) (by rw [hd]; exact Bool.false_ne_true)
  | _ => exact id

/-- With devices that work and a queue for each pair of them, the agents run. -/
theorem start_returns (h : hw.Works) (enabled : ℕ → ℕ → Bool) (hD : 2 ≤ D)
    (hqueues : D * (D - 1) ≤ transmitQueuesCount) :
    ∃ agents, (start hw.platform D (found enabled)).1 = some agents ∧ AllOutputs D D agents := by
  have hstart : Keeps (Sound D) (Halted hw D) (start hw.platform D) _ _ := start_keeps (found_sound enabled) rfl
  obtain ⟨agents, ha, -, hall⟩ := hstart.returns fun s' hs' => by
    obtain ⟨f, -, hgives⟩ := hs'.reason
    exact h.not_gives hD hqueues f hgives
  exact ⟨agents, ha, hall⟩

/-! ### The numbers agree -/

/-- The output that the packet handler selects for a device, on every path: in the numbers
themselves, in what a start-up has registered wherever it ends, and in the agents it leaves. -/
structure Agrees (hw : Hardware) (enabled : ℕ → ℕ → Bool) (devicesCount : ℕ) : Prop where
  /-- The two numberings of outputs are one. -/
  slot : ∀ (packet : NetPacket) (device : UInt16),
    indexFromDevice packet device = trueIndex packet.device.toNat device.toNat
  /-- The handler's own two functions are inverse, for all devices that have a number. -/
  device : ∀ (packet : NetPacket) (index : ℕ), index + 1 < devicesCount → index + 1 < UInt16.size →
    deviceFromIndex packet index ≠ packet.device ∧ (deviceFromIndex packet index).toNat < devicesCount ∧
      indexFromDevice packet (deviceFromIndex packet index) = index
  index : ∀ (packet : NetPacket) (device : UInt16), packet.device.toNat < devicesCount →
    device.toNat < devicesCount → device ≠ packet.device →
    indexFromDevice packet device + 1 < devicesCount ∧ deviceFromIndex packet (indexFromDevice packet device) = device
  /-- Every output registered is the one that the handler selects for its device. -/
  registered : ∀ c ∈ (start hw.platform devicesCount (found enabled)).2.claims, ∀ packet : NetPacket,
    packet.device.toNat = c.agent → ∃ device : UInt16, device.toNat = c.device ∧ device ≠ packet.device ∧
      c.output = indexFromDevice packet device
  /-- No transmit queue is claimed twice. -/
  distinct : (start hw.platform devicesCount (found enabled)).2.claims.Pairwise fun c c' => c.queue ≠ c'.queue
  outputFree : (start hw.platform devicesCount (found enabled)).2.fatal ≠ some .outputInUse
  queueFree : (start hw.platform devicesCount (found enabled)).2.fatal ≠ some .queueInUse
  /-- Once the agents run, all devices have numbers, -/
  numbered : ∀ agents, (start hw.platform devicesCount (found enabled)).1 = some agents → devicesCount ≤ UInt16.size
  /-- what the handler selects for a device is a tail of it, -/
  tail : ∀ agents, (start hw.platform devicesCount (found enabled)).1 = some agents →
    ∀ (packet : NetPacket) (device : UInt16),
    packet.device.toNat < devicesCount → device.toNat < devicesCount → device ≠ packet.device →
    ∃ agent tail, agents[packet.device.toNat]? = some agent ∧
      agent.transmitTails (indexFromDevice packet device) = some tail ∧ tail.device = device.toNat
  /-- and a packet sent to a device leaves on it and on no other. -/
  leaves : ∀ agents, (start hw.platform devicesCount (found enabled)).1 = some agents → ∀ (drv : Tinynf) (o : Outputs)
    (device : UInt16) (flags : NetTransmitFlags), o.packet.device.toNat < devicesCount →
    device.toNat < devicesCount → device ≠ o.packet.device → o.lengths = List.replicate (devicesCount - 1) 0 →
    ∃ agent, agents[o.packet.device.toNat]? = some agent ∧ ∀ n < devicesCount - 1, ∃ tail,
      agent.transmitTails n = some tail ∧
      (netTransmit drv o device flags).lengths[n]? = some (if tail.device = device.toNat then o.packet.length else 0)

theorem deviceFromIndex_inverse (packet : NetPacket) {index : ℕ} (h : index + 1 < D) (hnum : index + 1 < UInt16.size) :
    deviceFromIndex packet index ≠ packet.device ∧ (deviceFromIndex packet index).toNat < D ∧
      indexFromDevice packet (deviceFromIndex packet index) = index := by
  have hdev : (deviceFromIndex packet index).toNat = deviceOf packet.device.toNat index := deviceFromIndex_toNat hnum
  refine ⟨fun he => ?_, ?_, ?_⟩
  · rw [he, deviceOf] at hdev
    split_ifs at hdev <;> omega
  · rw [hdev, deviceOf]
    split_ifs <;> omega
  · rw [indexFromDevice_eq, hdev, trueIndex_deviceOf]

theorem indexFromDevice_inverse {packet : NetPacket} {device : UInt16} (hp : packet.device.toNat < D)
    (hd : device.toNat < D) (hne : device ≠ packet.device) : indexFromDevice packet device + 1 < D ∧
      deviceFromIndex packet (indexFromDevice packet device) = device := by
  refine ⟨?_, deviceFromIndex_indexFromDevice hne⟩
  have hlt := trueIndex_lt hp hd fun he => hne (UInt16.toNat_inj.mp he)
  rw [indexFromDevice_eq]
  omega

/-- Registered outputs are of devices that have a number, as the first 128 queues have. -/
theorem Claim.Numbered.handler {c : Claim} (hc : c.Numbered D) {packet : NetPacket}
    (hp : packet.device.toNat = c.agent) : ∃ device : UInt16, device.toNat = c.device ∧ device ≠ packet.device ∧
      c.output = indexFromDevice packet device := by
  have hsmall : c.device < UInt16.size := by
    have hout : c.output < 128 := (hc.queue ▸ Nat.le_add_left _ _ : c.output ≤ c.queue).trans_lt hc.small
    rw [hc.output, trueIndex] at hout
    have hsize : UInt16.size = 65536 := rfl
    split_ifs at hout <;> omega
  have hto : (UInt16.ofNat c.device).toNat = c.device := UInt16.toNat_ofNat_of_lt' hsmall
  refine ⟨UInt16.ofNat c.device, hto, fun he => hc.ne ?_, ?_⟩
  · rw [← hto, he, hp]
  · rw [indexFromDevice_eq, hto, hp, hc.output]

/-- There are queues for eleven devices. -/
theorem Claimed.devicesCount_le (h : Claimed hw D (D * (D - 1)) s) : D ≤ UInt16.size := by
  by_contra hbig
  have hsize : UInt16.size = 65536 := rfl
  have hle : 129 * 1 ≤ D * (D - 1) := Nat.mul_le_mul (by omega) (by omega)
  have hqueues : D * (D - 1) ≤ 128 := h.le
  omega

section Agents

variable {agents : List Agent} (h : AllOutputs D D agents)
include h

theorem AllOutputs.get (hi : i < D) : ∃ agent, agents[i]? = some agent ∧ HasOutputs i (i * (D - 1)) (D - 1) agent := by
  have hlen : i < agents.length := h.1 ▸ hi
  exact ⟨agents[i], List.getElem?_eq_getElem hlen, h.2 i _ (List.getElem?_eq_getElem hlen)⟩

theorem AllOutputs.tail {packet : NetPacket} {device : UInt16} (hp : packet.device.toNat < D) (hd : device.toNat < D)
    (hne : device ≠ packet.device) : ∃ agent tail, agents[packet.device.toNat]? = some agent ∧
      agent.transmitTails (indexFromDevice packet device) = some tail ∧ tail.device = device.toNat := by
  obtain ⟨agent, ha, hout⟩ := h.get hp
  have hne' : device.toNat ≠ packet.device.toNat := fun he => hne (UInt16.toNat_inj.mp he)
  refine ⟨agent, _, ha, (hout _).trans (if_pos ?_), ?_⟩
  · rw [indexFromDevice_eq]
    exact trueIndex_lt hp hd hne'
  · rw [indexFromDevice_eq]
    exact deviceOf_trueIndex hne'

theorem AllOutputs.leaves (drv : Tinynf) (o : Outputs) {device : UInt16} (flags : NetTransmitFlags)
    (hp : o.packet.device.toNat < D) (hne : device ≠ o.packet.device) (hlen : o.lengths = List.replicate (D - 1) 0) :
    ∃ agent, agents[o.packet.device.toNat]? = some agent ∧ ∀ n < D - 1, ∃ tail,
      agent.transmitTails n = some tail ∧
      (netTransmit drv o device flags).lengths[n]? =
        some (if tail.device = device.toNat then o.packet.length else 0) := by
  obtain ⟨agent, ha, hout⟩ := h.get hp
  have hne' : device.toNat ≠ o.packet.device.toNat := fun he => hne (UInt16.toNat_inj.mp he)
  have hidx : indexFromDevice (handleFlags drv o.packet device flags) device =
      trueIndex o.packet.device.toNat device.toNat := by
    rw [indexFromDevice_eq, handleFlags_device]
  refine ⟨agent, ha, fun n hn => ⟨_, (hout n).trans (if_pos hn), ?_⟩⟩
  dsimp only [netTransmit]
  rw [hidx, hlen, handleFlags_length]
  by_cases hnk : n = trueIndex o.packet.device.toNat device.toNat
  · subst hnk
    rw [deviceOf_trueIndex hne', if_pos rfl, List.getElem?_set_self (by rwa [List.length_replicate])]
  · have hdev : deviceOf o.packet.device.toNat n ≠ device.toNat := by
      intro he
      rw [← he, trueIndex_deviceOf] at hnk
      exact hnk rfl
    rw [if_neg hdev, List.getElem?_set_ne (Ne.symm hnk), List.getElem?_replicate, if_pos hn]

end Agents

/-- **Device numbering.** For every number of devices, wherever their registers are and whatever
they answer. -/
theorem device_numbering (hw : Hardware) (enabled : ℕ → ℕ → Bool) (devicesCount : ℕ) :
    Agrees hw enabled devicesCount := by
  have hstart : Keeps (Sound devicesCount) (Halted hw devicesCount) (start hw.platform devicesCount) _ _ :=
    start_keeps (found_sound enabled) rfl
  have hregistered : Registered devicesCount (start hw.platform devicesCount (found enabled)).2 :=
    hstart.ended (fun _ hs => hs.toRegistered) fun _ hs => hs.toRegistered
  exact {
    slot := fun _ _ => indexFromDevice_eq
    device := fun packet _ h hnum => deviceFromIndex_inverse packet h hnum
    index := fun _ _ hp hd hne => indexFromDevice_inverse hp hd hne
    registered := fun c hc _ hp => (hregistered.claims c hc).handler hp
    distinct := hregistered.distinct
    outputFree := fun hf => start_gives enabled hf
    queueFree := fun hf => start_gives enabled hf
    numbered := fun agents ha => (hstart.returned agents ha).2.1.devicesCount_le
    tail := fun agents ha _ _ hp hd hne => (hstart.returned agents ha).2.2.tail hp hd hne
    leaves := fun agents ha drv o _ flags hp _ hne hlen =>
      (hstart.returned agents ha).2.2.leaves drv o flags hp hne hlen }

/-- Devices that work, and memory from 0 on. -/
def working : Hardware where
  addr := id
  deviceInit := fun _ => true
  alloc := fun n => some (n * 4096)
  virtToPhys := id
  enables := fun _ _ => true
  rxFree := fun _ => true
  rxEnables := fun _ => true

theorem working_works : working.Works where
  deviceInit := fun _ => rfl
  alloc := fun _ => rfl
  heads := by
    rintro n heads k ⟨⟩
    change (n * 4096 + k * 16 * 4) % 2 ^ 64 % 16 = 0
    omega
  enables := fun _ _ => rfl
  rxFree := fun _ => rfl
  rxEnables := fun _ => rfl

/-- The theorem at three devices, whose agents run. -/
theorem device_numbering_three : ∃ agents, (start working.platform 3 (found fun _ _ => true)).1 = some agents ∧
    ∀ (packet : NetPacket) (device : UInt16), packet.device.toNat < 3 → device.toNat < 3 → device ≠ packet.device →
      ∃ agent tail, agents[packet.device.toNat]? = some agent ∧
        agent.transmitTails (indexFromDevice packet device) = some tail ∧ tail.device = device.toNat := by
  obtain ⟨agents, ha, -⟩ := start_returns working_works (fun _ _ => true) (by decide : 2 ≤ 3) (by decide)
  exact ⟨agents, ha, (device_numbering working (fun _ _ => true) 3).tail agents ha⟩

/-- Three devices, of which each is an output of the other two. -/
example : (start working.platform 3 (found fun _ _ => true)).2.claims.map (fun c => (c.agent, c.device, c.queue)) =
    [(2, 1, 5), (2, 0, 4), (1, 2, 3), (1, 0, 2), (0, 2, 1), (0, 1, 0)] := by decide +kernel

end Queues
end Ixgbe
end Klint
