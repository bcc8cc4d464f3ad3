/-
# The start-up of TinyNF

`main` of `net/tinynf/main.c` after `nf_init`, and `tn_agent_init` of
`net/tinynf/ixgbe.c`, as far as they allocate memory, tell the NICs where the
rings are and claim transmit queues. What they run on is a `Platform`: an effect
of each access to the memory or to a NIC on a state, which may halt the program.
-/
import Klint.Lib.Halting
import Klint.Net.Ixgbe

namespace Klint
namespace Ixgbe

open Halting

/-- What the start-up halts for. -/
inductive Fatal where
  | deviceInit  -- of `tn_device_init`
  | outOfMemory  -- of `os_memory_alloc`
  | noDevices  -- "No devices given"
  | inputOutOfRange  -- "Input index out of range"
  | noOutputs  -- "No outputs given"
  | outputInUse  -- "Output is already in use"
  | queueTooLarge  -- "Transmit queue index is too large"
  | queueInUse  -- "Transmit queue is already in use"
  | headNotAligned  -- "Transmit head's physical address is not aligned properly"
  | queueNotEnabled  -- "TXDCTL.ENABLE did not set, cannot enable queue"
  | receiveSet  -- "Agent receive was already set"
  | outputMissing  -- "Agent transmit was not called for output 0, but must be .."
  | receiveInUse  -- "Receive queue is already in use"
  | receiveNotEnabled  -- "RXDCTL.ENABLE did not set, cannot enable queue"
  deriving DecidableEq, Repr

/-- The register that the low half of a ring's address is written to. -/
inductive BaseRegister where
  | tdbal
  | rdbal
  deriving DecidableEq, Repr

/-- The register that `transmit_tail_addrs[n]` points to: TDT of a queue of a device. -/
structure Tail where
  device : ℕ
  queue : ℕ
  deriving DecidableEq, Repr

structure Platform (σ : Type) where
  /-- What is left when the program halts. -/
  fatal : Fatal → σ → σ
  /-- `os_memory_alloc` -/
  memoryAlloc : ℕ → ℕ → Halting σ ℕ
  /-- `os_memory_virt_to_phys` -/
  virtToPhys : ℕ → ℕ
  /-- `tn_device_init` -/
  deviceInit : ℕ → Halting σ Unit
  writeBase : BaseRegister → ℕ → Halting σ Unit
  /-- TXDCTL.ENABLE of the device's queue is clear. -/
  txFree : ℕ → ℕ → Halting σ Bool
  /-- TXDCTL.ENABLE is set, and reads as set in time. -/
  txEnable : ℕ → ℕ → Halting σ Bool
  /-- RXDCTL.ENABLE of the device's first queue is clear. -/
  rxFree : ℕ → Halting σ Bool
  /-- RXDCTL.ENABLE is set, and reads as set in time; so does the receive path halt for it. -/
  rxEnable : ℕ → Halting σ Bool
  /-- An agent's `transmit_tail_addrs[n]` is stored. -/
  storeTail : ℕ → ℕ → Tail → Halting σ Unit

/-- `PACKET_BUFFER_SIZE` -/
def packetBufferSize : ℕ := 2048

/-- `TRANSMIT_HEAD_MULTIPLIER` -/
def transmitHeadMultiplier : ℕ := 16

/-- `TRANSMIT_QUEUES_COUNT` -/
def transmitQueuesCount : ℕ := 128

/-- The fields of `struct tn_agent` that the initialization reads back. -/
structure Agent where
  /-- `receive_tail_addr != 0` -/
  receiveSet : Bool
  transmitHeads : ℕ
  rings : ℕ → ℕ
  transmitTails : ℕ → Option Tail

variable {σ : Type} (platform : Platform σ)

/-- `if (!b) { fatal(...); }` -/
def check (b : Bool) (f : Fatal) : Halting σ Unit := require b (platform.fatal f)

/-- `os_memory_alloc(count, 2 * sizeof(uint64_t))`. -/
def descriptorRingAlloc (count : ℕ) : Halting σ ℕ := platform.memoryAlloc count (2 * 8)

def agentsAlloc (count size : ℕ) : Halting σ ℕ := platform.memoryAlloc count size

/-- The number of the agent is not an argument in the source. -/
def tnAgentAddOutput (inputIndex : ℕ) (agent : Agent) (device outputIndex queueIndex : ℕ) : Halting σ Agent := do
  check platform (agent.transmitTails outputIndex).isNone .outputInUse
  check platform (queueIndex < transmitQueuesCount) .queueTooLarge
  let free ← platform.txFree device queueIndex
  check platform free .queueInUse
  let ring ← descriptorRingAlloc platform ringSize
  platform.writeBase .tdbal ring  -- "This alignment is guaranteed by the agent initialization"
  let headPhysAddr :=
    platform.virtToPhys ((agent.transmitHeads + outputIndex * transmitHeadMultiplier * 4) % 2 ^ 64)
  check platform (headPhysAddr % 16 = 0) .headNotAligned
  let enabled ← platform.txEnable device queueIndex
  check platform enabled .queueNotEnabled
  let tail : Tail := { device := device, queue := queueIndex }
  platform.storeTail inputIndex outputIndex tail
  return { agent with
    rings := Function.update agent.rings outputIndex ring
    transmitTails := Function.update agent.transmitTails outputIndex (some tail) }

def tnAgentSetInput (agent : Agent) (device : ℕ) : Halting σ Agent := do
  check platform (!agent.receiveSet) .receiveSet
  check platform (agent.transmitTails 0).isSome .outputMissing
  let free ← platform.rxFree device
  check platform free .receiveInUse
  platform.writeBase .rdbal (agent.rings 0)  -- "This alignment is guaranteed by the agent initialization"
  let enabled ← platform.rxEnable device
  check platform enabled .receiveNotEnabled
  return { agent with receiveSet := true }

/-- `true_index` -/
def trueIndex (inputIndex n : ℕ) : ℕ := if inputIndex < n then n - 1 else n

def tnAgentInit (inputIndex devicesCount : ℕ) : Halting σ Agent := do
  check platform (devicesCount ≠ 0) .noDevices
  check platform (inputIndex < devicesCount) .inputOutOfRange
  let outputsCount := devicesCount - 1
  check platform (outputsCount ≠ 0) .noOutputs
  let _buffer ← platform.memoryAlloc ringSize packetBufferSize
  let _lengths ← platform.memoryAlloc outputsCount 8
  let transmitHeads ← platform.memoryAlloc outputsCount (transmitHeadMultiplier * 4)
  let _rings ← platform.memoryAlloc outputsCount 8
  let _transmitTailAddrs ← platform.memoryAlloc outputsCount 8
  let agent ← (List.range devicesCount).foldlM (fun agent n =>
    if n ≠ inputIndex then
      tnAgentAddOutput platform inputIndex agent n (trueIndex inputIndex n)
        ((inputIndex * outputsCount + trueIndex inputIndex n) % 2 ^ 64)
    else pure agent)
    { receiveSet := false, transmitHeads := transmitHeads, rings := fun _ => 0, transmitTails := fun _ => none }
  tnAgentSetInput platform agent inputIndex

/-- `main` from `nf_init` until `tn_run`, with the agents that this runs: 16 bytes a device, 6 an
address, 64 an agent. -/
def start (devicesCount : ℕ) : Halting σ (List Agent) := do
  let _devices ← platform.memoryAlloc devicesCount 16
  let _endpointMacs ← platform.memoryAlloc devicesCount 6
  let _deviceMacs ← platform.memoryAlloc devicesCount 6
  (List.range devicesCount).foldlM (fun _ n => platform.deviceInit n) ()
  let _agents ← agentsAlloc platform devicesCount 64
  (List.range devicesCount).foldlM (fun agents n => do
    let agent ← tnAgentInit platform n devicesCount
    return agents ++ [agent]) []

end Ixgbe
end Klint
