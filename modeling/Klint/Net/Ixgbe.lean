/-
# The driver and the NIC

`tn_run_peragent` of `net/tinynf/ixgbe.c`, called forever for one agent, in steps that read or
write at most one place that the NIC uses too. Ring 0 is the receive ring and the first output's
transmit ring; the buffers are those of all rings, by index.

The NIC fills receive descriptors from RDH up to but excluding RDT and sets DD; on each output it
transmits from TDH up to but excluding TDT, and after a descriptor with RS it writes TDH back
to the output's transmit head, which may take a while. `received`, `processed` and
`sent` are the history of a run; no step reads them.
-/
import Klint.Lib.CyclicRange
import Mathlib.Algebra.Order.Ring.Nat

namespace Klint
namespace Ixgbe

/-- `IXGBE_RING_SIZE` -/
def ringSize : ℕ := 256

/-- `IXGBE_AGENT_FLUSH_PERIOD` -/
def flushPeriod : ℕ := 8

/-- `IXGBE_AGENT_RECYCLE_PERIOD` -/
def recyclePeriod : ℕ := 64

/-- `i & (IXGBE_RING_SIZE - 1)` -/
def wrap (i : ℕ) : ℕ := i &&& (ringSize - 1)

@[simp] theorem wrap_eq (i : ℕ) : wrap i = i % 256 := Nat.and_two_pow_sub_one_eq_mod i 8

/-! ### Descriptors -/

/-- The second line of a descriptor. -/
abbrev Metadata := BitVec 64

/-- "Descriptor Done" -/
def descriptorDone (m : Metadata) : Bool := m &&& (1#64 <<< 32) ≠ 0#64

/-- "Report Status", bit 3 of the command. -/
def reportStatus (m : Metadata) : Bool := m.getLsbD (24 + 3)

/-- `rs_bit`: only for the last descriptor of a recycle period. -/
def rsBit (processedDelimiter : ℕ) : Metadata :=
  if processedDelimiter &&& (recyclePeriod - 1) = recyclePeriod - 1 then 1#64 <<< (24 + 3) else 0#64

def transmitMetadata (length : BitVec 16) (rsBit : Metadata) : Metadata :=
  length.setWidth 64 ||| rsBit ||| 1#64 <<< (24 + 1) ||| 1#64 <<< 24

theorem descriptorDone_eq (m : Metadata) : descriptorDone m = m.getLsbD 32 := by
  have hand : m &&& (1#64 <<< 32) = if m.getLsbD 32 then BitVec.twoPow 64 32 else 0#64 := BitVec.and_twoPow m 32
  rw [descriptorDone, hand]
  cases m.getLsbD 32 with
  | false => rfl
  | true => decide

/-- Writing a descriptor for transmission clears DD. -/
theorem descriptorDone_transmitMetadata (length : BitVec 16) (i : ℕ) :
    descriptorDone (transmitMetadata length (rsBit i)) = false := by
  rw [descriptorDone_eq, transmitMetadata, rsBit]
  split <;> simp

theorem reportStatus_transmitMetadata (length : BitVec 16) (i : ℕ) :
    reportStatus (transmitMetadata length (rsBit i)) = decide (i % 64 = 63) := by
  have hmod : i &&& (recyclePeriod - 1) = i % 64 := Nat.and_two_pow_sub_one_eq_mod i 6
  rw [reportStatus, transmitMetadata, rsBit, hmod, show recyclePeriod - 1 = 63 from rfl]
  split
  · next h => simp [h]
  · next h => simp [h]

/-! ### States -/

/-- Where the driver is: `poll k` at the top of the loop with `flush_counter` `k`, `handle` before it calls the handler,
`write` before it writes a descriptor of ring `n`, `readHead` before it reads the transmit head of
output `n`, with the heads it has read, `setTail` before it writes the receive tail, and `flush` before it
writes the transmit tail of output `n`. -/
inductive Pc
  | poll (k : ℕ)
  | handle (k : ℕ)
  | write (k n : ℕ)
  | readHead (k n : ℕ) (read : List ℕ) (earliestTransmitHead minDiff : ℕ)
  | setTail (k : ℕ) (read : List ℕ) (earliestTransmitHead : ℕ)
  | flush (n : ℕ)

/-- The memory of the agent, its driver and the registers of its queues. A packet is what a buffer holds. -/
structure State (α : Type) where
  buffer : ℕ → α
  rings : ℕ → ℕ → Metadata
  transmitHeads : ℕ → ℕ
  lengths : ℕ → BitVec 16
  processedDelimiter : ℕ
  pc : Pc
  rdh : ℕ
  rdt : ℕ
  tdh : ℕ → ℕ
  tdt : ℕ → ℕ
  /-- Heads that an output is about to write back. -/
  writeBacks : ℕ → List ℕ
  /-- The packets received, with the index of their buffer. -/
  received : List (ℕ × α)
  /-- The packets the handler was called with, with the index of their buffer. -/
  processed : List (ℕ × α)
  /-- The number of descriptors that an output has transmitted. -/
  sent : ℕ → ℕ

variable {α : Type}

/-- After `tn_agent_init`. -/
def init (buffer : ℕ → α) : State α where
  buffer := buffer
  rings := fun _ _ => 0
  transmitHeads := fun _ => 0
  lengths := fun _ => 0
  processedDelimiter := 0
  pc := .poll 0
  rdh := 0
  rdt := ringSize - 1
  tdh := fun _ => 0
  tdt := fun _ => 0
  writeBacks := fun _ => []
  received := []
  processed := []
  sent := fun _ => 0

namespace State

variable (s : State α)

/-! ### The NIC -/

def receive (packet : α) (metadata : Metadata) : State α :=
  { s with
    buffer := Function.update s.buffer s.rdh packet
    rings := Function.update s.rings 0 (Function.update (s.rings 0) s.rdh metadata)
    rdh := wrap (s.rdh + 1)
    received := s.received ++ [(s.rdh, packet)] }

def transmit (n : ℕ) : State α :=
  let head := wrap (s.tdh n + 1)
  { s with
    tdh := Function.update s.tdh n head
    writeBacks :=
      if reportStatus (s.rings n (s.tdh n)) then Function.update s.writeBacks n (s.writeBacks n ++ [head])
      else s.writeBacks
    sent := Function.update s.sent n (s.sent n + 1) }

def writeBack (n head : ℕ) (rest : List ℕ) : State α :=
  { s with
    transmitHeads := Function.update s.transmitHeads n head
    writeBacks := Function.update s.writeBacks n rest }

/-! ### The driver -/

variable (outputsCount : ℕ)

/-- The handler is called with a packet, which it may change; it sets the lengths. -/
def handle (k : ℕ) (packet : α) (lengths : ℕ → BitVec 16) : State α :=
  let i := s.processedDelimiter
  { s with
    buffer := Function.update s.buffer i packet
    lengths := lengths
    processed := s.processed ++ [(i, s.buffer i)]
    pc := .write k 0 }

/-- A descriptor is written; after the last one the delimiter moves on. -/
def write (k n : ℕ) : State α :=
  let i := s.processedDelimiter
  let s := { s with
    rings := Function.update s.rings n (Function.update (s.rings n) i (transmitMetadata (s.lengths n) (rsBit i)))
    lengths := Function.update s.lengths n 0 }
  if n + 1 < outputsCount then { s with pc := .write k (n + 1) }
  else
    { s with
      processedDelimiter := wrap (i + 1)
      pc := if rsBit i ≠ 0 then .readHead k 0 [] (wrap (i + 1)) (2 ^ 64 - 1) else .poll (k + 1) }

/-- `uint64_t diff = head - agent->processed_delimiter` -/
def headDiff (head processedDelimiter : ℕ) : ℕ := (head + 2 ^ 64 - processedDelimiter) % 2 ^ 64

def readHead (k n : ℕ) (read : List ℕ) (earliestTransmitHead minDiff : ℕ) : State α :=
  let head := s.transmitHeads n
  let diff := headDiff head s.processedDelimiter
  let earliest := if diff ≤ minDiff then head else earliestTransmitHead
  let min := if diff ≤ minDiff then diff else minDiff
  { s with
    pc :=
      if n + 1 < outputsCount then .readHead k (n + 1) (read ++ [head]) earliest min
      else .setTail k (read ++ [head]) earliest }

/-- `(earliest_transmit_head - 1) & (IXGBE_RING_SIZE - 1)`, of 32 bits. -/
def setTail (k earliestTransmitHead : ℕ) : State α :=
  { s with
    rdt := wrap ((earliestTransmitHead + 2 ^ 32 - 1) % 2 ^ 32)
    pc := .poll (k + 1) }

def flush (n : ℕ) : State α :=
  { s with
    tdt := Function.update s.tdt n s.processedDelimiter
    pc := if n + 1 < outputsCount then .flush (n + 1) else .poll 0 }

/-- The loop goes on with a packet, or the call ends; with packets to flush, after flushing them. -/
def poll (k : ℕ) : State α :=
  { s with
    pc :=
      if k < flushPeriod ∧ descriptorDone (s.rings 0 s.processedDelimiter) = true then .handle k
      else if k ≠ 0 then .flush 0 else .poll 0 }

/-- A step of the driver; the handler leaves the packet and the lengths, if it is called. -/
def drive (packet : α) (lengths : ℕ → BitVec 16) : State α :=
  match s.pc with
  | .poll k => s.poll k
  | .handle k => s.handle k packet lengths
  | .write k n => s.write outputsCount k n
  | .readHead k n read earliest minDiff => s.readHead outputsCount k n read earliest minDiff
  | .setTail k _ earliest => s.setTail k earliest
  | .flush n => s.flush outputsCount n

end State

/-! ### Runs -/

/-- What happens in a step. -/
inductive Action (α : Type)
  | receive (packet : α) (metadata : Metadata)
  | transmit (n : ℕ)
  | writeBack (n : ℕ)
  | drive (packet : α) (lengths : ℕ → BitVec 16)

/-- A step, if it is possible. -/
def step (outputsCount : ℕ) (s : State α) : Action α → Option (State α)
  | .receive packet metadata =>
    if s.rdh ≠ s.rdt ∧ descriptorDone metadata = true then some (s.receive packet metadata) else none
  | .transmit n => if n < outputsCount ∧ s.tdh n ≠ s.tdt n then some (s.transmit n) else none
  | .writeBack n =>
    if n < outputsCount then
      match s.writeBacks n with
      | [] => none
      | head :: rest => some (s.writeBack n head rest)
    else none
  | .drive packet lengths => some (s.drive outputsCount packet lengths)

def run (outputsCount : ℕ) (s : State α) : List (Action α) → Option (State α)
  | [] => some s
  | a :: as => (step outputsCount s a).bind fun s => run outputsCount s as

end Ixgbe
end Klint
