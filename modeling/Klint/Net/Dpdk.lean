/-
# The main loop on DPDK

The receive and transmit loops of `env/src/net/dpdk/main.c`: a burst of packets
is received from a device, the network function queues each of them for some
devices, and each queue is transmitted, with the buffers that are refused given
back to their pool. Buffers are their addresses; the rewriting of Ethernet headers
is left out, as nothing here depends on it.

A packet that is not queued for any device keeps its buffer: `dpdk_returns` says
for which runs every buffer is given back once.
-/
import Klint.Net.Packet
import Mathlib.Algebra.BigOperators.Group.Finset.Basic

namespace Klint
namespace Dpdk

/-- `MAX_DEVICES`. -/
def maxDevices : ℕ := 2

/-- `struct rte_mbuf`, with its address. -/
structure Mbuf where
  addr : ℕ
  port : UInt16
  dataLen : ℕ
  data : ℕ → UInt8

/-- The number of devices and `BATCH_SIZE`. -/
structure Driver where
  devicesCount : ℕ
  batchSize : ℕ

/-- `bufs_to_tx` and `bufs_to_tx_count`. In an iteration a count grows by one for
each packet at most, so it is a natural number. -/
structure Queues where
  bufsToTx : ℕ → ℕ → ℕ
  bufsToTxCount : ℕ → ℕ

/-- The call of a network function for a packet. -/
inductive NetCall where
  | none
  | transmit (device : UInt16)
  | flood
  | floodExcept (disabledDevices : UInt16 → Bool)

namespace Queues

/-- Queue a buffer for a device; `none` for a write past `bufs_to_tx` or one of
its rows. -/
def push (drv : Driver) (q : Queues) (device tag : ℕ) : Option Queues :=
  if device < maxDevices ∧ q.bufsToTxCount device < drv.batchSize then
    some
      { bufsToTx := Function.update q.bufsToTx device
          (Function.update (q.bufsToTx device) (q.bufsToTxCount device) tag)
        bufsToTxCount := Function.update q.bufsToTxCount device (q.bufsToTxCount device + 1) }
  else none

/-- The queue of a device. -/
def pending (q : Queues) (device : ℕ) : List ℕ := (List.range (q.bufsToTxCount device)).map (q.bufsToTx device)

/-- `bufs_to_tx_count[device] = 0`. -/
def reset (q : Queues) (device : ℕ) : Queues :=
  { q with bufsToTxCount := Function.update q.bufsToTxCount device 0 }

/-- The static variables before the loop. -/
def empty : Queues := ⟨fun _ _ => 0, fun _ => 0⟩

end Queues

variable (drv : Driver)

/-- `net_transmit`, `net_flood` and `net_flood_except`, on a packet from a device. -/
def netCall (q : Queues) (port : UInt16) (tag : ℕ) : NetCall → Option Queues
  | .none => some q
  | .transmit device => q.push drv device.toNat tag
  | .flood =>
    (List.range drv.devicesCount).foldlM (fun q device =>
      if port.toNat ≠ device then q.push drv device tag else some q) q
  | .floodExcept disabledDevices =>
    (List.range drv.devicesCount).foldlM (fun q device =>
      if port.toNat ≠ device ∧ disabledDevices (UInt16.ofNat device) = false then q.push drv device tag else some q) q

/-- `n++` for an `int16_t`. -/
def incr16 (n : ℤ) : ℤ := if n = 32767 then -32768 else n + 1

/-- `bufs[n]`; `none` for a read outside what was received. -/
def readBuf (bufs : List Mbuf) (n : ℤ) : Option Mbuf := if n < 0 then none else bufs[n.toNat]?

section Loop

variable {σ : Type} (nfHandle : σ → NetPacket → σ × NetCall)

/-- The packet that is made of a buffer. -/
def packetOf (buf : Mbuf) (time : ℕ) : NetPacket := ⟨buf.data, buf.dataLen, time, buf.port⟩

/-- The loop over the packets of a burst, in front of its test, with at most `fuel`
iterations to go. -/
def receive (bufs : List Mbuf) (time : ℕ → ℕ) : ℕ → ℤ → σ → Queues → Option (σ × Queues)
  | 0, _, _, _ => none
  | fuel + 1, n, st, q =>
    if n < bufs.length then
      match readBuf bufs n with
      | none => none
      | some buf =>
        let r := nfHandle st (packetOf buf (time n.toNat))
        match netCall drv q buf.port buf.addr r.2 with
        | none => none
        | some q => receive bufs time fuel (incr16 n) r.1 q
    else some (st, q)

/-- The buffers that `rte_eth_tx_burst` takes, and those that `rte_pktmbuf_free` is
called on. -/
structure GivenBack where
  accepted : List ℕ
  freed : List ℕ

/-- The loop over the out devices, for the first ones; `nbTx` is what
`rte_eth_tx_burst` returns for each. -/
def transmitAll (nbTx : ℕ → ℕ) (q : Queues) : ℕ → GivenBack × Queues
  | 0 => (⟨[], []⟩, q)
  | outDevice + 1 =>
    let r := transmitAll nbTx q outDevice
    let queue := r.2.pending outDevice
    (⟨r.1.accepted ++ queue.take (nbTx outDevice), r.1.freed ++ queue.drop (nbTx outDevice)⟩, r.2.reset outDevice)

/-- What the environment does in an iteration over a device: the buffers received,
the time at each packet, and the number of packets each device accepts. -/
structure Burst where
  bufs : List Mbuf
  time : ℕ → ℕ
  nbTx : ℕ → ℕ

/-- The body of the loop over the devices. An iteration over more packets than the
burst has is one that has read outside of it. -/
def iteration (burst : Burst) (st : σ) (q : Queues) : Option (GivenBack × σ × Queues) :=
  match receive drv nfHandle burst.bufs burst.time (burst.bufs.length + 1) 0 st q with
  | none => none
  | some (st, q) =>
    let r := transmitAll burst.nbTx q drv.devicesCount
    some (r.1, st, r.2)

/-- At the end of each iteration every buffer received in it has been given back
once, and nothing was written or read outside the arrays. -/
def AllReturned : σ → Queues → List Burst → Prop
  | _, _, [] => True
  | st, q, burst :: bursts => ∃ given st' q', iteration drv nfHandle burst st q = some (given, st', q') ∧
      (∀ buf ∈ burst.bufs, given.accepted.count buf.addr + given.freed.count buf.addr = 1) ∧
      AllReturned st' q' bursts

/-! ### The calls of the network function -/

/-- The devices that a call queues the packet for. -/
def targets (port : UInt16) : NetCall → List ℕ
  | .none => []
  | .transmit device => [device.toNat]
  | .flood => (List.range drv.devicesCount).filter fun device => port.toNat ≠ device
  | .floodExcept disabledDevices => (List.range drv.devicesCount).filter fun device =>
      port.toNat ≠ device ∧ disabledDevices (UInt16.ofNat device) = false

/-- The packet is handed to one device, and it exists. -/
def ToOneDevice (port : UInt16) (call : NetCall) : Prop :=
  ((targets drv port call).filter (· < drv.devicesCount)).length = 1

instance (port : UInt16) (call : NetCall) : Decidable (ToOneDevice drv port call) := inferInstanceAs (Decidable (_ = 1))

/-- The calls for the packets from number `n` on. -/
def decisions (time : ℕ → ℕ) : ℕ → σ → List Mbuf → List (Mbuf × NetCall)
  | _, _, [] => []
  | n, st, buf :: bufs =>
    let r := nfHandle st (packetOf buf (time n))
    (buf, r.2) :: decisions time (n + 1) r.1 bufs

/-- The state of the network function after them. -/
def afterAll (time : ℕ → ℕ) : ℕ → σ → List Mbuf → σ
  | _, st, [] => st
  | n, st, buf :: bufs => afterAll time (n + 1) (nfHandle st (packetOf buf (time n))).1 bufs

/-- Every burst is short enough for the loop's counter, and every packet is handed
to one device. -/
def AllToOneDevice : σ → List Burst → Prop
  | _, [] => True
  | st, burst :: bursts => burst.bufs.length ≤ 32767 ∧
      (∀ d ∈ decisions nfHandle burst.time 0 st burst.bufs, ToOneDevice drv d.1.port d.2) ∧
      AllToOneDevice (afterAll nfHandle burst.time 0 st burst.bufs) bursts

end Loop

/-! ### The queues -/

section Queues

variable {drv} {q q' : Queues} {tag b : ℕ}

theorem push_of_lt {device : ℕ} (hd : device < maxDevices) (hc : q.bufsToTxCount device < drv.batchSize) :
    ∃ q', q.push drv device tag = some q' ∧
      q'.bufsToTxCount = Function.update q.bufsToTxCount device (q.bufsToTxCount device + 1) :=
  ⟨_, if_pos ⟨hd, hc⟩, rfl⟩

theorem push_pending {device : ℕ} (h : q.push drv device tag = some q') (e : ℕ) :
    q'.pending e = if e = device then q.pending device ++ [tag] else q.pending e := by
  unfold Queues.push at h
  split_ifs at h with hd
  obtain rfl := Option.some.inj h
  by_cases he : e = device
  · subst he
    simp only [Queues.pending, Function.update_self, List.range_succ, List.map_append, List.map_cons, List.map_nil,
      if_true]
    refine congrArg (· ++ [tag]) (List.map_congr_left fun i hi => ?_)
    exact Function.update_of_ne (List.mem_range.mp hi).ne _ _
  · simp only [Queues.pending, Function.update_of_ne he, if_neg he]

/-- The calls as a fold over their targets. -/
theorem netCall_eq (q : Queues) (port : UInt16) (tag : ℕ) (call : NetCall) :
    netCall drv q port tag call = (targets drv port call).foldlM (fun q device => q.push drv device tag) q := by
  cases call with
  | none => rfl
  | transmit device => rw [targets, List.foldlM_cons, netCall]; exact (bind_pure _).symm
  | flood =>
    rw [targets, List.foldlM_filter, netCall]
    simp only [decide_eq_true_eq]
    rfl
  | floodExcept disabledDevices =>
    rw [targets, List.foldlM_filter, netCall]
    simp only [decide_eq_true_eq]
    rfl

/-- How often a buffer is queued for the devices below a number. -/
def queued (k : ℕ) (q : Queues) (b : ℕ) : ℕ := ∑ d ∈ Finset.range k, (q.pending d).count b

theorem queued_push {k device : ℕ} (h : q.push drv device tag = some q') :
    queued k q' b = queued k q b + if tag = b then if device < k then 1 else 0 else 0 := by
  have hterm : ∀ d, (q'.pending d).count b = (q.pending d).count b +
    if d = device then if tag = b then 1 else 0 else 0 := by
    intro d
    rw [push_pending h d]
    by_cases hd : d = device
    · subst hd
      simp only [if_true, List.count_append, List.count_singleton, beq_iff_eq]
    · simp only [if_neg hd, Nat.add_zero]
  simp only [queued, hterm, Finset.sum_add_distrib, Finset.sum_ite_eq', Finset.mem_range]
  split_ifs <;> rfl

theorem queued_targets {k : ℕ} : ∀ {l : List ℕ} {q : Queues},
    l.foldlM (fun q device => q.push drv device tag) q = some q' →
    queued k q' b = queued k q b + if tag = b then (l.filter (· < k)).length else 0
  | [], q, h => by
    obtain rfl := Option.some.inj h
    simp
  | device :: l, q, h => by
    rw [List.foldlM_cons, Option.bind_eq_bind, Option.bind_eq_some_iff] at h
    obtain ⟨q₁, h₁, h⟩ := h
    rw [queued_targets h, queued_push h₁, List.filter_cons]
    by_cases htag : tag = b
    · by_cases hd : device < k <;> simp [htag, hd]
      omega
    · simp [htag]

/-- Devices below the number of devices, if there is only one. -/
theorem eq_singleton {p : ℕ → Bool} {k : ℕ} (h : (((List.range k).filter p).filter (· < k)).length = 1) :
    ∃ d < k, (List.range k).filter p = [d] := by
  have hall : ((List.range k).filter p).filter (· < k) = (List.range k).filter p :=
    List.filter_eq_self.mpr fun d hd => decide_eq_true (List.mem_range.mp (List.mem_filter.mp hd).1)
  rw [hall] at h
  obtain ⟨d, hd⟩ := List.length_eq_one_iff.mp h
  have hmem : d ∈ (List.range k).filter p := hd ▸ List.mem_singleton_self d
  exact ⟨d, List.mem_range.mp (List.mem_filter.mp hmem).1, hd⟩

/-- A packet for one device is queued for it only. -/
theorem toOneDevice_iff {port : UInt16} {call : NetCall} :
    ToOneDevice drv port call ↔ ∃ d < drv.devicesCount, targets drv port call = [d] := by
  rw [ToOneDevice]
  constructor
  · intro h
    cases call with
    | none => simp [targets] at h
    | transmit device =>
      refine ⟨device.toNat, ?_, rfl⟩
      by_contra hd
      simp [targets, hd] at h
    | flood => exact eq_singleton h
    | floodExcept disabledDevices => exact eq_singleton h
  · rintro ⟨d, hd, ht⟩
    simp [ht, hd]

/-! ### The packets of a burst -/

/-- The calls for the packets of a burst, one after the other. -/
def process (drv : Driver) (q : Queues) (ds : List (Mbuf × NetCall)) : Option Queues :=
  ds.foldlM (fun q d => netCall drv q d.1.port d.1.addr d.2) q

theorem process_cons {d : Mbuf × NetCall} {ds : List (Mbuf × NetCall)} :
    process drv q (d :: ds) = some q' ↔
      ∃ q₁, netCall drv q d.1.port d.1.addr d.2 = some q₁ ∧ process drv q₁ ds = some q' := by
  rw [process, List.foldlM_cons, Option.bind_eq_bind, Option.bind_eq_some_iff]
  rfl

/-- The number of existing devices that a packet is handed to. -/
def handed (drv : Driver) (d : Mbuf × NetCall) : ℕ :=
  ((targets drv d.1.port d.2).filter (· < drv.devicesCount)).length

theorem queued_netCall {d : Mbuf × NetCall} (h : netCall drv q d.1.port d.1.addr d.2 = some q') :
    queued drv.devicesCount q' b = queued drv.devicesCount q b + if d.1.addr = b then handed drv d else 0 :=
  queued_targets ((netCall_eq q d.1.port d.1.addr d.2).symm.trans h)

/-- A buffer of none of the packets is queued as often as before. -/
theorem queued_process_of_notMem : ∀ {ds : List (Mbuf × NetCall)} {q : Queues}, process drv q ds = some q' →
    b ∉ ds.map (·.1.addr) → queued drv.devicesCount q' b = queued drv.devicesCount q b
  | [], q, h, _ => by
    obtain rfl := Option.some.inj h
    rfl
  | d :: ds, q, h, hb => by
    obtain ⟨q₁, h₁, h⟩ := process_cons.mp h
    rw [List.map_cons, List.mem_cons, not_or] at hb
    rw [queued_process_of_notMem h hb.2, queued_netCall h₁, if_neg (Ne.symm hb.1), Nat.add_zero]

/-- The buffer of a packet is queued once more for each device it is handed to. -/
theorem queued_process : ∀ {ds : List (Mbuf × NetCall)} {q : Queues}, process drv q ds = some q' →
    (ds.map (·.1.addr)).Nodup → ∀ d ∈ ds,
      queued drv.devicesCount q' d.1.addr = queued drv.devicesCount q d.1.addr + handed drv d
  | d :: ds, q, h, hn, e, he => by
    obtain ⟨q₁, h₁, h₂⟩ := process_cons.mp h
    rw [List.map_cons, List.nodup_cons] at hn
    obtain rfl | he := List.mem_cons.mp he
    · rw [queued_process_of_notMem h₂ hn.1, queued_netCall h₁, if_pos rfl]
    · have hne : d.1.addr ≠ e.1.addr := fun heq => hn.1 (heq ▸ List.mem_map.mpr ⟨e, he, rfl⟩)
      rw [queued_process h₂ hn.2 e he, queued_netCall h₁, if_neg hne, Nat.add_zero]

/-- With each packet handed to one device and room for all of them, no write is out
of bounds, and only queues of existing devices grow. -/
theorem process_isSome (hk : drv.devicesCount ≤ maxDevices) : ∀ {ds : List (Mbuf × NetCall)} {q : Queues},
    (∀ d ∈ ds, ToOneDevice drv d.1.port d.2) → (∀ e, q.bufsToTxCount e + ds.length ≤ drv.batchSize) →
    ∃ q', process drv q ds = some q' ∧ ∀ e, drv.devicesCount ≤ e → q'.bufsToTxCount e = q.bufsToTxCount e
  | [], q, _, _ => ⟨q, rfl, fun _ _ => rfl⟩
  | d :: ds, q, hone, hroom => by
    obtain ⟨device, hdev, htargets⟩ := toOneDevice_iff.mp (hone d List.mem_cons_self)
    have hlt := hroom device
    rw [List.length_cons] at hlt
    obtain ⟨q₁, h₁, hcount⟩ := @push_of_lt drv q d.1.addr device (by omega) (by omega)
    have hcall : netCall drv q d.1.port d.1.addr d.2 = some q₁ := by
      rw [netCall_eq, htargets, List.foldlM_cons, h₁]
      rfl
    obtain ⟨q', h', hq'⟩ := process_isSome hk (fun e he => hone e (List.mem_cons_of_mem _ he)) fun e => by
      have he := hroom e
      rw [List.length_cons] at he
      rw [hcount, Function.update_apply]
      split_ifs with hed
      · subst hed
        omega
      · omega
    refine ⟨q', process_cons.mpr ⟨q₁, hcall, h'⟩, fun e he => ?_⟩
    rw [hq' e he, hcount, Function.update_of_ne (by omega)]

end Queues

/-! ### An iteration -/

section Iteration

variable {drv} {σ : Type} {nfHandle : σ → NetPacket → σ × NetCall} {q q' : Queues} {st : σ} {b : ℕ}

theorem readBuf_natCast (bufs : List Mbuf) (n : ℕ) : readBuf bufs n = bufs[n]? := by
  rw [readBuf, if_neg (by omega), Int.toNat_natCast]

/-- With at most 32767 packets, the loop handles one after the other. -/
theorem receive_eq {bufs : List Mbuf} {time : ℕ → ℕ} (hlen : bufs.length ≤ 32767) :
    ∀ {fuel n : ℕ} {st : σ} {q : Queues}, n ≤ bufs.length → bufs.length < n + fuel →
    receive drv nfHandle bufs time fuel n st q =
      (process drv q (decisions nfHandle time n st (bufs.drop n))).map fun q' =>
        (afterAll nfHandle time n st (bufs.drop n), q')
  | 0, n, st, q, hn, hf => absurd hf (by omega)
  | fuel + 1, n, st, q, hn, hf => by
    rw [receive]
    by_cases hlt : n < bufs.length
    · rw [if_pos (by omega), readBuf_natCast, List.getElem?_eq_getElem hlt, List.drop_eq_getElem_cons hlt,
        Int.toNat_natCast]
      simp only [decisions, afterAll]
      rw [process, List.foldlM_cons]
      cases hcall : netCall drv q bufs[n].port bufs[n].addr (nfHandle st (packetOf bufs[n] (time n))).2 with
      | none => rfl
      | some q₁ =>
        have hincr : incr16 (n : ℤ) = ((n + 1 : ℕ) : ℤ) := by
          rw [incr16, if_neg (by omega), Int.natCast_succ]
        simp only [hincr]
        exact receive_eq hlen (by omega) (by omega)
    · rw [if_neg (by omega), List.drop_of_length_le (by omega)]
      rfl

/-- With more, the counter wraps and the loop reads outside the burst. -/
theorem receive_overflow {bufs : List Mbuf} {time : ℕ → ℕ} (hlen : 32767 < bufs.length) :
    ∀ {fuel n : ℕ} {st : σ} {q : Queues}, n ≤ 32767 → receive drv nfHandle bufs time fuel n st q = none
  | 0, _, _, _, _ => rfl
  | fuel + 1, n, st, q, hn => by
    rw [receive, if_pos (by omega), readBuf_natCast, List.getElem?_eq_getElem (by omega)]
    simp only []
    split
    · rfl
    · by_cases hlast : n = 32767
      · have hincr : incr16 (n : ℤ) = -32768 := by rw [incr16, if_pos (by omega)]
        rw [hincr]
        cases fuel with
        | zero => rfl
        | succ fuel => rw [receive, if_pos (by omega)]; rfl
      · have hincr : incr16 (n : ℤ) = ((n + 1 : ℕ) : ℤ) := by
          rw [incr16, if_neg (by omega), Int.natCast_succ]
        rw [hincr]
        exact receive_overflow hlen (by omega)

theorem reset_pending (q : Queues) {d e : ℕ} (h : e ≠ d) : (q.reset d).pending e = q.pending e := by
  simp only [Queues.pending, Queues.reset, Function.update_of_ne h]

theorem transmitAll_pending {nbTx : ℕ → ℕ} {d : ℕ} : ∀ {k : ℕ}, k ≤ d →
    (transmitAll nbTx q k).2.pending d = q.pending d
  | 0, _ => rfl
  | k + 1, h => by
    rw [transmitAll]
    simp only []
    rw [reset_pending _ (by omega), transmitAll_pending (by omega)]

/-- The loop over the out devices gives back what is queued. -/
theorem transmitAll_count (nbTx : ℕ → ℕ) : ∀ k : ℕ,
    (transmitAll nbTx q k).1.accepted.count b + (transmitAll nbTx q k).1.freed.count b = queued k q b
  | 0 => rfl
  | k + 1 => by
    have ih := transmitAll_count nbTx k
    have hsplit := congrArg (List.count b) (List.take_append_drop (nbTx k) (q.pending k))
    rw [List.count_append] at hsplit
    rw [transmitAll]
    simp only [transmitAll_pending (le_refl k), List.count_append]
    rw [queued, Finset.sum_range_succ, ← queued]
    omega

/-- It leaves their queues empty, and the others as they are. -/
theorem transmitAll_bufsToTxCount (nbTx : ℕ → ℕ) (e : ℕ) : ∀ k : ℕ,
    (transmitAll nbTx q k).2.bufsToTxCount e = if e < k then 0 else q.bufsToTxCount e
  | 0 => rfl
  | k + 1 => by
    rw [transmitAll]
    simp only [Queues.reset]
    rw [Function.update_apply, transmitAll_bufsToTxCount nbTx e k]
    split_ifs <;> first | rfl | omega

theorem decisions_addr (time : ℕ → ℕ) : ∀ (n : ℕ) (st : σ) (bufs : List Mbuf),
    (decisions nfHandle time n st bufs).map (·.1.addr) = bufs.map (·.addr)
  | _, _, [] => rfl
  | n, st, buf :: bufs => by rw [decisions, List.map_cons, decisions_addr time (n + 1), List.map_cons]

theorem decisions_length (time : ℕ → ℕ) (n : ℕ) (st : σ) (bufs : List Mbuf) :
    (decisions nfHandle time n st bufs).length = bufs.length := by
  rw [← List.length_map (·.1.addr), decisions_addr, List.length_map]

/-- What an iteration over a short burst comes to. -/
theorem iteration_eq {burst : Burst} (hlen : burst.bufs.length ≤ 32767) :
    iteration drv nfHandle burst st q =
      (process drv q (decisions nfHandle burst.time 0 st burst.bufs)).map fun q' =>
        ((transmitAll burst.nbTx q' drv.devicesCount).1, afterAll nfHandle burst.time 0 st burst.bufs,
          (transmitAll burst.nbTx q' drv.devicesCount).2) := by
  have hreceive := @receive_eq drv σ nfHandle burst.bufs burst.time hlen (burst.bufs.length + 1) 0 st q (Nat.zero_le _)
    (by omega)
  rw [List.drop_zero, Nat.cast_zero] at hreceive
  rw [iteration, hreceive]
  cases process drv q (decisions nfHandle burst.time 0 st burst.bufs) <;> rfl

theorem iteration_overflow {burst : Burst} (hlen : 32767 < burst.bufs.length) :
    iteration drv nfHandle burst st q = none := by
  have hreceive := @receive_overflow drv σ nfHandle burst.bufs burst.time hlen (burst.bufs.length + 1) 0 st q
    (Nat.zero_le _)
  rw [Nat.cast_zero] at hreceive
  rw [iteration, hreceive]

/-- The queues at the start of an iteration. -/
def AllEmpty (q : Queues) : Prop := ∀ e, q.bufsToTxCount e = 0

theorem queued_of_allEmpty (hq : AllEmpty q) (k : ℕ) : queued k q b = 0 := by
  refine Finset.sum_eq_zero fun d _ => ?_
  rw [Queues.pending, hq d]
  rfl

/-- `rte_eth_rx_burst` hands over the buffers: each is there once, and there are no
more than it was asked for. -/
structure Burst.Received (drv : Driver) (burst : Burst) : Prop where
  nodup : (burst.bufs.map (·.addr)).Nodup
  length_le : burst.bufs.length ≤ drv.batchSize

/-- If every packet goes to one device, the iteration ends, with the queues empty. -/
theorem iteration_isSome (hk : drv.devicesCount ≤ maxDevices) {burst : Burst} (hb : burst.Received drv)
    (hq : AllEmpty q)
    (hlen : burst.bufs.length ≤ 32767)
    (hone : ∀ d ∈ decisions nfHandle burst.time 0 st burst.bufs, ToOneDevice drv d.1.port d.2) :
    ∃ given q', iteration drv nfHandle burst st q =
      some (given, afterAll nfHandle burst.time 0 st burst.bufs, q') ∧ AllEmpty q' := by
  obtain ⟨q₁, h₁, hcount⟩ := process_isSome hk hone fun e => by
    rw [hq e, decisions_length, Nat.zero_add]
    exact hb.length_le
  refine ⟨_, _, by rw [iteration_eq hlen, h₁]; rfl, fun e => ?_⟩
  rw [transmitAll_bufsToTxCount]
  split_ifs with he
  · rfl
  · rw [hcount e (by omega), hq e]

/-- In an iteration that ends, a buffer is given back as often as its packet was
handed to an existing device. -/
theorem iteration_count {burst : Burst} (hb : burst.Received drv) (hq : AllEmpty q) {given : GivenBack} {st' : σ}
    (h : iteration drv nfHandle burst st q = some (given, st', q')) :
    burst.bufs.length ≤ 32767 ∧ ∀ d ∈ decisions nfHandle burst.time 0 st burst.bufs,
      given.accepted.count d.1.addr + given.freed.count d.1.addr = handed drv d := by
  have hlen : burst.bufs.length ≤ 32767 := by
    by_contra hlt
    rw [iteration_overflow (by omega)] at h
    cases h
  refine ⟨hlen, fun d hd => ?_⟩
  rw [iteration_eq hlen, Option.map_eq_some_iff] at h
  obtain ⟨q₁, h₁, heq⟩ := h
  obtain ⟨rfl, -, -⟩ := heq
  rw [transmitAll_count, queued_process h₁ (by rw [decisions_addr]; exact hb.nodup) d hd, queued_of_allEmpty hq,
    Nat.zero_add]

/-- Every buffer of an iteration is given back once exactly when every packet is
handed to one device. -/
theorem iteration_iff (hk : drv.devicesCount ≤ maxDevices) {burst : Burst} (hb : burst.Received drv) (hq : AllEmpty q) :
    (∃ given st' q', iteration drv nfHandle burst st q = some (given, st', q') ∧
      ∀ buf ∈ burst.bufs, given.accepted.count buf.addr + given.freed.count buf.addr = 1) ↔
    burst.bufs.length ≤ 32767 ∧ ∀ d ∈ decisions nfHandle burst.time 0 st burst.bufs, ToOneDevice drv d.1.port d.2 := by
  have hmem : ∀ d ∈ decisions nfHandle burst.time 0 st burst.bufs, ∃ buf ∈ burst.bufs, buf.addr = d.1.addr :=
    fun d hd => List.mem_map.mp (decisions_addr burst.time 0 st burst.bufs ▸ List.mem_map.mpr ⟨d, hd, rfl⟩)
  constructor
  · rintro ⟨given, st', q', h, hreturned⟩
    obtain ⟨hlen, hcount⟩ := iteration_count hb hq h
    refine ⟨hlen, fun d hd => ?_⟩
    obtain ⟨buf, hbuf, haddr⟩ := hmem d hd
    exact (hcount d hd).symm.trans (haddr ▸ hreturned buf hbuf)
  · rintro ⟨hlen, hone⟩
    obtain ⟨given, q', h, -⟩ := iteration_isSome hk hb hq hlen hone
    refine ⟨given, _, q', h, fun buf hbuf => ?_⟩
    have haddr : buf.addr ∈ (decisions nfHandle burst.time 0 st burst.bufs).map (·.1.addr) :=
      decisions_addr burst.time 0 st burst.bufs ▸ List.mem_map.mpr ⟨buf, hbuf, rfl⟩
    obtain ⟨d, hd, hdaddr⟩ := List.mem_map.mp haddr
    rw [← hdaddr]
    exact ((iteration_count hb hq h).2 d hd).trans (hone d hd)

theorem allReturned_iff (hk : drv.devicesCount ≤ maxDevices) : ∀ {bursts : List Burst} {st : σ} {q : Queues},
    (∀ burst ∈ bursts, burst.Received drv) → AllEmpty q →
    (AllReturned drv nfHandle st q bursts ↔ AllToOneDevice drv nfHandle st bursts)
  | [], _, _, _, _ => Iff.rfl
  | burst :: bursts, st, q, hb, hq => by
    have hburst := hb burst List.mem_cons_self
    have hbursts : ∀ b ∈ bursts, b.Received drv := fun b h => hb b (List.mem_cons_of_mem _ h)
    rw [AllReturned, AllToOneDevice]
    constructor
    · rintro ⟨given, st', q', h, hreturned, hrest⟩
      obtain ⟨hlen, hone⟩ := (iteration_iff hk hburst hq).mp ⟨given, st', q', h, hreturned⟩
      obtain ⟨given', q'', h', hq'⟩ := iteration_isSome hk hburst hq hlen hone
      obtain ⟨-, rfl, rfl⟩ : given = given' ∧ st' = _ ∧ q' = q'' := by simpa using h.symm.trans h'
      exact ⟨hlen, hone, (allReturned_iff hk hbursts hq').mp hrest⟩
    · rintro ⟨hlen, hone, hrest⟩
      obtain ⟨given', q'', h', hq'⟩ := iteration_isSome hk hburst hq hlen hone
      obtain ⟨given, st', q', h, hreturned⟩ := (iteration_iff hk hburst hq).mpr ⟨hlen, hone⟩
      obtain ⟨-, rfl, rfl⟩ : given = given' ∧ st' = _ ∧ q' = q'' := by simpa using h.symm.trans h'
      exact ⟨given, _, _, h, hreturned, (allReturned_iff hk hbursts hq').mpr hrest⟩

end Iteration

/-- **Buffers.** For every batch size, every network function and every sequence of bursts, every buffer is
given back once in its iteration, with no access outside the arrays, exactly when every burst has at most
32767 packets and every packet is handed to one existing device. -/
theorem dpdk_returns {σ : Type} (drv : Driver) (hk : drv.devicesCount ≤ maxDevices)
    (nfHandle : σ → NetPacket → σ × NetCall) (st : σ) (bursts : List Burst)
    (hb : ∀ burst ∈ bursts, burst.Received drv) :
    AllReturned drv nfHandle st Queues.empty bursts ↔ AllToOneDevice drv nfHandle st bursts :=
  allReturned_iff hk hb fun _ => rfl

/-- A network function that counts its packets: those from the first device go to the second, the others are
flooded. -/
def demoHandle (n : ℕ) (packet : NetPacket) : ℕ × NetCall := (n + 1, if packet.device = 0 then .transmit 1 else .flood)

/-- Two packets from the first of two devices, of which the second device accepts one, and then a packet from the
second one. -/
def demoBursts : List Burst :=
  [⟨[⟨1, 0, 60, fun _ => 0⟩, ⟨2, 0, 60, fun _ => 0⟩], fun _ => 0, fun _ => 1⟩,
   ⟨[⟨1, 1, 60, fun _ => 0⟩], fun _ => 5, fun _ => 1⟩]

theorem demoBursts_received : ∀ burst ∈ demoBursts, burst.Received ⟨2, 2⟩ := by
  intro burst h
  simp only [demoBursts, List.mem_cons, List.not_mem_nil, or_false] at h
  rcases h with rfl | rfl
  · exact ⟨by decide, by decide⟩
  · exact ⟨by decide, by decide⟩

theorem dpdk_returns_refused : AllReturned ⟨2, 2⟩ demoHandle 0 Queues.empty demoBursts := by
  apply (dpdk_returns ⟨2, 2⟩ (by decide) demoHandle 0 demoBursts demoBursts_received).mpr
  exact ⟨by decide, by decide, by decide, by decide, trivial⟩

/-- A burst of one packet from the first device. -/
def demoBurst : Burst where
  bufs := [⟨1, 0, 60, fun _ => 0⟩]
  time := fun _ => 0
  nbTx := fun _ => 1

theorem demoBurst_received : ∀ burst ∈ [demoBurst], burst.Received ⟨2, 1⟩ := by
  intro burst h
  obtain rfl := List.mem_singleton.mp h
  exact ⟨by decide, by decide⟩

/-- A packet that is dropped keeps its buffer. -/
theorem dpdk_returns_not : ¬ ∀ (drv : Driver) (nfHandle : Unit → NetPacket → Unit × NetCall) (bursts : List Burst),
    drv.devicesCount ≤ maxDevices → (∀ burst ∈ bursts, burst.Received drv) →
    AllReturned drv nfHandle () Queues.empty bursts := by
  intro h
  have hret := h ⟨2, 1⟩ (fun st _ => (st, .none)) [demoBurst] (by decide) demoBurst_received
  obtain ⟨-, hone, -⟩ := (allReturned_iff (by decide) demoBurst_received fun _ => rfl).mp hret
  exact Nat.zero_ne_one (hone _ List.mem_cons_self)

end Dpdk
end Klint
