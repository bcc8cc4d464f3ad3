/-
# Who owns a descriptor

The registers hold indices, so what they say depends on counters that the code does not have: how
many packets have been received, processed, handed to each output, transmitted by it and reported back,
and up to which the NIC may receive. `Inv` says that the registers and the rings are those of such
counters, in the order that keeps the NIC's descriptors apart from the program's: no output is a whole
ring behind the receive tail.

`Inv.step` says that every step of the NIC and of the driver keeps it.
-/
import Klint.Net.Ixgbe

namespace Klint
namespace Ixgbe

variable {α : Type} {N : ℕ}

/-! ### The invariant -/

/-- What the registers are the indices of: the packets processed and put in the rings, those the NIC may
receive, and for each output those handed to it, the last head it wrote back and those it is
about to write back. -/
structure Counters where
  delimiter : ℕ
  tail : ℕ
  flushed : ℕ → ℕ
  written : ℕ → ℕ
  pending : ℕ → List ℕ

/-- The registers of the receive queue and the delimiter are indices of the counters. -/
structure Registers (s : State α) (c : Counters) : Prop where
  processedDelimiter : s.processedDelimiter = c.delimiter % 256
  rdh : s.rdh = s.received.length % 256
  rdt : s.rdt = c.tail % 256
  delimiter_le : c.delimiter ≤ s.received.length
  received_le : s.received.length ≤ c.tail
  tail_mod : c.tail % 64 = 63

/-- So are those of an output, and the heads it writes back. They are in order and at each end of a recycle
period and only there; the receive tail is less than a ring ahead of the last one in memory. -/
structure Output (s : State α) (c : Counters) (n : ℕ) : Prop where
  tdh : s.tdh n = s.sent n % 256
  tdt : s.tdt n = c.flushed n % 256
  transmitHead : s.transmitHeads n = c.written n % 256
  writeBacks : s.writeBacks n = (c.pending n).map (· % 256)
  tail_lt : c.tail < c.written n + 256
  sent_le : s.sent n ≤ c.flushed n
  flushed_le : c.flushed n ≤ c.delimiter
  sorted : (c.written n :: c.pending n).Pairwise (· ≤ ·)
  multiple : ∀ v ∈ c.written n :: c.pending n, 64 ∣ v
  le : ∀ v ∈ c.written n :: c.pending n, v ≤ s.sent n
  last : (c.pending n).getLastD (c.written n) = 64 * (s.sent n / 64)

/-- Up to where the descriptors of a ring have been written for transmission. -/
def Pc.filled (pc : Pc) (delimiter n : ℕ) : ℕ :=
  match pc with
  | .write _ m => if n < m then delimiter + 1 else delimiter
  | _ => delimiter

/-- The heads that a recycle has read. -/
def Pc.heads : Pc → Option (List ℕ)
  | .readHead _ _ read _ _ => some read
  | .setTail _ read _ => some read
  | _ => none

/-- DD is set on the packets that wait, and RS on the last descriptor of each recycle period. -/
structure Rings (N received : ℕ) (rings : ℕ → ℕ → Metadata) (filled sent : ℕ → ℕ) : Prop where
  done : ∀ i < 256, descriptorDone (rings 0 i) = true ↔ ∃ j, filled 0 ≤ j ∧ j < received ∧ j % 256 = i
  status : ∀ n < N, ∀ j, sent n ≤ j → j < filled n → reportStatus (rings n (j % 256)) = decide (j % 64 = 63)

/-- The packets are received into the buffers in turn, stay there, and are processed in this order. -/
structure History (buffer : ℕ → α) (received processed : List (ℕ × α)) : Prop where
  indices : ∀ j e, received[j]? = some e → e.1 = j % 256
  contents : ∀ j e, processed.length ≤ j → received[j]? = some e → buffer e.1 = e.2
  processed : processed <+: received

/-- What the recycling loop has read of the first `n` outputs: heads that these have since passed, if anything; the
earliest of them is the one it has picked. -/
structure Recycling (n : ℕ) (read : List ℕ) (earliest minDiff : ℕ) (c : Counters) : Prop where
  delimiter : 64 ∣ c.delimiter
  read : ∃ heads : List ℕ, read = heads.map (· % 256) ∧ heads.length = n ∧
    (∀ m < n, ∃ v, heads[m]? = some v ∧ v ≤ c.written m) ∧
    (∀ v ∈ heads, 64 ∣ v ∧ v < c.delimiter ∧ c.tail < v + 256) ∧
    (heads = [] ∧ minDiff = 2 ^ 64 - 1 ∨ ∃ e ∈ heads, (∀ v ∈ heads, e ≤ v) ∧ earliest = e % 256 ∧
      minDiff = State.headDiff (e % 256) (c.delimiter % 256))

/-- What holds where the driver is. -/
def At (N received processed : ℕ) (c : Counters) : Pc → Prop
  | .poll k => processed = c.delimiter ∧ (k = 0 → ∀ n < N, c.flushed n = c.delimiter)
  | .handle _ => processed = c.delimiter ∧ c.delimiter < received
  | .write _ n => processed = c.delimiter + 1 ∧ c.delimiter < received ∧ n < N
  | .readHead _ n read earliest minDiff => processed = c.delimiter ∧ n < N ∧ (∀ m < N, c.flushed m < c.delimiter) ∧
    Recycling n read earliest minDiff c
  | .setTail _ read earliest => processed = c.delimiter ∧ (∀ m < N, c.flushed m < c.delimiter) ∧
    ∃ minDiff, Recycling N read earliest minDiff c
  | .flush n => processed = c.delimiter ∧ n < N ∧ ∀ m < n, c.flushed m = c.delimiter

/-- What every step keeps. -/
structure Inv (N : ℕ) (s : State α) (c : Counters) : Prop where
  registers : Registers s c
  output : ∀ n < N, Output s c n
  rings : Rings N s.received.length s.rings (s.pc.filled c.delimiter) s.sent
  history : History s.buffer s.received s.processed
  atPc : At N s.received.length s.processed.length c s.pc

/-- The counters of the first state. -/
def Counters.initial : Counters where
  delimiter := 0
  tail := 255
  flushed := fun _ => 0
  written := fun _ => 0
  pending := fun _ => []

theorem init_inv (buffer : ℕ → α) : Inv N (init buffer) .initial where
  registers := ⟨rfl, rfl, rfl, le_rfl, Nat.zero_le _, rfl⟩
  output _ _ := ⟨rfl, rfl, rfl, rfl, Nat.lt_succ_self 255, le_rfl, le_rfl, List.pairwise_singleton _ _,
    fun v hv => List.mem_singleton.mp hv ▸ ⟨0, rfl⟩, fun v hv => (List.mem_singleton.mp hv).le,
    show 0 = 64 * (0 / 64) by decide⟩
  rings := by
    refine ⟨fun i _ => ⟨fun h => ?_, fun ⟨j, _, hj, _⟩ => absurd hj (Nat.not_lt_zero j)⟩,
      fun _ _ j _ hj => absurd hj (Nat.not_lt_zero j)⟩
    have hzero : descriptorDone (0 : Metadata) = true := h
    exact absurd hzero (by decide)
  history := ⟨fun j e h => (by cases h), fun j e _ h => (by cases h), List.nil_prefix⟩
  atPc := ⟨rfl, fun _ _ _ => rfl⟩

variable {s s' : State α} {c : Counters}

/-! ### The counters of a state -/

/-- What the NIC's steps may change of what holds where the driver is. -/
theorem Recycling.nic {c' : Counters} {n earliest minDiff : ℕ} {read : List ℕ} (h : Recycling n read earliest minDiff c)
    (hd : c'.delimiter = c.delimiter) (ht : c'.tail = c.tail) (hw : ∀ m < n, c.written m ≤ c'.written m) :
    Recycling n read earliest minDiff c' := by
  obtain ⟨hdvd, heads, hread, hlen, hpast, hheads, hpick⟩ := h
  refine ⟨hd ▸ hdvd, heads, hread, hlen, fun m hm => ?_, fun v hv => ?_, hd ▸ hpick⟩
  · obtain ⟨v, hv, hle⟩ := hpast m hm
    exact ⟨v, hv, hle.trans (hw m hm)⟩
  · rw [hd, ht]
    exact hheads v hv

theorem At.nic {c' : Counters} {received received' processed : ℕ} : ∀ {pc : Pc}, At N received processed c pc →
    received ≤ received' → c'.delimiter = c.delimiter → c'.tail = c.tail → c'.flushed = c.flushed →
    (∀ m < N, c.written m ≤ c'.written m) → At N received' processed c' pc
  | .poll _, h, _, hd, _, hf, _ => ⟨hd ▸ h.1, by rw [hd, hf]; exact h.2⟩
  | .handle _, h, hr, hd, _, _, _ => ⟨hd ▸ h.1, hd ▸ h.2.trans_le hr⟩
  | .write _ _, h, hr, hd, _, _, _ => ⟨hd ▸ h.1, hd ▸ h.2.1.trans_le hr, h.2.2⟩
  | .readHead _ _ _ _ _, ⟨hp, hn, hflushed, hrec⟩, _, hd, ht, hf, hw =>
    ⟨hd ▸ hp, hn, by rw [hd, hf]; exact hflushed, hrec.nic hd ht fun m hm => hw m (hm.trans hn)⟩
  | .setTail _ _ _, ⟨hp, hflushed, minDiff, hrec⟩, _, hd, ht, hf, hw =>
    ⟨hd ▸ hp, by rw [hd, hf]; exact hflushed, minDiff, hrec.nic hd ht hw⟩
  | .flush _, h, _, hd, _, hf, _ => ⟨hd ▸ h.1, h.2.1, by rw [hd, hf]; exact h.2.2⟩

/-- A packet is being processed, or the handler has had all those before the delimiter. -/
theorem At.processed {received processed : ℕ} : ∀ {pc : Pc}, At N received processed c pc → c.delimiter ≤ processed
  | .poll _, h => h.1.ge
  | .handle _, h => h.1.ge
  | .write _ _, h => h.1.symm ▸ Nat.le_succ _
  | .readHead _ _ _ _ _, h => h.1.ge
  | .setTail _ _ _, h => h.1.ge
  | .flush _, h => h.1.ge

theorem At.filled {received processed n : ℕ} : ∀ {pc : Pc}, At N received processed c pc → c.delimiter ≤ received →
    pc.filled c.delimiter n ≤ received
  | .poll _, _, hr => hr
  | .handle _, _, hr => hr
  | .write _ m, h, hr => by
    simp only [Pc.filled]
    split
    · exact h.2.1
    · exact hr
  | .readHead _ _ _ _ _, _, hr => hr
  | .setTail _ _ _, _, hr => hr
  | .flush _, _, hr => hr

/-- A descriptor that is handed to an output has been written. -/
theorem Pc.le_filled (pc : Pc) (delimiter n : ℕ) : delimiter ≤ pc.filled delimiter n := by
  unfold Pc.filled
  split
  · split
    · exact Nat.le_succ _
    · exact le_rfl
  · exact le_rfl

namespace Output

variable {n : ℕ} (h : Output s c n)
include h

theorem written_le : c.written n ≤ s.sent n := h.le _ List.mem_cons_self

theorem lt_sent : c.tail < s.sent n + 256 := h.tail_lt.trans_le (Nat.add_le_add_right h.written_le 256)

theorem lt_delimiter : c.tail < c.delimiter + 256 :=
  h.lt_sent.trans_le (Nat.add_le_add_right (h.sent_le.trans h.flushed_le) 256)

/-- What a step leaves of an output that it does not touch. -/
theorem congr {c' : Counters} (hs : s'.tdh n = s.tdh n ∧ s'.tdt n = s.tdt n ∧ s'.transmitHeads n = s.transmitHeads n ∧
      s'.writeBacks n = s.writeBacks n ∧ s'.sent n = s.sent n)
    (hc : c'.flushed n = c.flushed n ∧ c'.written n = c.written n ∧ c'.pending n = c.pending n) (ht : c'.tail = c.tail)
    (hd : c.delimiter ≤ c'.delimiter) : Output s' c' n := by
  obtain ⟨htdh, htdt, hhead, hwb, hsent⟩ := hs
  obtain ⟨hflushed, hwritten, hpending⟩ := hc
  refine ⟨?_, ?_, ?_, ?_, ?_, ?_, ?_, ?_, ?_, ?_, ?_⟩
  · rw [htdh, hsent, h.tdh]
  · rw [htdt, hflushed, h.tdt]
  · rw [hhead, hwritten, h.transmitHead]
  · rw [hwb, hpending, h.writeBacks]
  · rw [ht, hwritten]
    exact h.tail_lt
  · rw [hsent, hflushed]
    exact h.sent_le
  · rw [hflushed]
    exact h.flushed_le.trans hd
  · rw [hwritten, hpending]
    exact h.sorted
  · rw [hwritten, hpending]
    exact h.multiple
  · rw [hwritten, hpending, hsent]
    exact h.le
  · rw [hwritten, hpending, hsent]
    exact h.last

end Output

/-! ### The rings -/

section Rings

variable {received : ℕ} {rings : ℕ → ℕ → Metadata} {filled filled' sent sent' : ℕ → ℕ} {m : Metadata}

theorem Rings.congr (h : Rings N received rings filled sent) (hN : 0 < N) (hf : ∀ n < N, filled' n = filled n)
    (hs : ∀ n < N, sent n ≤ sent' n) : Rings N received rings filled' sent' where
  done i hi := by
    rw [hf 0 hN]
    exact h.done i hi
  status n hn j hj hlt := h.status n hn j ((hs n hn).trans hj) (hf n hn ▸ hlt)

theorem Rings.receive (h : Rings N received rings filled sent) (hN : 0 < N) (hf : ∀ n < N, filled n ≤ received)
    (hs : received < sent 0 + 256) (hm : descriptorDone m = true) :
    Rings N (received + 1) (Function.update rings 0 (Function.update (rings 0) (received % 256) m)) filled sent := by
  refine ⟨fun i hi => ?_, fun n hn j hj hlt => ?_⟩
  · rw [Function.update_self]
    by_cases he : i = received % 256
    · rw [he, Function.update_self]
      exact iff_of_true hm ⟨received, hf 0 hN, Nat.lt_succ_self _, rfl⟩
    · rw [Function.update_of_ne he, h.done i hi]
      constructor
      · rintro ⟨j, hj, hlt, hji⟩
        exact ⟨j, hj, Nat.lt_succ_of_lt hlt, hji⟩
      · rintro ⟨j, hj, hlt, hji⟩
        refine ⟨j, hj, lt_of_le_of_ne (Nat.le_of_lt_succ hlt) fun hjr => he ?_, hji⟩
        rw [← hji, hjr]
  · by_cases h0 : n = 0
    · subst h0
      have hne : j % 256 ≠ received % 256 := fun he => by
        have hjr := eq_of_index_eq hj (hj.trans (hlt.le.trans (hf 0 hN))) (by have := hf 0 hN; omega) hs he
        have := hf 0 hN
        omega
      rw [Function.update_self, Function.update_of_ne hne]
      exact h.status 0 hn j hj hlt
    · rw [Function.update_of_ne h0]
      exact h.status n hn j hj hlt

/-- A descriptor is written for transmission. -/
theorem Rings.write (h : Rings N received rings filled sent) {n d : ℕ} (hd : filled n = d) (hlt : d < received)
    (hr : received ≤ d + 256) (hs : d < sent n + 256) (hdone : descriptorDone m = false)
    (hstatus : reportStatus m = decide (d % 64 = 63)) :
    Rings N received (Function.update rings n (Function.update (rings n) (d % 256) m))
      (Function.update filled n (d + 1)) sent := by
  refine ⟨fun i hi => ?_, fun n' hn' j hj hjlt => ?_⟩
  · by_cases h0 : n = 0
    · subst h0
      rw [Function.update_self, Function.update_self]
      by_cases he : i = d % 256
      · rw [he, Function.update_self, hdone]
        refine iff_of_false Bool.false_ne_true ?_
        rintro ⟨j, hj, hjr, hjd⟩
        have := eq_of_index_eq (Nat.le_of_succ_le hj) le_rfl (by omega) (by omega) hjd
        omega
      · rw [Function.update_of_ne he, h.done i hi, hd]
        constructor
        · rintro ⟨j, hj, hjr, rfl⟩
          exact ⟨j, lt_of_le_of_ne hj fun hdj => he (by rw [hdj]), hjr, rfl⟩
        · rintro ⟨j, hj, hjr, hji⟩
          exact ⟨j, Nat.le_of_succ_le hj, hjr, hji⟩
    · rw [Function.update_of_ne (Ne.symm h0), Function.update_of_ne (Ne.symm h0)]
      exact h.done i hi
  · by_cases he : n' = n
    · subst he
      rw [Function.update_self] at hjlt ⊢
      rcases Nat.lt_succ_iff_lt_or_eq.mp hjlt with hjd | rfl
      · have hne : j % 256 ≠ d % 256 := fun hi => by
          have := eq_of_index_eq hj (hj.trans hjd.le) (by omega) hs hi
          omega
        rw [Function.update_of_ne hne]
        exact h.status n' hn' j hj (hd ▸ hjd)
      · rw [Function.update_self]
        exact hstatus
    · rw [Function.update_of_ne he] at hjlt ⊢
      exact h.status n' hn' j hj hjlt

end Rings

/-! ### The history -/

section History

variable {buffer : ℕ → α} {received processed : List (ℕ × α)}

theorem History.receive (h : History buffer received processed) (hr : received.length < processed.length + 256)
    (packet : α) : History (Function.update buffer (received.length % 256) packet)
      (received ++ [(received.length % 256, packet)]) processed := by
  have hle := h.processed.length_le
  refine ⟨fun j e he => ?_, fun j e hj he => ?_, h.processed.trans (List.prefix_append _ _)⟩
  · rw [List.getElem?_append] at he
    split at he
    · exact h.indices j e he
    · next hge =>
      rw [List.getElem?_singleton] at he
      split at he
      · cases he
        rw [show j = received.length by omega]
      · cases he
  · rw [List.getElem?_append] at he
    split at he
    · next hlt =>
      have hidx := h.indices j e he
      have hne : e.1 ≠ received.length % 256 := fun hi => by
        have := eq_of_index_eq hj hle (by omega) hr (hidx ▸ hi)
        omega
      rw [Function.update_of_ne hne]
      exact h.contents j e hj he
    · rw [List.getElem?_singleton] at he
      split at he
      · cases he
        exact Function.update_self _ _ _
      · cases he

theorem History.handle (h : History buffer received processed) (hlt : processed.length < received.length)
    (hr : received.length ≤ processed.length + 256) (packet : α) :
    History (Function.update buffer (processed.length % 256) packet) received
      (processed ++ [(processed.length % 256, buffer (processed.length % 256))]) := by
  obtain ⟨e, he⟩ : ∃ e, received[processed.length]? = some e := ⟨_, List.getElem?_eq_getElem hlt⟩
  have hidx := h.indices _ e he
  have hcontent := h.contents _ e le_rfl he
  refine ⟨h.indices, fun j e' hj he' => ?_, ?_⟩
  · rw [List.length_append, List.length_singleton] at hj
    have hjr : j < received.length := (List.getElem?_eq_some_iff.mp he').1
    have hne : e'.1 ≠ processed.length % 256 := fun hi => by
      have := eq_of_index_eq (Nat.le_of_succ_le hj) le_rfl (by omega) (by omega) (h.indices j e' he' ▸ hi)
      omega
    rw [Function.update_of_ne hne]
    exact h.contents j e' (Nat.le_of_succ_le hj) he'
  · rw [← hidx, hcontent]
    obtain ⟨rest, rfl⟩ := h.processed
    rw [List.getElem?_append_right le_rfl, Nat.sub_self] at he
    obtain ⟨rest, rfl⟩ : ∃ rest', rest = e :: rest' := by
      cases rest with
      | nil => cases he
      | cons a rest =>
        cases he
        exact ⟨rest, rfl⟩
    exact ⟨rest, by rw [List.append_assoc]; rfl⟩

end History

/-! ### Steps of the NIC -/

/-- The heads that an output is about to write back when it has transmitted a descriptor. -/
def Counters.transmit (c : Counters) (n sent : ℕ) : Counters :=
  { c with pending := if sent % 64 = 63 then Function.update c.pending n (c.pending n ++ [sent + 1]) else c.pending }

theorem Output.transmit {n : ℕ} (h : Output s c n) (hlt : s.sent n < c.flushed n)
    (hstatus : reportStatus (s.rings n (s.tdh n)) = decide (s.sent n % 64 = 63)) :
    Output (s.transmit n) (c.transmit n (s.sent n)) n := by
  have hsent : (s.transmit n).sent n = s.sent n + 1 := Function.update_self _ _ _
  have htdh : (s.transmit n).tdh n = (s.sent n + 1) % 256 := by
    simp only [State.transmit, Function.update_self, wrap_eq, h.tdh, Nat.mod_add_mod]
  have hle : ∀ v ∈ c.written n :: c.pending n, v ≤ s.sent n + 1 := fun v hv => Nat.le_succ_of_le (h.le v hv)
  have hlast := h.last
  by_cases hrs : s.sent n % 64 = 63
  · have hpending : (c.transmit n (s.sent n)).pending n = c.pending n ++ [s.sent n + 1] := by
      simp only [Counters.transmit, if_pos hrs, Function.update_self]
    have hwb : (s.transmit n).writeBacks n = s.writeBacks n ++ [(s.sent n + 1) % 256] := by
      simp only [State.transmit, hstatus, hrs, decide_true, if_true, Function.update_self]
      rw [wrap_eq, h.tdh, Nat.mod_add_mod]
    have hmem : ∀ v ∈ c.written n :: (c.pending n ++ [s.sent n + 1]), v ∈ c.written n :: c.pending n ∨
      v = s.sent n + 1 :=
      fun v hv => (List.mem_append.mp hv).imp_right List.mem_singleton.mp
    refine ⟨hsent ▸ htdh, h.tdt, h.transmitHead, ?_, h.tail_lt, hsent ▸ hlt, h.flushed_le, ?_, ?_, ?_, ?_⟩
    · rw [hwb, hpending, List.map_append, h.writeBacks]
      rfl
    · rw [hpending, ← List.cons_append, List.pairwise_append]
      refine ⟨h.sorted, List.pairwise_singleton _ _, fun v hv w hw => ?_⟩
      exact List.mem_singleton.mp hw ▸ hle v hv
    · rw [hpending]
      intro v hv
      rcases hmem v hv with hv | rfl
      · exact h.multiple v hv
      · exact Nat.dvd_of_mod_eq_zero (by omega)
    · rw [hpending, hsent]
      intro v hv
      rcases hmem v hv with hv | rfl
      · exact hle v hv
      · exact le_rfl
    · rw [hpending, hsent, List.getLastD_concat]
      omega
  · have hpending : (c.transmit n (s.sent n)).pending = c.pending := by rw [Counters.transmit, if_neg hrs]
    have hwb : (s.transmit n).writeBacks = s.writeBacks := by
      simp only [State.transmit, hstatus, hrs, decide_false, Bool.false_eq_true, if_false]
    refine ⟨hsent ▸ htdh, h.tdt, h.transmitHead, ?_, h.tail_lt, hsent ▸ hlt, h.flushed_le, ?_, ?_, ?_, ?_⟩
    · rw [hwb, hpending]
      exact h.writeBacks
    · rw [hpending]
      exact h.sorted
    · rw [hpending]
      exact h.multiple
    · rw [hpending, hsent]
      exact hle
    · rw [hpending, hsent]
      show (c.pending n).getLastD (c.written n) = _
      omega

/-- The first head of those that an output is about to write back is in memory. -/
def Counters.writeBack (c : Counters) (n head : ℕ) (rest : List ℕ) : Counters :=
  { c with written := Function.update c.written n head, pending := Function.update c.pending n rest }

theorem Output.writeBack {n v : ℕ} {vs : List ℕ} (h : Output s c n) (hp : c.pending n = v :: vs) :
    Output (s.writeBack n (v % 256) (vs.map (· % 256))) (c.writeBack n v vs) n := by
  have hsorted := h.sorted
  rw [hp] at hsorted
  have hmem : ∀ w ∈ v :: vs, w ∈ c.written n :: c.pending n := fun w hw => hp ▸ List.mem_cons_of_mem _ hw
  have hle : c.written n ≤ v := (List.pairwise_cons.mp hsorted).1 v List.mem_cons_self
  have hwritten : (c.writeBack n v vs).written n = v := Function.update_self _ _ _
  have hpending : (c.writeBack n v vs).pending n = vs := Function.update_self _ _ _
  have hhead : (s.writeBack n (v % 256) (vs.map (· % 256))).transmitHeads n = v % 256 := Function.update_self _ _ _
  have hwb : (s.writeBack n (v % 256) (vs.map (· % 256))).writeBacks n = vs.map (· % 256) := Function.update_self _ _ _
  refine ⟨h.tdh, h.tdt, ?_, ?_, ?_, h.sent_le, h.flushed_le, ?_, ?_, ?_, ?_⟩
  · rw [hhead, hwritten]
  · rw [hwb, hpending]
  · rw [hwritten]
    exact h.tail_lt.trans_le (Nat.add_le_add_right hle 256)
  · rw [hwritten, hpending]
    exact (List.pairwise_cons.mp hsorted).2
  · rw [hwritten, hpending]
    exact fun w hw => h.multiple w (hmem w hw)
  · rw [hwritten, hpending]
    exact fun w hw => h.le w (hmem w hw)
  · have hlast := h.last
    rw [hp, List.getLastD_cons] at hlast
    rw [hwritten, hpending]
    exact hlast

section Nic

variable (hN : 0 < N) (h : Inv N s c)
include hN h

theorem Inv.receive {packet : α} {m : Metadata} (hne : s.rdh ≠ s.rdt) (hm : descriptorDone m = true) :
    Inv N (s.receive packet m) c := by
  have hreg := h.registers
  have hlt : s.received.length < c.tail := lt_of_le_of_ne hreg.received_le fun he =>
    hne (by rw [hreg.rdh, hreg.rdt, he])
  have htail := (h.output 0 hN).lt_sent
  have hlength : (s.received ++ [(s.rdh, packet)]).length = s.received.length + 1 := List.length_append
  refine ⟨⟨hreg.processedDelimiter, ?_, hreg.rdt, ?_, ?_, hreg.tail_mod⟩, fun n hn => ?_, ?_, ?_, ?_⟩
  · show wrap (s.rdh + 1) = (s.received ++ [(s.rdh, packet)]).length % 256
    rw [wrap_eq, hlength, hreg.rdh, Nat.mod_add_mod]
  · exact hreg.delimiter_le.trans (hlength ▸ Nat.le_succ _)
  · exact hlength.le.trans hlt
  · exact (h.output n hn).congr ⟨rfl, rfl, rfl, rfl, rfl⟩ ⟨rfl, rfl, rfl⟩ rfl le_rfl
  · show Rings N (s.received ++ [(s.rdh, packet)]).length _ _ _
    rw [hlength, State.receive, hreg.rdh]
    exact h.rings.receive hN (fun n _ => h.atPc.filled hreg.delimiter_le) (hlt.trans htail) hm
  · show History (Function.update s.buffer s.rdh packet) (s.received ++ [(s.rdh, packet)]) s.processed
    rw [hreg.rdh]
    have hprocessed := h.atPc.processed
    have hdelimiter := (h.output 0 hN).lt_delimiter
    exact h.history.receive (by omega) packet
  · show At N (s.received ++ [(s.rdh, packet)]).length s.processed.length c s.pc
    rw [hlength]
    exact h.atPc.nic (Nat.le_succ _) rfl rfl rfl fun _ _ => le_rfl

theorem Inv.transmit {n : ℕ} (hn : n < N) (hne : s.tdh n ≠ s.tdt n) :
    Inv N (s.transmit n) (c.transmit n (s.sent n)) := by
  have ho := h.output n hn
  have hlt : s.sent n < c.flushed n := lt_of_le_of_ne ho.sent_le fun he => hne (by rw [ho.tdh, ho.tdt, he])
  have hstatus : reportStatus (s.rings n (s.tdh n)) = decide (s.sent n % 64 = 63) := by
    rw [ho.tdh]
    exact h.rings.status n hn _ le_rfl (hlt.trans_le (ho.flushed_le.trans (s.pc.le_filled _ n)))
  have hsent : ∀ n', s.sent n' ≤ Function.update s.sent n (s.sent n + 1) n' := fun n' => by
    by_cases he : n' = n
    · rw [he, Function.update_self]
      exact Nat.le_succ _
    · rw [Function.update_of_ne he]
  refine ⟨⟨h.registers.processedDelimiter, h.registers.rdh, h.registers.rdt, h.registers.delimiter_le,
    h.registers.received_le, h.registers.tail_mod⟩, fun n' hn' => ?_, h.rings.congr hN (fun _ _ => rfl) fun n' _ =>
      hsent n',
    h.history, h.atPc.nic le_rfl rfl rfl rfl fun _ _ => le_rfl⟩
  by_cases he : n' = n
  · exact he ▸ ho.transmit hlt hstatus
  · refine (h.output n' hn').congr ⟨Function.update_of_ne he _ _, rfl, rfl, ?_, Function.update_of_ne he _ _⟩
      ⟨rfl, rfl, ?_⟩
      rfl le_rfl
    · simp only [State.transmit]
      split
      · exact Function.update_of_ne he _ _
      · rfl
    · simp only [Counters.transmit]
      split
      · exact Function.update_of_ne he _ _
      · rfl

end Nic

theorem Inv.writeBack (h : Inv N s c) {n v : ℕ} {vs : List ℕ} (hn : n < N) (hp : c.pending n = v :: vs) :
    Inv N (s.writeBack n (v % 256) (vs.map (· % 256))) (c.writeBack n v vs) := by
  have ho := h.output n hn
  have hsorted := ho.sorted
  rw [hp] at hsorted
  have hle : c.written n ≤ v := (List.pairwise_cons.mp hsorted).1 v List.mem_cons_self
  refine ⟨⟨h.registers.processedDelimiter, h.registers.rdh, h.registers.rdt, h.registers.delimiter_le,
    h.registers.received_le, h.registers.tail_mod⟩, fun n' hn' => ?_, h.rings, h.history,
    h.atPc.nic le_rfl rfl rfl rfl fun n' _ => ?_⟩
  · by_cases he : n' = n
    · exact he ▸ ho.writeBack hp
    · exact (h.output n' hn').congr ⟨rfl, rfl, Function.update_of_ne he _ _, Function.update_of_ne he _ _, rfl⟩
        ⟨rfl, Function.update_of_ne he _ _, Function.update_of_ne he _ _⟩ rfl le_rfl
  · show c.written n' ≤ Function.update c.written n v n'
    by_cases he : n' = n
    · rw [he, Function.update_self]
      exact hle
    · rw [Function.update_of_ne he]

/-! ### Steps of the driver -/

/-- A step that only moves the driver on. -/
theorem Inv.goto (h : Inv N s c) {pc : Pc} (hf : pc.filled c.delimiter = s.pc.filled c.delimiter)
    (hat : At N s.received.length s.processed.length c pc) : Inv N { s with pc := pc } c where
  registers := ⟨h.registers.processedDelimiter, h.registers.rdh, h.registers.rdt, h.registers.delimiter_le,
    h.registers.received_le, h.registers.tail_mod⟩
  output n hn := (h.output n hn).congr ⟨rfl, rfl, rfl, rfl, rfl⟩ ⟨rfl, rfl, rfl⟩ rfl le_rfl
  rings := by
    show Rings N s.received.length s.rings (pc.filled c.delimiter) s.sent
    rw [hf]
    exact h.rings
  history := h.history
  atPc := hat

theorem rsBit_eq_zero {i : ℕ} (h : rsBit i = 0) : i % 64 ≠ 63 := by
  rw [rsBit, show i &&& (recyclePeriod - 1) = i % 64 from Nat.and_two_pow_sub_one_eq_mod i 6] at h
  intro he
  rw [if_pos (show i % 64 = recyclePeriod - 1 from he)] at h
  exact absurd h (by decide)

theorem rsBit_ne_zero {i : ℕ} (h : rsBit i ≠ 0) : i % 64 = 63 := by
  rw [rsBit, show i &&& (recyclePeriod - 1) = i % 64 from Nat.and_two_pow_sub_one_eq_mod i 6] at h
  by_contra hne
  exact h (if_neg hne)

section Driver

variable (hN : 0 < N) (h : Inv N s c)
include hN h

theorem Inv.poll {k : ℕ} (hpc : s.pc = .poll k) : Inv N (s.poll k) c := by
  have hat := h.atPc
  rw [hpc] at hat
  refine h.goto ?_ ?_
  · rw [hpc]
    split_ifs <;> rfl
  · split_ifs with hd hk
    · have hdone := hd.2
      rw [h.registers.processedDelimiter, h.rings.done _ (Nat.mod_lt _ (by decide)), hpc] at hdone
      obtain ⟨j, hj, hlt, -⟩ := hdone
      exact ⟨hat.1, lt_of_le_of_lt hj hlt⟩
    · exact ⟨hat.1, hN, fun m hm => absurd hm (Nat.not_lt_zero m)⟩
    · exact ⟨hat.1, fun _ => hat.2 (not_not.mp hk)⟩

theorem Inv.handle {k : ℕ} (hpc : s.pc = .handle k) (packet : α) (lengths : ℕ → BitVec 16) :
    Inv N (s.handle k packet lengths) c := by
  have hat := h.atPc
  rw [hpc] at hat
  have hbound := (h.output 0 hN).lt_delimiter
  have hreceived := h.registers.received_le
  have hindex : s.processedDelimiter = s.processed.length % 256 := by rw [hat.1, h.registers.processedDelimiter]
  refine ⟨⟨h.registers.processedDelimiter, h.registers.rdh, h.registers.rdt, h.registers.delimiter_le,
    h.registers.received_le, h.registers.tail_mod⟩, fun n hn => (h.output n hn).congr ⟨rfl, rfl, rfl, rfl, rfl⟩
    ⟨rfl, rfl, rfl⟩ rfl le_rfl, ?_, ?_, ?_⟩
  · refine h.rings.congr hN (fun n _ => ?_) fun _ _ => le_rfl
    rw [hpc]
    show (if n < 0 then c.delimiter + 1 else c.delimiter) = c.delimiter
    exact if_neg (Nat.not_lt_zero n)
  · simp only [State.handle, hindex]
    exact h.history.handle (hat.1 ▸ hat.2) (by rw [hat.1]; omega) packet
  · refine ⟨?_, hat.2, hN⟩
    show (s.processed ++ [(s.processedDelimiter, s.buffer s.processedDelimiter)]).length = c.delimiter + 1
    rw [List.length_append, List.length_singleton, hat.1]

/-- A recycle begins when the delimiter comes to the end of a recycle period. -/
theorem Inv.write {k n : ℕ} (hpc : s.pc = .write k n) : ∃ c', Inv N (s.write N k n) c' ∧ c'.tail = c.tail ∧
    ((s.write N k n).pc.heads = none ∧ c'.delimiter / 64 = c.delimiter / 64 ∨
      (s.write N k n).pc.heads = some [] ∧ c'.delimiter = c.delimiter + 1 ∧ c.delimiter % 64 = 63) := by
  have hat := h.atPc
  rw [hpc] at hat
  obtain ⟨hprocessed, hlt, hn⟩ := hat
  have ho := h.output n hn
  have hreg := h.registers
  have hbound := (h.output 0 hN).lt_delimiter
  have hfilled : ∀ n', s.pc.filled c.delimiter n' = if n' < n then c.delimiter + 1 else c.delimiter := fun n' => by
    rw [hpc]
    rfl
  have hrings := h.rings.write (n := n) (m := transmitMetadata (s.lengths n) (rsBit s.processedDelimiter))
    ((hfilled n).trans (if_neg (Nat.lt_irrefl n))) hlt (by have := hreg.received_le; omega)
    (by have := ho.lt_sent; have := hreg.received_le; omega) (descriptorDone_transmitMetadata _ _) (by
      rw [reportStatus_transmitMetadata, hreg.processedDelimiter, Nat.mod_mod_of_dvd _ (show 64 ∣ 256 by decide)])
  rw [← hreg.processedDelimiter] at hrings
  have hupdate : ∀ n' ≤ n, Function.update (s.pc.filled c.delimiter) n (c.delimiter + 1) n' = c.delimiter + 1 := by
    intro n' hle
    by_cases he : n' = n
    · rw [he, Function.update_self]
    · rw [Function.update_of_ne he, hfilled, if_pos (lt_of_le_of_ne hle he)]
  by_cases hnext : n + 1 < N
  · have hs' : s.write N k n = { s with
        rings := Function.update s.rings n (Function.update (s.rings n) s.processedDelimiter
          (transmitMetadata (s.lengths n) (rsBit s.processedDelimiter)))
        lengths := Function.update s.lengths n 0
        pc := .write k (n + 1) } := if_pos hnext
    rw [hs']
    refine ⟨c, ?_, rfl, Or.inl ⟨rfl, rfl⟩⟩
    refine ⟨⟨hreg.processedDelimiter, hreg.rdh, hreg.rdt, hreg.delimiter_le, hreg.received_le, hreg.tail_mod⟩,
      fun n' hn' => (h.output n' hn').congr ⟨rfl, rfl, rfl, rfl, rfl⟩ ⟨rfl, rfl, rfl⟩ rfl le_rfl,
      hrings.congr hN (fun n' _ => ?_) fun _ _ => le_rfl, h.history, hprocessed, hlt, hnext⟩
    show (if n' < n + 1 then c.delimiter + 1 else c.delimiter) = _
    split
    · next hle => exact (hupdate n' (Nat.le_of_lt_succ hle)).symm
    · next hgt =>
      rw [Function.update_of_ne (by omega), hfilled, if_neg (by omega)]
  · have hs' : s.write N k n = { s with
        rings := Function.update s.rings n (Function.update (s.rings n) s.processedDelimiter
          (transmitMetadata (s.lengths n) (rsBit s.processedDelimiter)))
        lengths := Function.update s.lengths n 0
        processedDelimiter := wrap (s.processedDelimiter + 1)
        pc := if rsBit s.processedDelimiter ≠ 0 then .readHead k 0 [] (wrap (s.processedDelimiter + 1)) (2 ^ 64 - 1)
          else .poll (k + 1) } := if_neg hnext
    rw [hs']
    have hmod : s.processedDelimiter % 64 = c.delimiter % 64 := by
      rw [hreg.processedDelimiter, Nat.mod_mod_of_dvd _ (show 64 ∣ 256 by decide)]
    refine ⟨{ c with delimiter := c.delimiter + 1 }, ?_, rfl, ?_⟩
    rotate_left
    · show (Pc.heads (if rsBit s.processedDelimiter ≠ 0 then _ else _) = none ∧ _) ∨
        Pc.heads (if rsBit s.processedDelimiter ≠ 0 then _ else _) = some [] ∧ _
      by_cases hrs : rsBit s.processedDelimiter = 0
      · have hne := rsBit_eq_zero hrs
        rw [if_neg (not_not.mpr hrs)]
        refine Or.inl ⟨rfl, ?_⟩
        show (c.delimiter + 1) / 64 = c.delimiter / 64
        omega
      · rw [if_pos hrs]
        exact Or.inr ⟨rfl, rfl, hmod ▸ rsBit_ne_zero hrs⟩
    refine ⟨⟨?_, hreg.rdh, hreg.rdt, hlt, hreg.received_le, hreg.tail_mod⟩,
      fun n' hn' => (h.output n' hn').congr ⟨rfl, rfl, rfl, rfl, rfl⟩ ⟨rfl, rfl, rfl⟩ rfl (Nat.le_succ _),
      hrings.congr hN (fun n' hn' => ?_) fun _ _ => le_rfl, h.history, ?_⟩
    · show wrap (s.processedDelimiter + 1) = (c.delimiter + 1) % 256
      rw [wrap_eq, hreg.processedDelimiter, Nat.mod_add_mod]
    · rw [hupdate n' (by omega)]
      show Pc.filled (if rsBit s.processedDelimiter ≠ 0 then _ else _) _ _ = _
      split <;> rfl
    · show At N _ _ _ (if rsBit s.processedDelimiter ≠ 0 then _ else _)
      split
      · next hrs =>
        have hlast := hmod ▸ rsBit_ne_zero hrs
        refine ⟨hprocessed, hN, fun m hm => Nat.lt_succ_of_le (h.output m hm).flushed_le, ?_, [], rfl, rfl,
          fun m hm => absurd hm (Nat.not_lt_zero m), fun v hv => absurd hv List.not_mem_nil, Or.inl ⟨rfl, rfl⟩⟩
        refine Nat.dvd_of_mod_eq_zero ?_
        show (c.delimiter + 1) % 64 = 0
        omega
      · exact ⟨hprocessed, fun hk => absurd hk (Nat.succ_ne_zero k)⟩

end Driver

/-- Of two heads less than a ring behind the delimiter, the difference of 64 bits is less for the
one that is further behind: either both are below the delimiter's index, or both above, or
the one above is further behind. -/
theorem headDiff_le_iff {d v w : ℕ} (hv : v < d) (hv' : d < v + 256) (hw : w < d) (hw' : d < w + 256) :
    State.headDiff (v % 256) (d % 256) ≤ State.headDiff (w % 256) (d % 256) ↔ v ≤ w := by
  unfold State.headDiff
  omega

/-- One more head is read. -/
theorem Recycling.read_head {n earliest minDiff : ℕ} {read : List ℕ} (h : Recycling n read earliest minDiff c)
    (hd : c.delimiter ≤ c.tail) (hdvd : 64 ∣ c.written n) (hlt : c.written n < c.delimiter)
    (htail : c.tail < c.written n + 256) :
    let head := c.written n % 256
    let diff := State.headDiff head (c.delimiter % 256)
    Recycling (n + 1) (read ++ [head]) (if diff ≤ minDiff then head else earliest)
      (if diff ≤ minDiff then diff else minDiff)
      c := by
  intro head diff
  obtain ⟨hdelimiter, heads, rfl, hlen, hpast, hheads, hpick⟩ := h
  have hnew : ∀ v ∈ heads ++ [c.written n], 64 ∣ v ∧ v < c.delimiter ∧ c.tail < v + 256 := fun v hv => by
    rcases List.mem_append.mp hv with hv | hv
    · exact hheads v hv
    · rw [List.mem_singleton.mp hv]
      exact ⟨hdvd, hlt, htail⟩
  refine ⟨hdelimiter, heads ++ [c.written n], by rw [List.map_append]; rfl, by rw [List.length_append, hlen]; rfl,
    fun m hm => ?_, hnew, Or.inr ?_⟩
  · rcases Nat.lt_succ_iff_lt_or_eq.mp hm with hm | rfl
    · obtain ⟨v, hv, hle⟩ := hpast m hm
      exact ⟨v, by rw [List.getElem?_append_left (hlen.symm ▸ hm), hv], hle⟩
    · exact ⟨c.written m, by rw [← hlen]; exact List.getElem?_concat_length, le_rfl⟩
  · have hmem : c.written n ∈ heads ++ [c.written n] := List.mem_append_right _ (List.mem_singleton_self _)
    rcases hpick with ⟨rfl, rfl⟩ | ⟨e, he, hleast, rfl, rfl⟩
    · have hmin : diff ≤ 2 ^ 64 - 1 := Nat.le_sub_one_of_lt (Nat.mod_lt _ (by decide))
      rw [if_pos hmin, if_pos hmin]
      exact ⟨c.written n, hmem, fun v hv => (List.mem_singleton.mp hv).ge, rfl, rfl⟩
    · obtain ⟨-, helt, hetail⟩ := hheads e he
      have hiff : diff ≤ State.headDiff (e % 256) (c.delimiter % 256) ↔ c.written n ≤ e :=
        headDiff_le_iff hlt (by omega) helt (by omega)
      simp only [hiff]
      by_cases hle : c.written n ≤ e
      · rw [if_pos hle, if_pos hle]
        refine ⟨c.written n, hmem, fun v hv => ?_, rfl, rfl⟩
        rcases List.mem_append.mp hv with hv | hv
        · exact hle.trans (hleast v hv)
        · exact (List.mem_singleton.mp hv).ge
      · rw [if_neg hle, if_neg hle]
        refine ⟨e, List.mem_append_left _ he, fun v hv => ?_, rfl, rfl⟩
        rcases List.mem_append.mp hv with hv | hv
        · exact hleast v hv
        · rw [List.mem_singleton.mp hv]
          exact (not_le.mp hle).le

section Driver

variable (h : Inv N s c)
include h

theorem Inv.readHead {k n earliest minDiff : ℕ} {read : List ℕ} (hpc : s.pc = .readHead k n read earliest minDiff) :
    Inv N (s.readHead N k n read earliest minDiff) c := by
  have hat := h.atPc
  rw [hpc] at hat
  obtain ⟨hprocessed, hn, hflushed, hrec⟩ := hat
  have ho := h.output n hn
  have hnext := hrec.read_head (h.registers.delimiter_le.trans h.registers.received_le)
    (ho.multiple _ List.mem_cons_self)
    ((ho.written_le.trans ho.sent_le).trans_lt (hflushed n hn)) ho.tail_lt
  rw [← ho.transmitHead, ← h.registers.processedDelimiter] at hnext
  refine h.goto ?_ ?_
  · rw [hpc]
    split <;> rfl
  · split
    · next hlt => exact ⟨hprocessed, hlt, hflushed, hnext⟩
    · next hge =>
      obtain rfl : n + 1 = N := by omega
      exact ⟨hprocessed, hflushed, _, hnext⟩

/-- The receive tail that the recycling loop sets: a ring less one after the earliest head. -/
theorem Inv.setTail (hN : 0 < N) {k earliest : ℕ} {read : List ℕ} (hpc : s.pc = .setTail k read earliest) :
    ∃ e, Inv N (s.setTail k earliest) { c with tail := e + 255 } ∧ earliest = e % 256 ∧ earliest ∈ read ∧
      64 ∣ e ∧ 64 ∣ c.delimiter ∧ e < c.delimiter := by
  have hat := h.atPc
  rw [hpc] at hat
  obtain ⟨hprocessed, -, minDiff, hdelimiter, heads, hread, hlen, hpast, hheads, hpick⟩ := hat
  rcases hpick with ⟨rfl, -⟩ | ⟨e, he, hleast, hearliest, -⟩
  · exact absurd hlen hN.ne
  obtain ⟨hdvd, hlt, htail⟩ := hheads e he
  have hreg := h.registers
  refine ⟨e, ⟨⟨hreg.processedDelimiter, hreg.rdh, ?_, hreg.delimiter_le, ?_, ?_⟩, fun n hn => ?_, ?_, h.history,
    hprocessed, fun hk => absurd hk (Nat.succ_ne_zero k)⟩, hearliest, hread ▸ hearliest ▸ List.mem_map_of_mem he, hdvd,
    hdelimiter, hlt⟩
  · show wrap ((earliest + 2 ^ 32 - 1) % 2 ^ 32) = (e + 255) % 256
    rw [wrap_eq, hearliest]
    omega
  · have := hreg.received_le
    show s.received.length ≤ e + 255
    omega
  · show (e + 255) % 64 = 63
    omega
  · obtain ⟨v, hv, hle⟩ := hpast n hn
    have hev := hleast v (List.mem_of_getElem? hv)
    have ho := h.output n hn
    refine ⟨ho.tdh, ho.tdt, ho.transmitHead, ho.writeBacks, ?_, ho.sent_le, ho.flushed_le, ho.sorted, ho.multiple,
      ho.le,
      ho.last⟩
    show e + 255 < c.written n + 256
    omega
  · have hrings := h.rings
    rw [hpc] at hrings
    exact hrings

theorem Inv.flush {n : ℕ} (hpc : s.pc = .flush n) :
    ∃ c', Inv N (s.flush N n) c' ∧ c'.tail = c.tail ∧ c'.delimiter = c.delimiter := by
  have hat := h.atPc
  rw [hpc] at hat
  obtain ⟨hprocessed, hn, hflushed⟩ := hat
  have hreg := h.registers
  have hall : ∀ m < n + 1, Function.update c.flushed n c.delimiter m = c.delimiter := fun m hm => by
    by_cases he : m = n
    · rw [he, Function.update_self]
    · rw [Function.update_of_ne he]
      exact hflushed m (by omega)
  refine ⟨{ c with flushed := Function.update c.flushed n c.delimiter }, ⟨⟨hreg.processedDelimiter, hreg.rdh, hreg.rdt,
    hreg.delimiter_le, hreg.received_le, hreg.tail_mod⟩, fun n' hn' => ?_, ?_, h.history, ?_⟩, rfl, rfl⟩
  · have ho := h.output n' hn'
    by_cases he : n' = n
    · subst he
      refine ⟨ho.tdh, ?_, ho.transmitHead, ho.writeBacks, ho.tail_lt, ?_, ?_, ho.sorted, ho.multiple, ho.le, ho.last⟩
      · show Function.update s.tdt n' s.processedDelimiter n' = Function.update c.flushed n' c.delimiter n' % 256
        rw [Function.update_self, Function.update_self]
        exact hreg.processedDelimiter
      · show s.sent n' ≤ Function.update c.flushed n' c.delimiter n'
        rw [Function.update_self]
        exact ho.sent_le.trans ho.flushed_le
      · show Function.update c.flushed n' c.delimiter n' ≤ c.delimiter
        rw [Function.update_self]
    · exact ho.congr ⟨rfl, Function.update_of_ne he _ _, rfl, rfl, rfl⟩ ⟨Function.update_of_ne he _ _, rfl, rfl⟩ rfl
        le_rfl
  · have hrings := h.rings
    rw [hpc] at hrings
    show Rings N s.received.length s.rings (Pc.filled (if n + 1 < N then .flush (n + 1) else .poll 0) c.delimiter)
      s.sent
    split <;> exact hrings
  · show At N s.received.length s.processed.length _ (if n + 1 < N then .flush (n + 1) else .poll 0)
    split
    · next hlt => exact ⟨hprocessed, hlt, hall⟩
    · next hge => exact ⟨hprocessed, fun _ m hm => hall m (by omega)⟩

end Driver

/-! ### Runs -/

theorem Inv.drive (h : Inv N s c) (hN : 0 < N) (packet : α) (lengths : ℕ → BitVec 16) :
    ∃ c', Inv N (s.drive N packet lengths) c' := by
  unfold State.drive
  split
  · next k hpc => exact ⟨c, h.poll hN hpc⟩
  · next k hpc => exact ⟨c, h.handle hN hpc packet lengths⟩
  · next k n hpc =>
    obtain ⟨c', h', -⟩ := h.write hN hpc
    exact ⟨c', h'⟩
  · next k n read earliest minDiff hpc => exact ⟨c, h.readHead hpc⟩
  · next k read earliest hpc =>
    obtain ⟨e, h', -⟩ := h.setTail hN hpc
    exact ⟨_, h'⟩
  · next n hpc =>
    obtain ⟨c', h', -⟩ := h.flush hpc
    exact ⟨c', h'⟩

/-- The steps of the NIC. -/
theorem step_cases {a : Action α} (h : step N s a = some s') :
    (∃ packet metadata, a = .receive packet metadata ∧ s.rdh ≠ s.rdt ∧ descriptorDone metadata = true ∧
      s' = s.receive packet metadata) ∨
    (∃ n < N, a = .transmit n ∧ s.tdh n ≠ s.tdt n ∧ s' = s.transmit n) ∨
    (∃ n < N, a = .writeBack n ∧ ∃ head rest, s.writeBacks n = head :: rest ∧ s' = s.writeBack n head rest) ∨
    ∃ packet lengths, a = .drive packet lengths ∧ s' = s.drive N packet lengths := by
  cases a with
  | receive packet metadata =>
    simp only [step] at h
    split_ifs at h with hc
    cases h
    exact Or.inl ⟨packet, metadata, rfl, hc.1, hc.2, rfl⟩
  | transmit n =>
    simp only [step] at h
    split_ifs at h with hc
    cases h
    exact Or.inr (Or.inl ⟨n, hc.1, rfl, hc.2, rfl⟩)
  | writeBack n =>
    simp only [step] at h
    split_ifs at h with hn
    split at h
    · cases h
    · next head rest hw =>
      cases h
      exact Or.inr (Or.inr (Or.inl ⟨n, hn, rfl, head, rest, hw, rfl⟩))
  | drive packet lengths =>
    cases h
    exact Or.inr (Or.inr (Or.inr ⟨packet, lengths, rfl, rfl⟩))

/-- A step of the NIC leaves the delimiter and the receive tail. -/
theorem Inv.nic (h : Inv N s c) (hN : 0 < N) {a : Action α} (ha : step N s a = some s') :
    (∃ c', Inv N s' c' ∧ c'.delimiter = c.delimiter ∧ c'.tail = c.tail ∧ s'.pc = s.pc ∧
      s'.processedDelimiter = s.processedDelimiter) ∨
    ∃ packet lengths, a = .drive packet lengths ∧ s' = s.drive N packet lengths := by
  obtain ⟨packet, metadata, -, hne, hm, rfl⟩ | ⟨n, hn, -, hne, rfl⟩ | ⟨n, hn, -, head, rest, hw, rfl⟩ | hdrive :=
    step_cases ha
  · exact Or.inl ⟨c, h.receive hN hne hm, rfl, rfl, rfl, rfl⟩
  · exact Or.inl ⟨_, h.transmit hN hn hne, rfl, rfl, rfl, rfl⟩
  · have hmap := (h.output n hn).writeBacks
    rw [hw] at hmap
    obtain ⟨v, vs, hp, rfl, rfl⟩ := List.map_eq_cons_iff.mp hmap.symm
    exact Or.inl ⟨_, h.writeBack hn hp, rfl, rfl, rfl, rfl⟩
  · exact Or.inr hdrive

theorem Inv.step (h : Inv N s c) (hN : 0 < N) {a : Action α} (ha : step N s a = some s') : ∃ c', Inv N s' c' := by
  obtain ⟨c', h', -⟩ | ⟨packet, lengths, -, rfl⟩ := h.nic hN ha
  · exact ⟨c', h'⟩
  · exact h.drive hN packet lengths

/-- What every run keeps. -/
theorem Inv.run (hN : 0 < N) : ∀ {as : List (Action α)} {s s' : State α} {c : Counters}, Inv N s c →
    run N s as = some s' → ∃ c', Inv N s' c'
  | [], _, _, c, h, hrun => by
    cases hrun
    exact ⟨c, h⟩
  | a :: as, s, s', c, h, hrun => by
    obtain ⟨s₁, ha, hrun⟩ := Option.bind_eq_some_iff.mp hrun
    obtain ⟨c₁, h₁⟩ := h.step hN ha
    exact Inv.run hN h₁ hrun

end Ixgbe
end Klint
