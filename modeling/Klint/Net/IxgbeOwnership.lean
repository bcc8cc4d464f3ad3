/-
# Descriptor ownership

What `Inv` means for the packets: the descriptors that the NIC may receive into are none of those whose
packet waits, or still has to be transmitted by some output; the packets are processed in the order in
which they came, each of them once the driver has taken steps enough, and a recycle picks the head that is
furthest behind.
-/
import Klint.Net.IxgbeInv

namespace Klint
namespace Ixgbe

variable {α : Type}

/-- The NIC may receive into a descriptor. -/
def NicReceives (s : State α) (i : ℕ) : Prop := cyclicRange ringSize s.rdh s.rdt i

/-- The buffer of a packet that has been received and not yet processed. -/
def Waiting (s : State α) (i : ℕ) : Prop := i ∈ (s.received.drop s.processed.length).map Prod.fst

/-- The buffer of a packet that has been processed and that an output has not yet transmitted. -/
def PendingOn (s : State α) (n i : ℕ) : Prop := i ∈ (s.processed.drop (s.sent n)).map Prod.fst

/-- No descriptor that the NIC may receive into has a packet that is still needed. -/
def Separate (N : ℕ) (s : State α) : Prop :=
  ∀ i < ringSize, NicReceives s i → ¬ Waiting s i ∧ ∀ n < N, ¬ PendingOn s n i

/-- The packets are processed as they were received, in order and once; the driver sees that one waits. -/
def InOrder (s : State α) : Prop :=
  s.processed <+: s.received ∧ ∀ k, s.pc = .poll k →
    (descriptorDone (s.rings 0 s.processedDelimiter) = true ↔ s.processed.length < s.received.length)

/-- How far a head is behind the delimiter, around the ring. -/
def behind (processedDelimiter head : ℕ) : ℕ := (processedDelimiter + ringSize - head) % ringSize

/-- The head that a recycle picks is one of those it has read, of each output one, and none is further behind. -/
def PicksEarliest (N : ℕ) (s : State α) : Prop :=
  ∀ k read earliest, s.pc = .setTail k read earliest → read.length = N ∧ earliest ∈ read ∧
    ∀ head ∈ read, behind s.processedDelimiter head ≤ behind s.processedDelimiter earliest

variable {N : ℕ} {s : State α} {c : Counters}

/-- A packet at a position of the history, by its buffer. -/
theorem mem_drop_index {l : List (ℕ × α)} {k i : ℕ} (h : i ∈ (l.drop k).map Prod.fst) :
    ∃ j e, k ≤ j ∧ l[j]? = some e ∧ e.1 = i := by
  obtain ⟨e, he, hi⟩ := List.mem_map.mp h
  obtain ⟨j, hj⟩ := List.mem_iff_getElem?.mp he
  rw [List.getElem?_drop] at hj
  exact ⟨k + j, e, Nat.le_add_right k j, hj, hi⟩

theorem History.index_of_processed {buffer : ℕ → α} {received processed : List (ℕ × α)}
    (h : History buffer received processed)
    {j : ℕ} {e : ℕ × α} (he : processed[j]? = some e) : e.1 = j % 256 ∧ j < received.length := by
  obtain ⟨rest, rfl⟩ := h.processed
  have hlt := (List.getElem?_eq_some_iff.mp he).1
  refine ⟨h.indices j e ?_, by rw [List.length_append]; omega⟩
  rw [List.getElem?_append_left hlt, he]

theorem Inv.separate (h : Inv N s c) (hN : 0 < N) : Separate N s := by
  have hreg := h.registers
  have hdelimiter := (h.output 0 hN).lt_delimiter
  intro i hi hnic
  rw [NicReceives, hreg.rdh, hreg.rdt] at hnic
  obtain ⟨j, hj, hjt, hji⟩ := (cyclicRange_iff hreg.received_le
    (by have := hreg.delimiter_le; simp only [ringSize]; omega)
    hi).mp hnic
  refine ⟨fun hw => ?_, fun n hn hp => ?_⟩
  · obtain ⟨j', e, hj', he, hei⟩ := mem_drop_index hw
    have hlt := (List.getElem?_eq_some_iff.mp he).1
    have hprocessed := h.atPc.processed
    have hindex : j' % 256 = j % 256 := by rw [← h.history.indices j' e he, hei, ← hji]; rfl
    have heq := eq_of_index_eq (hprocessed.trans hj') (hreg.delimiter_le.trans hj) (by omega) (by omega) hindex
    omega
  · obtain ⟨j', e, hj', he, hei⟩ := mem_drop_index hp
    obtain ⟨hidx, hlt⟩ := h.history.index_of_processed he
    have ho := h.output n hn
    have htail := ho.lt_sent
    have hindex : j' % 256 = j % 256 := by rw [← hidx, hei, ← hji]; rfl
    have heq := eq_of_index_eq hj' (hj'.trans (by omega)) (by omega) (by omega) hindex
    omega

theorem Inv.inOrder (h : Inv N s c) : InOrder s := by
  refine ⟨h.history.processed, fun k hpc => ?_⟩
  have hat := h.atPc
  rw [hpc] at hat
  rw [h.registers.processedDelimiter, h.rings.done _ (Nat.mod_lt _ (by decide)), hpc, hat.1]
  constructor
  · rintro ⟨j, hj, hlt, -⟩
    exact lt_of_le_of_lt hj hlt
  · intro hlt
    exact ⟨c.delimiter, le_rfl, hlt, rfl⟩

theorem Inv.picksEarliest (h : Inv N s c) (hN : 0 < N) : PicksEarliest N s := by
  intro k read earliest hpc
  have hat := h.atPc
  rw [hpc] at hat
  obtain ⟨-, -, minDiff, -, heads, rfl, hlen, -, hheads, hpick⟩ := hat
  rcases hpick with ⟨rfl, -⟩ | ⟨e, he, hleast, rfl, -⟩
  · exact absurd hlen hN.ne
  have hbehind : ∀ v ∈ heads, behind s.processedDelimiter (v % 256) = c.delimiter - v := fun v hv => by
    obtain ⟨-, hlt, htail⟩ := hheads v hv
    have hreg := h.registers
    have hdelimiter := hreg.delimiter_le
    have hreceived := hreg.received_le
    rw [hreg.processedDelimiter]
    exact cyclicDistance hlt.le (by omega)
  refine ⟨by rw [List.length_map, hlen], List.mem_map_of_mem he, fun head hhead => ?_⟩
  obtain ⟨v, hv, rfl⟩ := List.mem_map.mp hhead
  show behind _ (v % 256) ≤ _
  rw [hbehind v hv, hbehind e he]
  have := hleast v hv
  omega

/-! ### Every packet is processed -/

/-- Bounds the steps of the driver until it is at the top of its loop or calls the handler. -/
def Pc.left (N : ℕ) : Pc → ℕ
  | .handle _ => 1
  | .poll 0 => 2
  | .flush n => 3 + (N - n)
  | .poll (_ + 1) => N + 4
  | .setTail _ _ _ => N + 5
  | .readHead _ n _ _ _ => N + 6 + (N - n)
  | .write _ n => 2 * N + 7 + (N - n)

/-- Bounds the steps of the driver until it has processed a number of packets, and is done with them. -/
def State.left (N count : ℕ) (s : State α) : ℕ := (count - s.processed.length) * (3 * N + 8) + s.pc.left N

/-- The steps of the driver in a run. -/
def drives (as : List (Action α)) : ℕ := as.countP fun a => a matches .drive _ _

/-- All packets received by now are processed in the order in which they came, in every run that goes on from here, as
soon as the driver has taken enough steps in it, whatever the NIC does in between. -/
def Serves (N : ℕ) (s : State α) : Prop :=
  ∃ count, ∀ as s', run N s as = some s' → count ≤ drives as → s.received <+: s'.processed

variable {s' : State α}

theorem State.left_lt {count : ℕ} (hp : s'.processed = s.processed) (hpc : s'.pc.left N < s.pc.left N) :
    s'.left N count < s.left N count := by
  rw [State.left, State.left, hp]
  exact Nat.add_lt_add_left hpc _

theorem Inv.poll_left (h : Inv N s c) {count k : ℕ} (hpc : s.pc = .poll k)
    (hwaits : s.pc = .poll 0 → s.processed.length < s.received.length) : (s.poll k).left N count < s.left N count := by
  refine State.left_lt rfl ?_
  rw [hpc]
  show Pc.left N (if _ then _ else if _ then _ else _) < _
  cases k with
  | zero =>
    rw [if_pos ⟨by decide, (h.inOrder.2 0 hpc).mpr (hwaits hpc)⟩]
    exact Nat.lt_succ_self 1
  | succ k =>
    split_ifs <;> simp only [Pc.left] <;> omega

/-- A step of the driver comes nearer to processing that many packets, unless it waits for a packet or is about to
process one more than that. -/
theorem Inv.drive_left (h : Inv N s c) {count : ℕ}
    (hwaits : s.pc = .poll 0 → s.processed.length < s.received.length)
    (hcount : ∀ k, s.pc = .handle k → s.processed.length < count) (packet : α) (lengths : ℕ → BitVec 16) :
    (s.drive N packet lengths).left N count < s.left N count := by
  have hat := h.atPc
  unfold State.drive
  split
  · next k hpc => exact h.poll_left hpc hwaits
  · next k hpc =>
    obtain ⟨m, hm⟩ := Nat.exists_eq_add_of_lt (hcount k hpc)
    simp only [State.left, State.handle, hpc, Pc.left, List.length_append, List.length_singleton, hm]
    rw [show s.processed.length + m + 1 - s.processed.length = m + 1 by omega,
      show s.processed.length + m + 1 - (s.processed.length + 1) = m by omega, Nat.add_mul m 1]
    omega
  · next k n hpc =>
    rw [hpc] at hat
    have hn := hat.2.2
    refine State.left_lt ?_ ?_
    · unfold State.write
      split <;> rfl
    · unfold State.write
      rw [hpc]
      split
      · simp only [Pc.left]
        omega
      · show Pc.left N (if _ then _ else _) < _
        split <;> simp only [Pc.left] <;> omega
  · next k n read earliest minDiff hpc =>
    rw [hpc] at hat
    have hn := hat.2.1
    refine State.left_lt rfl ?_
    rw [hpc]
    show Pc.left N (if _ then _ else _) < _
    split <;> simp only [Pc.left] <;> omega
  · next k read earliest hpc =>
    refine State.left_lt rfl ?_
    rw [hpc]
    exact Nat.lt_succ_self _
  · next n hpc =>
    rw [hpc] at hat
    have hn := hat.2.1
    refine State.left_lt rfl ?_
    rw [hpc]
    show Pc.left N (if _ then _ else _) < _
    split <;> simp only [Pc.left] <;> omega

/-- The driver does not touch the history of the NIC. -/
theorem drive_history (packet : α) (lengths : ℕ → BitVec 16) :
    (s.drive N packet lengths).received = s.received ∧ (s.drive N packet lengths).sent = s.sent := by
  unfold State.drive
  split
  case h_3 =>
    unfold State.write
    split <;> exact ⟨rfl, rfl⟩
  all_goals exact ⟨rfl, rfl⟩

/-- No step loses what has been received or processed. -/
theorem step_history {a : Action α} (ha : step N s a = some s') :
    s.received <+: s'.received ∧ s.processed <+: s'.processed := by
  obtain ⟨packet, metadata, -, -, -, rfl⟩ | ⟨n, -, -, -, rfl⟩ | ⟨n, -, -, head, rest, -, rfl⟩ |
    ⟨packet, lengths, -, rfl⟩ := step_cases ha
  · exact ⟨List.prefix_append _ _, List.prefix_rfl⟩
  · exact ⟨List.prefix_rfl, List.prefix_rfl⟩
  · exact ⟨List.prefix_rfl, List.prefix_rfl⟩
  · have hreceived : s.received = (s.drive N packet lengths).received := (drive_history packet lengths).1.symm
    refine ⟨hreceived ▸ List.prefix_rfl, ?_⟩
    unfold State.drive
    split
    case h_2 => exact List.prefix_append _ _
    case h_3 =>
      unfold State.write
      split <;> exact List.prefix_rfl
    all_goals exact List.prefix_rfl

theorem run_history : ∀ {as : List (Action α)} {s s' : State α}, run N s as = some s' →
    s.received <+: s'.received ∧ s.processed <+: s'.processed
  | [], _, _, hrun => by
    cases hrun
    exact ⟨List.prefix_rfl, List.prefix_rfl⟩
  | a :: as, _, _, hrun => by
    obtain ⟨s₁, ha, hrun⟩ := Option.bind_eq_some_iff.mp hrun
    obtain ⟨hr, hp⟩ := step_history ha
    obtain ⟨hr', hp'⟩ := run_history hrun
    exact ⟨hr.trans hr', hp.trans hp'⟩

/-- After as many steps of the driver as are left, that many packets have been processed. The steps of the NIC do not
count, and leave what is left as it is. -/
theorem Inv.processes (hN : 0 < N) {count : ℕ} : ∀ {as : List (Action α)} {s s' : State α} {c : Counters}, Inv N s c →
    count ≤ s.received.length → Ixgbe.run N s as = some s' → s.left N count ≤ drives as → count ≤ s'.processed.length
  | [], s, s', c, h, _, hrun, hleft => by
    cases hrun
    by_contra hlt
    have hpos : 0 < (count - s.processed.length) * (3 * N + 8) := Nat.mul_pos (by omega) (by omega)
    have hzero : s.left N count ≤ 0 := hleft
    rw [State.left] at hzero
    omega
  | a :: as, s, s', c, h, hcount, hrun, hleft => by
    by_cases hdone : count ≤ s.processed.length
    · exact hdone.trans (run_history hrun).2.length_le
    obtain ⟨s₁, ha, hrun⟩ := Option.bind_eq_some_iff.mp hrun
    obtain ⟨c₁, h₁⟩ := h.step hN ha
    refine h₁.processes hN (hcount.trans (step_history ha).1.length_le) hrun ?_
    obtain ⟨packet, metadata, rfl, -, -, rfl⟩ | ⟨n, -, rfl, -, rfl⟩ | ⟨n, -, rfl, head, rest, -, rfl⟩ |
      ⟨packet, lengths, rfl, rfl⟩ := step_cases ha
    · exact hleft
    · exact hleft
    · exact hleft
    · have hlt := h.drive_left (fun _ => by omega) (fun _ _ => not_le.mp hdone) packet lengths
      have hcons : drives (.drive packet lengths :: as) = drives as + 1 := List.countP_cons_of_pos rfl
      omega

theorem Inv.serves (h : Inv N s c) (hN : 0 < N) : Serves N s := by
  refine ⟨s.left N s.received.length, fun as s' hrun hleft => ?_⟩
  obtain ⟨c', h'⟩ := h.run hN hrun
  exact List.prefix_of_prefix_length_le (run_history hrun).1 h'.history.processed (h.processes hN le_rfl hrun hleft)

/-- **Descriptor ownership.** For every number of outputs, every order of the steps of the NIC and of the driver,
whatever packets come and whatever the handler does: the NIC cannot receive into the buffer of a packet that waits
or that some output has not transmitted, the packets are processed in order and once, and all of them if the driver
takes steps enough, and each recycle picks the head that is furthest behind. -/
theorem ownership (N : ℕ) (hN : 0 < N) (buffer : ℕ → α) (as : List (Action α)) (s : State α)
    (hrun : run N (init buffer) as = some s) : Separate N s ∧ InOrder s ∧ Serves N s ∧ PicksEarliest N s := by
  obtain ⟨c, h⟩ := Inv.run hN (init_inv buffer) hrun
  exact ⟨h.separate hN, h.inOrder, h.serves hN, h.picksEarliest hN⟩

/-- The first packet, of one output: it has been handled and written for transmission, and not flushed. -/
def firstPacket : List (Action ℕ) :=
  [.receive 7 (1#64 <<< 32), .drive 0 fun _ => 0, .drive 8 fun _ => 60#16, .drive 0 fun _ => 0]

theorem ownership_firstPacket : ∃ s, run 1 (init fun _ => 0) firstPacket = some s ∧ s.processed = [(0, 7)] ∧
    Separate 1 s ∧ InOrder s ∧ Serves 1 s ∧ PicksEarliest 1 s := by
  refine ⟨_, rfl, rfl, ?_⟩
  exact ownership 1 (by decide) (fun _ => 0) firstPacket _ rfl

end Ixgbe
end Klint
