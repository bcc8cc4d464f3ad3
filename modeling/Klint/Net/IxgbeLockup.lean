/-
# Running out of descriptors

The receive tail only moves in a recycle, which the descriptor at the end of a recycle period brings, so the
NIC must be able to receive into that of the next one. A recycle that reads a head 192 descriptors
behind, a ring less a recycle period, leaves the tail at that descriptor and not after it:
the packets before it can still come, and nothing after them. `Slack` is what holds as long as there is no such
recycle, `Stuck` what holds after one.
-/
import Mathlib.Algebra.BigOperators.Group.Finset.Basic
import Mathlib.Algebra.Order.BigOperators.Group.Finset
import Klint.Net.IxgbeOwnership

namespace Klint
namespace Ixgbe

variable {α : Type} {N : ℕ} {s s' : State α} {c : Counters}

/-- The outputs have transmitted all that they were handed and written their heads back. -/
def Finished (N : ℕ) (s : State α) : Prop := ∀ n < N, s.tdh n = s.tdt n ∧ s.writeBacks n = []

/-- If the outputs have finished and no packet waits, the NIC owns a receive descriptor. -/
def NotLocked (N : ℕ) (s : State α) : Prop := Finished N s → (∀ i, ¬ Waiting s i) → s.rdh ≠ s.rdt

/-- The step does not read the head of an output that is a ring less a recycle period behind. -/
def RecycleOk (s : State α) : Action α → Prop
  | .drive _ _ =>
    match s.pc with
    | .readHead _ n _ _ _ => behind s.processedDelimiter (s.transmitHeads n) < ringSize - recyclePeriod
    | _ => True
  | _ => True

/-- Nor does any other of the run. -/
def RecyclesOk (N : ℕ) (s : State α) : List (Action α) → Prop
  | [] => True
  | a :: as => RecycleOk s a ∧ ∀ s', step N s a = some s' → RecyclesOk N s' as

instance RecycleOk.decidable (s : State α) : ∀ a : Action α, Decidable (RecycleOk s a)
  | .drive _ _ =>
    match hpc : s.pc with
    | .readHead _ n _ _ _ =>
      decidable_of_iff (behind s.processedDelimiter (s.transmitHeads n) < ringSize - recyclePeriod) (by
        rw [RecycleOk, hpc])
    | .poll _ | .handle _ | .write _ _ | .setTail _ _ _ | .flush _ => isTrue (by rw [RecycleOk, hpc]; trivial)
  | .receive _ _ => isTrue trivial
  | .transmit _ => isTrue trivial
  | .writeBack _ => isTrue trivial

instance RecyclesOk.decidable (N : ℕ) : ∀ (s : State α) (as : List (Action α)), Decidable (RecyclesOk N s as)
  | _, [] => isTrue trivial
  | s, a :: as =>
    match hstep : step N s a with
    | none => decidable_of_iff (RecycleOk s a) ⟨fun h => ⟨h, fun _ hs => by rw [hstep] at hs; cases hs⟩, And.left⟩
    | some s₁ =>
      have := RecyclesOk.decidable N s₁ as
      decidable_of_iff (RecycleOk s a ∧ RecyclesOk N s₁ as)
        ⟨fun h => ⟨h.1, fun _ hs => by rw [hstep] at hs; cases hs; exact h.2⟩, fun h => ⟨h.1, h.2 s₁ hstep⟩⟩

/-! ### The receive tail and the delimiter -/

/-- The receive tail is past the end of the next recycle period. -/
def Slack (s : State α) (c : Counters) : Prop :=
  match s.pc.heads with
  | some read => c.delimiter + 63 ≤ c.tail ∧ ∀ head ∈ read, behind s.processedDelimiter head < 192
  | none => 64 * (c.delimiter / 64) + 127 ≤ c.tail

/-- It is at the end of this one, or will be after the recycle. -/
def Stuck (s : State α) (c : Counters) : Prop :=
  match s.pc.heads with
  | some read => ∃ head ∈ read, 192 ≤ behind s.processedDelimiter head
  | none => c.tail = 64 * (c.delimiter / 64) + 63

theorem slack_none (h : s.pc.heads = none) : Slack s c ↔ 64 * (c.delimiter / 64) + 127 ≤ c.tail := by
  rw [Slack, h]

theorem slack_some {read : List ℕ} (h : s.pc.heads = some read) :
    Slack s c ↔ c.delimiter + 63 ≤ c.tail ∧ ∀ head ∈ read, behind s.processedDelimiter head < 192 := by
  rw [Slack, h]

theorem stuck_none (h : s.pc.heads = none) : Stuck s c ↔ c.tail = 64 * (c.delimiter / 64) + 63 := by
  rw [Stuck, h]

theorem stuck_some {read : List ℕ} (h : s.pc.heads = some read) :
    Stuck s c ↔ ∃ head ∈ read, 192 ≤ behind s.processedDelimiter head := by
  rw [Stuck, h]

theorem init_slack (buffer : ℕ → α) : Slack (init buffer) .initial := by
  rw [slack_none rfl]
  decide

theorem heads_readHead (k n : ℕ) (read : List ℕ) (earliest minDiff : ℕ) :
    (s.readHead N k n read earliest minDiff).pc.heads = some (read ++ [s.transmitHeads n]) := by
  show Pc.heads (if _ then _ else _) = _
  split <;> rfl

/-- How far behind the delimiter the head is that a recycle picks. -/
theorem Inv.behind_earliest (h : Inv N s c) {e : ℕ} (hlt : e < c.delimiter) (hle : c.delimiter ≤ e + 255) :
    behind s.processedDelimiter (e % 256) = c.delimiter - e := by
  rw [h.registers.processedDelimiter]
  exact cyclicDistance hlt.le (by omega)

/-- Where a step of the driver leaves the receive tail and the delimiter. -/
theorem Inv.drive_cases (h : Inv N s c) (hN : 0 < N) (packet : α) (lengths : ℕ → BitVec 16) :
    ∃ c', Inv N (s.drive N packet lengths) c' ∧
      ((s.pc.heads = none ∧ (s.drive N packet lengths).pc.heads = none ∧ c'.tail = c.tail ∧
          c'.delimiter / 64 = c.delimiter / 64) ∨
        (s.pc.heads = none ∧ (s.drive N packet lengths).pc.heads = some [] ∧ c'.tail = c.tail ∧
          c'.delimiter = c.delimiter + 1 ∧ c.delimiter % 64 = 63) ∨
        (∃ k n read earliest minDiff, s.pc = .readHead k n read earliest minDiff ∧
          (s.drive N packet lengths).pc.heads = some (read ++ [s.transmitHeads n]) ∧
          (s.drive N packet lengths).processedDelimiter = s.processedDelimiter ∧ c' = c) ∨
        ∃ k read earliest e, s.pc = .setTail k read earliest ∧ (s.drive N packet lengths).pc.heads = none ∧
          earliest ∈ read ∧ c'.delimiter = c.delimiter ∧ c'.tail = e + 255 ∧ 64 ∣ e ∧ 64 ∣ c.delimiter ∧
          behind s.processedDelimiter earliest = c.delimiter - e ∧ e < c.delimiter) := by
  unfold State.drive
  split
  · next k hpc =>
    refine ⟨c, h.poll hN hpc, Or.inl ⟨by rw [hpc]; rfl, ?_, rfl, rfl⟩⟩
    show Pc.heads (if _ then _ else if _ then _ else _) = none
    split_ifs <;> rfl
  · next k hpc => exact ⟨c, h.handle hN hpc packet lengths, Or.inl ⟨by rw [hpc]; rfl, rfl, rfl, rfl⟩⟩
  · next k n hpc =>
    obtain ⟨c', h', htail, ⟨hheads, hd⟩ | ⟨hheads, hd, hmod⟩⟩ := h.write hN hpc
    · exact ⟨c', h', Or.inl ⟨by rw [hpc]; rfl, hheads, htail, hd⟩⟩
    · exact ⟨c', h', Or.inr (Or.inl ⟨by rw [hpc]; rfl, hheads, htail, hd, hmod⟩)⟩
  · next k n read earliest minDiff hpc =>
    exact ⟨c, h.readHead hpc, Or.inr (Or.inr (Or.inl ⟨k, n, read, earliest, minDiff, hpc,
      heads_readHead k n read earliest minDiff, rfl, rfl⟩))⟩
  · next k read earliest hpc =>
    obtain ⟨e, h', rfl, hmem, hdvd, hd, hlt⟩ := h.setTail hN hpc
    have hle : c.delimiter ≤ e + 255 := h'.registers.delimiter_le.trans h'.registers.received_le
    exact ⟨_, h', Or.inr (Or.inr (Or.inr ⟨k, read, _, e, hpc, rfl, hmem, rfl, rfl, hdvd, hd,
      h.behind_earliest hlt hle, hlt⟩))⟩
  · next n hpc =>
    obtain ⟨c', h', htail, hd⟩ := h.flush hpc
    refine ⟨c', h', Or.inl ⟨by rw [hpc]; rfl, ?_, htail, by rw [hd]⟩⟩
    show Pc.heads (if _ then _ else _) = none
    split <;> rfl

/-- The NIC's steps, which leave the delimiter, the receive tail and what a recycle has read. -/
theorem Slack.nic {c' : Counters} (hs : Slack s c) (hd : c'.delimiter = c.delimiter) (ht : c'.tail = c.tail)
    (hpc : s'.pc = s.pc)
    (hp : s'.processedDelimiter = s.processedDelimiter) : Slack s' c' := by
  rw [Slack, hpc, hd, ht, hp]
  exact hs

theorem Stuck.nic {c' : Counters} (hs : Stuck s c) (hd : c'.delimiter = c.delimiter) (ht : c'.tail = c.tail)
    (hpc : s'.pc = s.pc)
    (hp : s'.processedDelimiter = s.processedDelimiter) : Stuck s' c' := by
  rw [Stuck, hpc, hd, ht, hp]
  exact hs

theorem Slack.step (hN : 0 < N) (h : Inv N s c) (hs : Slack s c) {a : Action α} (hok : RecycleOk s a)
    (ha : step N s a = some s') : ∃ c', Inv N s' c' ∧ Slack s' c' := by
  obtain ⟨c', h', hd, ht, hpc, hp⟩ | ⟨packet, lengths, rfl, rfl⟩ := h.nic hN ha
  · exact ⟨c', h', hs.nic hd ht hpc hp⟩
  obtain ⟨c', h', hcase⟩ := h.drive_cases hN packet lengths
  refine ⟨c', h', ?_⟩
  obtain ⟨hpc, hpc', ht, hd⟩ | ⟨hpc, hpc', ht, hd, hmod⟩ | ⟨k, n, read, earliest, minDiff, hpc, hpc', hp, rfl⟩ |
    ⟨k, read, earliest, e, hpc, hpc', hmem, hd, ht, hdvd, hdvd', hbehind, hlt⟩ := hcase
  · rw [slack_none hpc] at hs
    rw [slack_none hpc', ht, hd]
    exact hs
  · rw [slack_none hpc] at hs
    rw [slack_some hpc', ht, hd]
    exact ⟨by omega, fun head hhead => absurd hhead List.not_mem_nil⟩
  · have hheads : s.pc.heads = some read := by rw [hpc]; rfl
    rw [slack_some hheads] at hs
    rw [slack_some hpc', hp]
    refine ⟨hs.1, fun head hhead => ?_⟩
    rcases List.mem_append.mp hhead with hhead | hhead
    · exact hs.2 head hhead
    · rw [RecycleOk, hpc] at hok
      exact List.mem_singleton.mp hhead ▸ hok
  · have hheads : s.pc.heads = some read := by rw [hpc]; rfl
    rw [slack_some hheads] at hs
    rw [slack_none hpc', ht, hd]
    have hbound := hs.2 earliest hmem
    rw [hbehind] at hbound
    -- both are multiples of 64, so the head is at most 128 behind
    omega

/-- A recycle that reads such a head leaves the tail where it is. -/
theorem Stuck.step (hN : 0 < N) (h : Inv N s c) (hs : Stuck s c) {a : Action α} (ha : step N s a = some s') :
    ∃ c', Inv N s' c' ∧ Stuck s' c' := by
  obtain ⟨c', h', hd, ht, hpc, hp⟩ | ⟨packet, lengths, rfl, rfl⟩ := h.nic hN ha
  · exact ⟨c', h', hs.nic hd ht hpc hp⟩
  obtain ⟨c', h', hcase⟩ := h.drive_cases hN packet lengths
  refine ⟨c', h', ?_⟩
  obtain ⟨hpc, hpc', ht, hd⟩ | ⟨hpc, hpc', ht, hd, hmod⟩ | ⟨k, n, read, earliest, minDiff, hpc, hpc', hp, rfl⟩ |
    ⟨k, read, earliest, e, hpc, hpc', hmem, hd, ht, hdvd, hdvd', hbehind, hlt⟩ := hcase
  · rw [stuck_none hpc] at hs
    rw [stuck_none hpc', ht, hd]
    exact hs
  · -- the NIC cannot receive into the last descriptor of the recycle period
    rw [stuck_none hpc] at hs
    have hdelimiter := h'.registers.delimiter_le
    have hreceived := h'.registers.received_le
    omega
  · have hheads : s.pc.heads = some read := by rw [hpc]; rfl
    obtain ⟨head, hhead, hle⟩ := (stuck_some hheads).mp hs
    rw [stuck_some hpc', hp]
    exact ⟨head, List.mem_append_left _ hhead, hle⟩
  · have hheads : s.pc.heads = some read := by rw [hpc]; rfl
    obtain ⟨head, hhead, hle⟩ := (stuck_some hheads).mp hs
    have hpick := (h.picksEarliest hN k read earliest hpc).2.2 head hhead
    rw [hbehind] at hpick
    have hdelimiter := h'.registers.delimiter_le
    have hreceived := h'.registers.received_le
    rw [stuck_none hpc', ht, hd]
    omega

/-- A recycle that reads such a head. -/
theorem stuck_of_recycle (h : Inv N s c) {a : Action α} (hok : ¬ RecycleOk s a) (ha : step N s a = some s') :
    ∃ c', Inv N s' c' ∧ Stuck s' c' := by
  cases a with
  | receive packet metadata => exact absurd trivial hok
  | transmit n => exact absurd trivial hok
  | writeBack n => exact absurd trivial hok
  | drive packet lengths =>
    cases ha
    simp only [RecycleOk] at hok
    split at hok
    · next k n read earliest minDiff hpc =>
      have hdrive : s.drive N packet lengths = s.readHead N k n read earliest minDiff := by rw [State.drive, hpc]
      rw [hdrive]
      exact ⟨c, h.readHead hpc, (stuck_some (heads_readHead k n read earliest minDiff)).mpr
        ⟨_, List.mem_append_right _ (List.mem_singleton_self _), not_lt.mp hok⟩⟩
    · exact absurd trivial hok

/-! ### Runs -/

theorem Slack.run (hN : 0 < N) : ∀ {as : List (Action α)} {s s' : State α} {c : Counters}, Inv N s c → Slack s c →
    RecyclesOk N s as → run N s as = some s' → ∃ c', Inv N s' c' ∧ Slack s' c'
  | [], _, _, c, h, hs, _, hrun => by
    cases hrun
    exact ⟨c, h, hs⟩
  | a :: as, s, s', c, h, hs, hok, hrun => by
    obtain ⟨s₁, ha, hrun⟩ := Option.bind_eq_some_iff.mp hrun
    obtain ⟨c₁, h₁, hs₁⟩ := hs.step hN h hok.1 ha
    exact Slack.run hN h₁ hs₁ (hok.2 s₁ ha) hrun

theorem Stuck.run (hN : 0 < N) : ∀ {as : List (Action α)} {s s' : State α} {c : Counters}, Inv N s c → Stuck s c →
    run N s as = some s' → ∃ c', Inv N s' c' ∧ Stuck s' c'
  | [], _, _, c, h, hs, hrun => by
    cases hrun
    exact ⟨c, h, hs⟩
  | a :: as, s, s', c, h, hs, hrun => by
    obtain ⟨s₁, ha, hrun⟩ := Option.bind_eq_some_iff.mp hrun
    obtain ⟨c₁, h₁, hs₁⟩ := hs.step hN h ha
    exact Stuck.run hN h₁ hs₁ hrun

/-- After a run with a recycle that reads such a head. -/
theorem stuck_of_recycles (hN : 0 < N) : ∀ {as : List (Action α)} {s s' : State α} {c : Counters}, Inv N s c →
    ¬ RecyclesOk N s as → run N s as = some s' → ∃ c', Inv N s' c' ∧ Stuck s' c'
  | [], _, _, _, _, hok, _ => absurd trivial hok
  | a :: as, s, s', c, h, hok, hrun => by
    obtain ⟨s₁, ha, hrun⟩ := Option.bind_eq_some_iff.mp hrun
    by_cases hfirst : RecycleOk s a
    · obtain ⟨c₁, h₁⟩ := h.step hN ha
      refine stuck_of_recycles hN h₁ (fun hrest => hok ⟨hfirst, fun s₂ ha₂ => ?_⟩) hrun
      rw [ha] at ha₂
      cases ha₂
      exact hrest
    · obtain ⟨c₁, h₁, hs₁⟩ := stuck_of_recycle h hfirst ha
      exact hs₁.run hN h₁ hrun

/-- A packet that is being processed is not counted by the delimiter. -/
theorem At.processed_le {received processed : ℕ} : ∀ {pc : Pc}, At N received processed c pc →
    processed ≤ c.delimiter + 1
  | .poll _, h => h.1.le.trans (Nat.le_succ _)
  | .handle _, h => h.1.le.trans (Nat.le_succ _)
  | .write _ _, h => h.1.le
  | .readHead _ _ _ _ _, h => h.1.le.trans (Nat.le_succ _)
  | .setTail _ _ _, h => h.1.le.trans (Nat.le_succ _)
  | .flush _, h => h.1.le.trans (Nat.le_succ _)

theorem length_le_of_not_waiting (h : ∀ i, ¬ Waiting s i) : s.received.length ≤ s.processed.length := by
  by_contra hlt
  obtain ⟨e, he⟩ := List.exists_mem_of_length_pos (l := s.received.drop s.processed.length)
    (by rw [List.length_drop]; omega)
  exact h e.1 (List.mem_map_of_mem he)

/-- As long as no recycle reads such a head, the NIC owns a descriptor wherever the driver is, once all packets received
have been processed. -/
theorem Slack.owns (h : Inv N s c) (hN : 0 < N) (hs : Slack s c) : NotLocked N s := by
  intro _ hwaiting hlocked
  have hreg := h.registers
  rw [hreg.rdh, hreg.rdt] at hlocked
  have hprocessed : s.received.length ≤ c.delimiter + 1 := (length_le_of_not_waiting hwaiting).trans h.atPc.processed_le
  have hdelimiter := hreg.delimiter_le
  have hbound := (h.output 0 hN).lt_delimiter
  have hall := eq_of_index_eq le_rfl hreg.received_le (by omega) (by omega) hlocked
  cases hpc : s.pc.heads with
  | none =>
    rw [slack_none hpc] at hs
    omega
  | some read =>
    rw [slack_some hpc] at hs
    omega

/-! ### When no packet comes -/

/-- The driver waits for a packet. -/
def Idle (s : State α) : Prop := s.pc = .poll 0 ∧ s.received.length = s.processed.length

theorem run_append : ∀ {as bs : List (Action α)} {s s₁ s' : State α}, run N s as = some s₁ → run N s₁ bs = some s' →
    run N s (as ++ bs) = some s'
  | [], _, _, _, _, h, h' => by
    cases h
    exact h'
  | a :: as, bs, s, s₁, s', h, h' => by
    obtain ⟨s₂, ha, h⟩ := Option.bind_eq_some_iff.mp h
    exact Option.bind_eq_some_iff.mpr ⟨s₂, ha, run_append h h'⟩

/-- The driver alone processes what has been received and hands it to the outputs. -/
theorem Inv.settles (hN : 0 < N) (packet : α) (lengths : ℕ → BitVec 16) : ∀ {s : State α} {c : Counters}, Inv N s c →
    ∃ as s', Ixgbe.run N s as = some s' ∧ Idle s' ∧ s'.received = s.received ∧ s'.sent = s.sent
  | s, c, h => by
    by_cases hidle : Idle s
    · exact ⟨[], s, rfl, hidle, rfl, rfl⟩
    · obtain ⟨c', h'⟩ := h.drive hN packet lengths
      obtain ⟨hreceived, hsent⟩ := drive_history (N := N) (s := s) packet lengths
      have hwaits : s.pc = .poll 0 → s.processed.length < s.received.length := fun hpc =>
        lt_of_le_of_ne h.history.processed.length_le fun he => hidle ⟨hpc, he.symm⟩
      have hcount : ∀ k, s.pc = .handle k → s.processed.length < s.received.length := fun k hpc => by
        have hat := h.atPc
        rw [hpc] at hat
        exact hat.1 ▸ hat.2
      have hlt : (s.drive N packet lengths).left N (s.drive N packet lengths).received.length <
          s.left N s.received.length := by
        rw [hreceived]
        exact h.drive_left hwaits hcount packet lengths
      obtain ⟨as, s', hrun, hidle', hreceived', hsent'⟩ := Inv.settles hN packet lengths h'
      exact ⟨.drive packet lengths :: as, s', Option.bind_eq_some_iff.mpr ⟨_, rfl, hrun⟩, hidle',
        hreceived'.trans hreceived, hsent'.trans hsent⟩
termination_by s => s.left N s.received.length

/-- The NIC receives as many packets as it has descriptors. -/
theorem Inv.receives (hN : 0 < N) (packet : α) : ∀ {k : ℕ} {s : State α}, Inv N s c → s.received.length + k ≤ c.tail →
    ∃ as s', Ixgbe.run N s as = some s' ∧ Inv N s' c ∧ s'.received.length = s.received.length + k ∧ s'.sent = s.sent
  | 0, s, h, _ => ⟨[], s, rfl, h, rfl, rfl⟩
  | k + 1, s, h, hk => by
    have hreg := h.registers
    have hdelimiter := hreg.delimiter_le
    have hbound := (h.output 0 hN).lt_delimiter
    have hne : s.rdh ≠ s.rdt := fun he => by
      rw [hreg.rdh, hreg.rdt] at he
      have := eq_of_index_eq le_rfl hreg.received_le (by omega) (by omega) he
      omega
    have hdone : descriptorDone (1#64 <<< 32) = true := by decide
    have hlength : (s.receive packet (1#64 <<< 32)).received.length = s.received.length + 1 := List.length_append
    have h₁ : Inv N (s.receive packet (1#64 <<< 32)) c := h.receive hN hne hdone
    obtain ⟨as, s', hrun, h', hlen, hsent⟩ := Inv.receives hN packet (k := k) h₁ (by omega)
    refine ⟨.receive packet (1#64 <<< 32) :: as, s', ?_, h', by omega, hsent⟩
    exact Option.bind_eq_some_iff.mpr ⟨_, if_pos ⟨hne, hdone⟩, hrun⟩

/-! ### When the outputs finish -/

/-- Bounds the steps of an output until it has finished. -/
def Counters.owes (c : Counters) (sent : ℕ → ℕ) (n : ℕ) : ℕ := 2 * (c.flushed n - sent n) + (c.pending n).length

theorem sum_owes_lt {c' : Counters} {sent sent' : ℕ → ℕ} {n : ℕ} (hn : n < N)
    (hother : ∀ m, m ≠ n → c'.owes sent' m = c.owes sent m) (hlt : c'.owes sent' n < c.owes sent n) :
    ∑ m ∈ Finset.range N, c'.owes sent' m < ∑ m ∈ Finset.range N, c.owes sent m := by
  refine Finset.sum_lt_sum (fun m _ => ?_) ⟨n, Finset.mem_range.mpr hn, hlt⟩
  by_cases he : m = n
  · exact he ▸ hlt.le
  · exact (hother m he).le

/-- What the outputs leave. -/
def SameInput (s s' : State α) : Prop :=
  s'.pc = s.pc ∧ s'.rdh = s.rdh ∧ s'.rdt = s.rdt ∧ s'.received = s.received ∧ s'.processed = s.processed

theorem SameInput.trans {s₁ : State α} (h : SameInput s s₁) (h' : SameInput s₁ s') : SameInput s s' :=
  ⟨h'.1.trans h.1, h'.2.1.trans h.2.1, h'.2.2.1.trans h.2.2.1, h'.2.2.2.1.trans h.2.2.2.1, h'.2.2.2.2.trans h.2.2.2.2⟩

theorem Inv.transmit_owes (h : Inv N s c) {n : ℕ} (hn : n < N) (hne : s.tdh n ≠ s.tdt n) :
    ∑ m ∈ Finset.range N, (c.transmit n (s.sent n)).owes (s.transmit n).sent m <
      ∑ m ∈ Finset.range N, c.owes s.sent m := by
  have ho := h.output n hn
  have hlt : s.sent n < c.flushed n := lt_of_le_of_ne ho.sent_le fun he => hne (by rw [ho.tdh, ho.tdt, he])
  refine sum_owes_lt hn (fun m hm => ?_) ?_
  · have hsent : (s.transmit n).sent m = s.sent m := Function.update_of_ne hm _ _
    have hpending : (c.transmit n (s.sent n)).pending m = c.pending m := by
      simp only [Counters.transmit]
      split
      · exact Function.update_of_ne hm _ _
      · rfl
    rw [Counters.owes, Counters.owes, hsent, hpending]
    rfl
  · have hsent : (s.transmit n).sent n = s.sent n + 1 := Function.update_self _ _ _
    have hpending : ((c.transmit n (s.sent n)).pending n).length ≤ (c.pending n).length + 1 := by
      simp only [Counters.transmit]
      split
      · rw [Function.update_self, List.length_append, List.length_singleton]
      · exact Nat.le_succ _
    rw [Counters.owes, Counters.owes, hsent]
    show 2 * (c.flushed n - (s.sent n + 1)) + _ < _
    omega

theorem writeBack_owes {n v : ℕ} {vs : List ℕ} (hn : n < N) (hp : c.pending n = v :: vs) (sent : ℕ → ℕ) :
    ∑ m ∈ Finset.range N, (c.writeBack n v vs).owes sent m < ∑ m ∈ Finset.range N, c.owes sent m := by
  refine sum_owes_lt hn (fun m hm => ?_) ?_
  · have hpending : (c.writeBack n v vs).pending m = c.pending m := Function.update_of_ne hm _ _
    rw [Counters.owes, Counters.owes, hpending]
    rfl
  · have hpending : (c.writeBack n v vs).pending n = vs := Function.update_self _ _ _
    rw [Counters.owes, Counters.owes, hpending, hp, List.length_cons]
    exact Nat.lt_succ_self _

/-- An output that has not finished can go on. -/
theorem Inv.progress (h : Inv N s c) (hN : 0 < N) (hbusy : ¬ Finished N s) :
    ∃ a s₁ c₁, Ixgbe.step N s a = some s₁ ∧ Inv N s₁ c₁ ∧ SameInput s s₁ ∧
      ∑ n ∈ Finset.range N, c₁.owes s₁.sent n < ∑ n ∈ Finset.range N, c.owes s.sent n := by
  simp only [Finished, not_forall] at hbusy
  obtain ⟨n, hn, hbusy⟩ := hbusy
  by_cases hne : s.tdh n = s.tdt n
  · have hmap := (h.output n hn).writeBacks
    cases hp : c.pending n with
    | nil => exact absurd ⟨hne, by rw [hmap, hp]; rfl⟩ hbusy
    | cons v vs =>
      rw [hp] at hmap
      refine ⟨.writeBack n, _, _, ?_, h.writeBack hn hp, ⟨rfl, rfl, rfl, rfl, rfl⟩, writeBack_owes hn hp s.sent⟩
      simp only [Ixgbe.step, if_pos hn, hmap, List.map_cons]
  · exact ⟨.transmit n, _, _, if_pos ⟨hn, hne⟩, h.transmit hN hn hne, ⟨rfl, rfl, rfl, rfl, rfl⟩, h.transmit_owes hn hne⟩

/-- The outputs finish, if only they take steps. -/
theorem Inv.finishes (hN : 0 < N) : ∀ {s : State α} {c : Counters}, Inv N s c →
    ∃ as s', Ixgbe.run N s as = some s' ∧ Finished N s' ∧ SameInput s s'
  | s, c, h => by
    by_cases hdone : Finished N s
    · exact ⟨[], s, rfl, hdone, rfl, rfl, rfl, rfl, rfl⟩
    · obtain ⟨a, s₁, c₁, ha, h₁, hsame, hlt⟩ := h.progress hN hdone
      obtain ⟨as, s', hrun, hdone', hsame'⟩ := Inv.finishes hN h₁
      exact ⟨a :: as, s', Option.bind_eq_some_iff.mpr ⟨s₁, ha, hrun⟩, hdone', hsame.trans hsame'⟩
termination_by s c => ∑ n ∈ Finset.range N, c.owes s.sent n

/-! ### Locking up -/

/-- The outputs have finished, the driver waits for a packet, and the NIC has no descriptor for one. -/
structure Locked (N : ℕ) (s : State α) : Prop where
  finished : Finished N s
  idle : Idle s
  full : s.rdh = s.rdt

theorem Locked.not_notLocked (h : Locked N s) : ¬ NotLocked N s := fun hnot => by
  refine hnot h.finished (fun i hi => ?_) h.full
  rw [Waiting, ← h.idle.2, List.drop_length] at hi
  exact absurd hi List.not_mem_nil

/-- Nothing can happen any more. -/
theorem Locked.step (hl : Locked N s) (h : Inv N s c) {a : Action α} (ha : step N s a = some s') : s' = s := by
  obtain ⟨packet, metadata, -, hne, -⟩ | ⟨n, hn, -, hne, -⟩ | ⟨n, hn, -, head, rest, hw, -⟩ |
    ⟨packet, lengths, -, rfl⟩ :=
    step_cases ha
  · exact absurd hl.full hne
  · exact absurd (hl.finished n hn).1 hne
  · rw [(hl.finished n hn).2] at hw
    cases hw
  · have hdone : ¬ descriptorDone (s.rings 0 s.processedDelimiter) = true := fun hd =>
      ((h.inOrder.2 0 hl.idle.1).mp hd).ne hl.idle.2.symm
    have hpoll : s.poll 0 = { s with pc := .poll 0 } := by
      rw [State.poll, if_neg fun hd => hdone hd.2, if_neg (not_not.mpr rfl)]
    rw [State.drive, hl.idle.1]
    show s.poll 0 = s
    rw [hpoll, ← hl.idle.1]

theorem Locked.run (hl : Locked N s) (h : Inv N s c) : ∀ {as : List (Action α)}, run N s as = some s' → s' = s
  | [], hrun => (Option.some.inj hrun).symm
  | a :: as, hrun => by
    obtain ⟨s₁, ha, hrun⟩ := Option.bind_eq_some_iff.mp hrun
    rw [hl.step h ha] at hrun
    exact Locked.run hl h hrun

/-- When the NIC has received all it can and the driver has processed it, the agent locks up. -/
theorem Inv.locks (h : Inv N s c) (hN : 0 < N) (hidle : Idle s) (hfull : s.received.length = c.tail) :
    ∃ as s', Ixgbe.run N s as = some s' ∧ Locked N s' := by
  obtain ⟨as, s', hrun, hdone, hpc, hrdh, hrdt, hreceived, hprocessed⟩ := h.finishes hN
  refine ⟨as, s', hrun, hdone, ⟨hpc.trans hidle.1, by rw [hreceived, hprocessed, hidle.2]⟩, ?_⟩
  rw [hrdh, hrdt, h.registers.rdh, h.registers.rdt, hfull]

/-- After a recycle that reads such a head, that can always happen. -/
theorem Stuck.locks [Nonempty α] (hN : 0 < N) (h : Inv N s c) (hs : Stuck s c) :
    ∃ as s', Ixgbe.run N s as = some s' ∧ Locked N s' := by
  obtain ⟨packet⟩ := ‹Nonempty α›
  obtain ⟨as₁, s₁, hrun₁, -, -⟩ := h.settles hN packet fun _ => 0
  obtain ⟨c₁, h₁⟩ := h.run hN hrun₁
  obtain ⟨as₂, s₂, hrun₂, h₂, hreceived₂, -⟩ := h₁.receives hN packet
    (Nat.add_sub_of_le h₁.registers.received_le).le
  obtain ⟨as₃, s₃, hrun₃, hidle, hreceived₃, -⟩ := h₂.settles hN packet fun _ => 0
  have hrun := run_append hrun₁ (run_append hrun₂ hrun₃)
  obtain ⟨c₃, h₃, hs₃⟩ := hs.run hN h hrun
  rw [stuck_none (by rw [hidle.1]; rfl)] at hs₃
  have hat := h₃.atPc
  rw [hidle.1] at hat
  have htail := h₁.registers.tail_mod
  have hle := h₁.registers.received_le
  have hfull : s₃.received.length = c₃.tail := by
    have hdelimiter : s₃.received.length = c₃.delimiter := hidle.2.trans hat.1
    rw [hs₃, ← hdelimiter, hreceived₃]
    omega
  obtain ⟨as₄, s₄, hrun₄, hlocked⟩ := h₃.locks hN hidle hfull
  exact ⟨_, s₄, run_append hrun hrun₄, hlocked⟩

/-- **No lock up.** In every run in which no recycle reads a head that is a ring less a recycle period behind the
delimiter, with any number of outputs and whatever their order, the NIC owns a receive descriptor when the outputs
have finished and no packet waits. After any other run the agent can lock up, and then nothing happens any more. -/
theorem notLocked (N : ℕ) (hN : 0 < N) (buffer : ℕ → α) (as : List (Action α)) (s : State α)
    (hrun : run N (init buffer) as = some s) :
    (RecyclesOk N (init buffer) as → NotLocked N s) ∧
      (¬ RecyclesOk N (init buffer) as → ∃ as' s', run N s as' = some s' ∧ ¬ NotLocked N s' ∧
        ∀ as'' s'', run N s' as'' = some s'' → s'' = s') := by
  refine ⟨fun hok => ?_, fun hok => ?_⟩
  · obtain ⟨c, h, hs⟩ := Slack.run hN (init_inv buffer) (init_slack buffer) hok hrun
    exact hs.owns h hN
  · obtain ⟨c, h, hs⟩ := stuck_of_recycles hN (init_inv buffer) hok hrun
    have : Nonempty α := ⟨buffer 0⟩
    obtain ⟨as', s', hrun', hlocked⟩ := hs.locks hN h
    obtain ⟨c', h'⟩ := h.run hN hrun'
    exact ⟨as', s', hrun', hlocked.not_notLocked, fun as'' s'' hrun'' => hlocked.run h' hrun''⟩

/-- A recycle period of packets of one output, up to the flush of the last of them. -/
def periodPackets : List (Action ℕ) :=
  (List.range 64).flatMap (fun i =>
    [.receive i (1#64 <<< 32), .drive 0 fun _ => 60, .drive 0 fun _ => 60, .drive 0 fun _ => 60]) ++
    List.replicate 23 (.drive 0 fun _ => 60)

/-- Their transmission, with the write-back of the head. -/
def periodTransmits : List (Action ℕ) := List.replicate 64 (.transmit 0) ++ [.writeBack 0]

/-- The theorem at two periods: the second recycle reads the head 64 and moves the receive tail. -/
theorem notLocked_periods :
    ∃ s, run 1 (init fun _ => 0) (periodPackets ++ periodTransmits ++ periodPackets) = some s ∧
      s.rdt = 63 ∧ s.processed.length = 128 ∧ NotLocked 1 s := by
  have hruns : (run 1 (init fun _ => 0) (periodPackets ++ periodTransmits ++ periodPackets)).map
      (fun s => (s.rdt, s.processed.length)) = some (63, 128) := by decide +kernel
  obtain ⟨s, hrun, hs⟩ := Option.map_eq_some_iff.mp hruns
  rw [Prod.mk.injEq] at hs
  exact ⟨s, hrun, hs.1, hs.2, (notLocked 1 (by decide) (fun _ => 0) _ s hrun).1 (by decide +kernel)⟩

/-- The output does not transmit before 255 packets have been processed: the recycle after 192 reads the head 0. -/
theorem not_always_notLocked : ¬ ∀ (N : ℕ) (buffer : ℕ → Unit) (as : List (Action Unit)) (s : State Unit), 0 < N →
    run N (init buffer) as = some s → NotLocked N s := by
  intro hclaim
  have h := init_inv (N := 1) fun _ => ()
  obtain ⟨as₁, s₁, hrun₁, h₁, hreceived₁, hsent₁⟩ := h.receives (by decide) () (k := 255) le_rfl
  obtain ⟨as₂, s₂, hrun₂, hidle, hreceived₂, hsent₂⟩ := h₁.settles (by decide) () fun _ => 0
  obtain ⟨c₂, h₂⟩ := h₁.run (by decide) hrun₂
  have hsent : s₂.sent 0 = 0 := by rw [hsent₂, hsent₁]; rfl
  have hreceived : s₂.received.length = 255 := by rw [hreceived₂, hreceived₁]; rfl
  have htail := (h₂.output 0 (by decide)).lt_sent
  have hle := h₂.registers.received_le
  obtain ⟨as₃, s₃, hrun₃, hlocked⟩ := h₂.locks (by decide) hidle (by omega)
  exact hlocked.not_notLocked (hclaim 1 _ _ s₃ (by decide) (run_append hrun₁ (run_append hrun₂ hrun₃)))

end Ixgbe
end Klint
