/-
# The spanning tree protocol of the bridge

`nf/bridge/spanning_tree.h`. A bridge that hears nothing for long enough uses
the packet it gets to announce its root; one that hears a BPDU of a better root
or a shorter path takes it, and announces it in turn; a BPDU of a worse root
disables its port.

`heard_best_iff`: over every run the root, the cost and the port are the best
that was heard, whatever the order, exactly when no BPDU has a cost that the
32-bit addition of the link cost takes past its end and that looks better for
it (`Bpdu.Fits`).

`bpdu_unrecognized`: what a bridge announces has the address of the last
device's endpoint as its destination, so no bridge takes it for a BPDU.
-/
import Klint.Net.Tinynf
import Mathlib.Data.Prod.Lex
import Mathlib.Order.Bounds.Basic
import Mathlib.Data.List.Infix

namespace Klint
namespace Bridge

/-! ### The state and the messages -/

def linkCost : UInt32 := 10

structure StpState where
  lastUpdateTime : ℕ
  self : UInt64
  root : UInt64
  rootCost : UInt32
  rootPort : UInt16
  deriving DecidableEq, Repr

/-- `struct stp_state`, with `disabled_ports` and `update_time` beside it. -/
structure Stp where
  state : StpState
  disabledPorts : List Bool
  updateTime : ℕ
  deriving DecidableEq, Repr

/-- `struct bpdu_packet`. -/
structure Bpdu where
  root : UInt64
  rootCost : UInt32
  sender : UInt64
  deriving DecidableEq, Repr

/-- `sizeof(struct bpdu_packet)`. -/
def bpduSize : ℕ := 20

def loadBpdu (data : ℕ → UInt8) (p : ℕ) : Bpdu := ⟨load64 data p, load32 data (p + 8), load64 data (p + 12)⟩

def storeBpdu (data : ℕ → UInt8) (p : ℕ) (b : Bpdu) : ℕ → UInt8 :=
  store64 (store32 (store64 data p b.root) (p + 8) b.rootCost) (p + 12) b.sender

/-- The payload of the packet, after the Ethernet header. -/
def bpduOf (packet : NetPacket) : Bpdu := loadBpdu packet.data etherHeaderSize

/-- 01:80:C2:00:00:00. -/
def bpduAddr : EtherAddr := ⟨0x01, 0x80, 0xC2, 0x00, 0x00, 0x00⟩

def stpInit (devicesCount : UInt16) (selfBid : UInt64) (updateTime : ℕ) : Stp where
  state := { lastUpdateTime := 0, self := selfBid, root := selfBid, rootCost := 0, rootPort := 0 }
  disabledPorts := List.replicate devicesCount.toNat false
  updateTime := updateTime

/-- Write the state into the payload. -/
def StpState.announce (state : StpState) (packet : NetPacket) : NetPacket :=
  { packet with data := storeBpdu packet.data etherHeaderSize ⟨state.root, state.rootCost, state.self⟩ }

/-- The three updates, for a BPDU from a device; `none` if there is none. -/
def StpState.update (state : StpState) (data : Bpdu) (device : UInt16) : Option StpState :=
  if data.root < state.root then
    some { state with root := data.root, rootCost := data.rootCost + linkCost, rootPort := device }
  else if data.root = state.root ∧ data.rootCost + linkCost < state.rootCost then
    some { state with rootCost := data.rootCost + linkCost, rootPort := device }
  else if data.root = state.root ∧ data.rootCost + linkCost = state.rootCost ∧ device < state.rootPort then
    some { state with rootPort := device }
  else none

/-- The time of the periodic BPDU has come; the sum is 64 bits wide. -/
def Stp.due (stp : Stp) (packet : NetPacket) : Prop :=
  (stp.state.lastUpdateTime + stp.updateTime) % 2 ^ 64 < packet.time

instance (stp : Stp) (packet : NetPacket) : Decidable (stp.due packet) :=
  inferInstanceAs (Decidable (_ < _))

/-- Whether the packet was consumed, the state, and the outputs. -/
def stpHandle (drv : Tinynf) (stp : Stp) (o : Outputs) : Bool × Stp × Outputs :=
  if stp.due o.packet then
    let state := { stp.state with lastUpdateTime := o.packet.time }
    let packet := { state.announce o.packet with length := etherHeaderSize + bpduSize }
    (true, { stp with state := state }, netFlood drv { o with packet := packet } .updateEtherAddrs)
  else if etherDstAddr o.packet.data 0 ≠ bpduAddr then (false, stp, o)
  else if stp.state.root < (bpduOf o.packet).root then
    -- a worse root
    (true, { stp with disabledPorts := stp.disabledPorts.set o.packet.device.toNat true }, o)
  else
    match stp.state.update (bpduOf o.packet) o.packet.device with
    | none => (true, stp, o)
    | some state =>
      (true, { stp with state := state, disabledPorts := stp.disabledPorts.set state.rootPort.toNat false },
        netFlood drv { o with packet := state.announce o.packet } .updateEtherAddrs)

def stpBlockedDevices (stp : Stp) : List Bool := stp.disabledPorts

/-- The packet is processed as a BPDU. -/
def Stp.Hears (stp : Stp) (packet : NetPacket) : Prop :=
  ¬ stp.due packet ∧ etherDstAddr packet.data 0 = bpduAddr

instance (stp : Stp) (packet : NetPacket) : Decidable (stp.Hears packet) :=
  inferInstanceAs (Decidable (_ ∧ _))

/-- The state after hearing a BPDU. -/
def StpState.hear (state : StpState) (data : Bpdu) (device : UInt16) : StpState :=
  if state.root < data.root then state else (state.update data device).getD state

variable {drv : Tinynf} {stp : Stp} {o : Outputs} {packet : NetPacket} {state : StpState}

/-- What a packet does to the state: a BPDU is heard, the timer of a due one is reset, and the others do
nothing. -/
theorem stpHandle_state : (stpHandle drv stp o).2.1.state =
    if stp.Hears o.packet then stp.state.hear (bpduOf o.packet) o.packet.device
    else if stp.due o.packet then { stp.state with lastUpdateTime := o.packet.time } else stp.state := by
  unfold stpHandle Stp.Hears StpState.hear
  by_cases hdue : stp.due o.packet
  · simp [hdue]
  · by_cases hdst : etherDstAddr o.packet.data 0 = bpduAddr
    · by_cases hroot : stp.state.root < (bpduOf o.packet).root
      · simp [hdue, hdst, hroot]
      · cases stp.state.update (bpduOf o.packet) o.packet.device with
        | none => simp [hdue, hdst, hroot]
        | some state => simp [hdue, hdst, hroot]
    · simp [hdue, hdst]

theorem update_rootPort {state' : StpState} {data : Bpdu} {device : UInt16}
    (h : state.update data device = some state') :
    state'.rootPort = device := by
  unfold StpState.update at h
  split_ifs at h
  · cases h
    rfl
  · cases h
    rfl
  · cases h
    rfl

/-- What a packet does to the ports: a BPDU of a worse root disables its port, and one that is taken enables it. -/
theorem stpHandle_disabledPorts : (stpHandle drv stp o).2.1.disabledPorts =
    if stp.Hears o.packet then
      if stp.state.root < (bpduOf o.packet).root then stp.disabledPorts.set o.packet.device.toNat true
      else if (stp.state.update (bpduOf o.packet) o.packet.device).isSome then
        stp.disabledPorts.set o.packet.device.toNat false
      else stp.disabledPorts
    else stp.disabledPorts := by
  unfold stpHandle Stp.Hears
  by_cases hdue : stp.due o.packet
  · simp [hdue]
  · by_cases hdst : etherDstAddr o.packet.data 0 = bpduAddr
    · by_cases hroot : stp.state.root < (bpduOf o.packet).root
      · simp [hdue, hdst, hroot]
      · cases hup : stp.state.update (bpduOf o.packet) o.packet.device with
        | none => simp [hdue, hdst, hroot]
        | some state => simp [hdue, hdst, hroot, update_rootPort hup]
    · simp [hdue, hdst]

/-! ### Hearing the best -/

/-- What a BPDU says of the way to its root, over the natural numbers. -/
def Bpdu.path (data : Bpdu) : ℕ ×ₗ ℕ := toLex (data.root.toNat, data.rootCost.toNat + linkCost.toNat)

/-- What a bridge believes. -/
def StpState.path (state : StpState) : ℕ ×ₗ ℕ := toLex (state.root.toNat, state.rootCost.toNat)

/-- The bridge's own path, and those it has heard of. -/
def heardPaths (bid : UInt64) (heard : List NetPacket) : Set (ℕ ×ₗ ℕ) :=
  {x | x = toLex (bid.toNat, 0) ∨ ∃ p ∈ heard, (bpduOf p).path = x}

/-- The devices on which a path was heard of. -/
def heardOn (heard : List NetPacket) (x : ℕ ×ₗ ℕ) : Set ℕ :=
  {d | ∃ p ∈ heard, (bpduOf p).path = x ∧ p.device.toNat = d}

/-- The state is the best heard: the least path, on the lowest device that it was heard of on. -/
structure StpState.Best (state : StpState) (bid : UInt64) (heard : List NetPacket) : Prop where
  path : IsLeast (heardPaths bid heard) state.path
  port : (heardOn heard state.path).Nonempty → IsLeast (heardOn heard state.path) state.rootPort.toNat

/-- The cost does not wrap with the link's, or does not look better for it. -/
def Bpdu.Fits (data : Bpdu) (state : StpState) (device : UInt16) : Prop :=
  data.rootCost.toNat + linkCost.toNat < 2 ^ 32 ∨ state.root < data.root ∨
    data.root = state.root ∧ (state.rootCost < data.rootCost + linkCost ∨
      data.rootCost + linkCost = state.rootCost ∧ state.rootPort ≤ device)

theorem path_le_iff {a b : ℕ × ℕ} : toLex a ≤ toLex b ↔ a.1 < b.1 ∨ a.1 = b.1 ∧ a.2 ≤ b.2 := Prod.Lex.le_iff

theorem path_inj {a b : ℕ × ℕ} : toLex a = toLex b ↔ a.1 = b.1 ∧ a.2 = b.2 := by
  rw [toLex_inj, Prod.ext_iff]

/-- With the port of a bridge that is its own root, the state within which the claim is an induction. -/
structure StpState.Informed (state : StpState) (bid : UInt64) (heard : List NetPacket) : Prop extends
    state.Best bid heard where
  own : ¬ (heardOn heard state.path).Nonempty → state.rootPort = 0

theorem mem_heardPaths_append {bid : UInt64} {heard : List NetPacket} {p : NetPacket} {x : ℕ ×ₗ ℕ} :
    x ∈ heardPaths bid (heard ++ [p]) ↔ x ∈ heardPaths bid heard ∨ (bpduOf p).path = x := by
  simp only [heardPaths, Set.mem_ofPred_eq, List.mem_append, List.mem_singleton, or_and_right, exists_or,
    exists_eq_left, or_assoc]

theorem mem_heardOn_append {heard : List NetPacket} {p : NetPacket} {x : ℕ ×ₗ ℕ} {d : ℕ} :
    d ∈ heardOn (heard ++ [p]) x ↔ d ∈ heardOn heard x ∨ (bpduOf p).path = x ∧ p.device.toNat = d := by
  simp only [heardOn, Set.mem_ofPred_eq, List.mem_append, List.mem_singleton, or_and_right, exists_or,
    exists_eq_left]

/-- A path heard of is the least one if it was heard of on some device, or is the bridge's own. -/
theorem StpState.Best.own_or_heard {bid : UInt64} {heard : List NetPacket} (h : state.Best bid heard) :
    state.path = toLex (bid.toNat, 0) ∨ (heardOn heard state.path).Nonempty := by
  rcases h.path.1 with he | ⟨p, hp, he⟩
  · exact .inl he
  · exact .inr ⟨_, p, hp, he, rfl⟩

/-- A bridge that has heard nothing. -/
theorem stpInit_informed (devicesCount : UInt16) (bid : UInt64) (updateTime : ℕ) :
    (stpInit devicesCount bid updateTime).state.Informed bid [] where
  path := ⟨.inl rfl, fun x hx => by
    rcases hx with rfl | ⟨p, hp, -⟩
    · exact le_refl _
    · cases hp⟩
  port := fun ⟨_, p, hp, _⟩ => by cases hp
  own := fun _ => rfl

section Hear

variable {bid : UInt64} {heard : List NetPacket} {p : NetPacket} {data : Bpdu} {device : UInt16}

/-- The cost over the link, as the code adds it. -/
theorem cost_toNat (data : Bpdu) : (data.rootCost + linkCost).toNat =
    (data.rootCost.toNat + linkCost.toNat) % 2 ^ 32 := UInt32.toNat_add _ _

/-- The comparisons of the code, over the natural numbers. -/
theorem root_lt {a b : UInt64} : a < b ↔ a.toNat < b.toNat := UInt64.lt_iff_toNat_lt
theorem root_eq {a b : UInt64} : a = b ↔ a.toNat = b.toNat := UInt64.toNat_inj.symm
theorem cost_lt {a b : UInt32} : a < b ↔ a.toNat < b.toNat := UInt32.lt_iff_toNat_lt
theorem cost_eq {a b : UInt32} : a = b ↔ a.toNat = b.toNat := UInt32.toNat_inj.symm
theorem port_lt {a b : UInt16} : a < b ↔ a.toNat < b.toNat := UInt16.lt_iff_toNat_lt

theorem fits_iff : data.Fits state device ↔
    data.rootCost.toNat + linkCost.toNat < 2 ^ 32 ∨ state.root.toNat < data.root.toNat ∨
      data.root.toNat = state.root.toNat ∧
        (state.rootCost.toNat < (data.rootCost.toNat + linkCost.toNat) % 2 ^ 32 ∨
          (data.rootCost.toNat + linkCost.toNat) % 2 ^ 32 = state.rootCost.toNat ∧
            state.rootPort.toNat ≤ device.toNat) := by
  simp only [Bpdu.Fits, root_lt, root_eq, cost_lt, cost_eq, cost_toNat, UInt16.le_iff_toNat_le]

/-- What hearing a BPDU does to the state. -/
theorem hear_cases (state : StpState) (data : Bpdu) (device : UInt16) :
    data.root.toNat < state.root.toNat ∧ state.hear data device =
        { state with root := data.root, rootCost := data.rootCost + linkCost, rootPort := device } ∨
    data.root.toNat = state.root.toNat ∧
        (data.rootCost.toNat + linkCost.toNat) % 2 ^ 32 < state.rootCost.toNat ∧ state.hear data device =
          { state with rootCost := data.rootCost + linkCost, rootPort := device } ∨
    data.root.toNat = state.root.toNat ∧
        (data.rootCost.toNat + linkCost.toNat) % 2 ^ 32 = state.rootCost.toNat ∧
        device.toNat < state.rootPort.toNat ∧ state.hear data device = { state with rootPort := device } ∨
    (state.root.toNat < data.root.toNat ∨ data.root.toNat = state.root.toNat ∧
      (state.rootCost.toNat < (data.rootCost.toNat + linkCost.toNat) % 2 ^ 32 ∨
        (data.rootCost.toNat + linkCost.toNat) % 2 ^ 32 = state.rootCost.toNat ∧
          state.rootPort.toNat ≤ device.toNat)) ∧ state.hear data device = state := by
  unfold StpState.hear StpState.update
  simp only [root_lt, root_eq, cost_lt, cost_eq, port_lt, cost_toNat]
  split_ifs with h1 h2 h3 h4
  · exact .inr (.inr (.inr ⟨.inl h1, rfl⟩))
  · exact .inl ⟨h2, rfl⟩
  · exact .inr (.inl ⟨h3.1, h3.2, rfl⟩)
  · exact .inr (.inr (.inl ⟨h4.1, h4.2.1, h4.2.2, rfl⟩))
  · exact .inr (.inr (.inr ⟨by omega, rfl⟩))

/-- A BPDU that is not better is heard of in vain. -/
theorem StpState.Informed.keep (h : state.Informed bid heard)
    (hle : state.path < (bpduOf p).path ∨
      (bpduOf p).path = state.path ∧ state.rootPort.toNat ≤ p.device.toNat) :
    state.Informed bid (heard ++ [p]) := by
  have hpath : IsLeast (heardPaths bid (heard ++ [p])) state.path := by
    refine ⟨mem_heardPaths_append.mpr (.inl h.path.1), fun x hx => ?_⟩
    rcases mem_heardPaths_append.mp hx with hx | rfl
    · exact h.path.2 hx
    · exact hle.elim le_of_lt fun he => le_of_eq he.1.symm
  -- the bridge's own path is not heard of
  have hmore : (heardOn (heard ++ [p]) state.path).Nonempty → (heardOn heard state.path).Nonempty := by
    rintro ⟨d, hd⟩
    rcases mem_heardOn_append.mp hd with hd | ⟨hx, -⟩
    · exact ⟨d, hd⟩
    · refine h.own_or_heard.resolve_left fun hown => ?_
      rw [← hx, Bpdu.path, path_inj] at hown
      exact absurd hown.2 (by simp [linkCost])
  refine ⟨⟨hpath, fun hne => ?_⟩, fun hne => h.own fun ⟨d, hd⟩ => hne ⟨d, mem_heardOn_append.mpr (.inl hd)⟩⟩
  obtain ⟨hmem, hlb⟩ := h.port (hmore hne)
  refine ⟨mem_heardOn_append.mpr (.inl hmem), fun d hd => ?_⟩
  rcases mem_heardOn_append.mp hd with hd | ⟨hx, rfl⟩
  · exact hlb hd
  · rcases hle with hlt | ⟨-, hle⟩
    · exact absurd hx (ne_of_gt hlt)
    · exact hle

/-- A better one is taken. -/
theorem StpState.Informed.take (h : state.Informed bid heard) {state' : StpState}
    (hlt : (bpduOf p).path < state.path) (hpath : state'.path = (bpduOf p).path) (hport : state'.rootPort = p.device) :
    state'.Informed bid (heard ++ [p]) := by
  have hmem : p.device.toNat ∈ heardOn (heard ++ [p]) state'.path := mem_heardOn_append.mpr (.inr ⟨hpath.symm, rfl⟩)
  refine ⟨⟨⟨mem_heardPaths_append.mpr (.inr hpath.symm), fun x hx => ?_⟩, fun _ => ⟨hport ▸ hmem, fun d hd => ?_⟩⟩,
    fun hne => absurd ⟨_, hmem⟩ hne⟩
  · rw [hpath]
    rcases mem_heardPaths_append.mp hx with hx | rfl
    · exact le_of_lt (lt_of_lt_of_le hlt (h.path.2 hx))
    · exact le_refl _
  · rw [hpath] at hd
    rcases mem_heardOn_append.mp hd with ⟨q, hq, hx, -⟩ | ⟨-, rfl⟩
    · have := h.path.2 (.inr ⟨q, hq, rfl⟩)
      rw [hx] at this
      exact absurd hlt (not_lt.mpr this)
    · rw [hport]

/-- So is an equal one on a lower device. -/
theorem StpState.Informed.lower (h : state.Informed bid heard) {state' : StpState}
    (he : (bpduOf p).path = state.path) (hlt : p.device.toNat < state.rootPort.toNat) (hpath : state'.path = state.path)
    (hport : state'.rootPort = p.device) : state'.Informed bid (heard ++ [p]) := by
  have hmem : p.device.toNat ∈ heardOn (heard ++ [p]) state'.path :=
    mem_heardOn_append.mpr (.inr ⟨he.trans hpath.symm, rfl⟩)
  refine ⟨⟨⟨mem_heardPaths_append.mpr (.inr (he.trans hpath.symm)), fun x hx => ?_⟩,
    fun _ => ⟨hport ▸ hmem, fun d hd => ?_⟩⟩, fun hne => absurd ⟨_, hmem⟩ hne⟩
  · rw [hpath]
    rcases mem_heardPaths_append.mp hx with hx | rfl
    · exact h.path.2 hx
    · exact le_of_eq he.symm
  · rw [hpath] at hd
    rw [hport]
    rcases mem_heardOn_append.mp hd with hd | ⟨-, rfl⟩
    · exact (Nat.le_of_lt hlt).trans ((h.port ⟨d, hd⟩).2 hd)
    · exact le_refl _

theorem path_lt_iff {a b : ℕ × ℕ} : toLex a < toLex b ↔ a.1 < b.1 ∨ a.1 = b.1 ∧ a.2 < b.2 := Prod.Lex.lt_iff

/-- A BPDU whose cost fits leaves the best heard. -/
theorem StpState.Informed.hear (h : state.Informed bid heard) (hfits : (bpduOf p).Fits state p.device) :
    (state.hear (bpduOf p) p.device).Informed bid (heard ++ [p]) := by
  have hsum := cost_toNat (bpduOf p)
  have hlt := state.rootCost.toNat_lt
  rw [fits_iff] at hfits
  rcases hear_cases state (bpduOf p) p.device with ⟨hroot, he⟩ | ⟨hroot, hcost, he⟩ | ⟨hroot, hcost, hport, he⟩ |
    ⟨hworse, he⟩
  · have hfit : (bpduOf p).rootCost.toNat + linkCost.toNat < 2 ^ 32 := by omega
    rw [he]
    refine h.take (path_lt_iff.mpr (.inl hroot)) (path_inj.mpr ⟨rfl, ?_⟩) rfl
    rw [hsum, Nat.mod_eq_of_lt hfit]
  · have hfit : (bpduOf p).rootCost.toNat + linkCost.toNat < 2 ^ 32 := by omega
    rw [Nat.mod_eq_of_lt hfit] at hcost hsum
    rw [he]
    exact h.take (path_lt_iff.mpr (.inr ⟨hroot, hcost⟩)) (path_inj.mpr ⟨hroot.symm, hsum⟩) rfl
  · have hfit : (bpduOf p).rootCost.toNat + linkCost.toNat < 2 ^ 32 := by omega
    rw [Nat.mod_eq_of_lt hfit] at hcost
    rw [he]
    exact h.lower (path_inj.mpr ⟨hroot, hcost⟩) hport rfl rfl
  · rw [he]
    refine h.keep ?_
    rcases hworse with hroot | ⟨hroot, hcost⟩
    · exact .inl (path_lt_iff.mpr (.inl hroot))
    · rcases Nat.lt_or_ge ((bpduOf p).rootCost.toNat + linkCost.toNat) (2 ^ 32) with hfit | hwrap
      · rw [Nat.mod_eq_of_lt hfit] at hcost
        rcases hcost with hcost | ⟨hcost, hport⟩
        · exact .inl (path_lt_iff.mpr (.inr ⟨hroot.symm, hcost⟩))
        · exact .inr ⟨path_inj.mpr ⟨hroot, hcost⟩, hport⟩
      · exact .inl (path_lt_iff.mpr (.inr ⟨hroot.symm, lt_of_lt_of_le hlt hwrap⟩))

/-- One whose cost wraps and looks better for it does not. -/
theorem StpState.Informed.hear_wrapped (h : state.Informed bid heard) (hnot : ¬ (bpduOf p).Fits state p.device) :
    ¬ (state.hear (bpduOf p) p.device).Best bid (heard ++ [p]) := by
  rw [fits_iff] at hnot
  intro hbest
  -- the state has become no path that was heard of
  have hnew : (state.hear (bpduOf p) p.device).path < state.path → False := by
    intro hlt
    rcases mem_heardPaths_append.mp hbest.path.1 with hx | hx
    · exact absurd hlt (not_lt.mpr (h.path.2 hx))
    · have hcost : (bpduOf p).rootCost.toNat + linkCost.toNat = _ := (path_inj.mp hx).2
      have := (state.hear (bpduOf p) p.device).rootCost.toNat_lt
      omega
  rcases hear_cases state (bpduOf p) p.device with ⟨hroot, he⟩ | ⟨hroot, hcost, he⟩ | ⟨hroot, hcost, hport, he⟩ |
    ⟨hworse, -⟩
  · rw [he] at hnew
    exact hnew (path_lt_iff.mpr (.inl hroot))
  · rw [he] at hnew
    exact hnew (path_lt_iff.mpr (.inr ⟨rfl, by rw [cost_toNat]; exact hcost⟩))
  · -- only the device has changed, to one that the path was not heard of on
    rw [he] at hbest
    by_cases hne : (heardOn heard state.path).Nonempty
    · have hmem : state.rootPort.toNat ∈ heardOn (heard ++ [p]) state.path :=
        mem_heardOn_append.mpr (.inl (h.port hne).1)
      rcases mem_heardOn_append.mp (hbest.port ⟨_, hmem⟩).1 with hx | ⟨hx, -⟩
      · exact absurd ((h.port hne).2 hx) (not_le.mpr hport)
      · have hcost : (bpduOf p).rootCost.toNat + linkCost.toNat = state.rootCost.toNat := (path_inj.mp hx).2
        have := state.rootCost.toNat_lt
        omega
    · rw [h.own hne] at hport
      exact absurd hport (Nat.not_lt_zero _)
  · omega

end Hear

/-! ### Runs -/

/-- The state after a packet. -/
def stpStep (drv : Tinynf) (stp : Stp) (packet : NetPacket) : Stp := (stpHandle drv stp (drv.received packet)).2.1

def stpRun (drv : Tinynf) (stp : Stp) (ps : List NetPacket) : Stp := ps.foldl (stpStep drv) stp

/-- The BPDUs that a run processes. -/
def heardBy (drv : Tinynf) : Stp → List NetPacket → List NetPacket
  | _, [] => []
  | stp, p :: ps => (if stp.Hears p then [p] else []) ++ heardBy drv (stpStep drv stp p) ps

/-- The cost of every BPDU that a run processes fits. -/
def AllFit (drv : Tinynf) : Stp → List NetPacket → Prop
  | _, [] => True
  | stp, p :: ps =>
    (stp.Hears p → (bpduOf p).Fits stp.state p.device) ∧ AllFit drv (stpStep drv stp p) ps

/-- The state is the best heard, after each packet of the run. -/
def AllBest (drv : Tinynf) (bid : UInt64) (stp : Stp) (ps : List NetPacket) : Prop :=
  ∀ qs, qs <+: ps → (stpRun drv stp qs).state.Best bid (heardBy drv stp qs)

section Run

variable {bid : UInt64} {heard heard' : List NetPacket} {state' : StpState}

theorem stpStep_state (p : NetPacket) : (stpStep drv stp p).state =
    if stp.Hears p then stp.state.hear (bpduOf p) p.device
    else if stp.due p then { stp.state with lastUpdateTime := p.time } else stp.state :=
  @stpHandle_state drv stp (drv.received p)

/-- A packet that is no BPDU does not inform the bridge. -/
theorem step_informed (h : stp.state.Informed bid heard) {p : NetPacket}
    (hfits : stp.Hears p → (bpduOf p).Fits stp.state p.device) :
    (stpStep drv stp p).state.Informed bid (heard ++ if stp.Hears p then [p] else []) := by
  rw [stpStep_state]
  split_ifs with hh hd
  · exact h.hear (hfits hh)
  · rw [List.append_nil]
    exact ⟨⟨h.path, h.port⟩, h.own⟩
  · rw [List.append_nil]
    exact h

theorem run_informed : ∀ {ps : List NetPacket} {stp : Stp} {heard : List NetPacket}, stp.state.Informed bid heard →
    AllFit drv stp ps → (stpRun drv stp ps).state.Informed bid (heard ++ heardBy drv stp ps)
  | [], _, heard, h, _ => by
    rw [heardBy, List.append_nil]
    exact h
  | p :: ps, stp, heard, h, hf => by
    rw [heardBy, ← List.append_assoc]
    exact run_informed (step_informed h hf.1) hf.2

theorem AllFit.left : ∀ {qs ps : List NetPacket} {stp : Stp}, AllFit drv stp (qs ++ ps) → AllFit drv stp qs
  | [], _, _, _ => trivial
  | _ :: _, _, _, h => ⟨h.1, AllFit.left h.2⟩

/-- The state is the best heard as long as every cost fits. -/
theorem allBest_iff : ∀ {ps : List NetPacket} {stp : Stp} {heard : List NetPacket}, stp.state.Informed bid heard →
    ((∀ qs, qs <+: ps → (stpRun drv stp qs).state.Best bid (heard ++ heardBy drv stp qs)) ↔ AllFit drv stp ps)
  | [], stp, heard, h => by
    simp only [List.prefix_nil, forall_eq, AllFit, iff_true, heardBy, List.append_nil]
    exact h.toBest
  | p :: ps, stp, heard, h => by
    constructor
    · intro hall
      have hfits : stp.Hears p → (bpduOf p).Fits stp.state p.device := by
        intro hh
        by_contra hnot
        have hone := hall [p] ((List.prefix_cons_inj p).mpr List.nil_prefix)
        rw [heardBy, heardBy, if_pos hh, List.append_nil, stpRun, List.foldl_cons, List.foldl_nil, stpStep_state,
          if_pos hh] at hone
        exact h.hear_wrapped hnot hone
      refine ⟨hfits, (allBest_iff (step_informed h hfits)).mp fun qs hqs => ?_⟩
      have hcons := hall (p :: qs) ((List.prefix_cons_inj p).mpr hqs)
      rwa [heardBy, ← List.append_assoc] at hcons
    · rintro hf qs hqs
      obtain ⟨rest, hrest⟩ := hqs
      exact (run_informed h (AllFit.left (hrest ▸ hf))).toBest

/-- The best of the same BPDUs is the same. -/
theorem StpState.Informed.unique (h : state.Informed bid heard) (h' : state'.Informed bid heard')
    (hperm : heard.Perm heard') :
    state.root = state'.root ∧ state.rootCost = state'.rootCost ∧ state.rootPort = state'.rootPort := by
  have hpaths : heardPaths bid heard = heardPaths bid heard' := by
    ext x
    simp only [heardPaths, Set.mem_ofPred_eq, hperm.mem_iff]
  have hon : ∀ x, heardOn heard x = heardOn heard' x := by
    intro x
    ext d
    simp only [heardOn, Set.mem_ofPred_eq, hperm.mem_iff]
  have hpath : state.path = state'.path := h.path.unique (hpaths ▸ h'.path)
  obtain ⟨hroot, hcost⟩ := path_inj.mp hpath
  refine ⟨UInt64.toNat_inj.mp hroot, UInt32.toNat_inj.mp hcost, ?_⟩
  by_cases hne : (heardOn heard state.path).Nonempty
  · have hne' : (heardOn heard' state'.path).Nonempty := by
      rw [← hon, ← hpath]
      exact hne
    have hport := h'.port hne'
    rw [← hon, ← hpath] at hport
    exact UInt16.toNat_inj.mp ((h.port hne).unique hport)
  · rw [h.own hne, h'.own (by rw [← hon, ← hpath]; exact hne)]

/-- What is heard in two parts of a run. -/
theorem heardBy_append : ∀ (qs ps : List NetPacket) (stp : Stp),
    heardBy drv stp (qs ++ ps) = heardBy drv stp qs ++ heardBy drv (stpRun drv stp qs) ps
  | [], _, _ => rfl
  | q :: qs, ps, stp => by
    rw [List.cons_append, heardBy, heardBy, heardBy_append qs ps, List.append_assoc]
    rfl

/-- A packet after which the state still is the best heard leaves no worse path. -/
theorem AllBest.no_worse {ps qs : List NetPacket} {p : NetPacket} (h : AllBest drv bid stp ps) (hp : qs ++ [p] <+: ps) :
    (stpRun drv stp (qs ++ [p])).state.path ≤ (stpRun drv stp qs).state.path := by
  have hbefore := (h qs ((List.prefix_append qs [p]).trans hp)).path.1
  refine (h _ hp).path.2 ?_
  rw [heardBy_append]
  rcases hbefore with hown | ⟨q, hq, hx⟩
  · exact .inl hown
  · exact .inr ⟨q, List.mem_append_left _ hq, hx⟩

/-- What is claimed of a run: after each packet the state is the best heard, no packet leaves a worse path,
and a run that hears the same in another order ends with the same root, cost and port. -/
structure HeardBest (drv : Tinynf) (bid : UInt64) (stp : Stp) (ps : List NetPacket) : Prop where
  best : AllBest drv bid stp ps
  noWorse : ∀ qs p, qs ++ [p] <+: ps → (stpRun drv stp (qs ++ [p])).state.path ≤ (stpRun drv stp qs).state.path
  order : ∀ (drv' : Tinynf) (devicesCount' : UInt16) (updateTime' : ℕ) (ps' : List NetPacket),
    AllBest drv' bid (stpInit devicesCount' bid updateTime') ps' →
    (heardBy drv stp ps).Perm (heardBy drv' (stpInit devicesCount' bid updateTime') ps') →
    (stpRun drv stp ps).state.root = (stpRun drv' (stpInit devicesCount' bid updateTime') ps').state.root ∧
      (stpRun drv stp ps).state.rootCost = (stpRun drv' (stpInit devicesCount' bid updateTime') ps').state.rootCost ∧
      (stpRun drv stp ps).state.rootPort = (stpRun drv' (stpInit devicesCount' bid updateTime') ps').state.rootPort

end Run

/-- **When the state is the best heard.** For every bridge and every run of packets: the root, the cost
and the port are the best that the BPDUs of the run told, after each of them and in any order, exactly
when each BPDU's cost fits. -/
theorem heard_best_iff (drv : Tinynf) (devicesCount : UInt16) (bid : UInt64) (updateTime : ℕ)
    (ps : List NetPacket) :
    HeardBest drv bid (stpInit devicesCount bid updateTime) ps ↔
      AllFit drv (stpInit devicesCount bid updateTime) ps := by
  have hinit := stpInit_informed devicesCount bid updateTime
  constructor
  · exact fun h => (allBest_iff hinit).mp h.best
  · intro hf
    have hbest : AllBest drv bid (stpInit devicesCount bid updateTime) ps := (allBest_iff hinit).mpr hf
    refine ⟨hbest, fun qs p hp => hbest.no_worse hp, fun drv' devicesCount' updateTime' ps' hbest' hperm => ?_⟩
    have hinit' := stpInit_informed devicesCount' bid updateTime'
    exact (run_informed hinit hf).unique (run_informed hinit' ((allBest_iff hinit').mp hbest')) hperm

/-- A driver of two devices without addresses. -/
def demoDriver : Tinynf := ⟨2, fun _ => default⟩

/-- A frame with a BPDU and zero elsewhere. -/
def bpduFrame (b : Bpdu) : ℕ → UInt8 := storeBpdu (storeEtherAddr (fun _ => 0) 0 bpduAddr) etherHeaderSize b

/-- Bridge 5 hears of a root 3 at the cost 2^32 - 5: its cost becomes 5. -/
theorem not_heard_best :
    ¬ HeardBest demoDriver 5 (stpInit 2 5 100) [⟨bpduFrame ⟨3, 0xFFFFFFFB, 7⟩, 34, 1, 1⟩] := by
  intro h
  have hbest := (h.best _ (List.prefix_refl _)).path.1
  have hpath : (stpRun demoDriver (stpInit 2 5 100)
      [⟨bpduFrame ⟨3, 0xFFFFFFFB, 7⟩, 34, 1, 1⟩]).state.path = toLex (3, 5) := by decide
  rw [hpath] at hbest
  rcases hbest with hown | ⟨p, hp, hx⟩
  · exact absurd hown (by decide)
  · have hp' : p = ⟨bpduFrame ⟨3, 0xFFFFFFFB, 7⟩, 34, 1, 1⟩ := by
      have hone : heardBy demoDriver (stpInit 2 5 100)
          [⟨bpduFrame ⟨3, 0xFFFFFFFB, 7⟩, 34, 1, 1⟩] = [⟨bpduFrame ⟨3, 0xFFFFFFFB, 7⟩, 34, 1, 1⟩] := rfl
      rw [hone] at hp
      exact List.mem_singleton.mp hp
    rw [hp'] at hx
    revert hx
    decide

/-! ### Announcing -/

theorem loadBpdu_storeBpdu (data : ℕ → UInt8) (p : ℕ) (b : Bpdu) : loadBpdu (storeBpdu data p b) p = b := by
  have hroot : load64 (storeBpdu data p b) p = b.root := by
    refine (load64_congr fun i hi => ?_).trans (load64_store64 data p b.root)
    rw [storeBpdu, store64_of_ne _ (by omega), store32_of_ne _ (by omega)]
  have hcost : load32 (storeBpdu data p b) (p + 8) = b.rootCost := by
    refine (load32_congr fun i hi => ?_).trans (load32_store32 (store64 data p b.root) (p + 8) b.rootCost)
    rw [storeBpdu, store64_of_ne _ (by omega)]
  have hsender : load64 (storeBpdu data p b) (p + 12) = b.sender := load64_store64 _ _ _
  rw [loadBpdu, hroot, hcost, hsender]

theorem loadBpdu_congr {data data' : ℕ → UInt8} {p : ℕ} (h : ∀ q, p ≤ q → data' q = data q) :
    loadBpdu data' p = loadBpdu data p := by
  rw [loadBpdu, loadBpdu, load64_congr fun i _ => h (p + i) (by omega),
    load32_congr fun i _ => h (p + 8 + i) (by omega), load64_congr fun i _ => h (p + 12 + i) (by omega)]

theorem bpduFrame_dst (b : Bpdu) : etherDstAddr (bpduFrame b) 0 = bpduAddr := by
  refine (loadEtherAddr_congr fun i hi => ?_).trans (loadEtherAddr_storeEtherAddr (fun _ => 0) 0 bpduAddr)
  unfold bpduFrame storeBpdu etherHeaderSize
  rw [store64_of_ne _ (by omega), store32_of_ne _ (by omega), store64_of_ne _ (by omega)]

/-- The packet makes the bridge announce its state: it is due, or the state is updated. -/
def Stp.Emits (stp : Stp) (packet : NetPacket) : Prop :=
  stp.due packet ∨ stp.Hears packet ∧ ¬ stp.state.root < (bpduOf packet).root ∧
    (stp.state.update (bpduOf packet) packet.device).isSome

/-- An announcement floods the state that the bridge then has. -/
theorem stpHandle_emits (he : stp.Emits o.packet) : ∃ packet : NetPacket,
    (stpHandle drv stp o).2.2 = netFlood drv { o with packet := packet } .updateEtherAddrs ∧
      packet.device = o.packet.device ∧ (0 < o.packet.length → 0 < packet.length) ∧
      bpduOf packet = ⟨(stpHandle drv stp o).2.1.state.root, (stpHandle drv stp o).2.1.state.rootCost,
        (stpHandle drv stp o).2.1.state.self⟩ := by
  unfold stpHandle
  rcases he with hdue | ⟨⟨hdue, hdst⟩, hroot, hup⟩
  · simp only [if_pos hdue]
    exact ⟨_, rfl, rfl, fun _ => (by decide : 0 < etherHeaderSize + bpduSize), loadBpdu_storeBpdu _ _ _⟩
  · obtain ⟨state, hstate⟩ := Option.isSome_iff_exists.mp hup
    simp only [if_neg hdue, hdst, ne_eq, not_true_eq_false, ↓reduceIte, if_neg hroot, hstate]
    exact ⟨_, rfl, rfl, id, loadBpdu_storeBpdu _ _ _⟩

/-- A packet that the protocol takes without announcing the state has no output. -/
theorem stpHandle_silent {p : NetPacket} (hp : stp.due p ∨ stp.Hears p) (he : ¬ stp.Emits p) :
    (stpHandle drv stp (drv.received p)).2.2 = drv.received p := by
  have hdue : ¬ stp.due (drv.received p).packet := fun hd => he (.inl hd)
  have hdst : etherDstAddr (drv.received p).packet.data 0 = bpduAddr := (hp.resolve_left hdue).2
  unfold stpHandle
  rw [if_neg hdue, if_neg (not_not.mpr hdst)]
  split_ifs with hroot
  · rfl
  · cases hup : stp.state.update (bpduOf (drv.received p).packet) (drv.received p).packet.device with
    | none => rfl
    | some state => exact absurd (.inr ⟨hp.resolve_left hdue, hroot, by
        rw [show stp.state.update (bpduOf p) p.device = _ from hup]; rfl⟩) he

/-- The frame that leaves on a device, as the bridge there receives it. -/
def Outputs.frameOn (o : Outputs) (device : UInt16) (time : ℕ) (on : UInt16) : NetPacket where
  data := o.packet.data
  length := o.sent device
  time := time
  device := on

/-- What is claimed of a packet that makes a bridge announce its state: on every device that the frame
leaves on, a bridge whose timer is not due takes it for a BPDU, with the state of the sender. -/
def Recognized (drv : Tinynf) (stp : Stp) (packet : NetPacket) : Prop :=
  let sender := stpHandle drv stp (drv.received packet)
  ∀ device, device < drv.devicesCount → 0 < sender.2.2.sent device →
    ∀ (receiver : Stp) (time : ℕ) (on : UInt16), ¬ receiver.due (Outputs.frameOn sender.2.2 device time on) →
      receiver.Hears (Outputs.frameOn sender.2.2 device time on) ∧
      bpduOf (Outputs.frameOn sender.2.2 device time on) =
        ⟨sender.2.1.state.root, sender.2.1.state.rootCost, sender.2.1.state.self⟩

/-- The endpoint of no device has the address of the BPDUs. -/
theorem endpointMac_ne (n : ℕ) : endpointMac n ≠ bpduAddr := fun h => by
  have h0 : (endpointMac n).b0 = bpduAddr.b0 := by rw [h]
  exact absurd h0 (by decide : (0 : UInt8) ≠ 0x01)

/-- What leaves has the state of the sender, and the address of an endpoint. -/
theorem emitted (h2 : 2 ≤ drv.devicesCount) {p : NetPacket} (he : stp.Emits p) (device : UInt16) (time : ℕ)
    (on : UInt16) :
    let sender := stpHandle drv stp (drv.received p)
    etherDstAddr (Outputs.frameOn sender.2.2 device time on).data 0 ≠ bpduAddr ∧
      bpduOf (Outputs.frameOn sender.2.2 device time on) =
        ⟨sender.2.1.state.root, sender.2.1.state.rootCost, sender.2.1.state.self⟩ := by
  obtain ⟨packet, hout, -, -, hbpdu⟩ := @stpHandle_emits drv stp (drv.received p) he
  have h2' : 2 ≤ drv.devicesCount.toNat := UInt16.le_iff_toNat_le.mp h2
  obtain ⟨n, hn⟩ : ∃ n, drv.devicesCount.toNat - 1 = n + 1 := ⟨drv.devicesCount.toNat - 2, by omega⟩
  simp only [Outputs.frameOn, bpduOf, hout]
  refine ⟨?_, ?_⟩
  · rw [netFlood, hn, floodWith_dst]
    exact endpointMac_ne _
  · rw [← hbpdu]
    exact loadBpdu_congr fun q hq => floodWith_data (by unfold etherHeaderSize at hq; omega) _

/-- **No announcement is recognized.** For every state of a bridge and every packet that makes it announce
that state: what the claim says is false, and on every device the frame has the sender's root, cost and
id but is no BPDU for any bridge. -/
theorem bpdu_unrecognized (drv : Tinynf) (h2 : 2 ≤ drv.devicesCount) (stp : Stp) (p : NetPacket)
    (hdev : p.device < drv.devicesCount) (hlen : 0 < p.length) (he : stp.Emits p) :
    ¬ Recognized drv stp p ∧ ∀ (device : UInt16) (receiver : Stp) (time : ℕ) (on : UInt16),
      let sender := stpHandle drv stp (drv.received p)
      ¬ receiver.Hears (Outputs.frameOn sender.2.2 device time on) ∧
        bpduOf (Outputs.frameOn sender.2.2 device time on) =
          ⟨sender.2.1.state.root, sender.2.1.state.rootCost, sender.2.1.state.self⟩ := by
  refine ⟨fun hrec => ?_, fun device receiver time on => ⟨fun hh => (emitted h2 he device time on).1 hh.2,
    (emitted h2 he device time on).2⟩⟩
  -- a device other than the one the packet came from
  obtain ⟨device, hd, hne⟩ : ∃ device, device < drv.devicesCount ∧ device ≠ p.device := by
    have h2' : 2 ≤ drv.devicesCount.toNat := UInt16.le_iff_toNat_le.mp h2
    by_cases h0 : p.device = 0
    · exact ⟨1, UInt16.lt_iff_toNat_lt.mpr (by simp; omega), by rw [h0]; decide⟩
    · exact ⟨0, UInt16.lt_iff_toNat_lt.mpr (by simp; omega), Ne.symm h0⟩
  obtain ⟨packet, hout, hdev', hlen', -⟩ := @stpHandle_emits drv stp (drv.received p) he
  have hsent : (stpHandle drv stp (drv.received p)).2.2.sent device = packet.length := by
    rw [hout, netFlood]
    refine @floodWith_sent drv { drv.received p with packet := packet } _ _ ?_ ?_ device hd ?_
    · simp [Tinynf.received]
    · rw [hdev']
      exact hdev
    · rw [hdev']
      exact hne
  have hnot : ¬ (stpInit 0 0 0).due
      (Outputs.frameOn (stpHandle drv stp (drv.received p)).2.2 device 0 0) := by
    simp [Stp.due, stpInit, Outputs.frameOn]
  exact (emitted h2 he device 0 0).1 (hrec device hd (by rw [hsent]; exact hlen' hlen) (stpInit 0 0 0) 0 0 hnot).1.2

/-- The theorem at a new bridge, when its timer is due. -/
theorem bpdu_unrecognized_periodic : ¬ Recognized demoDriver (stpInit 2 5 100) ⟨fun _ => 0, 60, 101, 0⟩ :=
  (bpdu_unrecognized demoDriver (by decide) (stpInit 2 5 100) ⟨fun _ => 0, 60, 101, 0⟩ (by decide) (by decide)
    (.inl (by decide))).1

/-- A new bridge announces itself on device 1, to an address 00:00:00:00:00:00. -/
theorem not_recognized : ¬ Recognized demoDriver (stpInit 2 5 100) ⟨fun _ => 0, 60, 101, 0⟩ := by
  intro h
  have hh := (h 1 (by decide) (by decide) (stpInit 2 6 100) 50 0 (by decide)).1.2
  revert hh
  decide

end Bridge
end Klint
