/-
# A network of bridges

Bridges that run the spanning tree protocol on point-to-point links, with the
BPDUs that are in flight. A step is a bridge announcing its state or a BPDU in
flight reaching its bridge, in any order. Every bridge handles its packets with
`stpHandle`; that the announcements are taken for BPDUs is assumed.

What the protocol finds is a tree of root ports: in every state at rest the links
at the root ports are a spanning tree (`rootPorts_spanningTree`). The invariant
`Net.Inv` carries it: the bridge at a root port is nearer to the root, and a cost
of `k` links has `k + 1` bridges that are no farther, so costs do not wrap in a
network of fewer than 2^32 / 10 bridges. Which links are enabled is another matter
(`Nf/BridgeLinks`).
-/
import Klint.Lib.ParentTree
import Klint.Nf.SpanningTree
import Mathlib.Data.Fintype.Card

namespace Klint
namespace Bridge

open ParentTree

/-- The bridges, with their ids, and the links between their devices. -/
structure Network (B : Type) where
  devicesCount : B → UInt16
  two_le : ∀ b, 2 ≤ devicesCount b
  bid : B → UInt64
  bid_inj : Function.Injective bid
  updateTime : B → ℕ
  deviceMacs : B → ℕ → EtherAddr
  link : B × UInt16 → Option (B × UInt16)
  link_symm : ∀ x y, link x = some y → link y = some x
  link_lt : ∀ x y, link x = some y → x.2 < devicesCount x.1

/-- A BPDU on its way to a device of a bridge. -/
structure Message (B : Type) where
  dst : B × UInt16
  bpdu : Bpdu
  deriving DecidableEq

structure Net (B : Type) where
  bridge : B → Stp
  flight : List (Message B)

/-- A BPDU that a bridge hears: on which device, in which state, and what it says. -/
structure Hearing (B : Type) where
  port : B × UInt16
  state : StpState
  bpdu : Bpdu

variable {B : Type} [DecidableEq B]

namespace Network

def driver (N : Network B) (b : B) : Tinynf := ⟨N.devicesCount b, N.deviceMacs b⟩

def init (N : Network B) : Net B where
  bridge := fun b => stpInit (N.devicesCount b) (N.bid b) (N.updateTime b)
  flight := []

/-- The payloads of the frames that leave a bridge on its links. -/
def sentBy (N : Network B) (b : B) (o : Outputs) : List (Message B) :=
  (List.range (N.devicesCount b).toNat).filterMap fun d =>
    if 0 < o.sent (UInt16.ofNat d) then (N.link (b, UInt16.ofNat d)).map fun y => ⟨y, bpduOf o.packet⟩ else none

/-- A bridge handles a packet. -/
def handle (N : Network B) (σ : Net B) (b : B) (p : NetPacket) : Net B where
  bridge := Function.update σ.bridge b (stpStep (N.driver b) (σ.bridge b) p)
  flight := σ.flight ++ N.sentBy b (stpHandle (N.driver b) (σ.bridge b) ((N.driver b).received p)).2.2

/-- A bridge whose timer is due announces its state with any packet; a BPDU reaches a bridge whose timer is
not due; a BPDU is lost, as when it reaches a bridge whose timer is due. With a step comes the BPDU that is heard
in it. -/
inductive Step (N : Network B) (σ : Net B) : Option (Hearing B) → Net B → Prop
  | emit (b : B) (p : NetPacket) : p.device < N.devicesCount b → 0 < p.length → (σ.bridge b).due p →
      Step N σ none (N.handle σ b p)
  | deliver (m : Message B) (p : NetPacket) : m ∈ σ.flight → p.device = m.dst.2 → 0 < p.length →
      bpduOf p = m.bpdu → (σ.bridge m.dst.1).Hears p →
      Step N σ (some ⟨m.dst, (σ.bridge m.dst.1).state, m.bpdu⟩)
        (N.handle { σ with flight := σ.flight.erase m } m.dst.1 p)
  | lose (m : Message B) : m ∈ σ.flight → Step N σ none { σ with flight := σ.flight.erase m }

def Reaches (N : Network B) : Net B → Net B → Prop := Relation.ReflTransGen fun σ σ' => ∃ heard, Step N σ heard σ'

/-- The states of a bridge but for the time of its last announcement. -/
structure SameStp (a b : Stp) : Prop where
  root : a.state.root = b.state.root
  rootCost : a.state.rootCost = b.state.rootCost
  rootPort : a.state.rootPort = b.state.rootPort
  disabledPorts : a.disabledPorts = b.disabledPorts

/-- All bridges have the same root, and nothing that can happen changes any bridge. -/
structure Quiescent (N : Network B) (σ : Net B) : Prop where
  root : ∀ a b, (σ.bridge a).state.root = (σ.bridge b).state.root
  rest : ∀ σ', N.Reaches σ σ' → ∀ b, SameStp (σ.bridge b) (σ'.bridge b)

/-- The bridges that a link joins. -/
def ends : Sym2 (B × UInt16) → Sym2 B := Sym2.map Prod.fst

def links (N : Network B) : Set (Sym2 (B × UInt16)) := {e | ∃ x y, N.link x = some y ∧ e = s(x, y)}

/-- The links whose two end ports are both not disabled. -/
def enabledLinks (N : Network B) (σ : Net B) : Set (Sym2 (B × UInt16)) :=
  {e | ∃ x y, N.link x = some y ∧ e = s(x, y) ∧ (σ.bridge x.1).disabledPorts.getD x.2.toNat false = false ∧
    (σ.bridge y.1).disabledPorts.getD y.2.toNat false = false}

/-- The link at the root port of a bridge. -/
def rootLink (N : Network B) (σ : Net B) (b : B) : Sym2 (B × UInt16) :=
  s((b, (σ.bridge b).state.rootPort),
    (N.link (b, (σ.bridge b).state.rootPort)).getD (b, (σ.bridge b).state.rootPort))

/-- The links at the root ports of the bridges that are not the root. -/
def rootLinks (N : Network B) (σ : Net B) : Set (Sym2 (B × UInt16)) :=
  {e | ∃ b, (σ.bridge b).state.root ≠ N.bid b ∧ e = N.rootLink σ b}

/-! ### What a bridge sends -/

variable {N : Network B} {σ σ' : Net B} {b : B} {p : NetPacket} {m : Message B}

omit [DecidableEq B] in
theorem mem_sentBy {o : Outputs} : m ∈ N.sentBy b o ↔
    ∃ d, d < N.devicesCount b ∧ 0 < o.sent d ∧ N.link (b, d) = some m.dst ∧ m.bpdu = bpduOf o.packet := by
  rw [sentBy, List.mem_filterMap]
  constructor
  · rintro ⟨n, hn, hm⟩
    rw [List.mem_range] at hn
    split_ifs at hm with hsent
    obtain ⟨y, hy, rfl⟩ := Option.map_eq_some_iff.mp hm
    refine ⟨UInt16.ofNat n, ?_, hsent, hy, rfl⟩
    have := (N.devicesCount b).toNat_lt
    rw [UInt16.lt_iff_toNat_lt, UInt16.toNat_ofNat', Nat.mod_eq_of_lt (by omega)]
    exact hn
  · rintro ⟨d, hd, hsent, hlink, hbpdu⟩
    refine ⟨d.toNat, List.mem_range.mpr (UInt16.lt_iff_toNat_lt.mp hd), ?_⟩
    rw [UInt16.ofNat_toNat, if_pos hsent, hlink, Option.map_some, ← hbpdu]

@[simp] theorem handle_self : (N.handle σ b p).bridge b = stpStep (N.driver b) (σ.bridge b) p :=
  Function.update_self ..

theorem handle_of_ne {c : B} (hc : c ≠ b) : (N.handle σ b p).bridge c = σ.bridge c :=
  Function.update_of_ne hc ..

/-- The BPDU a bridge announces. -/
def announcement (state : StpState) : Bpdu := ⟨state.root, state.rootCost, state.self⟩

omit [DecidableEq B] in
/-- A packet that the protocol takes makes a bridge send nothing but its new state, over its links. -/
theorem announces (hp : (σ.bridge b).due p ∨ (σ.bridge b).Hears p)
    (hm : m ∈ N.sentBy b (stpHandle (N.driver b) (σ.bridge b) ((N.driver b).received p)).2.2) :
    (∃ d, N.link (b, d) = some m.dst) ∧
      m.bpdu = announcement (stpStep (N.driver b) (σ.bridge b) p).state := by
  obtain ⟨d, -, hsent, hlink, hbpdu⟩ := mem_sentBy.mp hm
  refine ⟨⟨d, hlink⟩, ?_⟩
  by_cases he : (σ.bridge b).Emits p
  · obtain ⟨packet, hout, -, -, hpacket⟩ := @stpHandle_emits (N.driver b) (σ.bridge b) ((N.driver b).received p) he
    rw [hbpdu, announcement, stpStep, ← hpacket, hout]
    exact loadBpdu_congr fun q hq => floodWith_data (by unfold etherHeaderSize at hq; omega) _
  · rw [stpHandle_silent hp he, received_sent] at hsent
    exact absurd hsent (lt_irrefl 0)

/-! ### Paths -/

end Network

/-- What a BPDU says of its sender's way to the root. -/
def Bpdu.told (data : Bpdu) : ℕ ×ₗ ℕ := toLex (data.root.toNat, data.rootCost.toNat)

/-- A path with one more link. -/
def overLink (x : ℕ ×ₗ ℕ) : ℕ ×ₗ ℕ := toLex ((ofLex x).1, (ofLex x).2 + linkCost.toNat)

theorem overLink_told (data : Bpdu) : overLink data.told = data.path := rfl

theorem overLink_mono {x y : ℕ ×ₗ ℕ} (h : x ≤ y) : overLink x ≤ overLink y := by
  rcases Prod.Lex.le_iff.mp h with hlt | ⟨heq, hle⟩
  · exact Prod.Lex.le_iff.mpr (.inl hlt)
  · exact Prod.Lex.le_iff.mpr (.inr ⟨heq, Nat.add_le_add_right hle _⟩)

theorem lt_overLink (x : ℕ ×ₗ ℕ) : x < overLink x :=
  Prod.Lex.lt_iff.mpr (.inr ⟨rfl, Nat.lt_add_of_pos_right (by decide)⟩)

/-- A BPDU whose cost does not wrap leaves the path as it was, which is no worse, or is taken. -/
theorem hear_fit (state : StpState) (data : Bpdu) (device : UInt16)
    (hfit : data.rootCost.toNat + linkCost.toNat < 2 ^ 32) :
    (state.path ≤ data.path ∧ (state.hear data device).root = state.root ∧
      (state.hear data device).rootCost = state.rootCost ∧ (state.hear data device).rootPort = state.rootPort) ∨
    (data.path ≤ state.path ∧ (state.hear data device).root = data.root ∧
      (state.hear data device).path = data.path ∧ (state.hear data device).rootPort = device) := by
  have hsum := cost_toNat data
  have hcases := hear_cases state data device
  rw [Nat.mod_eq_of_lt hfit] at hsum hcases
  rcases hcases with ⟨hroot, he⟩ | ⟨hroot, hcost, he⟩ | ⟨hroot, hcost, hport, he⟩ | ⟨hworse, he⟩
  · refine .inr ⟨path_le_iff.mpr (.inl hroot), by rw [he], by rw [he]; exact path_inj.mpr ⟨rfl, hsum⟩, by rw [he]⟩
  · refine .inr ⟨path_le_iff.mpr (.inr ⟨hroot, hcost.le⟩), ?_, ?_, by rw [he]⟩
    · rw [he]
      exact (UInt64.toNat_inj.mp hroot).symm
    · rw [he]
      exact path_inj.mpr ⟨hroot.symm, hsum⟩
  · refine .inr ⟨path_le_iff.mpr (.inr ⟨hroot, hcost.le⟩), ?_, ?_, by rw [he]⟩
    · rw [he]
      exact (UInt64.toNat_inj.mp hroot).symm
    · rw [he]
      exact path_inj.mpr ⟨hroot.symm, hcost.symm⟩
  · refine .inl ⟨?_, by rw [he], by rw [he], by rw [he]⟩
    rcases hworse with hroot | ⟨hroot, hcost⟩
    · exact path_le_iff.mpr (.inl hroot)
    · exact path_le_iff.mpr (.inr ⟨hroot.symm, by omega⟩)

/-! ### The invariant -/

section Inv

variable [Fintype B]

/-- The path of a bridge. -/
def Net.path (σ : Net B) (b : B) : ℕ ×ₗ ℕ := (σ.bridge b).state.path

/-- The bridges that are no farther than a path. -/
def Net.within (σ : Net B) (x : ℕ ×ₗ ℕ) : Finset B := Finset.univ.filter fun b => σ.path b ≤ x

/-- A path of cost `k` links to an id of the network has `k + 1` bridges that are no farther. -/
def Net.Known (N : Network B) (σ : Net B) (x : ℕ ×ₗ ℕ) : Prop :=
  (∃ a, (ofLex x).1 = (N.bid a).toNat) ∧ (ofLex x).2 + linkCost.toNat ≤ linkCost.toNat * (σ.within x).card

/-- What holds of every reachable state: every path is known; a bridge that is its own root has cost 0, and
another's root port leads to one that is nearer; what a BPDU in flight says is no better than what its sender
knows. -/
structure Net.Inv (N : Network B) (σ : Net B) : Prop where
  known : ∀ b, Net.Known N σ (σ.path b)
  root_le : ∀ b, (σ.bridge b).state.root.toNat ≤ (N.bid b).toNat
  own : ∀ b, (σ.bridge b).state.root = N.bid b → (σ.bridge b).state.rootCost = 0
  port : ∀ b, (σ.bridge b).state.root ≠ N.bid b →
    ∃ y, N.link (b, (σ.bridge b).state.rootPort) = some y ∧ overLink (σ.path y.1) ≤ σ.path b
  flight : ∀ m ∈ σ.flight, Net.Known N σ m.bpdu.told ∧ ∃ y, N.link m.dst = some y ∧ σ.path y.1 ≤ m.bpdu.told

variable {N : Network B} {σ σ' : Net B} {b : B} {m : Message B} {heard : Option (Hearing B)}

omit [DecidableEq B] in
theorem Net.within_mono {x y : ℕ ×ₗ ℕ} (hle : ∀ b, σ'.path b ≤ σ.path b) (hxy : x ≤ y) :
    σ.within x ⊆ σ'.within y := by
  intro b hb
  rw [Net.within, Finset.mem_filter] at hb ⊢
  exact ⟨hb.1, (hle b).trans (hb.2.trans hxy)⟩

omit [DecidableEq B] in
/-- Paths stay known as the bridges get nearer. -/
theorem Net.Known.mono {x : ℕ ×ₗ ℕ} (h : Net.Known N σ x) (hle : ∀ b, σ'.path b ≤ σ.path b) : Net.Known N σ' x :=
  ⟨h.1, h.2.trans (Nat.mul_le_mul_left _ (Finset.card_le_card (Net.within_mono hle (le_refl x))))⟩

/-- A bridge that a path is taken by was farther. -/
theorem Net.Known.overLink {x : ℕ ×ₗ ℕ} (h : Net.Known N σ x) (hle : ∀ b, σ'.path b ≤ σ.path b)
    (hb : Bridge.overLink x ≤ σ.path b) (hb' : σ'.path b = Bridge.overLink x) :
    Net.Known N σ' (Bridge.overLink x) := by
  refine ⟨h.1, ?_⟩
  have hlt := lt_overLink x
  have hnot : b ∉ σ.within x := by
    rw [Net.within, Finset.mem_filter]
    exact fun hx => absurd (hb.trans hx.2) (not_le.mpr hlt)
  have hsub : insert b (σ.within x) ⊆ σ'.within (Bridge.overLink x) := by
    intro c hc
    rcases Finset.mem_insert.mp hc with rfl | hc
    · exact Finset.mem_filter.mpr ⟨Finset.mem_univ _, hb'.le⟩
    · exact Net.within_mono hle hlt.le hc
  have hcard := Finset.card_le_card hsub
  rw [Finset.card_insert_of_notMem hnot] at hcard
  have hmul := Nat.mul_le_mul_left linkCost.toNat hcard
  have := h.2
  rw [Nat.mul_succ] at hmul
  change (ofLex x).2 + linkCost.toNat + linkCost.toNat ≤ _
  omega

omit [DecidableEq B] in
/-- No known cost wraps in a network that is small enough. -/
theorem Net.Known.fits {data : Bpdu} (h : Net.Known N σ data.told) (hsize : linkCost.toNat * Fintype.card B < 2 ^ 32) :
    data.rootCost.toNat + linkCost.toNat < 2 ^ 32 :=
  lt_of_le_of_lt (h.2.trans (Nat.mul_le_mul_left _ (Finset.card_le_univ _))) hsize

omit [DecidableEq B] in
theorem init_inv (N : Network B) : N.init.Inv N where
  known := fun b => ⟨⟨b, rfl⟩, by
    have hmem : b ∈ N.init.within (N.init.path b) := Finset.mem_filter.mpr ⟨Finset.mem_univ _, le_refl _⟩
    have hpos := Nat.mul_le_mul_left linkCost.toNat (Finset.card_pos.mpr ⟨b, hmem⟩)
    simpa [Network.init, stpInit, Net.path, StpState.path] using hpos⟩
  root_le := fun b => le_refl _
  own := fun b _ => rfl
  port := fun b hb => absurd rfl hb
  flight := fun m hm => by cases hm

omit [DecidableEq B] in
/-- A bridge that is its own root is nearer than any BPDU's way to that root. -/
theorem Net.Inv.own_lt (h : σ.Inv N) {data : Bpdu} (hroot : data.root = N.bid b) : σ.path b < data.path := by
  have hle := h.root_le b
  rcases Nat.eq_or_lt_of_le hle with heq | hlt
  · have hcost := h.own b (UInt64.toNat_inj.mp heq)
    refine path_lt_iff.mpr (.inr ⟨by rw [hroot]; exact heq, ?_⟩)
    rw [hcost]
    exact Nat.lt_add_left _ (by decide : (0 : UInt32).toNat < linkCost.toNat)
  · exact path_lt_iff.mpr (.inl (by rw [hroot]; exact hlt))

/-- The invariant after one bridge has taken a BPDU in flight, or has kept its path and port, and has
announced its state or nothing. -/
theorem Net.Inv.set (h : σ.Inv N) {stp : Stp} {new : List (Message B)}
    (hstp : (stp.state.path = σ.path b ∧ stp.state.root = (σ.bridge b).state.root ∧
        stp.state.rootCost = (σ.bridge b).state.rootCost ∧ stp.state.rootPort = (σ.bridge b).state.rootPort) ∨
      ∃ m ∈ σ.flight, m.dst = (b, stp.state.rootPort) ∧ m.bpdu.path ≤ σ.path b ∧ stp.state.root = m.bpdu.root ∧
        stp.state.path = m.bpdu.path)
    (hnew : ∀ m ∈ new, m ∈ σ.flight ∨
      (∃ d, N.link (b, d) = some m.dst) ∧ m.bpdu.told = stp.state.path) :
    Net.Inv N { bridge := Function.update σ.bridge b stp, flight := new } := by
  set σ' : Net B := { bridge := Function.update σ.bridge b stp, flight := new } with hσ'
  have hself : σ'.bridge b = stp := Function.update_self ..
  have hother : ∀ c, c ≠ b → σ'.bridge c = σ.bridge c := fun c hc => Function.update_of_ne hc ..
  have hpath : σ'.path b = stp.state.path := by rw [Net.path, hself]
  have hsame : ∀ c, c ≠ b → σ'.path c = σ.path c := fun c hc => by rw [Net.path, hother c hc, Net.path]
  have hle : ∀ c, σ'.path c ≤ σ.path c := by
    intro c
    by_cases hc : c = b
    · subst hc
      rw [hpath]
      rcases hstp with ⟨he, -⟩ | ⟨m, -, -, hb, -, he⟩
      · exact le_of_eq he
      · exact he.trans_le hb
    · exact le_of_eq (hsame c hc)
  have hknown : ∀ c, Net.Known N σ' (σ'.path c) := by
    intro c
    by_cases hc : c = b
    · subst hc
      rcases hstp with ⟨he, -⟩ | ⟨m, hm, -, hb, -, he⟩
      · rw [hpath, he]
        exact (h.known c).mono hle
      · have := (h.flight m hm).1.overLink hle (by rw [overLink_told]; exact hb)
          (by rw [hpath, overLink_told]; exact he)
        rwa [hpath, he, ← overLink_told]
    · rw [hsame c hc]
      exact (h.known c).mono hle
  refine ⟨hknown, fun c => ?_, fun c hroot => ?_, fun c hroot => ?_, fun m hm => ?_⟩
  · by_cases hc : c = b
    · subst hc
      rw [hself]
      rcases hstp with ⟨-, he, -⟩ | ⟨m, -, -, hb, he, -⟩
      · rw [he]
        exact h.root_le c
      · rw [he]
        rcases path_le_iff.mp hb with hlt | ⟨heq, -⟩
        · exact hlt.le.trans (h.root_le c)
        · exact heq.le.trans (h.root_le c)
    · rw [hother c hc]
      exact h.root_le c
  · by_cases hc : c = b
    · subst hc
      rw [hself] at hroot ⊢
      rcases hstp with ⟨-, he, hcost, -⟩ | ⟨m, -, -, hb, he, -⟩
      · rw [hcost]
        exact h.own c (he ▸ hroot)
      · exact absurd hb (not_le.mpr (h.own_lt (he ▸ hroot)))
    · rw [hother c hc] at hroot ⊢
      exact h.own c hroot
  · by_cases hc : c = b
    · subst hc
      rw [hself] at hroot ⊢
      rcases hstp with ⟨hp, he, -, hport⟩ | ⟨m, hm, hdst, -, -, he⟩
      · obtain ⟨y, hy, hnear⟩ := h.port c (he ▸ hroot)
        exact ⟨y, hport ▸ hy, (overLink_mono (hle y.1)).trans (by rw [hpath, hp]; exact hnear)⟩
      · obtain ⟨-, y, hy, hnear⟩ := h.flight m hm
        refine ⟨y, hdst ▸ hy, ?_⟩
        rw [hpath, he, ← overLink_told]
        exact overLink_mono ((hle y.1).trans hnear)
    · rw [hother c hc] at hroot ⊢
      obtain ⟨y, hy, hnear⟩ := h.port c hroot
      exact ⟨y, hy, (overLink_mono (hle y.1)).trans (by rw [hsame c hc]; exact hnear)⟩
  · rcases hnew m hm with hold | ⟨⟨d, hd⟩, htold⟩
    · obtain ⟨hk, y, hy, hnear⟩ := h.flight m hold
      exact ⟨hk.mono hle, y, hy, (hle y.1).trans hnear⟩
    · rw [htold, ← hpath]
      exact ⟨hknown b, (b, d), N.link_symm _ _ hd, le_refl _⟩

/-- Every step keeps the invariant. -/
theorem Net.Inv.step (h : σ.Inv N) (hsize : linkCost.toNat * Fintype.card B < 2 ^ 32)
    (hs : N.Step σ heard σ') :
    σ'.Inv N := by
  cases hs with
  | emit b p hdev hlen hdue =>
    have hstate : (stpStep (N.driver b) (σ.bridge b) p).state =
        { (σ.bridge b).state with lastUpdateTime := p.time } := by
      rw [stpStep_state, if_neg fun hh => hh.1 hdue, if_pos hdue]
    refine h.set (.inl ?_) fun m hm => ?_
    · rw [hstate]
      exact ⟨rfl, rfl, rfl, rfl⟩
    · rcases List.mem_append.mp hm with hm | hm
      · exact .inl hm
      · obtain ⟨hlink, hbpdu⟩ := Network.announces (.inl hdue) hm
        exact .inr ⟨hlink, by rw [hbpdu]; rfl⟩
  | deliver m p hm hdev hlen hbpdu hh =>
    have hstate : (stpStep (N.driver m.dst.1) (σ.bridge m.dst.1) p).state =
        (σ.bridge m.dst.1).state.hear m.bpdu m.dst.2 := by
      rw [stpStep_state, if_pos hh, hbpdu, hdev]
    refine @Net.Inv.set B _ _ N σ m.dst.1 h (stpStep (N.driver m.dst.1) (σ.bridge m.dst.1) p) _ ?_ fun m' hm' => ?_
    · rw [hstate]
      rcases hear_fit (σ.bridge m.dst.1).state m.bpdu m.dst.2 ((h.flight m hm).1.fits hsize) with
        ⟨-, hroot, hcost, hport⟩ | ⟨hle, hroot, hpath, hport⟩
      · exact .inl ⟨by rw [StpState.path, hroot, hcost]; rfl, hroot, hcost, hport⟩
      · exact .inr ⟨m, hm, by rw [hport], hle, hroot, hpath⟩
    · rcases List.mem_append.mp hm' with hm' | hm'
      · exact .inl (List.mem_of_mem_erase hm')
      · obtain ⟨hlink, hbpdu'⟩ := Network.announces (σ := { σ with flight := σ.flight.erase m }) (.inr hh) hm'
        exact .inr ⟨hlink, by rw [hbpdu']; rfl⟩
  | lose m hm =>
    exact ⟨h.known, h.root_le, h.own, h.port, fun m' hm' => h.flight m' (List.mem_of_mem_erase hm')⟩

theorem reaches_inv (hsize : linkCost.toNat * Fintype.card B < 2 ^ 32) (hr : N.Reaches N.init σ) : σ.Inv N := by
  induction hr with
  | refl => exact init_inv N
  | tail _ hs ih =>
    obtain ⟨heard, hs⟩ := hs
    exact ih.step hsize hs

/-! ### Networks at rest -/

omit [DecidableEq B] [Fintype B] in
/-- A bridge has a device other than the given one. -/
theorem exists_device (N : Network B) (b : B) (d : UInt16) : ∃ i, i < N.devicesCount b ∧ d ≠ i := by
  have h2 : 2 ≤ (N.devicesCount b).toNat := UInt16.le_iff_toNat_le.mp (N.two_le b)
  by_cases hd : d = 0
  · refine ⟨1, UInt16.lt_iff_toNat_lt.mpr ?_, by rw [hd]; decide⟩
    rw [show (1 : UInt16).toNat = 1 from rfl]
    omega
  · refine ⟨0, UInt16.lt_iff_toNat_lt.mpr ?_, hd⟩
    rw [show (0 : UInt16).toNat = 0 from rfl]
    omega

/-- But for the time of the last announcement, nothing has changed. -/
def Net.Same (σ σ' : Net B) : Prop :=
  ∀ c, Network.SameStp (σ.bridge c) (σ'.bridge c) ∧ (σ.bridge c).state.self = (σ'.bridge c).state.self

omit [Fintype B] in
theorem emit_same {p : NetPacket} (hdue : (σ.bridge b).due p) : σ.Same (N.handle σ b p) := by
  intro c
  by_cases hc : c = b
  · subst hc
    rw [Network.handle_self, stpStep]
    unfold stpHandle
    rw [if_pos (show (σ.bridge c).due ((N.driver c).received p).packet from hdue)]
    exact ⟨⟨rfl, rfl, rfl, rfl⟩, rfl⟩
  · rw [Network.handle_of_ne hc]
    exact ⟨⟨rfl, rfl, rfl, rfl⟩, rfl⟩

omit [DecidableEq B] [Fintype B] in
theorem Net.Same.path (h : σ.Same σ') (c : B) : σ'.path c = σ.path c := by
  rw [Net.path, Net.path, StpState.path, StpState.path, (h c).1.root, (h c).1.rootCost]

omit [DecidableEq B] [Fintype B] in
theorem Net.Same.announcement (h : σ.Same σ') (c : B) :
    Network.announcement (σ'.bridge c).state = Network.announcement (σ.bridge c).state := by
  rw [Network.announcement, Network.announcement, (h c).1.root, (h c).1.rootCost, (h c).2]

omit [Fintype B] in
/-- A bridge can announce its state over any of its links. -/
theorem exists_emit (σ : Net B) {x y : B × UInt16} (hl : N.link x = some y) :
    ∃ σ', N.Step σ none σ' ∧ ⟨y, Network.announcement (σ.bridge x.1).state⟩ ∈ σ'.flight ∧ σ.Same σ' := by
  obtain ⟨i, hi, hne⟩ := exists_device N x.1 x.2
  let p : NetPacket := ⟨fun _ => 0, 60,
    ((σ.bridge x.1).state.lastUpdateTime + (σ.bridge x.1).updateTime) % 2 ^ 64 + 1, i⟩
  have hdue : (σ.bridge x.1).due p := Nat.lt_succ_self _
  obtain ⟨packet, hout, hdev, hlen, -⟩ :=
    @stpHandle_emits (N.driver x.1) (σ.bridge x.1) ((N.driver x.1).received p) (.inl hdue)
  have hsent : 0 < (stpHandle (N.driver x.1) (σ.bridge x.1) ((N.driver x.1).received p)).2.2.sent x.2 := by
    rw [hout, netFlood, @floodWith_sent (N.driver x.1) { (N.driver x.1).received p with packet := packet } _ _
      (by simp [Tinynf.received]) (by rw [hdev]; exact hi) x.2 (N.link_lt x y hl) (by rw [hdev]; exact hne)]
    exact hlen (by decide : 0 < 60)
  have hmem : (⟨y, bpduOf (stpHandle (N.driver x.1) (σ.bridge x.1) ((N.driver x.1).received p)).2.2.packet⟩ :
    Message B) ∈
      N.sentBy x.1 (stpHandle (N.driver x.1) (σ.bridge x.1) ((N.driver x.1).received p)).2.2 :=
    Network.mem_sentBy.mpr ⟨x.2, N.link_lt x y hl, hsent, hl, rfl⟩
  have hsame : σ.Same (N.handle σ x.1 p) := emit_same hdue
  have hbpdu := (Network.announces (.inl hdue) hmem).2
  rw [← N.handle_self (σ := σ) (b := x.1), hsame.announcement] at hbpdu
  exact ⟨N.handle σ x.1 p, .emit x.1 p hi (by decide : 0 < 60) hdue,
    List.mem_append_right _ (by rw [← hbpdu]; exact hmem), hsame⟩

omit [Fintype B] in
/-- A BPDU in flight can reach its bridge. -/
theorem exists_deliver (σ : Net B) (hm : m ∈ σ.flight) : ∃ σ',
    N.Step σ (some ⟨m.dst, (σ.bridge m.dst.1).state, m.bpdu⟩) σ' ∧
      (σ'.bridge m.dst.1).state = (σ.bridge m.dst.1).state.hear m.bpdu m.dst.2 ∧
        ∀ c, c ≠ m.dst.1 → σ'.bridge c = σ.bridge c := by
  have hbpdu : bpduOf ⟨bpduFrame m.bpdu, 34, 0, m.dst.2⟩ = m.bpdu := loadBpdu_storeBpdu _ _ _
  have hh : (σ.bridge m.dst.1).Hears ⟨bpduFrame m.bpdu, 34, 0, m.dst.2⟩ :=
    ⟨Nat.not_lt_zero _, bpduFrame_dst m.bpdu⟩
  refine ⟨_, .deliver m _ hm rfl (by decide : 0 < 34) hbpdu hh, ?_, fun c hc => Network.handle_of_ne hc⟩
  rw [Network.handle_self, stpStep_state, if_pos hh, hbpdu]

/-- At rest no bridge is farther than a neighbour and the link. -/
theorem Network.Quiescent.link_le (hq : N.Quiescent σ) (h : σ.Inv N) (hsize : linkCost.toNat * Fintype.card B < 2 ^ 32)
    {x y : B × UInt16} (hl : N.link x = some y) : σ.path y.1 ≤ overLink (σ.path x.1) := by
  obtain ⟨σ₁, hs₁, hm, hsame₁⟩ := exists_emit σ hl
  obtain ⟨σ₂, hs₂, hstate, -⟩ := @exists_deliver B _ N _ σ₁ hm
  have hsame := (hq.rest σ₂ ((Relation.ReflTransGen.refl.tail ⟨_, hs₁⟩).tail ⟨_, hs₂⟩)) y.1
  have hpath : σ.path y.1 =
      ((σ₁.bridge y.1).state.hear (Network.announcement (σ.bridge x.1).state) y.2).path := by
    rw [← hstate, Net.path, StpState.path, StpState.path, hsame.root, hsame.rootCost]
  have hfit := ((h.step hsize hs₁).flight _ hm).1.fits hsize
  change _ ≤ overLink (Network.announcement (σ.bridge x.1).state).told
  rw [overLink_told]
  rcases hear_fit (σ₁.bridge y.1).state _ y.2 hfit with ⟨hle, -⟩ | ⟨-, -, he, -⟩
  · exact (hsame₁.path y.1) ▸ hle
  · rw [hpath, he]

/-- **The links at the root ports are a spanning tree.** In a network of bridges with distinct ids that is small
enough for its costs, in every state that can be reached and is at rest: all bridges have the bridge of the
least id as their root, the root port of every other bridge leads to one whose cost is smaller by that of a
link, and the links at these ports connect all bridges and contain no cycle. -/
theorem rootPorts_spanningTree [Nonempty B] (N : Network B) (hsize : linkCost.toNat * Fintype.card B < 2 ^ 32)
    {σ : Net B} (hr : N.Reaches N.init σ) (hq : N.Quiescent σ) :
    ∃ ρ, (∀ b, (σ.bridge b).state.root = N.bid ρ ∧ N.bid ρ ≤ N.bid b) ∧ (σ.bridge ρ).state.rootCost = 0 ∧
      (∀ b, b ≠ ρ → ∃ y, N.link (b, (σ.bridge b).state.rootPort) = some y ∧
        (σ.bridge b).state.rootCost.toNat = (σ.bridge y.1).state.rootCost.toNat + linkCost.toNat) ∧
      IsSpanningTree Network.ends (N.rootLinks σ) := by
  have h := reaches_inv hsize hr
  obtain ⟨b₀⟩ := ‹Nonempty B›
  obtain ⟨ρ, hρ⟩ := (h.known b₀).1
  have hroot : ∀ b, (σ.bridge b).state.root = N.bid ρ := fun b => (hq.root b b₀).trans (UInt64.toNat_inj.mp hρ)
  have hcost : ∀ b, b ≠ ρ → ∃ y, N.link (b, (σ.bridge b).state.rootPort) = some y ∧
      (σ.bridge b).state.rootCost.toNat = (σ.bridge y.1).state.rootCost.toNat + linkCost.toNat := by
    intro b hb
    obtain ⟨y, hy, hnear⟩ := h.port b fun he => hb (N.bid_inj (he.symm.trans (hroot b)))
    have hfar := hq.link_le h hsize (N.link_symm _ _ hy)
    have hsame : (σ.bridge b).state.root.toNat = (σ.bridge y.1).state.root.toNat := by rw [hq.root b y.1]
    refine ⟨y, hy, Nat.le_antisymm ?_ ?_⟩
    · rcases path_le_iff.mp hfar with hlt | ⟨-, hle⟩
      · exact absurd hlt (by rw [show _ = _ from hsame]; exact lt_irrefl _)
      · exact hle
    · rcases path_le_iff.mp hnear with hlt | ⟨-, hle⟩
      · exact absurd hlt (by rw [show _ = _ from hsame]; exact lt_irrefl _)
      · exact hle
  refine ⟨ρ, fun b => ⟨hroot b, ?_⟩, h.own ρ (hroot ρ), hcost, ?_⟩
  · rw [← hroot b]
    exact UInt64.le_iff_toNat_le.mpr (h.root_le b)
  · have hset : N.rootLinks σ = parents ρ (N.rootLink σ) := by
      ext e
      refine exists_congr fun b => and_congr_left fun _ => not_congr ?_
      rw [hroot b, N.bid_inj.eq_iff]
      exact eq_comm
    rw [hset]
    refine @isSpanningTree_parents _ _ Network.ends ρ (N.rootLink σ)
      (fun b => ((N.link (b, (σ.bridge b).state.rootPort)).getD (b, (σ.bridge b).state.rootPort)).1)
      (fun b => (σ.bridge b).state.rootCost.toNat) (fun b hb => rfl) fun b hb => ?_
    obtain ⟨y, hy, he⟩ := hcost b hb
    rw [hy, Option.getD_some, he]
    exact Nat.lt_add_of_pos_right (by decide)

end Inv

/-! ### Reaching rest -/

section Still

variable {N : Network B} {σ σ' : Net B} {heard : Option (Hearing B)}

theorem update_eq_none {state : StpState} {data : Bpdu} {device : UInt16} : state.update data device = none ↔
    ¬ data.root < state.root ∧ ¬ (data.root = state.root ∧ data.rootCost + linkCost < state.rootCost) ∧
      ¬ (data.root = state.root ∧ data.rootCost + linkCost = state.rootCost ∧ device < state.rootPort) := by
  unfold StpState.update
  split_ifs with h1 h2 h3 <;> simp [*]

/-- No BPDU in flight and none that a neighbour can announce would change its bridge. -/
def Net.Still (N : Network B) (σ : Net B) : Prop :=
  ∀ m, (m ∈ σ.flight ∨ ∃ x, N.link x = some m.dst ∧ m.bpdu = Network.announcement (σ.bridge x.1).state) →
    ¬ (σ.bridge m.dst.1).state.root < m.bpdu.root ∧ (σ.bridge m.dst.1).state.update m.bpdu m.dst.2 = none

omit [DecidableEq B] in
/-- A still network stays still if no bridge's state changes and no other BPDUs are in flight than those that were or
that a neighbour announces. -/
theorem Net.Still.congr (h : σ.Still N) {new : Net B} (hsame : σ.Same new)
    (hflight : ∀ m ∈ new.flight, m ∈ σ.flight ∨ ∃ x, N.link x = some m.dst ∧
      m.bpdu = Network.announcement (new.bridge x.1).state) : new.Still N := by
  intro m hm
  have hann := hsame.announcement
  have hold : m ∈ σ.flight ∨ ∃ x, N.link x = some m.dst ∧ m.bpdu = Network.announcement (σ.bridge x.1).state := by
    simp only [hann] at hm hflight
    exact hm.elim (hflight m) .inr
  obtain ⟨hroot, hnone⟩ := h m hold
  obtain ⟨⟨hr, hc, hp, -⟩, -⟩ := hsame m.dst.1
  rw [update_eq_none] at hnone ⊢
  rw [← hr, ← hc, ← hp]
  exact ⟨hroot, hnone⟩

/-- A step of a still network changes the time of an announcement at most. -/
theorem Net.Still.step (h : σ.Still N) (hs : N.Step σ heard σ') :
    σ'.Still N ∧ σ.Same σ' := by
  cases hs with
  | emit b p hdev hlen hdue =>
    have hsame := emit_same (N := N) hdue
    refine ⟨h.congr hsame fun m hm => ?_, hsame⟩
    rcases List.mem_append.mp hm with hm | hm
    · exact .inl hm
    · obtain ⟨⟨d, hd⟩, hbpdu⟩ := Network.announces (.inl hdue) hm
      exact .inr ⟨(b, d), hd, by rw [Network.handle_self]; exact hbpdu⟩
  | deliver m p hm hdev hlen hbpdu hh =>
    obtain ⟨hroot, hnone⟩ := h m (.inl hm)
    have hstp : stpStep (N.driver m.dst.1) (σ.bridge m.dst.1) p = σ.bridge m.dst.1 := by
      rw [stpStep]
      unfold stpHandle
      rw [if_neg (show ¬ (σ.bridge m.dst.1).due ((N.driver m.dst.1).received p).packet from hh.1),
        if_neg (not_not.mpr (show etherDstAddr ((N.driver m.dst.1).received p).packet.data 0 = bpduAddr from hh.2)),
        if_neg (by rw [show bpduOf ((N.driver m.dst.1).received p).packet = m.bpdu from hbpdu]; exact hroot),
        show bpduOf ((N.driver m.dst.1).received p).packet = m.bpdu from hbpdu,
        show ((N.driver m.dst.1).received p).packet.device = m.dst.2 from hdev, hnone]
    have hbridge : ∀ c, (N.handle { σ with flight := σ.flight.erase m } m.dst.1 p).bridge c = σ.bridge c := by
      intro c
      by_cases hc : c = m.dst.1
      · subst hc
        rw [Network.handle_self]
        exact hstp
      · rw [Network.handle_of_ne hc]
    have hsame : σ.Same (N.handle { σ with flight := σ.flight.erase m } m.dst.1 p) := by
      intro c
      rw [hbridge]
      exact ⟨⟨rfl, rfl, rfl, rfl⟩, rfl⟩
    refine ⟨h.congr hsame fun m' hm' => ?_, hsame⟩
    rcases List.mem_append.mp hm' with hm' | hm'
    · exact .inl (List.mem_of_mem_erase hm')
    · obtain ⟨⟨d, hd⟩, hbpdu'⟩ := Network.announces (σ := { σ with flight := σ.flight.erase m }) (.inr hh) hm'
      exact .inr ⟨(m.dst.1, d), hd, by rw [Network.handle_self]; exact hbpdu'⟩
  | lose m hm =>
    have hsame : σ.Same { σ with flight := σ.flight.erase m } := fun c => ⟨⟨rfl, rfl, rfl, rfl⟩, rfl⟩
    exact ⟨h.congr hsame fun m' hm' => .inl (List.mem_of_mem_erase hm'), hsame⟩

/-- A still network in which all bridges have the same root is at rest. -/
theorem Net.Still.quiescent (h : σ.Still N) (hroot : ∀ a b, (σ.bridge a).state.root = (σ.bridge b).state.root) :
    N.Quiescent σ where
  root := hroot
  rest := fun σ' hr => by
    have hall : σ'.Still N ∧ ∀ b, Network.SameStp (σ.bridge b) (σ'.bridge b) := by
      induction hr with
      | refl => exact ⟨h, fun b => ⟨rfl, rfl, rfl, rfl⟩⟩
      | tail _ hs ih =>
        obtain ⟨heard, hs⟩ := hs
        obtain ⟨hstill, hsame⟩ := ih.1.step hs
        refine ⟨hstill, fun b => ?_⟩
        obtain ⟨h1, h2, h3, h4⟩ := ih.2 b
        obtain ⟨⟨g1, g2, g3, g4⟩, -⟩ := hsame b
        exact ⟨h1.trans g1, h2.trans g2, h3.trans g3, h4.trans g4⟩
    exact hall.2

end Still

/-- Two bridges, of the ids 1 and 2, with a link between their devices 1. -/
def pair : Network (Fin 2) where
  devicesCount := fun _ => 2
  two_le := fun _ => by decide
  bid := fun b => UInt64.ofNat (b.val + 1)
  bid_inj := by decide
  updateTime := fun _ => 0
  deviceMacs := fun _ _ => default
  link := fun x => if x.2 = 1 then some (x.1 + 1, 1) else none
  link_symm := by
    rintro ⟨a, d⟩ y h
    simp only at h
    split_ifs at h with h1
    subst h1
    cases h
    revert a
    decide
  link_lt := by
    rintro ⟨a, d⟩ y h
    simp only at h ⊢
    split_ifs at h with h1
    rw [h1]
    decide

/-- The bridge of the id 2 has announced itself. -/
def pairAnnounced : Net (Fin 2) := pair.handle pair.init 1 ⟨fun _ => 0, 60, 1, 0⟩

/-- The other one has heard it. -/
def pairDisabled : Net (Fin 2) :=
  pair.handle { pairAnnounced with flight := pairAnnounced.flight.erase ⟨(0, 1), ⟨2, 0, 2⟩⟩ } 0
    ⟨bpduFrame ⟨2, 0, 2⟩, 34, 0, 1⟩

/-- It has announced itself in turn. -/
def pairAnswered : Net (Fin 2) := pair.handle pairDisabled 0 ⟨fun _ => 0, 60, 1, 0⟩

/-- The first one has heard it. -/
def pairHeard : Net (Fin 2) :=
  pair.handle { pairAnswered with flight := pairAnswered.flight.erase ⟨(1, 1), ⟨1, 0, 1⟩⟩ } 1
    ⟨bpduFrame ⟨1, 0, 1⟩, 34, 0, 1⟩

/-- In the other order: the bridge of the id 1 has announced itself first. -/
def pairFirst : Net (Fin 2) := pair.handle pair.init 0 ⟨fun _ => 0, 60, 1, 0⟩

/-- The other one has heard it. -/
def pairTold : Net (Fin 2) :=
  pair.handle { pairFirst with flight := pairFirst.flight.erase ⟨(1, 1), ⟨1, 0, 1⟩⟩ } 1
    ⟨bpduFrame ⟨1, 0, 1⟩, 34, 0, 1⟩

theorem pairHeard_reached : pair.Reaches pair.init pairHeard := by
  have h1 : pair.Step pair.init none pairAnnounced := .emit 1 _ (by decide) (by decide) (by decide)
  have h2 : pair.Step pairAnnounced (some ⟨(0, 1), ⟨0, 1, 1, 0, 0⟩, ⟨2, 0, 2⟩⟩) pairDisabled :=
    .deliver ⟨(0, 1), ⟨2, 0, 2⟩⟩ _ (by decide) rfl (by decide) (by decide) (by decide)
  have h3 : pair.Step pairDisabled none pairAnswered := .emit 0 _ (by decide) (by decide) (by decide)
  have h4 : pair.Step pairAnswered (some ⟨(1, 1), ⟨1, 2, 2, 0, 0⟩, ⟨1, 0, 1⟩⟩) pairHeard :=
    .deliver ⟨(1, 1), ⟨1, 0, 1⟩⟩ _ (by decide) rfl (by decide) (by decide) (by decide)
  exact (((Relation.ReflTransGen.refl.tail ⟨_, h1⟩).tail ⟨_, h2⟩).tail ⟨_, h3⟩).tail ⟨_, h4⟩

theorem pairHeard_state : ∀ b, pairHeard.bridge b =
    if b = 0 then ⟨⟨1, 1, 1, 0, 0⟩, [false, true], 0⟩ else ⟨⟨1, 2, 1, 10, 1⟩, [false, false], 0⟩ := by decide

theorem pairHeard_flight : pairHeard.flight = [] := by decide

theorem pairHeard_quiescent : pair.Quiescent pairHeard := by
  refine Net.Still.quiescent ?_ (by simp only [pairHeard_state]; decide)
  rintro ⟨y, bpdu⟩ hm
  simp only [pairHeard_state]
  rcases hm with hm | ⟨⟨a, d⟩, hlink, hbpdu⟩
  · rw [pairHeard_flight] at hm
    cases hm
  · simp only [pair] at hlink
    simp only [pairHeard_state] at hbpdu
    split_ifs at hlink with h1
    cases hlink
    subst hbpdu
    revert a
    decide

/-- The theorem at two bridges. -/
theorem pair_rootPorts : IsSpanningTree Network.ends (pair.rootLinks pairHeard) := by
  obtain ⟨-, -, -, -, h⟩ := rootPorts_spanningTree pair (by decide) pairHeard_reached pairHeard_quiescent
  exact h

end Bridge
end Klint
