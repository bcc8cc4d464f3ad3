/-
# The links that stay enabled

Which links of a network of bridges are enabled on both sides. A port is disabled
when a BPDU of a worse root is heard on it, and enabled when one is taken there;
nothing else changes it. So in a run the disabled ports are those with a BPDU of a
worse root after which none was taken (`run_severed`), and whether the enabled
links are a spanning tree depends on which BPDUs came first
(`enabledLinks_spanningTree`): a bridge that announces itself too early cuts off a
link that carries the tree, and nothing cuts off the links that close a cycle.

Every run can be brought to rest by BPDUs that are taken (`exists_rest`), so in
every network with a link there is a state at rest whose enabled links are no
spanning tree.
-/
import Klint.Nf.BridgeNetwork
import Mathlib.Algebra.BigOperators.Group.Finset.Basic
import Mathlib.Algebra.Order.BigOperators.Group.Finset

namespace Klint
namespace Bridge

open ParentTree

variable {B : Type}

/-- The BPDU is of a worse root: its port is disabled. -/
def Hearing.Worse (h : Hearing B) : Prop := h.state.root < h.bpdu.root

/-- The bridge takes the BPDU's root, path or port: the port is enabled. -/
def Hearing.Taken (h : Hearing B) : Prop := (h.state.update h.bpdu h.port.2).isSome

/-- A BPDU of a worse root was heard on the port, and none was taken there after it. -/
def Severed (heard : List (Hearing B)) (x : B × UInt16) : Prop :=
  ∃ before h after, heard = before ++ h :: after ∧ h.port = x ∧ h.Worse ∧ ∀ h' ∈ after, h'.port = x → ¬ h'.Taken

/-- Every BPDU of a worse root was followed by one that was taken on the same port. -/
def Mended (heard : List (Hearing B)) : Prop := ∀ x, ¬ Severed heard x

/-- The links that are severed at neither end. -/
def Network.sparedLinks (N : Network B) (heard : List (Hearing B)) : Set (Sym2 (B × UInt16)) :=
  {e | ∃ x y, N.link x = some y ∧ e = s(x, y) ∧ ¬ Severed heard x ∧ ¬ Severed heard y}

def Net.Disabled (σ : Net B) (x : B × UInt16) : Prop := (σ.bridge x.1).disabledPorts.getD x.2.toNat false = true

variable [DecidableEq B]

/-- A run from the first state, with the BPDUs that are heard in it. -/
inductive Network.Run (N : Network B) : List (Hearing B) → Net B → Prop
  | init : Run N [] N.init
  | step {heard : List (Hearing B)} {σ σ' : Net B} {h : Option (Hearing B)} :
      Run N heard σ → N.Step σ h σ' → Run N (heard ++ h.toList) σ'

variable {N : Network B} {σ σ' : Net B} {heard : List (Hearing B)} {x y : B × UInt16}

/-- The runs reach what can be reached. -/
theorem reaches_iff : N.Reaches N.init σ ↔ ∃ heard, N.Run heard σ := by
  constructor
  · intro h
    induction h with
    | refl => exact ⟨[], .init⟩
    | tail _ hs ih =>
      obtain ⟨heard, hrun⟩ := ih
      obtain ⟨h, hs⟩ := hs
      exact ⟨_, hrun.step hs⟩
  · rintro ⟨heard, hrun⟩
    induction hrun with
    | init => exact Relation.ReflTransGen.refl
    | step _ hs ih => exact ih.tail ⟨_, hs⟩

/-! ### The disabled ports -/

section Severed

omit [DecidableEq B] in
theorem not_severed_nil : ¬ Severed [] x := by
  rintro ⟨before, h, after, he, -⟩
  exact absurd he.symm (List.append_ne_nil_of_right_ne_nil before (List.cons_ne_nil h after))

omit [DecidableEq B] in
/-- What one more BPDU does. -/
theorem severed_append {h : Hearing B} : Severed (heard ++ [h]) x ↔
    h.port = x ∧ h.Worse ∨ Severed heard x ∧ ¬ (h.port = x ∧ h.Taken) := by
  constructor
  · rintro ⟨before, h', after, he, hport, hworse, hafter⟩
    rcases List.eq_nil_or_concat after with rfl | ⟨after', last, rfl⟩
    · obtain ⟨-, hlast⟩ := List.append_inj' he rfl
      obtain rfl : h = h' := List.head_eq_of_cons_eq hlast
      exact .inl ⟨hport, hworse⟩
    · rw [List.concat_eq_append] at he hafter
      rw [← List.cons_append, ← List.append_assoc] at he
      obtain ⟨rfl, hlast⟩ := List.append_inj' he rfl
      obtain rfl : h = last := List.head_eq_of_cons_eq hlast
      exact .inr ⟨⟨before, h', after', rfl, hport, hworse, fun h'' hh => hafter h'' (List.mem_append_left _ hh)⟩,
        fun ht => hafter h (List.mem_append_right _ (List.mem_singleton_self h)) ht.1 ht.2⟩
  · rintro (⟨hport, hworse⟩ | ⟨⟨before, h', after, rfl, hport, hworse, hafter⟩, hnot⟩)
    · exact ⟨heard, h, [], rfl, hport, hworse, fun h' hh => absurd hh List.not_mem_nil⟩
    · refine ⟨before, h', after ++ [h], by rw [List.append_assoc]; rfl, hport, hworse, fun h'' hh hp ht => ?_⟩
      rcases List.mem_append.mp hh with hh | hh
      · exact hafter h'' hh hp ht
      · obtain rfl := List.mem_singleton.mp hh
        exact hnot ⟨hp, ht⟩

omit [DecidableEq B] in
/-- A BPDU that is taken is not of a worse root. -/
theorem Hearing.Taken.not_worse {h : Hearing B} (ht : h.Taken) : ¬ h.Worse := by
  intro hw
  have hlt : ¬ h.bpdu.root < h.state.root := fun hr => absurd (UInt64.lt_trans hw hr) (UInt64.lt_irrefl _)
  have hne : ¬ h.bpdu.root = h.state.root := fun he => by
    rw [Hearing.Worse, he] at hw
    exact UInt64.lt_irrefl _ hw
  have hnone : h.state.update h.bpdu h.port.2 = none := update_eq_none.mpr ⟨hlt, fun hc => hne hc.1, fun hc => hne hc.1⟩
  rw [Hearing.Taken, hnone] at ht
  exact Bool.false_ne_true ht

omit [DecidableEq B] in
/-- BPDUs that are all taken sever no port. -/
theorem Severed.of_append {heard' : List (Hearing B)} (ht : ∀ h ∈ heard', h.Taken)
    (hs : Severed (heard ++ heard') x) : Severed heard x := by
  induction heard' using List.reverseRecOn with
  | nil => rwa [List.append_nil] at hs
  | append_singleton heard' h ih =>
    rw [← List.append_assoc, severed_append] at hs
    rcases hs with ⟨-, hworse⟩ | ⟨hs, -⟩
    · exact absurd hworse (ht h (List.mem_append_right _ (List.mem_singleton_self h))).not_worse
    · exact ih (fun h' hh => ht h' (List.mem_append_left _ hh)) hs

end Severed

/-- There is a flag for each device, and a BPDU in flight is on a link. -/
structure Net.Wired (N : Network B) (σ : Net B) : Prop where
  ports : ∀ b, (σ.bridge b).disabledPorts.length = (N.devicesCount b).toNat
  flight : ∀ m ∈ σ.flight, ∃ y, N.link m.dst = some y

omit [DecidableEq B] in
theorem init_wired (N : Network B) : N.init.Wired N where
  ports := fun b => List.length_replicate
  flight := fun m hm => by cases hm

theorem stpStep_ports {drv : Tinynf} {stp : Stp} {p : NetPacket} :
    (stpStep drv stp p).disabledPorts.length = stp.disabledPorts.length := by
  rw [stpStep, stpHandle_disabledPorts]
  split_ifs
  · exact List.length_set
  · exact List.length_set
  · rfl
  · rfl

theorem hears_disabledPorts {drv : Tinynf} {stp : Stp} {p : NetPacket} (hh : stp.Hears p) :
    (stpStep drv stp p).disabledPorts =
      if stp.state.root < (bpduOf p).root then stp.disabledPorts.set p.device.toNat true
      else if (stp.state.update (bpduOf p) p.device).isSome then stp.disabledPorts.set p.device.toNat false
      else stp.disabledPorts := by
  rw [stpStep, stpHandle_disabledPorts]
  exact if_pos hh

theorem handle_wired {b : B} {p : NetPacket} (h : σ.Wired N) (hp : (σ.bridge b).due p ∨ (σ.bridge b).Hears p) :
    (N.handle σ b p).Wired N where
  ports := fun c => by
    by_cases hc : c = b
    · rw [hc, Network.handle_self, stpStep_ports]
      exact h.ports b
    · rw [Network.handle_of_ne hc]
      exact h.ports c
  flight := fun m hm => by
    rcases List.mem_append.mp hm with hm | hm
    · exact h.flight m hm
    · obtain ⟨⟨d, hd⟩, -⟩ := Network.announces hp hm
      exact ⟨(b, d), N.link_symm _ _ hd⟩

/-- A flag of a list after one has been set. -/
theorem getD_set {l : List Bool} {i j : ℕ} {v : Bool} (hi : i < l.length) :
    (l.set i v).getD j false = if i = j then v else l.getD j false := by
  rw [List.getD_eq_getElem?_getD, List.getD_eq_getElem?_getD, List.getElem?_set]
  split_ifs with he
  · rfl
  · rfl

/-- What a step does to a port: one on which a BPDU of a worse root is heard is disabled, one on which a BPDU is taken
is enabled, and no other one changes. -/
theorem step_disabled {heard : Option (Hearing B)} (h : σ.Wired N) (hs : N.Step σ heard σ') :
    σ'.Wired N ∧ ∀ x, σ'.Disabled x ↔
      (∃ h ∈ heard, h.port = x ∧ h.Worse) ∨ σ.Disabled x ∧ ¬ ∃ h ∈ heard, h.port = x ∧ h.Taken := by
  cases hs with
  | emit b p hdev hlen hdue =>
    refine ⟨handle_wired h (.inl hdue), fun x => ?_⟩
    rw [Net.Disabled, ← ((emit_same (N := N) hdue) x.1).1.disabledPorts]
    simp [Net.Disabled]
  | deliver m p hm hdev hlen hbpdu hh =>
    refine ⟨handle_wired ⟨h.ports, fun m' hm' => h.flight m' (List.mem_of_mem_erase hm')⟩ (.inr hh), fun x => ?_⟩
    obtain ⟨y, hy⟩ := h.flight m hm
    have hlt : m.dst.2.toNat < (σ.bridge m.dst.1).disabledPorts.length := by
      rw [h.ports]
      exact UInt16.lt_iff_toNat_lt.mp (N.link_lt _ _ hy)
    simp only [Option.mem_some_iff, exists_eq_left', Hearing.Worse, Hearing.Taken]
    by_cases hx : x.1 = m.dst.1
    · have hport : m.dst = x ↔ m.dst.2.toNat = x.2.toNat := by
        rw [UInt16.toNat_inj]
        exact ⟨fun he => he ▸ rfl, fun he => Prod.ext hx.symm he⟩
      rw [Net.Disabled, Net.Disabled, hx, Network.handle_self, hport]
      change (stpStep _ (σ.bridge m.dst.1) p).disabledPorts.getD _ _ = true ↔ _
      rw [hears_disabledPorts hh, hbpdu, hdev]
      by_cases hworse : (σ.bridge m.dst.1).state.root < m.bpdu.root
      · rw [if_pos hworse, getD_set hlt]
        split_ifs with he
        · simp [he, hworse]
        · simp [he]
      · rw [if_neg hworse]
        by_cases htaken : ((σ.bridge m.dst.1).state.update m.bpdu m.dst.2).isSome
        · rw [if_pos htaken, getD_set hlt]
          split_ifs with he
          · simp [he, hworse, htaken]
          · simp [he]
        · rw [if_neg htaken]
          simp [hworse, htaken]
    · have hne : ¬ m.dst = x := fun he => hx (he ▸ rfl)
      rw [Net.Disabled, Net.Disabled, Network.handle_of_ne hx]
      simp [hne]
  | lose m hm =>
    exact ⟨⟨h.ports, fun m' hm' => h.flight m' (List.mem_of_mem_erase hm')⟩, fun x => by simp [Net.Disabled]⟩

/-- **The disabled ports** of a run are those that are severed. -/
theorem run_severed (hr : N.Run heard σ) : σ.Wired N ∧ ∀ x, σ.Disabled x ↔ Severed heard x := by
  induction hr with
  | init =>
    refine ⟨init_wired N, fun x => iff_of_false ?_ not_severed_nil⟩
    change (List.replicate (N.devicesCount x.1).toNat false).getD x.2.toNat false ≠ true
    rw [List.getD_eq_getElem?_getD, List.getElem?_replicate]
    split_ifs <;> exact Bool.false_ne_true
  | step _ hs ih =>
    obtain ⟨hw, hdis⟩ := ih
    obtain ⟨hw', hdis'⟩ := step_disabled hw hs
    refine ⟨hw', fun x => ?_⟩
    rw [hdis' x, hdis x]
    rename_i heard _ _ h _
    cases h with
    | none => simp
    | some h => simp [severed_append]

theorem enabledLinks_eq (hr : N.Run heard σ) : N.enabledLinks σ = N.sparedLinks heard := by
  ext e
  have hdis := (run_severed hr).2
  simp only [Network.enabledLinks, Network.sparedLinks, Set.mem_ofPred_eq, ← hdis, Net.Disabled, Bool.not_eq_true]

/-- What is heard comes over a link. -/
theorem run_linked (hr : N.Run heard σ) : ∀ h ∈ heard, ∃ y, N.link h.port = some y := by
  induction hr with
  | init => exact fun h hh => absurd hh List.not_mem_nil
  | step hr hs ih =>
    intro h hh
    rcases List.mem_append.mp hh with hh | hh
    · exact ih h hh
    · cases hs with
      | emit => cases hh
      | deliver m p hm =>
        obtain rfl := List.mem_singleton.mp hh
        exact (run_severed hr).1.flight m hm
      | lose => cases hh

/-- A mended run leaves all links enabled. -/
theorem Mended.enabledLinks (hm : Mended heard) (hr : N.Run heard σ) : N.enabledLinks σ = N.links := by
  rw [enabledLinks_eq hr]
  ext e
  exact ⟨fun ⟨x, y, hl, he, _⟩ => ⟨x, y, hl, he⟩, fun ⟨x, y, hl, he⟩ => ⟨x, y, hl, he, hm x, hm y⟩⟩

/-! ### Coming to rest -/

/-- A number that is less after every BPDU that is taken. -/
def StpState.rank (state : StpState) : ℕ :=
  (state.root.toNat * 2 ^ 32 + state.rootCost.toNat) * 2 ^ 16 + state.rootPort.toNat

theorem rank_lt {state state' : StpState} {data : Bpdu} {device : UInt16} (h : state.update data device = some state') :
    state'.rank < state.rank := by
  have hcost := (data.rootCost + linkCost).toNat_lt
  have hport := device.toNat_lt
  unfold StpState.update at h
  split_ifs at h with hroot hbetter hlower
  · cases h
    have hlt := UInt64.lt_iff_toNat_lt.mp hroot
    simp only [StpState.rank]
    omega
  · cases h
    have hlt := UInt32.lt_iff_toNat_lt.mp hbetter.2
    simp only [StpState.rank]
    omega
  · cases h
    have hlt := UInt16.lt_iff_toNat_lt.mp hlower.2.2
    simp only [StpState.rank]
    omega

section Same

variable {a b : Stp} (h : Network.SameStp a b)

include h

theorem Network.SameStp.rank : b.state.rank = a.state.rank := by
  rw [StpState.rank, StpState.rank, h.root, h.rootCost, h.rootPort]

theorem Network.SameStp.update_isSome (data : Bpdu) (device : UInt16) :
    (a.state.update data device).isSome = (b.state.update data device).isSome := by
  unfold StpState.update
  rw [h.root, h.rootCost, h.rootPort]
  split_ifs <;> rfl

end Same

/-- All BPDUs in flight can be lost. -/
theorem run_lost {bridge : B → Stp} : ∀ {flight : List (Message B)}, N.Run heard ⟨bridge, flight⟩ →
    N.Run heard ⟨bridge, []⟩
  | [], hr => hr
  | m :: flight, hr => by
    have hs := Network.Step.lose (N := N) (σ := ⟨bridge, m :: flight⟩) m List.mem_cons_self
    rw [List.erase_cons_head] at hs
    have hr' := hr.step hs
    rw [Option.toList_none, List.append_nil] at hr'
    exact run_lost hr'

/-- A bridge can hear what a neighbour announces. -/
theorem exists_heard (hr : N.Run heard σ) (hl : N.link x = some y) : ∃ h σ', N.Run (heard ++ [h]) σ' ∧
    h.port = y ∧ h.bpdu = Network.announcement (σ.bridge x.1).state ∧
      h.state.root = (σ.bridge y.1).state.root ∧
      (∀ data device, ((σ.bridge y.1).state.update data device).isSome = (h.state.update data device).isSome) ∧
        h.state.rank = (σ.bridge y.1).state.rank ∧ (σ'.bridge y.1).state = h.state.hear h.bpdu y.2 ∧
          ∀ c, c ≠ y.1 → (σ'.bridge c).state.rank = (σ.bridge c).state.rank := by
  obtain ⟨σ₁, hs₁, hm, hsame⟩ := exists_emit σ hl
  obtain ⟨σ₂, hs₂, hstate, hother⟩ := exists_deliver (N := N) σ₁ hm
  have hr₁ := hr.step hs₁
  rw [Option.toList_none, List.append_nil] at hr₁
  refine ⟨_, σ₂, hr₁.step hs₂, rfl, rfl, (hsame y.1).1.root.symm,
    fun data device => (hsame y.1).1.update_isSome data device,
    (hsame y.1).1.rank, hstate, fun c hc => ?_⟩
  rw [hother c hc]
  exact (hsame c).1.rank

section Rest

variable [Fintype B]

/-- No bridge would take what a neighbour can announce. -/
def Net.Settled (N : Network B) (σ : Net B) : Prop := ∀ x y, N.link x = some y →
  ¬ ((σ.bridge y.1).state.update (Network.announcement (σ.bridge x.1).state) y.2).isSome

omit [DecidableEq B] [Fintype B] in
/-- Neighbours have the same root then. -/
theorem Net.Settled.root_eq (h : σ.Settled N) (hl : N.link x = some y) :
    (σ.bridge x.1).state.root = (σ.bridge y.1).state.root := by
  have hle : ∀ {x y : B × UInt16}, N.link x = some y → ¬ (σ.bridge x.1).state.root < (σ.bridge y.1).state.root := by
    intro x y hl
    have hnone := Option.not_isSome_iff_eq_none.mp (h x y hl)
    exact (update_eq_none.mp hnone).1
  exact UInt64.toNat_inj.mp (Nat.le_antisymm
    (Nat.not_lt.mp fun hlt => hle (N.link_symm _ _ hl) (UInt64.lt_iff_toNat_lt.mpr hlt))
    (Nat.not_lt.mp fun hlt => hle hl (UInt64.lt_iff_toNat_lt.mpr hlt)))

omit [Fintype B] in
/-- A settled network with nothing in flight is at rest. -/
theorem Net.Settled.quiescent (h : σ.Settled N) (hflight : σ.flight = [])
    (hconn : ∀ a b, Connects Network.ends N.links a b) : N.Quiescent σ := by
  refine Net.Still.quiescent ?_ fun a b => ?_
  · rintro ⟨y, bpdu⟩ (hm | ⟨x, hl, rfl⟩)
    · rw [hflight] at hm
      cases hm
    · refine ⟨fun hlt => ?_, Option.not_isSome_iff_eq_none.mp (h x y hl)⟩
      exact UInt64.lt_irrefl _ ((h.root_eq hl) ▸ hlt)
  · refine (hconn a b).closed (D := fun c => (σ.bridge a).state.root = (σ.bridge c).state.root) ?_ rfl
    rintro c d ⟨e, ⟨x, y, hl, rfl⟩, hends⟩ hc
    have heq := h.root_eq hl
    rcases Sym2.eq_iff.mp (show s(x.1, y.1) = s(c, d) from hends) with ⟨rfl, rfl⟩ | ⟨rfl, rfl⟩
    · exact hc.trans heq
    · exact hc.trans heq.symm

def Net.rank (σ : Net B) : ℕ := ∑ b, (σ.bridge b).state.rank

/-- **Every run can be brought to rest** by BPDUs that are taken. -/
theorem exists_rest (hconn : ∀ a b, Connects Network.ends N.links a b) (hr : N.Run heard σ) :
    ∃ heard' σ', N.Run (heard ++ heard') σ' ∧ N.Quiescent σ' ∧ ∀ h ∈ heard', h.Taken := by
  induction hn : σ.rank using Nat.strong_induction_on generalizing heard σ with
  | _ n ih =>
    by_cases hset : σ.Settled N
    · have hset' : Net.Settled N ⟨σ.bridge, []⟩ := hset
      refine ⟨[], ⟨σ.bridge, []⟩, ?_, hset'.quiescent rfl hconn, fun h hh => absurd hh List.not_mem_nil⟩
      rw [List.append_nil]
      exact run_lost hr
    · simp only [Net.Settled, not_forall, not_not] at hset
      obtain ⟨x, y, hl, hsome⟩ := hset
      obtain ⟨h, σ₁, hr₁, hport, hbpdu, -, hupdate, hrank, hstate, hother⟩ := exists_heard hr hl
      have htaken : h.Taken := by
        rw [Hearing.Taken, hport, hbpdu, ← hupdate]
        exact hsome
      have hlt : σ₁.rank < σ.rank := by
        obtain ⟨state', hup⟩ := Option.isSome_iff_exists.mp htaken
        have hy : (σ₁.bridge y.1).state.rank < (σ.bridge y.1).state.rank := by
          rw [hstate, ← hrank, StpState.hear, if_neg (show ¬ h.state.root < h.bpdu.root from htaken.not_worse), ← hport,
            hup, Option.getD_some]
          exact rank_lt hup
        refine Finset.sum_lt_sum (fun c _ => ?_) ⟨y.1, Finset.mem_univ _, hy⟩
        by_cases hc : c = y.1
        · exact hc ▸ hy.le
        · exact (hother c hc).le
      obtain ⟨heard', σ', hr', hq, ht⟩ := ih σ₁.rank (hn ▸ hlt) hr₁ rfl
      refine ⟨h :: heard', σ', ?_, hq, ?_⟩
      · rwa [List.append_assoc] at hr'
      · intro h' hh
        rcases List.mem_cons.mp hh with rfl | hh
        · exact htaken
        · exact ht h' hh

end Rest

/-! ### The bridge of the least id -/

/-- No bridge and no BPDU in flight knows a root of a less id, and the bridge of that id is as it was. -/
structure Net.Led (N : Network B) (ρ : B) (σ : Net B) : Prop where
  root_le : ∀ b, N.bid ρ ≤ (σ.bridge b).state.root
  flight : ∀ m ∈ σ.flight, N.bid ρ ≤ m.bpdu.root
  own : (σ.bridge ρ).state.root = N.bid ρ ∧ (σ.bridge ρ).state.rootCost = 0 ∧ (σ.bridge ρ).state.rootPort = 0

/-- It takes no BPDU. -/
theorem not_taken {state : StpState} {data : Bpdu} {device : UInt16} (hroot : state.root ≤ data.root)
    (hcost : state.rootCost = 0) (hport : state.rootPort = 0) : state.update data device = none := by
  refine update_eq_none.mpr ⟨fun hlt => ?_, fun hlt => ?_, fun hlt => ?_⟩
  · exact Nat.not_lt.mpr (UInt64.le_iff_toNat_le.mp hroot) (UInt64.lt_iff_toNat_lt.mp hlt)
  · rw [hcost] at hlt
    exact absurd (UInt32.lt_iff_toNat_lt.mp hlt.2) (Nat.not_lt_zero _)
  · rw [hport] at hlt
    exact absurd (UInt16.lt_iff_toNat_lt.mp hlt.2.2) (Nat.not_lt_zero _)

/-- What a bridge hears does not lead to a less root than it knew or heard. -/
theorem hear_root_le {r : UInt64} {state : StpState} {data : Bpdu} {device : UInt16} (hs : r ≤ state.root)
    (hd : r ≤ data.root) : r ≤ (state.hear data device).root := by
  rcases hear_cases state data device with ⟨-, he⟩ | ⟨-, -, he⟩ | ⟨-, -, -, he⟩ | ⟨-, he⟩
  · rw [he]
    exact hd
  · rw [he]
    exact hs
  · rw [he]
    exact hs
  · rw [he]
    exact hs

theorem run_led {ρ : B} (hρ : ∀ b, N.bid ρ ≤ N.bid b) (hr : N.Run heard σ) :
    σ.Led N ρ ∧ ∀ h ∈ heard, h.port.1 = ρ → ¬ h.Taken := by
  induction hr with
  | init =>
    exact ⟨⟨hρ, fun m hm => (by cases hm), rfl, rfl, rfl⟩, fun h hh => absurd hh List.not_mem_nil⟩
  | @step heard σ σ' h _ hs ih =>
    obtain ⟨hled, hheard⟩ := ih
    cases hs with
    | emit b p hdev hlen hdue =>
      have hsame := emit_same (N := N) hdue
      refine ⟨⟨fun c => (hsame c).1.root ▸ hled.root_le c, fun m hm => ?_, ?_⟩, by simpa using hheard⟩
      · rcases List.mem_append.mp hm with hm | hm
        · exact hled.flight m hm
        · rw [(Network.announces (.inl hdue) hm).2, ← N.handle_self, hsame.announcement]
          exact hled.root_le b
      · rw [← (hsame ρ).1.root, ← (hsame ρ).1.rootCost, ← (hsame ρ).1.rootPort]
        exact hled.own
    | deliver m p hm hdev hlen hbpdu hh =>
      have hstate : (stpStep (N.driver m.dst.1) (σ.bridge m.dst.1) p).state =
          (σ.bridge m.dst.1).state.hear m.bpdu m.dst.2 := by
        rw [stpStep_state, if_pos hh, hbpdu, hdev]
      have hnone : m.dst.1 = ρ → (σ.bridge m.dst.1).state.update m.bpdu m.dst.2 = none := by
        rintro rfl
        exact not_taken (hled.own.1 ▸ hled.flight m hm) hled.own.2.1 hled.own.2.2
      have hroot : N.bid ρ ≤ ((σ.bridge m.dst.1).state.hear m.bpdu m.dst.2).root :=
        hear_root_le (hled.root_le m.dst.1) (hled.flight m hm)
      refine ⟨⟨fun c => ?_, fun m' hm' => ?_, ?_⟩, fun h hh => ?_⟩
      · by_cases hc : c = m.dst.1
        · subst hc
          rw [Network.handle_self]
          change _ ≤ (stpStep (N.driver m.dst.1) (σ.bridge m.dst.1) p).state.root
          rw [hstate]
          exact hroot
        · rw [Network.handle_of_ne hc]
          exact hled.root_le c
      · rcases List.mem_append.mp hm' with hm' | hm'
        · exact hled.flight m' (List.mem_of_mem_erase hm')
        · obtain ⟨-, hann⟩ := Network.announces (σ := { σ with flight := σ.flight.erase m }) (.inr hh) hm'
          rw [hann]
          change _ ≤ (stpStep (N.driver m.dst.1) (σ.bridge m.dst.1) p).state.root
          rw [hstate]
          exact hroot
      · by_cases hc : ρ = m.dst.1
        · rw [hc, Network.handle_self]
          change (stpStep (N.driver m.dst.1) (σ.bridge m.dst.1) p).state.root = _ ∧
            (stpStep (N.driver m.dst.1) (σ.bridge m.dst.1) p).state.rootCost = 0 ∧
              (stpStep (N.driver m.dst.1) (σ.bridge m.dst.1) p).state.rootPort = 0
          have hkeep : (σ.bridge m.dst.1).state.hear m.bpdu m.dst.2 = (σ.bridge m.dst.1).state := by
            rw [StpState.hear, hnone hc.symm, Option.getD_none, ite_self]
          rw [hstate, hkeep, ← hc]
          exact hled.own
        · rw [Network.handle_of_ne hc]
          exact hled.own
      · rcases List.mem_append.mp hh with hh | hh
        · exact hheard h hh
        · obtain rfl := List.mem_singleton.mp hh
          intro hport ht
          rw [Hearing.Taken, hnone hport] at ht
          exact Bool.false_ne_true ht
    | lose m hm =>
      exact ⟨⟨hled.root_le, fun m' hm' => hled.flight m' (List.mem_of_mem_erase hm'), hled.own⟩, by simpa using hheard⟩

/-! ### Spanning trees -/

omit [DecidableEq B] in
/-- No link of a network without cycles joins a bridge to itself. -/
theorem link_ne (hacyclic : IsAcyclic Network.ends N.links) (hl : N.link x = some y) : x.1 ≠ y.1 := fun he =>
  hacyclic s(x, y) ⟨x, y, hl, rfl⟩ x.1 y.1 rfl (he ▸ Relation.ReflTransGen.refl)

omit [DecidableEq B] in
/-- In a connected network every bridge has a link, if there is another bridge. -/
theorem exists_link (hconn : ∀ a b, Connects Network.ends N.links a b) {b c : B} (hne : b ≠ c) :
    ∃ x y, x.1 = b ∧ N.link x = some y := by
  rcases Relation.ReflTransGen.cases_head (hconn b c) with he | ⟨d, ⟨e, ⟨x, y, hl, rfl⟩, hends⟩, -⟩
  · exact absurd he hne
  · rcases Sym2.eq_iff.mp (show s(x.1, y.1) = s(b, d) from hends) with ⟨hx, -⟩ | ⟨-, hy⟩
    · exact ⟨x, y, hx, hl⟩
    · exact ⟨y, x, hy, N.link_symm _ _ hl⟩

/-- A bridge that announces itself before it has heard of the bridge of the least id severs the link to that bridge for
ever. -/
theorem exists_severed [Fintype B] (hconn : ∀ a b, Connects Network.ends N.links a b)
    (hacyclic : IsAcyclic Network.ends N.links) {e : Sym2 (B × UInt16)} (he : e ∈ N.links) :
    ∃ heard σ, N.Run heard σ ∧ N.Quiescent σ ∧ ¬ Mended heard := by
  obtain ⟨x₀, y₀, hl₀, -⟩ := he
  have : Nonempty B := ⟨x₀.1⟩
  obtain ⟨ρ, hmin⟩ := Finite.exists_min fun b => (N.bid b).toNat
  have hρ : ∀ b, N.bid ρ ≤ N.bid b := fun b => UInt64.le_iff_toNat_le.mpr (hmin b)
  obtain ⟨x, y, rfl, hl⟩ : ∃ x y, x.1 = ρ ∧ N.link x = some y := by
    by_cases hx : ρ = x₀.1
    · exact ⟨x₀, y₀, hx.symm, hl₀⟩
    · exact exists_link hconn hx
  obtain ⟨h, σ₁, hr₁, hport, hbpdu, hroot, -⟩ := exists_heard .init (N.link_symm _ _ hl)
  obtain ⟨heard', σ₂, hr₂, hq, -⟩ := exists_rest hconn hr₁
  refine ⟨_, σ₂, hr₂, hq, fun hm => hm x ⟨[], h, heard', rfl, hport, ?_, fun h' hh hp => ?_⟩⟩
  · have hne : N.bid x.1 ≠ N.bid y.1 := fun heq => link_ne hacyclic hl (N.bid_inj heq)
    rw [Hearing.Worse, hroot, hbpdu]
    exact UInt64.lt_of_le_of_ne (hρ y.1) hne
  · exact (run_led hρ hr₂).2 h' (List.mem_append_right _ hh) (hp ▸ rfl)

/-- **When the enabled links are a spanning tree.** In a connected network of bridges with distinct ids, after any run:
exactly when the links that no BPDU of a worse root severed are one. So in a network without cycles exactly
when each such BPDU was followed by one that was taken on the same port, and if all of them were,
exactly when the network has no cycle. And in all states at rest only if there is no link. -/
theorem enabledLinks_spanningTree [Fintype B] (N : Network B) (hconn : ∀ a b, Connects Network.ends N.links a b) :
    (∀ heard σ, N.Run heard σ →
      (IsSpanningTree Network.ends (N.enabledLinks σ) ↔ IsSpanningTree Network.ends (N.sparedLinks heard)) ∧
      (IsAcyclic Network.ends N.links → (IsSpanningTree Network.ends (N.enabledLinks σ) ↔ Mended heard)) ∧
      (Mended heard → (IsSpanningTree Network.ends (N.enabledLinks σ) ↔ IsAcyclic Network.ends N.links))) ∧
    ((∀ heard σ, N.Run heard σ → N.Quiescent σ → IsSpanningTree Network.ends (N.enabledLinks σ)) ↔ N.links = ∅) := by
  have hsub : ∀ σ, N.enabledLinks σ ⊆ N.links := fun σ e ⟨x, y, hl, he, _⟩ => ⟨x, y, hl, he⟩
  have hmended : ∀ heard σ, N.Run heard σ → Mended heard →
      (IsSpanningTree Network.ends (N.enabledLinks σ) ↔ IsAcyclic Network.ends N.links) := by
    intro heard σ hr hm
    rw [hm.enabledLinks hr]
    exact ⟨fun h => h.acyclic, fun h => ⟨hconn, h⟩⟩
  have hacyclic : IsAcyclic Network.ends N.links → ∀ heard σ, N.Run heard σ →
      (IsSpanningTree Network.ends (N.enabledLinks σ) ↔ Mended heard) := by
    refine fun ha heard σ hr => ⟨fun h x hs => ?_, fun hm => (hmended heard σ hr hm).mpr ha⟩
    obtain ⟨y, hl⟩ : ∃ y, N.link x = some y := by
      obtain ⟨before, h, after, rfl, rfl, -⟩ := hs
      exact run_linked hr h (List.mem_append_right _ List.mem_cons_self)
    have hmem : s(x, y) ∈ N.sparedLinks heard := by
      rw [← enabledLinks_eq hr, ha.eq_of_connects (hsub σ) h.connected]
      exact ⟨x, y, hl, rfl⟩
    obtain ⟨x', y', -, he, hx', hy'⟩ := hmem
    rcases Sym2.eq_iff.mp he with ⟨rfl, -⟩ | ⟨rfl, -⟩
    · exact hx' hs
    · exact hy' hs
  refine ⟨fun heard σ hr => ⟨by rw [enabledLinks_eq hr], fun ha => hacyclic ha heard σ hr, hmended heard σ hr⟩,
    fun hall => ?_, fun hnone heard σ hr _ => ?_⟩
  · by_contra hne
    obtain ⟨e, he⟩ := Set.nonempty_iff_ne_empty.mpr hne
    by_cases ha : IsAcyclic Network.ends N.links
    · obtain ⟨heard, σ, hr, hq, hnot⟩ := exists_severed hconn ha he
      exact hnot ((hacyclic ha heard σ hr).mp (hall heard σ hr hq))
    · -- BPDUs that are taken leave the cycle as it is
      obtain ⟨heard, σ, hr, hq, ht⟩ := exists_rest hconn .init
      have hm : Mended ([] ++ heard) := fun x hs => not_severed_nil (hs.of_append ht)
      exact ha ((hmended _ σ hr hm).mp (hall _ σ hr hq))
  · have hempty : N.enabledLinks σ = ∅ := Set.subset_eq_empty (hsub σ) hnone
    rw [hempty]
    exact ⟨hnone ▸ hconn, fun e he => absurd he (Set.notMem_empty e)⟩

/-! ### Two bridges -/

theorem pair_links : pair.links = {s((0, 1), (1, 1))} := by
  ext e
  constructor
  · rintro ⟨⟨a, d⟩, y, hl, rfl⟩
    simp only [pair] at hl
    split_ifs at hl with h1
    cases hl
    subst h1
    fin_cases a
    · rfl
    · exact Sym2.eq_swap
  · rintro rfl
    exact ⟨(0, 1), (1, 1), rfl, rfl⟩

theorem pair_connected : ∀ a b, Connects Network.ends pair.links a b := by
  have h01 : Connects Network.ends pair.links 0 1 :=
    .single ⟨s((0, 1), (1, 1)), by rw [pair_links]; exact Set.mem_singleton _, rfl⟩
  intro a b
  fin_cases a <;> fin_cases b
  · exact .refl
  · exact h01
  · exact h01.symm
  · exact .refl

theorem pair_acyclic : IsAcyclic Network.ends pair.links := by
  rw [pair_links]
  rintro e rfl a b he hconn
  rw [Set.sdiff_self] at hconn
  rw [hconn.eq_of_empty] at he
  rcases Sym2.eq_iff.mp (show s((0 : Fin 2), (1 : Fin 2)) = s(b, b) from he) with ⟨h0, h1⟩ | ⟨h0, h1⟩
  · exact absurd (h0.trans h1.symm) (by decide)
  · exact absurd (h0.trans h1.symm) (by decide)

/-- The theorem at two bridges: the link stays enabled if the bridge of the id 1 comes first, and not in every run. -/
theorem pair_enabledLinks : IsSpanningTree Network.ends (pair.enabledLinks pairTold) ∧
    ¬ ∀ heard σ, pair.Run heard σ → pair.Quiescent σ → IsSpanningTree Network.ends (pair.enabledLinks σ) := by
  have h1 : pair.Step pair.init none pairFirst := .emit 0 _ (by decide) (by decide) (by decide)
  have h2 : pair.Step pairFirst (some ⟨(1, 1), ⟨0, 2, 2, 0, 0⟩, ⟨1, 0, 1⟩⟩) pairTold :=
    .deliver ⟨(1, 1), ⟨1, 0, 1⟩⟩ _ (by decide) rfl (by decide) (by decide) (by decide)
  have hmended : Mended ([⟨(1, 1), ⟨0, 2, 2, 0, 0⟩, ⟨1, 0, 1⟩⟩] : List (Hearing (Fin 2))) := by
    intro x hs
    change Severed ([] ++ [_]) x at hs
    rcases severed_append.mp hs with ⟨-, hworse⟩ | ⟨hs, -⟩
    · exact absurd hworse (by unfold Hearing.Worse; decide)
    · exact not_severed_nil hs
  have h := enabledLinks_spanningTree pair pair_connected
  refine ⟨((h.1 _ _ ((Network.Run.init.step h1).step h2)).2.1 pair_acyclic).mpr hmended, fun hall => ?_⟩
  have hnone := h.2.mp hall
  rw [pair_links] at hnone
  exact Set.singleton_ne_empty _ hnone

/-- Two bridges with a link, at rest after the bridge of the id 2 has announced itself first: the link is disabled on
the other one's side. -/
theorem pair_not_spanningTree : (∀ a b, Connects Network.ends pair.links a b) ∧
    pair.Reaches pair.init pairHeard ∧ pair.Quiescent pairHeard ∧
      ¬ IsSpanningTree Network.ends (pair.enabledLinks pairHeard) := by
  have hnone : pair.enabledLinks pairHeard = ∅ := by
    refine Set.eq_empty_of_forall_notMem ?_
    rintro e ⟨⟨a, d⟩, y, hl, -, hx, hy⟩
    simp only [pair] at hl
    split_ifs at hl with h1
    cases hl
    subst h1
    simp only [pairHeard_state] at hx hy
    revert a
    decide
  refine ⟨pair_connected, pairHeard_reached, pairHeard_quiescent, fun htree => ?_⟩
  have hconn := htree.connected 0 1
  rw [hnone] at hconn
  exact absurd hconn.eq_of_empty (by decide)

end Bridge
end Klint
