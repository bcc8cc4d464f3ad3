/-
# Aging in the bridge

What the learning table is for over time: a frame for an address that was
learned within the expiration time goes to the device it was last learned on,
and a frame for any other address is flooded (`Ages`). `TimedRun` records the
time of the last learned frame from each address.

An index whose time has come stays in the map until it is borrowed, and
`nf_handle` does not ask `index_pool_used` about the destination's index.
`ages_iff`: so the bridge ages exactly when no frame is for an address that is
still in the map with such an index, on a device other than flooding would use
(`ToExpired`).
-/
import Klint.Nf.Bridge

namespace Klint
namespace Bridge

/-- The bridge in a run, with the time of the most recent learned frame from
each address beside its device. -/
structure TimedRun extends Run where
  seen : EtherAddr → Option ℕ

def TimedRun.handle (hash : EtherAddr → UInt32) (drv : Tinynf) (r : TimedRun) (p : NetPacket) : TimedRun where
  toRun := r.toRun.handle hash drv p
  seen :=
    if Data r.s p ∧ ((learn hash r.s p).table.find hash (etherSrcAddr p.data 0)).isSome then
      Function.update r.seen (etherSrcAddr p.data 0) (some p.time)
    else r.seen

/-- Every packet has a property in the run up to it. -/
def TimedRun.Always (hash : EtherAddr → UInt32) (drv : Tinynf) (P : TimedRun → NetPacket → Prop) :
    TimedRun → List NetPacket → Prop
  | _, [] => True
  | r, p :: ps => P r p ∧ TimedRun.Always hash drv P (r.handle hash drv p) ps

/-- The device an address was last learned on, if that was within the
expiration time. -/
def TimedRun.aged (r : TimedRun) (expirationTime time : ℕ) (a : EtherAddr) : Option UInt16 :=
  match r.learned a, r.seen a with
  | some device, some ts => if poolYoung time expirationTime ts then some device else none
  | _, _ => none

/-- What is claimed of a packet: a data frame leaves on the device of its
destination, if that was learned or refreshed within the expiration time, and
is flooded if not. -/
def Ages (hash : EtherAddr → UInt32) (drv : Tinynf) (expirationTime : ℕ) (r : TimedRun) (p : NetPacket) : Prop :=
  Data r.s p →
    (nfHandle hash drv r.s p).2.packet = p ∧ ∀ d, d < drv.devicesCount → (nfHandle hash drv r.s p).2.sent d =
      match (r.handle hash drv p).aged expirationTime p.time (etherDstAddr p.data 0) with
      | some device => if d = device ∧ d ≠ p.device then p.length else 0
      | none => if d ≠ p.device ∧ (stpBlockedDevices r.s.stp).getD d.toNat false = false then p.length else 0

/-- The destination is another address than the source, its index is not in
use any more, learning the frame does not take the index, and flooding differs
from sending to its device. -/
def ToExpired (hash : EtherAddr → UInt32) (drv : Tinynf) (s : State) (p : NetPacket) : Prop :=
  ∃ i, s.table.find hash (etherDstAddr p.data 0) = some i ∧ indexPoolUsed s.table.pool p.time i = false ∧
    ¬ LearnsAt hash s p i ∧ ∃ d, d < drv.devicesCount ∧ d ≠ p.device ∧
      (d = s.deviceAt i ↔ (stpBlockedDevices s.stp).getD d.toNat false = true)

/-- The invariant of a run up to a time: an index was last learned at its
timestamp, and an address seen within the expiration time has an index. -/
structure TimedRun.Inv (hash : EtherAddr → UInt32) (drv : Tinynf) (n expirationTime now : ℕ) (r : TimedRun) :
    Prop where
  run : r.toRun.Inv hash drv n
  expires : r.s.table.pool.expirationTime = expirationTime
  seen : ∀ i ts, r.s.table.pool.items i = some ts → r.seen (r.s.table.key i) = some ts
  young : ∀ a ts, r.seen a = some ts → poolYoung now expirationTime ts → (r.s.table.find hash a).isSome

variable {hash : EtherAddr → UInt32} {drv : Tinynf} {s : State} {p : NetPacket} {n expirationTime now : ℕ}

/-! ### What learning does to the other indexes -/

theorem learn_expirationTime (h : s.Inv hash drv.devicesCount n) (hp : Received drv p) :
    (learn hash s p).table.pool.expirationTime = s.table.pool.expirationTime := by
  unfold learn
  simp only
  split_ifs
  · rfl
  · cases hfind : s.table.find hash (etherSrcAddr p.data 0) with
    | some i => rfl
    | none =>
      rcases h.table.insert_cases hp.time hfind with ⟨i, t', he, -, -, -, -, -, hexp⟩ | ⟨he, -⟩
      · simp only [he, hexp]
      · simp only [he]

/-- The index that learning takes had the source, or was not in use any more. -/
theorem LearnsAt.takes (h : s.Inv hash drv.devicesCount n) (hp : Received drv p) {i ts : ℕ}
    (hat : LearnsAt hash s p i) (hi : s.table.pool.items i = some ts) :
    s.table.key i = etherSrcAddr p.data 0 ∨ ¬ poolYoung p.time s.table.pool.expirationTime ts := by
  rcases hat.2 with hfind | ⟨-, hborrow⟩
  · exact .inl (h.table.find_iff.mp hfind).2
  · right
    rcases IndexPool.borrow_cases h.table.pool_wf hp.time with ⟨j, used, pool', he, -, hcases, -⟩ | ⟨he, -⟩
    · rw [he] at hborrow
      cases hborrow
      rcases hcases with ⟨-, hnone⟩ | ⟨-, t, ht, hold⟩
      · rw [hnone] at hi; cases hi
      · rw [ht] at hi; cases hi
        exact hold
    · rw [he] at hborrow
      cases hborrow

/-- An index that learning does not take keeps its key and its timestamp. -/
theorem find_learn_of_not (h : s.Inv hash drv.devicesCount n) (hp : Received drv p) {i : ℕ}
    (hnat : ¬ LearnsAt hash s p i) (a : EtherAddr) :
    ((learn hash s p).table.find hash a = some i ↔ s.table.find hash a = some i) ∧
      (learn hash s p).table.pool.items i = s.table.pool.items i := by
  rw [(learn_inv h hp).table.find_iff, h.table.find_iff]
  rcases learn_cases h hp with ⟨j, hat, -, -, hitems, hkey, -⟩ | ⟨-, he⟩
  · have hij : i ≠ j := fun he => hnat (he ▸ hat)
    rw [hitems, hkey, Function.update_of_ne hij, Function.update_of_ne hij]
    exact ⟨Iff.rfl, rfl⟩
  · rw [he]
    exact ⟨Iff.rfl, rfl⟩

/-- A learned frame: its source is found, at the time of the frame. -/
theorem LearnsAt.find (h : s.Inv hash drv.devicesCount n) (hp : Received drv p) {i : ℕ}
    (hat : LearnsAt hash s p i) : (learn hash s p).table.find hash (etherSrcAddr p.data 0) = some i ∧
      (learn hash s p).table.pool.items i = some p.time := by
  rcases learn_cases h hp with ⟨j, hat', -, -, hitems, hkey, -⟩ | ⟨hnot, -⟩
  · obtain rfl := hat.unique hat'
    rw [(learn_inv h hp).table.find_iff, hitems, hkey]
    exact ⟨⟨⟨p.time, Function.update_self ..⟩, Function.update_self ..⟩, Function.update_self ..⟩
  · exact absurd hat (hnot i)

/-- A frame that is not learned has a source that is not found. -/
theorem find_src_none (h : s.Inv hash drv.devicesCount n) (hp : Received drv p)
    (hnot : ∀ i, ¬ LearnsAt hash s p i) : (learn hash s p).table.find hash (etherSrcAddr p.data 0) = none := by
  rcases learn_cases h hp with ⟨i, hat, -⟩ | ⟨-, he⟩
  · exact absurd hat (hnot i)
  · rw [he]
    cases hfind : s.table.find hash (etherSrcAddr p.data 0) with
    | none => rfl
    | some i =>
      obtain ⟨⟨ts, hts⟩, hkey⟩ := h.table.find_iff.mp hfind
      exact absurd ⟨hkey ▸ h.noGroup i ts hts, .inl hfind⟩ (hnot i)

/-! ### Runs -/

theorem nfInit_expirationTime {items : ConfigItems} {devicesCount : UInt16}
    (hinit : nfInit items devicesCount = some s)
    (hexp : osConfigGetTime items "expiration time" = some expirationTime) :
    s.table.pool.expirationTime = expirationTime := by
  unfold nfInit at hinit
  split_ifs at hinit
  simp only [Option.pure_def, Option.bind_eq_bind, Option.bind_eq_some_iff, Option.some.injEq] at hinit
  obtain ⟨bid, -, e, he, capacity, hcap, up, -, t, ht, rfl⟩ := hinit
  obtain ⟨t', ht', -, -, hexp'⟩ :=
    KeyedPool.keyedPoolAlloc_inv (K := EtherAddr) etherAddrSize e (osConfigGetSize_le hcap)
  rw [ht] at ht'
  cases ht'
  rw [hexp] at he
  cases he
  exact hexp'

theorem TimedRun.Inv.handle {r : TimedRun} (h : r.Inv hash drv n expirationTime now) (hp : Received drv p)
    (hle : now ≤ p.time) : (r.handle hash drv p).Inv hash drv n expirationTime p.time := by
  have hs := h.run.state
  by_cases hd : Data r.s p
  · have hstate : (r.handle hash drv p).s = learn hash r.s p := by
      simp only [TimedRun.handle, Run.handle, nfHandle_data hd]
    have hexp : (learn hash r.s p).table.pool.expirationTime = expirationTime :=
      (learn_expirationTime hs hp).trans h.expires
    by_cases hlearns : ∃ i, LearnsAt hash r.s p i
    · obtain ⟨i, hat⟩ := hlearns
      obtain ⟨hfind, hitem⟩ := hat.find hs hp
      have hseen : (r.handle hash drv p).seen = Function.update r.seen (etherSrcAddr p.data 0) (some p.time) := by
        simp only [TimedRun.handle, hd, hfind, Option.isSome_some, and_self, ↓reduceIte]
      refine ⟨h.run.handle hp, hstate ▸ hexp, fun j ts hj => ?_, fun a ts ha hy => ?_⟩
      · rw [hstate] at hj ⊢
        rw [hseen]
        have hinv := learn_inv hs hp
        by_cases hji : j = i
        · subst hji
          rw [(hinv.table.find_iff.mp hfind).2, Function.update_self, ← hitem, hj]
        · have hnat : ¬ LearnsAt hash r.s p j := fun hat' => hji (hat'.unique hat)
          have hother : (learn hash r.s p).table.key j ≠ etherSrcAddr p.data 0 := fun he =>
            hji (hinv.table.key_inj hj hitem (he.trans (hinv.table.find_iff.mp hfind).2.symm))
          rw [Function.update_of_ne hother]
          obtain ⟨hiff, hitems⟩ := find_learn_of_not hs hp hnat ((learn hash r.s p).table.key j)
          obtain ⟨-, hkey⟩ := hs.table.find_iff.mp (hiff.mp (hinv.table.find_iff.mpr ⟨⟨ts, hj⟩, rfl⟩))
          rw [← hkey]
          exact h.seen j ts (hitems ▸ hj)
      · rw [hstate]
        rw [hseen] at ha
        by_cases hsrc : a = etherSrcAddr p.data 0
        · rw [hsrc, hfind]; rfl
        · rw [Function.update_of_ne hsrc] at ha
          obtain ⟨j, hj⟩ := Option.isSome_iff_exists.mp (h.young a ts ha (hy.anti_time hle))
          obtain ⟨⟨ts', hts'⟩, hkey⟩ := hs.table.find_iff.mp hj
          -- the index of an address seen within the expiration time is not borrowed
          have hnat : ¬ LearnsAt hash r.s p j := fun hat' => by
            rcases hat'.takes hs hp hts' with hk | hold
            · exact hsrc (hkey.symm.trans hk)
            · have hts := h.seen j ts' hts'
              rw [hkey, ha, Option.some.injEq] at hts
              rw [h.expires, ← hts] at hold
              exact hold hy
          rw [((find_learn_of_not hs hp hnat a).1).mpr hj]
          rfl
    · have hnot : ∀ i, ¬ LearnsAt hash r.s p i := fun i hat => hlearns ⟨i, hat⟩
      have hseen : (r.handle hash drv p).seen = r.seen := by
        simp only [TimedRun.handle, find_src_none hs hp hnot, Option.isSome_none, Bool.false_eq_true, and_false,
          ↓reduceIte]
      have hsame : learn hash r.s p = r.s := by
        rcases learn_cases hs hp with ⟨i, hat, -⟩ | ⟨-, he⟩
        · exact absurd hat (hnot i)
        · exact he
      rw [hsame] at hstate
      exact ⟨h.run.handle hp, hstate ▸ h.expires, hseen ▸ hstate ▸ h.seen,
        fun a ts ha hy => hstate ▸ h.young a ts (hseen ▸ ha) (hy.anti_time hle)⟩
  · obtain ⟨ht, -⟩ := @nfHandle_stp hash drv r.s p hd
    have htable : (r.handle hash drv p).s.table = r.s.table := ht
    have hseen : (r.handle hash drv p).seen = r.seen := by
      simp only [TimedRun.handle, hd, false_and, ↓reduceIte]
    exact ⟨h.run.handle hp, htable ▸ h.expires, hseen ▸ htable ▸ h.seen,
      fun a ts ha hy => htable ▸ h.young a ts (hseen ▸ ha) (hy.anti_time hle)⟩

/-- The device of an address is the one at its index, if the index is in use. -/
theorem TimedRun.Inv.aged_eq {r : TimedRun} (h : r.Inv hash drv n expirationTime now) (a : EtherAddr) :
    r.aged expirationTime now a = (r.s.table.find hash a).bind fun i =>
      if indexPoolUsed r.s.table.pool now i then some (r.s.deviceAt i) else none := by
  cases hfind : r.s.table.find hash a with
  | some i =>
    obtain ⟨⟨ts, hts⟩, hkey⟩ := h.run.state.table.find_iff.mp hfind
    have hused : indexPoolUsed r.s.table.pool now i = true ↔ poolYoung now expirationTime ts := by
      rw [IndexPool.used_iff, h.expires, hts]
      simp
    have hlearned := h.run.learned i ts hts
    have hseen := h.seen i ts hts
    rw [hkey] at hlearned hseen
    simp only [TimedRun.aged, hlearned, hseen, Option.bind_some, hused]
  | none =>
    unfold TimedRun.aged
    cases hseen : r.seen a with
    | none => cases r.learned a <;> rfl
    | some ts =>
      have hold : ¬ poolYoung now expirationTime ts := fun hy => by
        have hsome := h.young a ts hseen hy
        rw [hfind] at hsome
        cases hsome
      cases r.learned a with
      | none => rfl
      | some device => exact if_neg hold

theorem sent_eq_iff {length : ℕ} (h : length ≠ 0) (blocked : Bool) {P : Prop} [Decidable P] :
    (if P then length else 0) = (if blocked = false then length else 0) ↔ ¬ (P ↔ blocked = true) := by
  by_cases hP : P <;> cases blocked <;> simp [hP, h, Ne.symm h]

/-- The claim for one packet is its condition. -/
theorem ages_packet_iff {r : TimedRun} (h : r.Inv hash drv n expirationTime now) (hp : Received drv p)
    (hle : now ≤ p.time) : Ages hash drv expirationTime r p ↔ (Data r.s p → ¬ ToExpired hash drv r.s p) := by
  refine forall_congr' fun hd => ?_
  have hs := h.run.state
  have hinv := learn_inv hs hp
  have hstate : (r.handle hash drv p).s = learn hash r.s p := by
    simp only [TimedRun.handle, Run.handle, nfHandle_data hd]
  obtain ⟨hpacket, hsent⟩ := forward_forwards hinv hp
  rw [(h.handle hp hle).aged_eq, hstate, nfHandle_data hd]
  simp only [stpBlockedDevices, learn_stp] at hsent ⊢
  have hlen : p.length ≠ 0 := Nat.ne_of_gt hp.length
  cases hfind : (learn hash r.s p).table.find hash (etherDstAddr p.data 0) with
  | none =>
    refine iff_of_true ⟨hpacket, fun d hd => ?_⟩ ?_
    · rw [hsent d hd, hfind]
      rfl
    · rintro ⟨i, hi, -, hnat, -⟩
      rw [((find_learn_of_not hs hp hnat _).1).mpr hi] at hfind
      cases hfind
  | some i =>
    simp only [Option.bind_some]
    by_cases hused : indexPoolUsed (learn hash r.s p).table.pool p.time i = true
    · rw [if_pos hused]
      refine iff_of_true ⟨hpacket, fun d hd => ?_⟩ ?_
      · rw [hsent d hd, hfind]
      · rintro ⟨j, hj, hold, hnat, -⟩
        obtain ⟨hiff, hitems⟩ := find_learn_of_not hs hp hnat (etherDstAddr p.data 0)
        rw [hiff.mpr hj, Option.some.injEq] at hfind
        subst hfind
        rw [IndexPool.used_iff, learn_expirationTime hs hp, hitems, ← IndexPool.used_iff, hold] at hused
        cases hused
    · rw [if_neg hused]
      have hnat : ¬ LearnsAt hash r.s p i := fun hat => by
        refine hused ((IndexPool.used_iff _ _ _).mpr ⟨p.time, (hat.find hs hp).2, poolYoung_self _ _⟩)
      obtain ⟨hiff, hitems⟩ := find_learn_of_not hs hp hnat (etherDstAddr p.data 0)
      have hold : indexPoolUsed r.s.table.pool p.time i = false := by
        rw [IndexPool.used_iff, learn_expirationTime hs hp, hitems, ← IndexPool.used_iff] at hused
        exact Bool.eq_false_iff.mpr hused
      have hdev := deviceAt_learn hs hp hnat
      constructor
      · rintro ⟨-, hall⟩ ⟨j, hj, -, -, d, hd, hne, hdiff⟩
        rw [hiff.mp hfind, Option.some.injEq] at hj
        subst hj
        have heq := hall d hd
        rw [hsent d hd, hfind] at heq
        simp only [hdev, hne, ne_eq, not_false_eq_true, and_true, true_and] at heq
        exact (sent_eq_iff hlen _).mp heq hdiff
      · intro hnot
        refine ⟨hpacket, fun d hd => ?_⟩
        rw [hsent d hd, hfind]
        simp only [hdev]
        by_cases hne : d = p.device
        · simp only [hne, ne_eq, not_true_eq_false, and_false, false_and, ↓reduceIte]
        · simp only [hne, ne_eq, not_false_eq_true, and_true, true_and]
          exact (sent_eq_iff hlen _).mpr fun hdiff => hnot ⟨i, hiff.mp hfind, hold, hnat, d, hd, hne, hdiff⟩

theorem always_ages_iff : ∀ {ps : List NetPacket} {r : TimedRun} {now : ℕ}, r.Inv hash drv n expirationTime now →
    (∀ p ∈ ps, Received drv p ∧ now ≤ p.time) → ps.Pairwise (fun p q => p.time ≤ q.time) →
    (r.Always hash drv (Ages hash drv expirationTime) ps ↔
      Always hash drv (fun s p => Data s p → ¬ ToExpired hash drv s p) r.s ps)
  | [], _, _, _, _, _ => Iff.rfl
  | p :: ps, r, now, h, hps, hmono => by
    obtain ⟨hp, hle⟩ := hps p List.mem_cons_self
    rw [List.pairwise_cons] at hmono
    exact and_congr (ages_packet_iff h hp hle) (always_ages_iff (h.handle hp hle)
      (fun q hq => ⟨(hps q (List.mem_cons_of_mem _ hq)).1, hmono.1 q hq⟩) hmono.2)

/-- **When bridge entries age out.** On every run from `nf_init` at times that do not decrease, for any hash:
every data frame of the run is sent to the device of its destination if that was learned or refreshed within the
expiration time, and flooded if not, exactly when no frame is for an address whose index has expired and is still
bound, on a device other than flooding would use. -/
theorem ages_iff (hash : EtherAddr → UInt32) (drv : Tinynf) (items : ConfigItems) {s : State} {expirationTime : ℕ}
    (hinit : nfInit items drv.devicesCount = some s)
    (hexp : osConfigGetTime items "expiration time" = some expirationTime)
    (ps : List NetPacket) (hps : ∀ p ∈ ps, Received drv p) (hmono : ps.Pairwise fun p q => p.time ≤ q.time) :
    TimedRun.Always hash drv (Ages hash drv expirationTime) ⟨⟨s, fun _ => none⟩, fun _ => none⟩ ps ↔
      Always hash drv (fun s p => Data s p → ¬ ToExpired hash drv s p) s ps := by
  obtain ⟨c, -, hinv, hempty⟩ := nfInit_inv hash hinit
  have hrun : TimedRun.Inv hash drv c expirationTime 0 ⟨⟨s, fun _ => none⟩, fun _ => none⟩ := by
    refine ⟨⟨hinv, fun i ts hi => ?_⟩, nfInit_expirationTime hinit hexp, fun i ts hi => ?_, fun a ts ha => by cases ha⟩
    all_goals
      rw [hempty] at hi
      cases hi
  exact always_ages_iff hrun (fun p hp => ⟨hps p hp, Nat.zero_le _⟩) hmono

/-- The theorem in a run with entries that expire: the frame at time 8 is sent to the device its station was learned
on, and the one at time 200 takes the index of its destination, so that it is flooded. -/
theorem ages_iff_expired : ∃ s, nfInit demoItems threeDevices.devicesCount = some s ∧
    TimedRun.Always (fun _ => 0) threeDevices (Ages (fun _ => 0) threeDevices 100) ⟨⟨s, fun _ => none⟩, fun _ => none⟩
      [⟨demoFrame (demoAddr 1) (demoAddr 2), 60, 7, 1⟩, ⟨demoFrame (demoAddr 2) (demoAddr 1), 60, 8, 0⟩,
        ⟨demoFrame (demoAddr 3) (demoAddr 2), 60, 200, 2⟩] := by
  refine ⟨_, rfl, (ages_iff (fun _ => 0) threeDevices demoItems rfl rfl _ (by decide) (by decide)).mpr ?_⟩
  refine Always.mono (P := fun s p => ¬ ∃ i, i ∈ s.table.find (fun _ => 0) (etherDstAddr p.data 0) ∧
    indexPoolUsed s.table.pool p.time i = false ∧ ¬ LearnsAt (fun _ => 0) s p i) (fun s p hnot hd hexp => ?_)
    (by decide)
  obtain ⟨i, hfind, hold, hnat, -⟩ := hexp
  exact hnot ⟨i, hfind, hold, hnat⟩

/-- A station is learned on device 1 at time 7 and another on device 0; at time 200, when both entries have expired,
a frame of the other for the first is sent to device 1 only. -/
theorem not_ages : ∃ s, nfInit demoItems threeDevices.devicesCount = some s ∧
    ¬ TimedRun.Always (fun _ => 0) threeDevices (Ages (fun _ => 0) threeDevices 100)
      ⟨⟨s, fun _ => none⟩, fun _ => none⟩
      [⟨demoFrame (demoAddr 1) (demoAddr 2), 60, 7, 1⟩, ⟨demoFrame (demoAddr 2) (demoAddr 1), 60, 8, 0⟩,
        ⟨demoFrame (demoAddr 2) (demoAddr 1), 60, 200, 0⟩] := by
  refine ⟨_, rfl, fun h => ?_⟩
  have hsent := (h.2.2.1 (by decide)).2 2 (by decide)
  revert hsent
  decide

end Bridge
end Klint
