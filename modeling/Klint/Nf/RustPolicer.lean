/-
# The policer in Rust

`nf/rust-policer`, the second implementation of the policer, over the same map and
index pool. Its integers are `u64` that wrap, as in a release build.

`policers_same_iff`: the two have the same results, send the same packets and reach
the same contents, except that this one does not accept a table of no flows.
-/
import Klint.Nf.Policer

namespace Klint
namespace RustPolicer

/-- `PolicerBucket`. -/
structure Bucket where
  size : UInt64
  time : UInt64
  deriving DecidableEq, Repr, Inhabited

/-- The static variables; `addresses` is `ADDRESSES`, `MAP` and `POOL`. -/
structure State where
  wanDevice : UInt16
  rate : UInt64
  burst : UInt64
  maxFlows : UInt64
  buckets : List Bucket
  addresses : KeyedPool UInt32

def readWanDevice (items : ConfigItems) (devicesCount : UInt16) : Option UInt16 :=
  match osConfigTryGet items "wan device" with
  | none => none
  | some device => if device ≥ devicesCount.toUInt64 then none else some device.toUInt16

/-- A parameter that must not be 0. -/
def readNonzero (items : ConfigItems) (name : String) : Option UInt64 :=
  match osConfigTryGet items name with
  | none => none
  | some value => if value = 0 then none else some value

def readMaxFlows (items : ConfigItems) : Option UInt64 :=
  match osConfigTryGet items "max flows" with
  | none => none
  | some maxFlows => if maxFlows = 0 ∨ maxFlows > UInt64.ofNat sizeMax / 64 then none else some maxFlows

def nfInit (items : ConfigItems) (devicesCount : UInt16) : Option State :=
  if devicesCount ≠ 2 then none else do
    let wanDevice ← readWanDevice items devicesCount
    let rate ← readNonzero items "rate"
    let burst ← readNonzero items "burst"
    let maxFlows ← readMaxFlows items
    let addresses ← keyedPoolAlloc UInt32 4 maxFlows.toNat (1000000000 * burst / rate).toNat
    return { wanDevice := wanDevice, rate := rate, burst := burst, maxFlows := maxFlows,
             buckets := List.replicate maxFlows.toNat default, addresses := addresses }

/-- `u16::from_be` on a little-endian machine: the bytes in reverse. -/
def fromBe (word : UInt16) : UInt16 := UInt16.ofNat (word.toNat % 256 * 256 + word.toNat / 256)

def netGetEtherHeader (_packet : NetPacket) : Option ℕ := some 0

def netGetIpv4Header (data : ℕ → UInt8) (ether : ℕ) : Option ℕ :=
  if fromBe (load16 data (ether + 12)) = 0x0800 then some (ether + 14) else none

def State.bucket (s : State) (index : ℕ) : Bucket := s.buckets.getD index default

def State.setBucket (s : State) (index : ℕ) (bucket : Bucket) : State :=
  { s with buckets := s.buckets.set index bucket }

/-- The bucket with the tokens of the time since, or as full as it gets. -/
def gain (rate burst : UInt64) (bucket : Bucket) (timeDiff : UInt64) : Bucket :=
  if timeDiff < burst / rate then
    let size := bucket.size + timeDiff * rate
    { bucket with size := if size > burst then burst else size }
  else { bucket with size := burst }

variable (hash : UInt32 → UInt32)

/-- `net_transmit(packet, 1 - (*packet).device, 0)`. -/
def transmit (packet : NetPacket) : NetTransmit where
  data := packet.data
  length := packet.length
  device := 1 - packet.device
  flags := .none

/-- The policing of a packet to an address: the state after it, and whether the
packet goes on. -/
def police (s : State) (packet : NetPacket) (address : UInt32) : State × Bool :=
  let time := UInt64.ofNat packet.time
  let length := UInt64.ofNat packet.length
  match s.addresses.find hash address with
  | some index =>
    let timeDiff := time - (s.bucket index).time
    let bucket := { gain s.rate s.burst (s.bucket index) timeDiff with time := time }
    let s := { s with addresses := s.addresses.refresh packet.time index }
    if bucket.size > length then (s.setBucket index { bucket with size := bucket.size - length }, true)
    else (s.setBucket index bucket, false)  -- Packet too big
  | none =>
    if length > s.burst then (s, false)  -- Unknown flow, length greater than burst
    else
      match s.addresses.insert hash packet.time address with
      | (some index, addresses) =>
        ({ s with addresses := addresses }.setBucket index { size := s.burst - length, time := time }, true)
      | (none, addresses) => ({ s with addresses := addresses }, false)  -- No more space

def nfHandle (s : State) (packet : NetPacket) : State × Option NetTransmit :=
  match (do let ether ← netGetEtherHeader packet; netGetIpv4Header packet.data ether) with
  | none => (s, none)  -- Not IPv4 over Ethernet
  | some ipv4 =>
    if packet.device = s.wanDevice then
      match police hash s packet (load32 packet.data (ipv4 + 16)) with
      | (s, false) => (s, none)
      | (s, true) => (s, some (transmit packet))
    else (s, some (transmit packet))  -- No policing for outgoing packets

/-! ### What the two have in common -/

/-- The state and the packets sent, after a run. -/
def run {σ : Type} (handle : σ → NetPacket → σ × Option NetTransmit) : σ → List NetPacket →
    σ × List (Option NetTransmit)
  | s, [] => (s, [])
  | s, p :: ps => ((run handle (handle s p).1 ps).1, (handle s p).2 :: (run handle (handle s p).1 ps).2)

/-- The length and the time of a packet are of 64 bits. -/
structure Fits64 (p : NetPacket) : Prop where
  length : p.length < 2 ^ 64
  time : p.time < 2 ^ 64

def Bucket.toC (b : Bucket) : Policer.Bucket := ⟨b.size.toNat, b.time.toNat⟩

/-- The variables of the C policer with the same contents. -/
def State.toC (s : State) : Policer.State where
  wanDevice := s.wanDevice
  rate := s.rate.toNat
  burst := s.burst.toNat
  buckets := s.buckets.map Bucket.toC
  addresses := s.addresses

/-- What is claimed: both accept the configuration or neither does, and if they do, then every run sends the same
packets and ends with the same contents. -/
def Same (items : ConfigItems) (devicesCount : UInt16) : Prop :=
  (Policer.nfInit items devicesCount).isSome = (nfInit items devicesCount).isSome ∧
    ∀ c r, Policer.nfInit items devicesCount = some c → nfInit items devicesCount = some r →
      ∀ ps, (∀ p ∈ ps, Fits64 p) →
        (run (Policer.nfHandle hash) c ps).2 = (run (nfHandle hash) r ps).2 ∧
        (run (Policer.nfHandle hash) c ps).1 = (run (nfHandle hash) r ps).1.toC

/-! ### Handling a packet -/

variable {hash} {s : State}

theorem fromBe_eq (word : UInt16) : fromBe word = 0x0800 ↔ word = 0x0008 := by
  have hlt := word.toNat_lt
  have hlow := Nat.mod_lt word.toNat (by decide : 0 < 256)
  have hhigh : word.toNat / 256 < 256 := by omega
  have hword := Nat.div_add_mod word.toNat 256
  have hswap : (fromBe word).toNat = word.toNat % 256 * 256 + word.toNat / 256 := by
    rw [fromBe, UInt16.toNat_ofNat']
    exact Nat.mod_eq_of_lt (by omega)
  rw [← UInt16.toNat_inj, ← UInt16.toNat_inj, hswap]
  change _ = 2048 ↔ _ = 8
  omega

theorem ipv4Header_eq (packet : NetPacket) :
    (do let ether ← netGetEtherHeader packet; netGetIpv4Header packet.data ether) = Policer.ipv4Header packet :=
  if_congr (fromBe_eq _) rfl rfl

theorem bucket_toC (s : State) (index : ℕ) : s.toC.bucket index = (s.bucket index).toC := by
  unfold Policer.State.bucket State.bucket State.toC
  simp only [List.getD_eq_getElem?_getD, List.getElem?_map]
  cases s.buckets[index]? <;> rfl

theorem setBucket_toC (s : State) (index : ℕ) (b : Bucket) :
    (s.setBucket index b).toC = { s.toC with buckets := s.toC.buckets.set index b.toC } := by
  unfold State.setBucket State.toC
  rw [List.map_set]

theorem gain_toC (rate burst : UInt64) (b : Bucket) (timeDiff : UInt64) :
    (gain rate burst b timeDiff).size.toNat =
      Policer.refill rate.toNat burst.toNat b.size.toNat timeDiff.toNat := by
  unfold gain Policer.refill
  simp only [UInt64.lt_iff_toNat_lt, UInt64.toNat_div, gt_iff_lt]
  split_ifs with hdiff hsize hsize' hsize'
  · rfl
  · exact absurd hsize (by simpa [UInt64.toNat_add, UInt64.toNat_mul] using hsize')
  · exact absurd hsize' (by simpa [UInt64.toNat_add, UInt64.toNat_mul] using hsize)
  · simp [UInt64.toNat_add, UInt64.toNat_mul]
  · rfl

/-- The size of the bucket of a flow when a packet comes. -/
theorem refill_toC (s : State) {p : NetPacket} (hp : Fits64 p) (index : ℕ) :
    Policer.refill s.toC.rate s.toC.burst (s.toC.bucket index).size (sub64 p.time (s.toC.bucket index).time) =
      (gain s.rate s.burst (s.bucket index) (UInt64.ofNat p.time - (s.bucket index).time)).size.toNat := by
  have hdiff : (UInt64.ofNat p.time - (s.bucket index).time).toNat = sub64 p.time (s.bucket index).time.toNat := by
    have hlt := (s.bucket index).time.toNat_lt
    rw [UInt64.toNat_sub, UInt64.toNat_ofNat_of_lt' hp.time, sub64]
    omega
  rw [gain_toC, hdiff, bucket_toC]
  rfl

/-- A bucket that loses the length of a packet. -/
theorem spend_toC {size : UInt64} {p : NetPacket} (hp : Fits64 p) (h : p.length ≤ size.toNat) :
    Bucket.toC ⟨size - UInt64.ofNat p.length, UInt64.ofNat p.time⟩ = ⟨size.toNat - p.length, p.time⟩ := by
  have hlength : (UInt64.ofNat p.length).toNat = p.length := UInt64.toNat_ofNat_of_lt' hp.length
  rw [Bucket.toC, UInt64.toNat_sub_of_le _ _ (UInt64.le_iff_toNat_le.mpr (hlength.symm ▸ h)), hlength,
    UInt64.toNat_ofNat_of_lt' hp.time]

theorem police_toC (s : State) {p : NetPacket} (hp : Fits64 p) (address : UInt32) :
    Policer.police hash s.toC p.time p.length address =
      ((police hash s p address).1.toC, (police hash s p address).2) := by
  have htime : (UInt64.ofNat p.time).toNat = p.time := UInt64.toNat_ofNat_of_lt' hp.time
  have hlength : (UInt64.ofNat p.length).toNat = p.length := UInt64.toNat_ofNat_of_lt' hp.length
  have haddresses : s.toC.addresses = s.addresses := rfl
  unfold Policer.police police
  rw [haddresses]
  cases hf : s.addresses.find hash address with
  | some index =>
    simp only [refill_toC s hp index, gt_iff_lt, UInt64.lt_iff_toNat_lt, hlength]
    set size := (gain s.rate s.burst (s.bucket index) (UInt64.ofNat p.time - (s.bucket index).time)).size
    by_cases hlt : p.length < size.toNat
    · rw [if_pos hlt, if_pos hlt, setBucket_toC, spend_toC hp hlt.le]
      rfl
    · rw [if_neg hlt, if_neg hlt, setBucket_toC]
      simp only [Bucket.toC, htime]
      rfl
  | none =>
    simp only [gt_iff_lt, UInt64.lt_iff_toNat_lt, hlength]
    by_cases hlt : s.burst.toNat < p.length
    · rw [if_pos hlt, if_pos (show s.toC.burst < p.length from hlt)]
    · rw [if_neg hlt, if_neg (show ¬ s.toC.burst < p.length from hlt)]
      rcases s.addresses.insert hash p.time address with ⟨_ | index, addresses⟩
      · rfl
      · simp only [setBucket_toC, spend_toC hp (Nat.not_lt.mp hlt)]
        rfl

/-- One packet: the same packet is sent, and the contents stay the same. -/
theorem nfHandle_toC (s : State) {p : NetPacket} (hp : Fits64 p) :
    Policer.nfHandle hash s.toC p = ((nfHandle hash s p).1.toC, (nfHandle hash s p).2) := by
  unfold Policer.nfHandle nfHandle
  rw [ipv4Header_eq]
  cases Policer.ipv4Header p with
  | none => rfl
  | some ipv4 =>
    by_cases hd : p.device = s.wanDevice
    · simp only [if_pos hd, if_pos (show p.device = s.toC.wanDevice from hd), police_toC s hp,
        show dstAddr p.data ipv4 = load32 p.data (ipv4 + 16) from rfl]
      rcases police hash s p (load32 p.data (ipv4 + 16)) with ⟨s', _ | _⟩ <;> rfl
    · simp only [if_neg hd, if_neg (show ¬ p.device = s.toC.wanDevice from hd)]
      rfl

theorem run_toC : ∀ (ps : List NetPacket) (s : State), (∀ p ∈ ps, Fits64 p) →
    run (Policer.nfHandle hash) s.toC ps = ((run (nfHandle hash) s ps).1.toC, (run (nfHandle hash) s ps).2)
  | [], _, _ => rfl
  | p :: ps, s, hps => by
    have ih := run_toC ps (nfHandle hash s p).1 fun q hq => hps q (List.mem_cons_of_mem p hq)
    simp only [run, nfHandle_toC s (hps p List.mem_cons_self), ih]

/-! ### The configuration -/

theorem osConfigGet_zero (items : ConfigItems) (name : String) (max : UInt64) :
    osConfigGet items name 0 max = (osConfigTryGet items name).bind fun v => if v ≤ max then some v else none := by
  unfold osConfigGet
  cases osConfigTryGet items name <;> simp

theorem readWanDevice_eq (items : ConfigItems) :
    osConfigGetDevice items "wan device" 2 = readWanDevice items 2 := by
  unfold osConfigGetDevice readWanDevice
  rw [osConfigGet_zero]
  cases osConfigTryGet items "wan device" with
  | none => rfl
  | some device =>
    have hiff : device ≤ UInt64.ofNat ((2 : UInt16).toNat - 1) ↔ ¬ device ≥ (2 : UInt16).toUInt64 := by
      rw [ge_iff_le, UInt64.le_iff_toNat_le, UInt64.le_iff_toNat_le]
      change device.toNat ≤ 1 ↔ ¬ 2 ≤ device.toNat
      omega
    simp only [Option.bind_some, hiff]
    split_ifs <;> rfl

theorem osConfigGetU64_eq (items : ConfigItems) (name : String) :
    osConfigGetU64 items name = osConfigTryGet items name := by
  unfold osConfigGetU64
  rw [osConfigGet_zero]
  cases osConfigTryGet items name with
  | none => rfl
  | some v =>
    have hlt := v.toNat_lt
    refine if_pos (UInt64.le_iff_toNat_le.mpr ?_)
    rw [UInt64.toNat_ofNat']
    omega

theorem readMaxFlows_eq (items : ConfigItems) (h : osConfigTryGet items "max flows" ≠ some 0) :
    osConfigGetSize items "max flows" = (readMaxFlows items).map UInt64.toNat := by
  unfold osConfigGetSize readMaxFlows
  rw [osConfigGet_zero]
  cases hm : osConfigTryGet items "max flows" with
  | none => rfl
  | some maxFlows =>
    have hzero : maxFlows ≠ 0 := fun hc => h (hc ▸ hm)
    have hiff : maxFlows ≤ UInt64.ofNat (sizeMax / 64) ↔ ¬ maxFlows > UInt64.ofNat sizeMax / 64 := by
      rw [gt_iff_lt, UInt64.le_iff_toNat_le, UInt64.lt_iff_toNat_lt]
      change maxFlows.toNat ≤ (2 ^ 64 - 1) / 64 ↔ ¬ (2 ^ 64 - 1) / 64 < maxFlows.toNat
      omega
    simp only [Option.bind_some, hiff, hzero, false_or]
    split_ifs <;> rfl

theorem expiration_eq (rate burst : UInt64) :
    (1000000000 * burst / rate).toNat = Policer.expiration rate.toNat burst.toNat := by
  rw [UInt64.toNat_div, UInt64.toNat_mul]
  rfl

/-- With a table for some flows, the two initializations are the same. -/
theorem nfInit_toC (items : ConfigItems) (devicesCount : UInt16) (h : osConfigTryGet items "max flows" ≠ some 0) :
    Policer.nfInit items devicesCount = (nfInit items devicesCount).map State.toC := by
  unfold Policer.nfInit nfInit
  split_ifs with hd
  · rfl
  · obtain rfl := not_not.mp hd
    simp only [readWanDevice_eq, osConfigGetU64_eq, readMaxFlows_eq items h, readNonzero, Option.bind_eq_bind]
    cases readWanDevice items 2 with
    | none => rfl
    | some wanDevice =>
      cases osConfigTryGet items "rate" with
      | none => rfl
      | some rate =>
        cases osConfigTryGet items "burst" with
        | none => by_cases hr : rate = 0 <;> simp [hr]
        | some burst =>
          cases readMaxFlows items with
          | none => by_cases hr : rate = 0 <;> by_cases hb : burst = 0 <;> simp [hr, hb]
          | some maxFlows =>
            by_cases hr : rate = 0
            · simp [hr]
            · by_cases hb : burst = 0
              · simp [hr, hb]
              · simp only [Option.bind_some, Option.map_some, hr, hb, or_self, ↓reduceIte, expiration_eq]
                cases keyedPoolAlloc UInt32 4 maxFlows.toNat (Policer.expiration rate.toNat burst.toNat) with
                | none => rfl
                | some addresses =>
                  simp only [Option.bind_some, Option.pure_def, Option.map_some, State.toC, List.map_replicate]
                  rfl

/-- A table of no flows, and nothing else that is wrong. -/
structure NoFlows (items : ConfigItems) (devicesCount : UInt16) : Prop where
  devicesCount : devicesCount = 2
  wanDevice : ∃ v, osConfigTryGet items "wan device" = some v ∧ v < 2
  rate : ∃ v, osConfigTryGet items "rate" = some v ∧ v ≠ 0
  burst : ∃ v, osConfigTryGet items "burst" = some v ∧ v ≠ 0
  maxFlows : osConfigTryGet items "max flows" = some 0

theorem readWanDevice_isSome (items : ConfigItems) :
    (readWanDevice items 2).isSome ↔ ∃ v, osConfigTryGet items "wan device" = some v ∧ v < 2 := by
  unfold readWanDevice
  cases osConfigTryGet items "wan device" with
  | none => simp
  | some device =>
    have hiff : device ≥ (2 : UInt16).toUInt64 ↔ ¬ device < 2 := by
      rw [ge_iff_le, UInt64.le_iff_toNat_le, UInt64.lt_iff_toNat_lt]
      change 2 ≤ device.toNat ↔ ¬ device.toNat < 2
      omega
    simp only [hiff]
    by_cases hlt : device < 2 <;> simp [hlt]

/-- The C policer accepts a table of no flows. -/
theorem nfInit_noFlows (items : ConfigItems) (devicesCount : UInt16) (h : osConfigTryGet items "max flows" = some 0) :
    (Policer.nfInit items devicesCount).isSome ↔ NoFlows items devicesCount := by
  have hsize : osConfigGetSize items "max flows" = some 0 := by
    rw [osConfigGetSize, osConfigGet_zero, h]
    rfl
  unfold Policer.nfInit
  split_ifs with hd
  · exact iff_of_false Bool.false_ne_true fun hn => hd hn.devicesCount
  · obtain rfl := not_not.mp hd
    simp only [readWanDevice_eq, osConfigGetU64_eq, hsize, Option.bind_eq_bind, Option.bind_some]
    constructor
    · intro hsome
      cases hw : readWanDevice items 2 with
      | none => rw [hw] at hsome; cases hsome
      | some wanDevice =>
        cases hrate : osConfigTryGet items "rate" with
        | none => rw [hw, hrate] at hsome; cases hsome
        | some rate =>
          cases hburst : osConfigTryGet items "burst" with
          | none => rw [hw, hrate, hburst] at hsome; cases hsome
          | some burst =>
            rw [hw, hrate, hburst] at hsome
            simp only [Option.bind_some] at hsome
            have hzero : ¬ (rate = 0 ∨ burst = 0) := fun hzero => by
              rw [if_pos hzero] at hsome
              cases hsome
            obtain ⟨hr, hb⟩ := not_or.mp hzero
            exact ⟨rfl, (readWanDevice_isSome items).mp (hw ▸ rfl), ⟨rate, hrate, hr⟩, ⟨burst, hburst, hb⟩, h⟩
    · rintro ⟨-, hw, ⟨rate, hrate, hr⟩, ⟨burst, hburst, hb⟩, -⟩
      obtain ⟨wanDevice, hw⟩ := Option.isSome_iff_exists.mp ((readWanDevice_isSome items).mpr hw)
      obtain ⟨t, ht, -⟩ := KeyedPool.keyedPoolAlloc_inv (K := UInt32) 4 (Policer.expiration rate.toNat burst.toNat)
        (show 0 * 64 ≤ sizeMax by decide)
      simp only [hw, hrate, hburst, hr, hb, Option.bind_some, or_self, ↓reduceIte, ht]
      rfl

/-- **The two policers are the same function** on every configuration and every run, except that the Rust one does
not accept a table of no flows. -/
theorem policers_same_iff (hash : UInt32 → UInt32) (items : ConfigItems) (devicesCount : UInt16) :
    Same hash items devicesCount ↔ ¬ NoFlows items devicesCount := by
  by_cases h : osConfigTryGet items "max flows" = some 0
  · have hnone : nfInit items devicesCount = none := by
      have hread : readMaxFlows items = none := by
        unfold readMaxFlows
        rw [h]
        rfl
      unfold nfInit
      split_ifs with hd
      · rfl
      · simp only [hread, Option.bind_eq_bind, Option.bind_none, Option.bind_eq_none_iff, implies_true]
    rw [← nfInit_noFlows items devicesCount h, Bool.not_eq_true]
    unfold Same
    rw [hnone]
    exact ⟨fun hsame => hsame.1, fun hc => ⟨hc, fun _ _ _ hr => by cases hr⟩⟩
  · refine iff_of_true ⟨?_, fun c r hc hr ps hps => ?_⟩ fun hn => h hn.maxFlows
    · rw [nfInit_toC items devicesCount h, Option.isSome_map]
    · rw [nfInit_toC items devicesCount h, hr, Option.map_some, Option.some.injEq] at hc
      subst hc
      rw [run_toC ps r hps]
      exact ⟨rfl, rfl⟩

/-- A table of no flows, with which the C policer starts and this one does not. -/
theorem policers_differ :
    ∃ items, (Policer.nfInit items 2).isSome ∧ nfInit items 2 = none ∧ ¬ Same (fun _ => 0) items 2 :=
  ⟨[("wan device", 1), ("rate", 100), ("burst", 1000), ("max flows", 0)], by decide, rfl,
    fun h => absurd h.1 (by decide)⟩

end RustPolicer
end Klint
